/-
# Decoders that perform an evaluation

`d.Performs s bytes run` compares a decoder with an evaluation: called in the state `s` on `bytes`,
`d` ends with the outcome of `run` and leaves the bytes that `run` leaves.  An evaluation that is not
finished says nothing.

Evaluations are put together by `Run.bind`, decoders by adapters, and the two go together:

  * a decoder around a guest goes on with the value of the guest, `Performs.hosted`;
  * so `d.andThen f` performs `run.bind g` if `d` performs `run` and each `f value` performs
    `g value`, and `d.map f` performs `run.map f`;
  * `b.repeated bound c` performs `bound.elements`, with the elements collected by `c`, if `b` performs
    the evaluation of an element and starts anew for each, `performs_elements`.

With these, whatever is built from adapters is evaluated part by part, and no step of a machine has
to be looked at.
-/
import Piecemeal.Proofs.Enactments
import Piecemeal.Proofs.Evaluation

namespace Piecemeal.Decoder

variable {α β γ : Type}

/-- From this state on the decoder ends on these bytes as the evaluation does, if that is finished. -/
def Performs (d : Decoder α) (state : d.State) (bytes : Bytes) (run : Run Unit Bytes α) : Prop :=
  run ≠ .exhausted → ∃ r, d.Ends state bytes r ∧ r.forget = run

section Performs

variable {d : Decoder α} {s t : d.State} {bytes : Bytes} {run : Run Unit Bytes α}

theorem performs_of_ends {r : Run d.State Bytes α} (h : d.Ends s bytes r) :
    d.Performs s bytes r.forget := fun _ => ⟨r, h, rfl⟩

theorem performs_of_done {value : α} {last : d.State} (h : d.step s = .done value last)
    (bytes : Bytes) : d.Performs s bytes (.answer value bytes) :=
  performs_of_ends ((ends_of_done h).2 rfl)

theorem performs_evaluate (d : Decoder α) (fuel : Nat) (bytes : Bytes) :
    d.Performs d.start bytes (d.evaluate fuel bytes) := by
  intro hfinite
  refine ⟨d.run fuel d.start bytes, ⟨?_, fuel, rfl⟩, rfl⟩
  intro hexhausted
  rw [evaluate, hexhausted] at hfinite
  exact hfinite rfl

theorem Performs.of_idles (h : d.Performs t bytes run) (hidles : d.Idles s t) :
    d.Performs s bytes run := by
  intro hfinite
  obtain ⟨r, hr, hrun⟩ := h hfinite
  exact ⟨r, hidles.ends_iff.2 hr, hrun⟩

/-- While its guest is at work a decoder does the same, and then what it does with the value. -/
theorem Ends.hosted {e : Decoder β} {wrap : d.State → e.State} (he : e.Hosts d wrap)
    {f : α → Bytes → Run Unit Bytes β} {r : Run d.State Bytes α} (h : d.Ends s bytes r)
    (hdone : ∀ value t last rest, d.step t = .done value last →
      e.Performs (wrap t) rest (f value rest)) : e.Performs (wrap s) bytes (r.forget.bind f) := by
  induction h using Ends.induct with
  | short state n resume bytes hreq hlt =>
      refine performs_of_ends (r := .reached .pending (wrap (resume bytes)) []) ?_
      rw [ends_of_request (he.request hreq), if_pos hlt]
  | request state n resume bytes r hreq hle _ ih =>
      intro hfinite
      obtain ⟨r', hr', hforget⟩ := ih hfinite
      refine ⟨r', ?_, hforget⟩
      rw [ends_of_request (he.request hreq), if_neg (Nat.not_lt.2 hle)]
      exact hr'
  | tick state next events bytes r hs _ ih => exact ih.of_idles (.single (he.tick hs))
  | done state value next bytes hs => exact hdone value state next bytes hs
  | fail state error next bytes hs =>
      obtain ⟨last, next', hidles, hfail⟩ := he.fail hs
      exact (performs_of_ends ((ends_of_fail hfail).2 rfl)).of_idles hidles
  | broken state misuse bytes hs =>
      exact performs_of_ends (r := .broken misuse) ((ends_of_broken (he.broken hs)).2 rfl)

theorem Performs.hosted {e : Decoder β} {wrap : d.State → e.State} (he : e.Hosts d wrap)
    {f : α → Bytes → Run Unit Bytes β} (h : d.Performs s bytes run)
    (hdone : ∀ value t last rest, d.step t = .done value last →
      e.Performs (wrap t) rest (f value rest)) : e.Performs (wrap s) bytes (run.bind f) := by
  intro hfinite
  obtain ⟨r, hr, rfl⟩ := h fun hexhausted => hfinite (by rw [hexhausted]; rfl)
  exact hr.hosted he hdone hfinite

/-- A decoder that answers with its guest performs what the guest does. -/
theorem Performs.host {e : Decoder α} {wrap : d.State → e.State} (he : e.Hosts d wrap)
    (h : d.Performs s bytes run)
    (hdone : ∀ value t last, d.step t = .done value last →
      ∃ last', e.step (wrap t) = .done value last') : e.Performs (wrap s) bytes run := by
  rw [← run.bind_answer]
  refine h.hosted he ?_
  intro value t last rest hs
  obtain ⟨last', hstep⟩ := hdone value t last hs
  exact performs_of_done hstep rest

theorem Performs.of_bisimulation {e : Decoder α} {P : e.State → d.State → Prop}
    (hbisim : Bisimulation e d P) {u : e.State} (hu : P u s) (h : d.Performs s bytes run) :
    e.Performs u bytes run := by
  intro hfinite
  obtain ⟨r, hr, hrun⟩ := h hfinite
  obtain ⟨r', hr', hagrees⟩ := hbisim.symm.ends hu hr
  refine ⟨r', hr', ?_⟩
  rw [← hrun]
  cases hagrees with
  | reached rest hnext => rfl
  | broken misuse => rfl

end Performs

/-! ## Adapters -/

theorem performs_constant (value : α) (bytes : Bytes) :
    (constant value).Performs (constant value).start bytes (.answer value bytes) :=
  performs_of_done rfl bytes

theorem performs_unmade (misuse : Misuse) (bytes : Bytes) :
    (unmade misuse : Decoder α).Performs (unmade misuse : Decoder α).start bytes
      (.broken misuse) :=
  performs_of_ends (r := .broken misuse) ((ends_of_broken rfl).2 rfl)

section Adapters

variable {d : Decoder α} {s : d.State} {bytes : Bytes} {run : Run Unit Bytes α}

theorem Performs.map (h : d.Performs s bytes run) (f : α → β) :
    (d.map f).Performs s bytes (run.map f) := by
  refine h.hosted (hosts_map f d) ?_
  intro value t last rest hs
  exact performs_of_done (step_map f hs) rest

theorem Performs.andThen {f : α → Decoder β} {g : α → Bytes → Run Unit Bytes β}
    (h : d.Performs s bytes run)
    (hf : ∀ value rest, (f value).Performs (f value).start rest (g value rest)) :
    (d.andThen f).Performs ⟨s, none⟩ bytes (run.bind g) := by
  refine h.hosted (hosts_first d f) ?_
  intro value t last rest hs
  refine Performs.of_idles ?_ (.single (step_first f hs))
  refine (hf value rest).host (hosts_second d f last value) ?_
  exact fun result second _ hsecond => ⟨_, step_second last hsecond⟩

theorem Performs.afresh (h : d.Performs d.start bytes run) :
    d.afresh.Performs d.afresh.start bytes run := by
  refine Performs.of_idles ?_ (idles_within d)
  exact h.host (hosts_within d) fun value t last hs => ⟨_, step_within hs⟩

end Adapters

/-! ## Leaves -/

theorem evaluate_skipBytes (n : Nat) (bytes : Bytes) :
    (skipBytes n).evaluate 2 bytes =
      if bytes.length < n then .reached .pending () [] else .answer () (bytes.drop n) := by
  by_cases h : n = 0
  · subst h
    rfl
  · have hrun := run_succ_of_request (request?_skipBytes (n := n) h) 1 bytes
    show ((skipBytes n).run 2 n bytes).forget = _
    rw [hrun]
    by_cases hlt : bytes.length < n
    · rw [if_pos hlt, if_pos hlt]
      rfl
    · have hzero : n - (bytes.take n).length = 0 := by rw [List.length_take]; omega
      rw [if_neg hlt, if_neg hlt, hzero]
      rfl

theorem performs_skipBytes (n : Nat) (bytes : Bytes) :
    (skipBytes n).Performs (skipBytes n).start bytes
      (if bytes.length < n then .reached .pending () [] else .answer () (bytes.drop n)) := by
  rw [← evaluate_skipBytes]
  exact performs_evaluate _ 2 bytes

/-! ## Repetitions -/

section Repetitions

variable {bound : Bound β} {c : Collector β γ} {b : Decoder β} {body : Bytes → Run Unit Bytes β}

theorem performs_target (bound : Bound β) (fuel : Nat) (bytes : Bytes) :
    bound.target.Performs bound.target.start bytes (bound.evaluate fuel bytes) := by
  cases bound with
  | times n => exact performs_constant (some n) bytes
  | prefixed size => exact (performs_evaluate size fuel bytes).map some
  | whileHolds predicate addLast => exact performs_constant none bytes

/-- With so many elements collected, the missing ones are collected as they are evaluated. -/
theorem performs_elements (hrenews : ∀ t value last, b.step t = .done value last → last = b.start)
    (hbody : ∀ bytes, b.Performs b.start bytes (body bytes)) (target : bound.target.State)
    (fuel : Nat) {tally : Tally c.Container}
    (hproduced : ∀ n, tally.target = some n → tally.produced ≤ n) (bytes : Bytes) :
    (b.repeated bound c).Performs ⟨target, b.start, some tally⟩ bytes
      ((bound.elements body fuel tally.missing bytes).map fun elements =>
        (elements.foldl (Tally.add c) tally).finish c) := by
  -- one round for each element, with one more in the tally
  induction fuel generalizing tally bytes with
  | zero => exact fun hfinite => absurd rfl hfinite
  | succ fuel ih =>
      rw [Bound.elements]
      cases hfull : tally.isFull with
      | true =>
          rw [if_pos (Tally.missing_of_isFull hfull)]
          exact performs_of_done (step_full target b.start hfull) bytes
      | false =>
          have hroom := Tally.produced_lt hproduced hfull
          rw [if_neg (Tally.missing_ne_zero hroom), Run.bind_map]
          refine (hbody bytes).hosted (hosts_element b bound c target hfull) ?_
          intro value t last rest hs
          have hstep := step_element (c := c) target hfull hs
          rw [hrenews t value last hs] at hstep
          cases hends : bound.endsAt value with
          | true =>
              rw [hends, if_pos rfl] at hstep
              rw [if_pos rfl]
              have hdone := performs_of_done hstep rest
              cases hkeeps : bound.keepsLast with
              | true => rw [hkeeps] at hdone; exact hdone
              | false => rw [hkeeps] at hdone; exact hdone
          | false =>
              rw [hends, if_neg Bool.false_ne_true] at hstep
              rw [if_neg Bool.false_ne_true, ← Tally.missing_add c tally value, Run.map_map]
              exact (ih hroom rest).of_idles (.single hstep)

theorem performs_repeated (bound : Bound β) (c : Collector β γ)
    (hrenews : ∀ t value last, b.step t = .done value last → last = b.start)
    (hbody : ∀ bytes, b.Performs b.start bytes (body bytes)) (fuel : Nat) (bytes : Bytes) :
    (b.repeated bound c).Performs (b.repeated bound c).start bytes
      ((bound.evaluate fuel bytes).bind fun target rest =>
        (bound.elements body fuel target rest).map (c.collect target)) := by
  refine (performs_target bound fuel bytes).hosted (hosts_target b bound c b.start) ?_
  intro n t last rest hs
  refine Performs.of_idles ?_ (.single (step_target c b.start hs))
  have hproduced : ∀ m, (Tally.start c n).target = some m → (Tally.start c n).produced ≤ m :=
    fun m _ => Nat.zero_le m
  have helements := performs_elements hrenews hbody last fuel hproduced rest
  simp only [Tally.missing_start, Tally.finish_foldl_start] at helements
  exact helements

end Repetitions

end Piecemeal.Decoder
