/-
# What a fresh decoder answers

A format is described by what a new decoder of it answers to a byte string, and with which bytes
left, `Decoder.Answers`.  For the program of a recipe that is a matter of evaluating the recipe
with enough steps: `Machine.answers_iff` says, if the evaluation is finished,

    p.decoder.Answers bytes outcome rest ↔
      root.value p.maxDepth fuel 0 bytes = .reached outcome () rest

Evaluations are put together by `Run.bind`, so a description of a format is proved by computing
with the evaluations of its parts, and no machine is run.  What is missing for that is here.

  * What goes on and answers has answered before, and what goes on is finished if both parts are:
    `exists_of_bind_eq_answer` and `bind_ne_exhausted`.
  * The evaluations of the decoders that recipes use: numbers, truth values, byte strings of at
    most a block.
  * Adapters: the run of a decoder around another is the run of the inner one, and then what the
    outer one makes of its value, `forget_run_embed_bind`.  A run with `fuel + more` steps is
    enough, if the inner one is finished in `fuel` steps and what follows in `more`.
-/
import Piecemeal.Proofs.Refinement
import Piecemeal.Proofs.Resumption

namespace Piecemeal

/-! ## Evaluations that go on -/

namespace Run

variable {α β γ : Type}

@[simp] theorem answer_bind (value : α) (bytes : Bytes) (f : α → Bytes → Run Unit Bytes β) :
    (answer value bytes).bind f = f value bytes := rfl

@[simp] theorem answer_map (value : α) (bytes : Bytes) (f : α → β) :
    (answer value bytes).map f = answer (f value) bytes := rfl

theorem answer_inj {value value' : α} {bytes bytes' : Bytes} :
    answer value bytes = answer value' bytes' ↔ value = value' ∧ bytes = bytes' := by
  simp [answer]

theorem map_bind (run : Run Unit Bytes α) (f : α → β) (g : β → Bytes → Run Unit Bytes γ) :
    (run.map f).bind g = run.bind fun value rest => g (f value) rest := by
  rw [map, bind_assoc]
  rfl

/-- What goes on and answers has answered before. -/
theorem exists_of_bind_eq_answer {run : Run Unit Bytes α} {f : α → Bytes → Run Unit Bytes β}
    {value : β} {bytes : Bytes} (h : run.bind f = answer value bytes) :
    ∃ first rest, run = answer first rest ∧ f first rest = answer value bytes := by
  match run, h with
  | .reached (.done first) _ rest, h => exact ⟨first, rest, rfl, h⟩

theorem bind_ne_exhausted {run : Run Unit Bytes α} {f : α → Bytes → Run Unit Bytes β}
    (hrun : run ≠ .exhausted) (hf : ∀ value rest, f value rest ≠ .exhausted) :
    run.bind f ≠ .exhausted := by
  match run, hrun with
  | .reached (.done value) _ rest, _ => exact hf value rest
  | .reached .pending _ rest, _ => exact reached_ne_exhausted
  | .reached (.failed error) _ rest, _ => exact reached_ne_exhausted
  | .broken misuse, _ => exact broken_ne_exhausted
  | .exhausted, hrun => exact absurd rfl hrun

end Run

/-! ## Answers -/

/-- Made afresh, the decoder answers these bytes so and leaves the rest of them. -/
def Decoder.Answers {α : Type} (d : Decoder α) (bytes : Bytes) (outcome : Outcome α)
    (rest : Bytes) : Prop :=
  ∃ last, d.Ends d.start bytes (.reached outcome last rest)

theorem Decoder.Answers.unique {α : Type} {d : Decoder α} {bytes rest rest' : Bytes}
    {outcome outcome' : Outcome α} (h : d.Answers bytes outcome rest)
    (h' : d.Answers bytes outcome' rest') : outcome = outcome' ∧ rest = rest' := by
  obtain ⟨last, hlast⟩ := h
  obtain ⟨last', hlast'⟩ := h'
  cases hlast.unique hlast'
  exact ⟨rfl, rfl⟩

theorem Machine.answers_iff {κ : Type} [Atom κ] {whole : ValueType κ} {p : Program κ whole}
    {root : Recipe κ whole} (hp : p.OfRecipe root) {fuel : Nat} {bytes : Bytes}
    (hfinite : root.value p.maxDepth fuel 0 bytes ≠ .exhausted)
    {outcome : Outcome whole.Carrier} {rest : Bytes} :
    p.decoder.Answers bytes outcome rest ↔
      root.value p.maxDepth fuel 0 bytes = .reached outcome () rest := by
  obtain ⟨run, hends, hforget⟩ := hp.performs fuel bytes hfinite
  rw [← hforget]
  constructor
  · rintro ⟨last, hlast⟩
    rw [hends.unique hlast]
    rfl
  · intro hrun
    match run, hrun with
    | .reached _ last _, rfl => exact ⟨last, hends⟩

/-! ## Leaves -/

namespace Decoder

variable {α : Type} {d : Decoder α} {state next : d.State}

theorem evaluate_number [FixedWidth α] (order : ByteOrder) (hwidth : 0 < FixedWidth.width α)
    (fuel : Nat) (bytes : Bytes) :
    (number α order).evaluate (fuel + 2) bytes =
      if bytes.length < FixedWidth.width α then .reached .pending () []
      else .answer (FixedWidth.ofBytes order (bytes.take (FixedWidth.width α)))
        (bytes.drop (FixedWidth.width α)) := by
  have hrequest : ((number α order).step ([] : Bytes)).request? =
      some (FixedWidth.width α, fun bytes => bytes) := request?_number hwidth
  rw [evaluate, show (number α order).start = ([] : Bytes) from rfl, run_succ_of_request hrequest]
  split
  next => rfl
  next hlen =>
    have hfull : ¬(bytes.take (FixedWidth.width α)).length < FixedWidth.width α := by
      rw [List.length_take]
      omega
    have hstep : (number α order).step (bytes.take (FixedWidth.width α)) =
        .done (FixedWidth.ofBytes order (bytes.take (FixedWidth.width α))) ([] : Bytes) := by
      simp only [number, if_neg hfull]
    rw [run_succ_of_done hstep]
    rfl

theorem evaluate_byte (fuel : Nat) (b : UInt8) (bytes : Bytes) :
    (number UInt8 .big).evaluate (fuel + 2) (b :: bytes) = .answer b bytes := by
  rw [evaluate_number _ Nat.one_pos, if_neg (by simp [FixedWidth.width])]
  simp [FixedWidth.width, FixedWidth.ofBytes, ByteOrder.toNat, Bytes.toNat]

theorem evaluate_bool (fuel : Nat) (b : UInt8) (bytes : Bytes) :
    bool.evaluate (fuel + 2) (b :: bytes) =
      if b = 0 then .answer false bytes else if b = 1 then .answer true bytes
      else .reached (.failed (.validation ("invalid boolean byte 0x" ++ Hex.render [b]))) ()
        bytes := by
  show (bool.run (fuel + 1) (some b) bytes).forget = _
  split
  next hzero => subst hzero; rfl
  next hzero =>
    split
    next hone => subst hone; rfl
    next hone =>
      have hstep : bool.step (some b) =
          .fail (.validation ("invalid boolean byte 0x" ++ Hex.render [b])) none := by
        simp only [bool]
      rw [run_succ_of_fail hstep]
      rfl

theorem evaluate_bytes {n : Nat} (hblock : n ≤ fillBlock) (fuel : Nat) (bs : Bytes) :
    (bytes n).evaluate (fuel + 2) bs =
      if bs.length < n then .reached .pending () [] else .answer (bs.take n) (bs.drop n) := by
  have hdone : ∀ received : Array UInt8, ¬received.size < n →
      (bytes n).step received = .done received.toList (#[] : Array UInt8) := by
    intro received h
    simp only [bytes, if_neg h]
  rw [evaluate, show (bytes n).start = (#[] : Array UInt8) from rfl]
  by_cases hzero : n = 0
  · subst hzero
    rw [run_succ_of_done (hdone #[] (Nat.lt_irrefl 0)), if_neg (Nat.not_lt_zero _)]
    rfl
  · have hrequest := @request?_bytes n #[] (Nat.pos_of_ne_zero hzero)
    rw [Array.size_empty, Nat.sub_zero, Nat.min_eq_left hblock] at hrequest
    rw [run_succ_of_request hrequest]
    split
    next => rfl
    next hlen =>
      have hsize := size_append_take #[] (Nat.not_lt.1 hlen)
      rw [run_succ_of_done (hdone _ (by rw [hsize, Array.size_empty]; omega))]
      simp [Run.forget, Run.answer]

/-! ## Adapters -/

variable {β : Type}

theorem forget_run_embed (outer : Decoder β) (inner : Decoder α)
    (wrap spoiled : inner.State → outer.State) (f : α → β) (next : inner.State → outer.State)
    (hstep : ∀ state, outer.step (wrap state) = (inner.step state).embed wrap spoiled
      fun value state => .done (f value) (next state)) (fuel : Nat) (state : inner.State)
    (bytes : Bytes) :
    (outer.run fuel (wrap state) bytes).forget = (inner.run fuel state bytes).forget.map f := by
  induction fuel generalizing state bytes with
  | zero => rfl
  | succ fuel ih =>
      cases hs : inner.step state using Step.casesRequest with
      | request step n resume hr =>
          subst hs
          have hreq : (outer.step (wrap state)).request? =
              some (n, fun bytes => wrap (resume bytes)) := by
            rw [hstep, Step.embed_eq_graft]
            exact Step.request?_graft hr ..
          rw [run_succ_of_request hreq, run_succ_of_request hr]
          by_cases hlt : bytes.length < n
          · rw [if_pos hlt, if_pos hlt]; rfl
          · rw [if_neg hlt, if_neg hlt]; exact ih _ _
      | tick next' events => rw [Decoder.run, Decoder.run, hstep, hs]; exact ih _ _
      | done value next' => rw [Decoder.run, Decoder.run, hstep, hs]; rfl
      | fail error next' => rw [Decoder.run, Decoder.run, hstep, hs]; rfl
      | broken misuse => rw [Decoder.run, Decoder.run, hstep, hs]; rfl

/-- The run of a machine around another is the run of the inner one, and then what the machine
around makes of its value, if there are steps enough for both. -/
theorem forget_run_embed_bind (outer : Decoder β) (inner : Decoder α)
    (wrap spoiled : inner.State → outer.State) (finished : α → inner.State → Step outer.State β)
    (hstep : ∀ state, outer.step (wrap state) = (inner.step state).embed wrap spoiled finished)
    {g : α → Bytes → Run Unit Bytes β} {more : Nat} {fuel : Nat} {state : inner.State}
    {bytes : Bytes} (hinner : (inner.run fuel state bytes).forget ≠ .exhausted)
    (hfinished : ∀ value next last rest, (inner.run fuel state bytes).forget = .answer value rest →
      outer.step last = finished value next → ∀ steps, more ≤ steps →
      (outer.run (steps + 1) last rest).forget = g value rest)
    {steps : Nat} (hsteps : fuel + more ≤ steps) :
    (outer.run steps (wrap state) bytes).forget =
      (inner.run fuel state bytes).forget.bind g := by
  induction fuel generalizing state bytes steps with
  | zero => exact absurd rfl hinner
  | succ fuel ih =>
      obtain ⟨steps, rfl⟩ : ∃ k, steps = k + 1 := ⟨steps - 1, by omega⟩
      cases hs : inner.step state using Step.casesRequest with
      | request step n resume hr =>
          subst hs
          have hreq : (outer.step (wrap state)).request? =
              some (n, fun bytes => wrap (resume bytes)) := by
            rw [hstep, Step.embed_eq_graft]
            exact Step.request?_graft hr ..
          rw [run_succ_of_request hr] at hinner hfinished ⊢
          rw [run_succ_of_request hreq]
          by_cases hlt : bytes.length < n
          · rw [if_pos hlt, if_pos hlt]
            rfl
          · rw [if_neg hlt] at hinner hfinished ⊢
            rw [if_neg hlt]
            exact ih hinner hfinished (by omega)
      | tick next events =>
          rw [run_succ_of_tick hs] at hinner hfinished ⊢
          rw [run_succ_of_tick (by rw [hstep, hs]; rfl)]
          exact ih hinner hfinished (by omega)
      | done value next =>
          rw [run_succ_of_done hs] at hfinished ⊢
          exact hfinished value next (wrap state) bytes rfl (by rw [hstep, hs]; rfl) steps
            (by omega)
      | fail error next =>
          rw [run_succ_of_fail hs, run_succ_of_fail (by rw [hstep, hs]; rfl)]
          rfl
      | broken misuse =>
          rw [Decoder.run, Decoder.run, hstep, hs]
          rfl

theorem evaluate_tryMap {d : Decoder α} (f : α → Except DecodeError β) {fuel steps : Nat}
    {bytes : Bytes} (hd : d.evaluate fuel bytes ≠ .exhausted) (hsteps : fuel ≤ steps) :
    (d.tryMap f).evaluate steps bytes = (d.evaluate fuel bytes).bind fun value rest =>
      .reached (.ofExcept (f value)) () rest := by
  refine forget_run_embed_bind (d.tryMap f) d id id _ (fun _ => rfl) hd ?_
    (show fuel + 0 ≤ steps from hsteps)
  intro value next last rest _ hlast steps _
  cases hf : f value with
  | ok result =>
      rw [hf] at hlast
      rw [run_succ_of_done hlast]
      rfl
  | error error =>
      rw [hf] at hlast
      rw [run_succ_of_fail hlast]
      rfl

theorem evaluate_andThen {d : Decoder α} {f : α → Decoder β} {g : α → Bytes → Run Unit Bytes β}
    {fuel more steps : Nat} {bytes : Bytes} (hd : d.evaluate fuel bytes ≠ .exhausted)
    (hf : ∀ value rest, d.evaluate fuel bytes = .answer value rest → ∀ steps, more ≤ steps →
      (f value).evaluate steps rest = g value rest)
    (hsteps : fuel + more ≤ steps) :
    (d.andThen f).evaluate steps bytes = (d.evaluate fuel bytes).bind g := by
  refine forget_run_embed_bind (d.andThen f) d (⟨·, none⟩) (⟨·, none⟩) _ (fun _ => rfl) hd ?_
    hsteps
  intro value next last rest hvalue hlast steps hmore
  rw [run_succ_of_tick hlast, ← hf value rest hvalue steps hmore]
  have hsecond := forget_run_embed (d.andThen f) (f value)
    (fun second => ⟨next, some ⟨value, second⟩⟩) (fun second => ⟨next, some ⟨value, second⟩⟩) id
    (fun _ => ⟨next, none⟩) (fun _ => rfl) steps (f value).start rest
  rw [hsecond, Run.map_id]
  rfl

end Decoder

end Piecemeal
