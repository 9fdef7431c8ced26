/-
# Histories of calls

What a decoder may have been through: decode calls on slices of any length, and resets, where a
rejection has to be followed by a reset.  `Decoder.Ready` are the states between the calls of such
a history, `Decoder.Visits` the states in the middle of a call, and a decoder is `Decoder.Safe` if
no call of any history finds that the program is wrong.

What a step may lead to is always said by one predicate,

    step.Leads given P D F B

where `P` holds of the states it goes on to, `D` of a value and the state behind it, `F` of an
error and the state behind that, `B` of a misuse, and `given` relates the bytes asked for to those
that come.  It passes through adapters, `Step.Leads.embed`, and from all steps to runs,
`Decoder.run_leads`, by induction on the budget.  Two of its cases have names:

  * `Step.Keeps P Q`: `P` holds wherever the step leads, and a misuse is in `Q`.  A property that
    every step keeps is an invariant: it holds in every state that a history can lead to.
  * `Step.Renews P start`, in `Piecemeal.Proofs.Freshness`: a value is answered at the start.

A decoder with an invariant under which no step is wrong is safe, `safe_of_invariant`.  The other
way round, a decoder that is safe has an invariant which says so, `Safe.sound`, since all it does
from some state on it would have done in one call of a history; and that is how the safety of a
part is used in a machine that runs it step by step.
-/
import Piecemeal.Proofs.Runs

namespace Piecemeal

/-! ## Where steps lead -/

namespace Step

variable {σ α : Type} {given : Nat → Nat → Prop} {P P' : σ → Prop} {D D' : α → σ → Prop}
  {F F' : DecodeError → σ → Prop} {B B' : Misuse → Prop}

/-- The step goes on in `P`, whatever the source gives, where `given n k` says that `k` bytes may
come for the `n` that are asked for.  A value that it answers and the state behind it satisfy `D`, a
rejection `F`, and a misuse that it finds `B`. -/
def Leads (given : Nat → Nat → Prop) (P : σ → Prop) (D : α → σ → Prop)
    (F : DecodeError → σ → Prop) (B : Misuse → Prop) : Step σ α → Prop
  | .read n resume => ∀ bytes : Bytes, given n bytes.length → P (resume bytes)
  | .skip n resume => ∀ skipped, given n skipped → P (resume skipped)
  | .tick state _ => P state
  | .done value state => D value state
  | .fail error state => F error state
  | .broken misuse => B misuse

theorem Leads.of_request {step : Step σ α} (h : step.Leads given P D F B) {n : Nat}
    {resume : Bytes → σ} (hreq : step.request? = some (n, resume)) {bytes : Bytes}
    (hgiven : given n bytes.length) : P (resume bytes) := by
  cases step with
  | read k resume' => cases hreq; exact h bytes hgiven
  | skip k resume' => cases hreq; exact h bytes.length hgiven
  | tick => cases hreq
  | done => cases hreq
  | fail => cases hreq
  | broken => cases hreq

theorem leads_of_request {step : Step σ α} {n : Nat} {resume : Bytes → σ}
    (hreq : step.request? = some (n, resume))
    (h : ∀ bytes : Bytes, given n bytes.length → P (resume bytes)) :
    step.Leads given P D F B := by
  cases step with
  | read k resume' => cases hreq; exact h
  | skip k resume' =>
      cases hreq
      intro skipped hgiven
      have hlen : (List.replicate skipped (0 : UInt8)).length = skipped := List.length_replicate
      have hk : P (resume' (List.replicate skipped (0 : UInt8)).length) :=
        h (List.replicate skipped 0) (by rw [hlen]; exact hgiven)
      rwa [hlen] at hk
  | tick => cases hreq
  | done => cases hreq
  | fail => cases hreq
  | broken => cases hreq

theorem Leads.mono {step : Step σ α} (h : step.Leads given P D F B)
    (hP : ∀ state, P state → P' state) (hD : ∀ value state, D value state → D' value state)
    (hF : ∀ error state, F error state → F' error state) (hB : ∀ misuse, B misuse → B' misuse) :
    step.Leads given P' D' F' B' := by
  cases step with
  | read n resume => exact fun bytes hgiven => hP _ (h bytes hgiven)
  | skip n resume => exact fun skipped hgiven => hP _ (h skipped hgiven)
  | tick state events => exact hP _ h
  | done value state => exact hD _ _ h
  | fail error state => exact hF _ _ h
  | broken misuse => exact hB _ h

theorem Leads.restrict {given' : Nat → Nat → Prop} {step : Step σ α}
    (h : step.Leads given P D F B) (hgiven : ∀ n k, given' n k → given n k) :
    step.Leads given' P D F B := by
  cases step with
  | read n resume => exact fun bytes hcame => h bytes (hgiven _ _ hcame)
  | skip n resume => exact fun skipped hcame => h skipped (hgiven _ _ hcame)
  | tick state events => exact h
  | done value state => exact h
  | fail error state => exact h
  | broken misuse => exact h

theorem Leads.and {step : Step σ α} (h : step.Leads given P D F B)
    (h' : step.Leads given P' D' F' B') :
    step.Leads given (fun state => P state ∧ P' state)
      (fun value state => D value state ∧ D' value state)
      (fun error state => F error state ∧ F' error state)
      (fun misuse => B misuse ∧ B' misuse) := by
  cases step with
  | read n resume => exact fun bytes hgiven => ⟨h bytes hgiven, h' bytes hgiven⟩
  | skip n resume => exact fun skipped hgiven => ⟨h skipped hgiven, h' skipped hgiven⟩
  | tick state events => exact ⟨h, h'⟩
  | done value state => exact ⟨h, h'⟩
  | fail error state => exact ⟨h, h'⟩
  | broken misuse => exact ⟨h, h'⟩

theorem Leads.embed {τ β : Type} {Q : τ → Prop} {V : β → τ → Prop} {R : DecodeError → τ → Prop}
    {step : Step σ α} {wrap spoiled : σ → τ} {finished : α → σ → Step τ β}
    (h : step.Leads given P D F B) (hwrap : ∀ state, P state → Q (wrap state))
    (hfinished : ∀ value state, D value state → (finished value state).Leads given Q V R B)
    (hspoiled : ∀ error state, F error state → R error (spoiled state)) :
    (step.embed wrap spoiled finished).Leads given Q V R B := by
  cases step with
  | read n resume => exact fun bytes hgiven => hwrap _ (h bytes hgiven)
  | skip n resume => exact fun skipped hgiven => hwrap _ (h skipped hgiven)
  | tick state events => exact hwrap _ h
  | done value state => exact hfinished value state h
  | fail error state => exact hspoiled error state h
  | broken misuse => exact h

/-- All states that the step may lead to have the property `P`, and the misuse that it finds has the
property `Q`.  No more bytes come than were asked for, and the state in which data was rejected does
not count: only a reset may follow. -/
def Keeps (P : σ → Prop) (Q : Misuse → Prop) : Step σ α → Prop :=
  Leads (fun asked came => came ≤ asked) P (fun _ => P) (fun _ _ => True) Q

theorem Keeps.mono {Q Q' : Misuse → Prop} {step : Step σ α} (h : step.Keeps P Q)
    (hP : ∀ state, P state → P' state) (hQ : ∀ misuse, Q misuse → Q' misuse) :
    step.Keeps P' Q' :=
  Leads.mono h hP (fun _ => hP) (fun _ _ h => h) hQ

theorem Keeps.embed {τ β : Type} {R : τ → Prop} {Q : Misuse → Prop} {step : Step σ α}
    {wrap spoiled : σ → τ} {finished : α → σ → Step τ β} (h : step.Keeps P Q)
    (hwrap : ∀ state, P state → R (wrap state))
    (hfinished : ∀ value state, P state → (finished value state).Keeps R Q) :
    (step.embed wrap spoiled finished).Keeps R Q :=
  Leads.embed h hwrap hfinished fun _ _ h => h

theorem Keeps.and {Q Q' : Misuse → Prop} {step : Step σ α} (h : step.Keeps P Q)
    (h' : step.Keeps P' Q') :
    step.Keeps (fun state => P state ∧ P' state) fun misuse => Q misuse ∧ Q' misuse :=
  (Leads.and h h').mono (fun _ h => h) (fun _ _ h => h) (fun _ _ _ => trivial) fun _ h => h

end Step

/-- The same of a run. -/
def Run.Leads {σ ι α : Type} (P : σ → Prop) (D : α → σ → Prop) (F : DecodeError → σ → Prop)
    (B : Misuse → Prop) : Run σ ι α → Prop
  | .reached .pending state _ => P state
  | .reached (.done value) state _ => D value state
  | .reached (.failed error) state _ => F error state
  | .broken misuse => B misuse
  | .exhausted => True

def Run.Keeps {σ α : Type} (P : σ → Prop) (Q : Misuse → Prop) : Run σ Bytes α → Prop :=
  Run.Leads P (fun _ => P) (fun _ _ => True) Q

theorem Decoder.run_leads {ι α : Type} [ByteSource ι] {d : Decoder α} {given : Nat → Nat → Prop}
    {P : d.State → Prop} {D : α → d.State → Prop} {F : DecodeError → d.State → Prop}
    {B : Misuse → Prop} (hread : ∀ (source : ι) n, given n (ByteSource.read source n).1.length)
    (hskip : ∀ (source : ι) n, given n (ByteSource.skip source n).1)
    (hstep : ∀ state, P state → (d.step state).Leads given P D F B) (budget : Nat)
    {state : d.State} (hstate : P state) (source : ι) :
    (d.run budget state source).Leads P D F B := by
  induction budget generalizing state source with
  | zero => trivial
  | succ budget ih =>
      have hleads := hstep state hstate
      rw [Decoder.run]
      cases hs : d.step state with
      | read n resume =>
          rw [hs] at hleads
          have hnext := hleads _ (hread source n)
          dsimp only
          split
          next => exact hnext
          next => exact ih hnext _
      | skip n resume =>
          rw [hs] at hleads
          have hnext := hleads _ (hskip source n)
          dsimp only
          split
          next => exact hnext
          next => exact ih hnext _
      | tick next events =>
          rw [hs] at hleads
          exact ih hleads source
      | done value next =>
          rw [hs] at hleads
          exact hleads
      | fail error next =>
          rw [hs] at hleads
          exact hleads
      | broken misuse =>
          rw [hs] at hleads
          exact hleads

namespace Decoder

variable {α : Type} {d : Decoder α}

/-! ## Histories -/

/-- The states in which the next decode call may be made. -/
inductive Ready (d : Decoder α) : d.State → Prop
  | fresh : Ready d d.start
  | decoded {state next : d.State} {bytes rest : Bytes} {outcome : Outcome α} :
      Ready d state → d.Ends state bytes (.reached outcome next rest) →
      (∀ error, outcome ≠ .failed error) → Ready d next
  | rejected {state next : d.State} {bytes rest : Bytes} {error : DecodeError} :
      Ready d state → d.Ends state bytes (.reached (.failed error) next rest) →
      Ready d (d.reset next)
  | reset {state : d.State} : Ready d state → Ready d (d.reset state)

/-- `Visits d state bytes last rest`: the decode call in `state` on `bytes` comes through `last`
with the bytes `rest` still to be read. -/
inductive Visits (d : Decoder α) : d.State → Bytes → d.State → Bytes → Prop
  | here (state : d.State) (bytes : Bytes) : Visits d state bytes state bytes
  | request {state last : d.State} {n : Nat} {resume : Bytes → d.State} {bytes rest : Bytes} :
      (d.step state).request? = some (n, resume) → n ≤ bytes.length →
      Visits d (resume (bytes.take n)) (bytes.drop n) last rest → Visits d state bytes last rest
  | tick {state next last : d.State} {events : List Event} {bytes rest : Bytes} :
      d.step state = .tick next events → Visits d next bytes last rest →
      Visits d state bytes last rest

/-- A call that is rejected comes through a state with no more bytes left than there are behind it. -/
theorem Ends.exists_visits {state next : d.State} {bytes rest : Bytes} {error : DecodeError}
    (h : d.Ends state bytes (.reached (.failed error) next rest)) :
    ∃ last, d.Visits state bytes last rest := by
  generalize hr : Run.reached (.failed error) next rest = r at h
  induction h using Ends.induct with
  | short => cases hr
  | request state n resume bytes r hreq hle _ ih =>
      obtain ⟨last, hlast⟩ := ih hr
      exact ⟨last, .request hreq hle hlast⟩
  | tick state next' events bytes r hs _ ih =>
      obtain ⟨last, hlast⟩ := ih hr
      exact ⟨last, .tick hs hlast⟩
  | done => cases hr
  | fail state error' next' bytes hs => cases hr; exact ⟨state, .here state rest⟩
  | broken => cases hr

theorem Visits.ends {state last : d.State} {bytes rest : Bytes} (h : d.Visits state bytes last rest)
    {run : Run d.State Bytes α} (hrun : d.Ends state bytes run) : d.Ends last rest run := by
  induction h with
  | here => exact hrun
  | request hreq hle _ ih =>
      rw [ends_of_request hreq, if_neg (Nat.not_lt.2 hle)] at hrun
      exact ih hrun
  | tick hs _ ih => exact ih ((ends_of_tick hs).1 hrun)

/-- What a call leaves is the end of what it was given. -/
theorem Ends.suffix {state next : d.State} {bytes rest : Bytes} {outcome : Outcome α}
    (h : d.Ends state bytes (.reached outcome next rest)) : rest <:+ bytes := by
  generalize hr : Run.reached outcome next rest = r at h
  induction h using Ends.induct with
  | short => cases hr; exact List.nil_suffix
  | request state n resume bytes r hreq hle _ ih => exact (ih hr).trans (List.drop_suffix n bytes)
  | tick state next' events bytes r hs _ ih => exact ih hr
  | done => cases hr; exact List.suffix_refl _
  | fail => cases hr; exact List.suffix_refl _
  | broken => cases hr

/-- No decode call finds that the program is wrong, whatever came before. -/
def Safe (d : Decoder α) : Prop :=
  ∀ state, d.Ready state → ∀ budget (bytes : Bytes) misuse,
    d.run budget state bytes ≠ .broken misuse

/-! ## From steps to histories -/

section Invariant

variable {P : d.State → Prop} {Q : Misuse → Prop}
    (hstep : ∀ state, P state → (d.step state).Keeps P Q)

include hstep

theorem Visits.keeps {state last : d.State} {bytes rest : Bytes}
    (h : d.Visits state bytes last rest) (hstate : P state) : P last := by
  induction h with
  | here state bytes => exact hstate
  | request hreq hle _ ih =>
      exact ih ((hstep _ hstate).of_request hreq (by rw [List.length_take]; omega))
  | tick hs _ ih =>
      have hkeeps := hstep _ hstate
      rw [hs] at hkeeps
      exact ih hkeeps

theorem Ends.keeps {state : d.State} {bytes : Bytes} {run : Run d.State Bytes α}
    (h : d.Ends state bytes run) (hstate : P state) : run.Keeps P Q := by
  obtain ⟨-, budget, rfl⟩ := h
  refine Decoder.run_leads (fun bytes n => ?_) (fun bytes n => ?_) hstep budget hstate bytes
  · exact List.length_take_le n bytes
  · exact List.length_take_le n bytes

theorem Ready.keeps {state : d.State} (h : d.Ready state) (hstart : P d.start)
    (hreset : ∀ state, P (d.reset state)) : P state := by
  induction h with
  | fresh => exact hstart
  | @decoded state next bytes rest outcome _ hrun houtcome ih =>
      have hkeeps := hrun.keeps hstep ih
      cases outcome with
      | done value => exact hkeeps
      | pending => exact hkeeps
      | failed error => exact absurd rfl (houtcome error)
  | rejected => exact hreset _
  | reset => exact hreset _

end Invariant

theorem safe_of_invariant {P : d.State → Prop} (hstart : P d.start)
    (hstep : ∀ state, P state → (d.step state).Keeps P fun _ => False)
    (hreset : ∀ state, P (d.reset state)) : d.Safe := by
  intro state hready budget bytes misuse hrun
  have hends : d.Ends state bytes (.broken misuse) := ⟨by simp, budget, hrun⟩
  exact hends.keeps hstep (hready.keeps hstep hstart hreset)

/-- From this state on no step is wrong: there is an invariant that says so. -/
def Sound (d : Decoder α) (state : d.State) : Prop :=
  ∃ P : d.State → Prop, P state ∧ ∀ state, P state → (d.step state).Keeps P fun _ => False

theorem Sound.keeps {state : d.State} (h : d.Sound state) :
    (d.step state).Keeps d.Sound fun _ => False := by
  obtain ⟨P, hstate, hstep⟩ := h
  exact (hstep state hstate).mono (fun next hnext => ⟨P, hnext, hstep⟩) fun _ h => h

/-- A safe decoder is sound from the start: all it does from some state on it would have done in one
call of a history. -/
theorem Safe.sound (h : d.Safe) : d.Sound d.start := by
  refine ⟨fun state => ∃ first, ∃ xs : Bytes, d.Ready first ∧
    ∀ ys run, d.Ends state ys run → d.Ends first (xs ++ ys) run, ?_, ?_⟩
  · exact ⟨d.start, [], .fresh, fun _ _ hrun => hrun⟩
  · rintro state ⟨first, xs, hready, hfirst⟩
    cases hs : d.step state using Step.casesRequest with
    | request step n resume hreq =>
        subst hs
        refine Step.leads_of_request hreq ?_
        intro bytes hlen
        by_cases hlt : bytes.length < n
        · have hpending : d.Ends state bytes (.reached .pending (resume bytes) []) := by
            rw [ends_of_request hreq, if_pos hlt]
          exact ⟨_, [], .decoded hready (hfirst _ _ hpending) (by simp), fun _ _ hrun => hrun⟩
        · obtain rfl : n = bytes.length := by omega
          refine ⟨first, xs ++ bytes, hready, fun ys run hrun => ?_⟩
          rw [List.append_assoc]
          refine hfirst _ _ ?_
          rw [ends_of_request hreq, if_neg (by rw [List.length_append]; omega), List.take_left,
            List.drop_left]
          exact hrun
    | tick next events =>
        exact ⟨first, xs, hready, fun ys run hrun => hfirst ys run ((ends_of_tick hs).2 hrun)⟩
    | done value next =>
        have hdone : d.Ends state [] (.reached (.done value) next []) := (ends_of_done hs).2 rfl
        exact ⟨_, [], .decoded hready (hfirst _ _ hdone) (by simp), fun _ _ hrun => hrun⟩
    | fail error next => trivial
    | broken misuse =>
        have hbroken : d.Ends state [] (.broken misuse) := (ends_of_broken hs).2 rfl
        obtain ⟨-, budget, hrun⟩ := hfirst _ _ hbroken
        exact h first hready budget _ misuse hrun

end Decoder

end Piecemeal
