/-
# How runs end

A run carries a budget of steps, which is no part of what a decoder does.  `Decoder.Ends` is the
run without it: the end that every budget reaches which is large enough, `run_mono`.  A decoder may
have no such end from some state on some source, and it never has two.

On a slice, dropping bytes is the same as reading them and looking at their number only, so a step
that asks for anything is a request for bytes, `Step.request?`, and a step is of one of five kinds,
`Step.casesRequest`.  A run ends as the run from its first step on,

    d.Ends state bytes run ↔ d.EndsBy (d.step state) bytes run                      (`ends_iff`)

and `Ends.induct` is the induction that goes with it, over the requests and ticks of a run that
ends.

`d.Idles s t`: the decoder comes from `s` to `t` without the source.  Calls end from `s` as they do
from `t`, and no step is saved by that, `Idles.run`.

An adapter runs its parts as steps of its own.  `Step.graft` is the shape all of them share, and
`ends_graft` says once what it means for runs: the run of the adapter is the run of the part, and
then what the adapter makes of its outcome, `GoesOn`.  `Step.embed` is the case in which what the
part rejects is rejected.  The lemmas on `map`, `tryMap` and `andThen` are its instances.
-/
import Piecemeal.Decoder.Adapters

namespace Piecemeal

/-! ## Requests -/

namespace Step

variable {σ α : Type}

/-- The bytes that a step asks a slice for, and how it goes on with them. -/
def request? : Step σ α → Option (Nat × (Bytes → σ))
  | .read n resume => some (n, resume)
  | .skip n resume => some (n, fun bytes => resume bytes.length)
  | _ => none

@[elab_as_elim]
theorem casesRequest {motive : Step σ α → Prop}
    (request : ∀ step n resume, step.request? = some (n, resume) → motive step)
    (tick : ∀ state events, motive (.tick state events))
    (done : ∀ value state, motive (.done value state))
    (fail : ∀ error state, motive (.fail error state))
    (broken : ∀ misuse, motive (.broken misuse)) (step : Step σ α) : motive step := by
  cases step with
  | read n resume => exact request _ n resume rfl
  | skip n resume => exact request _ n _ rfl
  | tick state events => exact tick state events
  | done value state => exact done value state
  | fail error state => exact fail error state
  | broken misuse => exact broken misuse

end Step

namespace Decoder

variable {α β ι : Type}

/-! ## Runs without a budget -/

/-- The run from this state on this source ends so. -/
def Ends [ByteSource ι] (d : Decoder α) (state : d.State) (source : ι)
    (run : Run d.State ι α) : Prop :=
  run ≠ .exhausted ∧ ∃ budget, d.run budget state source = run

theorem run_succ_of_request {d : Decoder α} {state : d.State} {n : Nat}
    {resume : Bytes → d.State} (h : (d.step state).request? = some (n, resume)) (budget : Nat)
    (bytes : Bytes) :
    d.run (budget + 1) state bytes =
      if bytes.length < n then .reached .pending (resume bytes) []
      else d.run budget (resume (bytes.take n)) (bytes.drop n) := by
  have hshort : (bytes.take n).length < n ↔ bytes.length < n := by
    rw [List.length_take]; omega
  rw [Decoder.run]
  cases hs : d.step state with
  | read k resume' =>
      rw [hs] at h; cases h
      simp only [ByteSource.read, hshort]
      split
      next hlt => rw [List.take_of_length_le (by omega), List.drop_of_length_le (by omega)]
      next => rfl
  | skip k resume' =>
      rw [hs] at h; cases h
      simp only [ByteSource.skip, hshort]
      split
      next hlt => rw [List.take_of_length_le (by omega), List.drop_of_length_le (by omega)]
      next => rfl
  | tick => rw [hs] at h; cases h
  | done => rw [hs] at h; cases h
  | fail => rw [hs] at h; cases h
  | broken => rw [hs] at h; cases h

theorem run_succ_of_tick {d : Decoder α} {state next : d.State} {events : List Event}
    (h : d.step state = .tick next events) (budget : Nat) (bytes : Bytes) :
    d.run (budget + 1) state bytes = d.run budget next bytes := by
  rw [Decoder.run, h]

theorem run_succ_of_done {d : Decoder α} {state next : d.State} {value : α}
    (h : d.step state = .done value next) (budget : Nat) (bytes : Bytes) :
    d.run (budget + 1) state bytes = .reached (.done value) next bytes := by
  rw [Decoder.run, h]

theorem run_succ_of_fail {d : Decoder α} {state next : d.State} {error : DecodeError}
    (h : d.step state = .fail error next) (budget : Nat) (bytes : Bytes) :
    d.run (budget + 1) state bytes = .reached (.failed error) next bytes := by
  rw [Decoder.run, h]

theorem run_succ_of_broken {d : Decoder α} {state : d.State} {misuse : Misuse}
    (h : d.step state = .broken misuse) (budget : Nat) (bytes : Bytes) :
    d.run (budget + 1) state bytes = .broken misuse := by
  rw [Decoder.run, h]

/-- A larger budget reaches the same end. -/
theorem run_mono {d : Decoder α} {budget more : Nat} {state : d.State} {bytes : Bytes}
    {run : Run d.State Bytes α} (h : d.run budget state bytes = run) (hne : run ≠ .exhausted)
    (hle : budget ≤ more) : d.run more state bytes = run := by
  induction budget generalizing more state bytes with
  | zero => exact absurd h.symm hne
  | succ budget ih =>
      obtain ⟨more, rfl⟩ : ∃ k, more = k + 1 := ⟨more - 1, by omega⟩
      cases hs : d.step state using Step.casesRequest with
      | request step n resume hr =>
          subst hs
          rw [run_succ_of_request hr] at h ⊢
          split at h
          next hlt => rw [if_pos hlt]; exact h
          next hlt => rw [if_neg hlt]; exact ih h (by omega)
      | tick next events =>
          rw [Decoder.run, hs] at h ⊢
          exact ih h (by omega)
      | done value next => rw [Decoder.run, hs] at h ⊢; exact h
      | fail error next => rw [Decoder.run, hs] at h ⊢; exact h
      | broken misuse => rw [Decoder.run, hs] at h ⊢; exact h

theorem Ends.unique {d : Decoder α} {state : d.State} {bytes : Bytes}
    {run run' : Run d.State Bytes α} (h : d.Ends state bytes run) (h' : d.Ends state bytes run') :
    run = run' := by
  obtain ⟨hne, budget, hrun⟩ := h
  obtain ⟨hne', budget', hrun'⟩ := h'
  rw [← run_mono hrun hne (Nat.le_max_left budget budget'),
    ← run_mono hrun' hne' (Nat.le_max_right budget budget')]

/-- The run that takes this step on these bytes ends so. -/
def EndsBy (d : Decoder α) (step : Step d.State α) (bytes : Bytes) (run : Run d.State Bytes α) :
    Prop :=
  match step.request?, step with
  | some (n, resume), _ =>
      if bytes.length < n then run = .reached .pending (resume bytes) []
      else d.Ends (resume (bytes.take n)) (bytes.drop n) run
  | none, .tick state _ => d.Ends state bytes run
  | none, .done value state => run = .reached (.done value) state bytes
  | none, .fail error state => run = .reached (.failed error) state bytes
  | none, .broken misuse => run = .broken misuse
  | none, _ => False

theorem ends_iff {d : Decoder α} {state : d.State} {bytes : Bytes} {run : Run d.State Bytes α} :
    d.Ends state bytes run ↔ d.EndsBy (d.step state) bytes run := by
  have hsucc : d.Ends state bytes run ↔
      run ≠ .exhausted ∧ ∃ budget, d.run (budget + 1) state bytes = run := by
    constructor
    · rintro ⟨hne, budget, hrun⟩
      exact ⟨hne, budget, run_mono hrun hne (Nat.le_succ budget)⟩
    · rintro ⟨hne, budget, hrun⟩
      exact ⟨hne, budget + 1, hrun⟩
  rw [hsucc]
  cases hs : d.step state using Step.casesRequest with
  | request step n resume hr =>
      subst hs
      simp only [EndsBy, hr, run_succ_of_request hr]
      split
      next hlt => exact ⟨fun h => h.2.elim fun _ h => h.symm, fun h => ⟨by simp [h], 0, h.symm⟩⟩
      next hlt => exact Iff.rfl
  | tick next events => simp only [Decoder.run, hs, EndsBy, Step.request?, Ends]
  | done value next =>
      simp only [Decoder.run, hs, EndsBy, Step.request?]
      exact ⟨fun h => h.2.elim fun _ h => h.symm, fun h => ⟨by simp [h], 0, h.symm⟩⟩
  | fail error next =>
      simp only [Decoder.run, hs, EndsBy, Step.request?]
      exact ⟨fun h => h.2.elim fun _ h => h.symm, fun h => ⟨by simp [h], 0, h.symm⟩⟩
  | broken misuse =>
      simp only [Decoder.run, hs, EndsBy, Step.request?]
      exact ⟨fun h => h.2.elim fun _ h => h.symm, fun h => ⟨by simp [h], 0, h.symm⟩⟩

theorem endsBy_of_request {d : Decoder α} {step : Step d.State α} {n : Nat}
    {resume : Bytes → d.State} (h : step.request? = some (n, resume)) {bytes : Bytes}
    {run : Run d.State Bytes α} :
    d.EndsBy step bytes run ↔
      if bytes.length < n then run = .reached .pending (resume bytes) []
      else d.Ends (resume (bytes.take n)) (bytes.drop n) run := by
  simp only [EndsBy, h]

theorem ends_of_request {d : Decoder α} {state : d.State} {n : Nat} {resume : Bytes → d.State}
    (h : (d.step state).request? = some (n, resume)) {bytes : Bytes}
    {run : Run d.State Bytes α} :
    d.Ends state bytes run ↔
      if bytes.length < n then run = .reached .pending (resume bytes) []
      else d.Ends (resume (bytes.take n)) (bytes.drop n) run :=
  ends_iff.trans (endsBy_of_request h)

theorem ends_of_tick {d : Decoder α} {state next : d.State} {events : List Event}
    (h : d.step state = .tick next events) {bytes : Bytes} {run : Run d.State Bytes α} :
    d.Ends state bytes run ↔ d.Ends next bytes run := by
  rw [ends_iff, h]; rfl

theorem ends_of_done {d : Decoder α} {state next : d.State} {value : α}
    (h : d.step state = .done value next) {bytes : Bytes} {run : Run d.State Bytes α} :
    d.Ends state bytes run ↔ run = .reached (.done value) next bytes := by
  rw [ends_iff, h]; rfl

theorem ends_of_fail {d : Decoder α} {state next : d.State} {error : DecodeError}
    (h : d.step state = .fail error next) {bytes : Bytes} {run : Run d.State Bytes α} :
    d.Ends state bytes run ↔ run = .reached (.failed error) next bytes := by
  rw [ends_iff, h]; rfl

theorem ends_of_broken {d : Decoder α} {state : d.State} {misuse : Misuse}
    (h : d.step state = .broken misuse) {bytes : Bytes} {run : Run d.State Bytes α} :
    d.Ends state bytes run ↔ run = .broken misuse := by
  rw [ends_iff, h]; rfl

/-- A property of the ends of runs holds if every step hands it on. -/
@[elab_as_elim]
theorem Ends.induct {d : Decoder α}
    {motive : ∀ state bytes run, d.Ends state bytes run → Prop}
    (short : ∀ state n resume bytes, (d.step state).request? = some (n, resume) →
      bytes.length < n → ∀ h, motive state bytes (.reached .pending (resume bytes) []) h)
    (request : ∀ state n resume bytes run, (d.step state).request? = some (n, resume) →
      n ≤ bytes.length → ∀ rest, motive (resume (bytes.take n)) (bytes.drop n) run rest →
      ∀ h, motive state bytes run h)
    (tick : ∀ state next events bytes run, d.step state = .tick next events →
      ∀ rest, motive next bytes run rest → ∀ h, motive state bytes run h)
    (done : ∀ state value next bytes, d.step state = .done value next →
      ∀ h, motive state bytes (.reached (.done value) next bytes) h)
    (fail : ∀ state error next bytes, d.step state = .fail error next →
      ∀ h, motive state bytes (.reached (.failed error) next bytes) h)
    (broken : ∀ state misuse bytes, d.step state = .broken misuse →
      ∀ h, motive state bytes (.broken misuse) h)
    {state : d.State} {bytes : Bytes} {run : Run d.State Bytes α} (h : d.Ends state bytes run) :
    motive state bytes run h := by
  obtain ⟨hne, budget, hrun⟩ := id h
  induction budget generalizing state bytes with
  | zero => exact absurd hrun.symm hne
  | succ budget ih =>
      cases hs : d.step state using Step.casesRequest with
      | request step n resume hr =>
          subst hs
          have hrun' := hrun
          rw [run_succ_of_request hr] at hrun'
          split at hrun'
          next hlt => subst hrun'; exact short state n resume bytes hr hlt h
          next hlt =>
            have rest : d.Ends (resume (bytes.take n)) (bytes.drop n) run := ⟨hne, budget, hrun'⟩
            exact request state n resume bytes run hr (by omega) rest (ih rest hrun') h
      | tick next events =>
          have hrun' := hrun
          rw [Decoder.run, hs] at hrun'
          have rest : d.Ends next bytes run := ⟨hne, budget, hrun'⟩
          exact tick state next events bytes run hs rest (ih rest hrun') h
      | done value next =>
          rw [ends_of_done hs] at h
          subst h; exact done state value next bytes hs _
      | fail error next =>
          rw [ends_of_fail hs] at h
          subst h; exact fail state error next bytes hs _
      | broken misuse =>
          rw [ends_of_broken hs] at h
          subst h; exact broken state misuse bytes hs _

theorem Ends.exists_request {d : Decoder α} {state next : d.State} {bytes rest : Bytes}
    (h : d.Ends state bytes (.reached .pending next rest)) :
    ∃ last n resume bytes', (d.step last).request? = some (n, resume) ∧ next = resume bytes' := by
  generalize hr : Run.reached .pending next rest = r at h
  induction h using Ends.induct with
  | short state n resume bytes hreq hlt => cases hr; exact ⟨state, n, resume, bytes, hreq, rfl⟩
  | request state n resume bytes r hreq hle _ ih => exact ih hr
  | tick state next' events bytes r hs _ ih => exact ih hr
  | done => cases hr
  | fail => cases hr
  | broken => cases hr

theorem Ends.exists_done {d : Decoder α} {state next : d.State} {bytes rest : Bytes} {value : α}
    (h : d.Ends state bytes (.reached (.done value) next rest)) :
    ∃ last, d.step last = .done value next := by
  generalize hr : Run.reached (.done value) next rest = r at h
  induction h using Ends.induct with
  | short => cases hr
  | request state n resume bytes r hreq hle _ ih => exact ih hr
  | tick state next' events bytes r hs _ ih => exact ih hr
  | done state value' next' bytes hs => cases hr; exact ⟨state, hs⟩
  | fail => cases hr
  | broken => cases hr

theorem request?_skipBytes {n owed : Nat} (h : owed ≠ 0) :
    ((skipBytes n).step owed).request? = some (owed, fun bytes => owed - bytes.length) := by
  simp only [skipBytes, if_neg h, Step.request?]

/-! ## Going on without the source -/

/-- From `s` the decoder comes to `t` without the source. -/
inductive Idles (d : Decoder α) : d.State → d.State → Prop
  | here (s : d.State) : Idles d s s
  | tick {s next t : d.State} {events : List Event} :
      d.step s = .tick next events → Idles d next t → Idles d s t

theorem Idles.trans {d : Decoder α} {s t u : d.State} (h : d.Idles s t) (h' : d.Idles t u) :
    d.Idles s u := by
  induction h with
  | here s => exact h'
  | tick hs _ ih => exact .tick hs (ih h')

theorem Idles.single {d : Decoder α} {s t : d.State} {events : List Event}
    (h : d.step s = .tick t events) : d.Idles s t := .tick h (.here t)

theorem Idles.ends_iff {d : Decoder α} {s t : d.State} (h : d.Idles s t) {bytes : Bytes}
    {run : Run d.State Bytes α} : d.Ends s bytes run ↔ d.Ends t bytes run := by
  induction h with
  | here s => exact Iff.rfl
  | tick hs _ ih => exact (ends_of_tick hs).trans ih

/-- Without the source no step is saved: what a budget is enough for, it is enough for later on. -/
theorem Idles.run {d : Decoder α} {s t : d.State} (h : d.Idles s t) {budget : Nat} {bytes : Bytes}
    {run : Run d.State Bytes α} (hrun : d.run budget s bytes = run) (hne : run ≠ .exhausted) :
    d.run budget t bytes = run := by
  induction h generalizing budget with
  | here s => exact hrun
  | tick hs _ ih =>
      cases budget with
      | zero => exact absurd hrun.symm hne
      | succ budget =>
          rw [Decoder.run, hs] at hrun
          exact run_mono (ih hrun) hne (Nat.le_succ budget)

end Decoder

/-! ## Machines inside machines -/

namespace Step

variable {σ τ α β : Type}

/-- A step of an inner machine as a step of the machine around it, which says what follows a value
and what follows a rejection. -/
def graft (step : Step σ α) (wrap : σ → τ) (finished : α → σ → Step τ β)
    (rejected : DecodeError → σ → Step τ β) : Step τ β :=
  match step with
  | .read n resume => .read n fun bytes => wrap (resume bytes)
  | .skip n resume => .skip n fun skipped => wrap (resume skipped)
  | .tick state events => .tick (wrap state) events
  | .done value state => finished value state
  | .fail error state => rejected error state
  | .broken misuse => .broken misuse

theorem embed_eq_graft (step : Step σ α) (wrap spoiled : σ → τ) (finished : α → σ → Step τ β) :
    step.embed wrap spoiled finished =
      step.graft wrap finished fun error state => .fail error (spoiled state) := by
  cases step <;> rfl

theorem exists_of_embed_eq_done {step : Step σ α} {wrap spoiled : σ → τ}
    {finished : α → σ → Step τ β} {value : β} {next : τ}
    (h : step.embed wrap spoiled finished = .done value next) :
    ∃ inner state, step = .done inner state ∧ finished inner state = .done value next := by
  cases step with
  | done inner state => exact ⟨inner, state, rfl, h⟩
  | read => cases h
  | skip => cases h
  | tick => cases h
  | fail => cases h
  | broken => cases h

theorem request?_graft {step : Step σ α} {n : Nat} {resume : Bytes → σ}
    (h : step.request? = some (n, resume)) (wrap : σ → τ) (finished : α → σ → Step τ β)
    (rejected : DecodeError → σ → Step τ β) :
    (step.graft wrap finished rejected).request? =
      some (n, fun bytes => wrap (resume bytes)) := by
  cases step <;> cases h <;> rfl

end Step

namespace Decoder

variable {α β : Type}

/-- What the machine around makes of the end of an inner run. -/
def GoesOn {σ : Type} (outer : Decoder β) (wrap : σ → outer.State)
    (finished : α → σ → Step outer.State β) (rejected : DecodeError → σ → Step outer.State β)
    (run : Run outer.State Bytes β) : Run σ Bytes α → Prop
  | .reached .pending state rest => run = .reached .pending (wrap state) rest
  | .reached (.done value) state rest => outer.EndsBy (finished value state) rest run
  | .reached (.failed error) state rest => outer.EndsBy (rejected error state) rest run
  | .broken misuse => run = .broken misuse
  | .exhausted => False

/-- While an inner machine is at work, the machine around it ends as the inner one does, and then as
it goes on from there. -/
theorem ends_graft (outer : Decoder β) (inner : Decoder α) (wrap : inner.State → outer.State)
    (finished : α → inner.State → Step outer.State β)
    (rejected : DecodeError → inner.State → Step outer.State β)
    (hstep : ∀ state, outer.step (wrap state) = (inner.step state).graft wrap finished rejected)
    {state : inner.State} {bytes : Bytes} {run : Run outer.State Bytes β} :
    outer.Ends (wrap state) bytes run ↔
      ∃ r, inner.Ends state bytes r ∧ outer.GoesOn wrap finished rejected run r := by
  constructor
  · rintro ⟨hne, budget, hrun⟩
    induction budget generalizing state bytes with
    | zero => exact absurd hrun.symm hne
    | succ budget ih =>
        have hby : outer.EndsBy (outer.step (wrap state)) bytes run :=
          ends_iff.1 ⟨hne, budget + 1, hrun⟩
        cases hs : inner.step state using Step.casesRequest with
        | request step n resume hr =>
            subst hs
            have hreq := Step.request?_graft hr wrap finished rejected
            rw [← hstep] at hreq
            rw [run_succ_of_request hreq] at hrun
            split at hrun
            next hlt =>
              refine ⟨.reached .pending (resume bytes) [], ?_, hrun.symm⟩
              rw [ends_of_request hr, if_pos hlt]
            next hlt =>
              obtain ⟨r, hinner, hgo⟩ := ih hrun
              refine ⟨r, ?_, hgo⟩
              rw [ends_of_request hr, if_neg hlt]
              exact hinner
        | tick next events =>
            rw [hstep, hs] at hby
            rw [Decoder.run, hstep, hs] at hrun
            obtain ⟨r, hinner, hgo⟩ := ih hrun
            exact ⟨r, (ends_of_tick hs).2 hinner, hgo⟩
        | done value next =>
            rw [hstep, hs] at hby
            exact ⟨_, (ends_of_done hs).2 rfl, hby⟩
        | fail error next =>
            rw [hstep, hs] at hby
            exact ⟨_, (ends_of_fail hs).2 rfl, hby⟩
        | broken misuse =>
            rw [hstep, hs] at hby
            exact ⟨_, (ends_of_broken hs).2 rfl, hby⟩
  · rintro ⟨r, hr, hgo⟩
    induction hr using Ends.induct with
    | short state n resume bytes hreq hlt =>
        rw [ends_of_request (by rw [hstep]; exact Step.request?_graft hreq ..), if_pos hlt]
        exact hgo
    | request state n resume bytes r hreq hle _ ih =>
        rw [ends_of_request (by rw [hstep]; exact Step.request?_graft hreq ..), if_neg (by omega)]
        exact ih hgo
    | tick state next events bytes r hs _ ih =>
        rw [ends_of_tick (by rw [hstep, hs]; rfl)]
        exact ih hgo
    | done state value next bytes hs =>
        rw [ends_iff, hstep, hs]
        exact hgo
    | fail state error next bytes hs =>
        rw [ends_iff, hstep, hs]
        exact hgo
    | broken state misuse bytes hs =>
        rw [ends_of_broken (by rw [hstep, hs]; rfl)]
        exact hgo

theorem ends_embed (outer : Decoder β) (inner : Decoder α) (wrap spoiled : inner.State → outer.State)
    (finished : α → inner.State → Step outer.State β)
    (hstep : ∀ state, outer.step (wrap state) = (inner.step state).embed wrap spoiled finished)
    {state : inner.State} {bytes : Bytes} {run : Run outer.State Bytes β} :
    outer.Ends (wrap state) bytes run ↔ ∃ r, inner.Ends state bytes r ∧
      outer.GoesOn wrap finished (fun error state => .fail error (spoiled state)) run r :=
  ends_graft outer inner wrap finished _ fun state => (hstep state).trans (Step.embed_eq_graft ..)

section Embed

variable (outer : Decoder β) (inner : Decoder α) (wrap spoiled : inner.State → outer.State)
  (finished : α → inner.State → Step outer.State β)
  (hstep : ∀ state, outer.step (wrap state) = (inner.step state).embed wrap spoiled finished)

include hstep

theorem ends_embed_of_done {state next : inner.State} {bytes rest : Bytes} {value : α}
    (h : inner.Ends state bytes (.reached (.done value) next rest))
    {run : Run outer.State Bytes β} :
    outer.Ends (wrap state) bytes run ↔ outer.EndsBy (finished value next) rest run := by
  rw [ends_embed outer inner wrap spoiled finished hstep]
  constructor
  · rintro ⟨r, hr, hgo⟩
    cases h.unique hr
    exact hgo
  · intro hgo
    exact ⟨_, h, hgo⟩

theorem ends_embed_of_pending {state next : inner.State} {bytes rest : Bytes}
    (h : inner.Ends state bytes (.reached .pending next rest)) :
    outer.Ends (wrap state) bytes (.reached .pending (wrap next) rest) :=
  (ends_embed outer inner wrap spoiled finished hstep).2 ⟨_, h, rfl⟩

theorem ends_embed_of_failed {state next : inner.State} {bytes rest : Bytes} {error : DecodeError}
    (h : inner.Ends state bytes (.reached (.failed error) next rest)) :
    outer.Ends (wrap state) bytes (.reached (.failed error) (spoiled next) rest) :=
  (ends_embed outer inner wrap spoiled finished hstep).2 ⟨_, h, rfl⟩

/-- The machine around answers a value only behind a value of the inner one. -/
theorem ends_embed_done_iff {state : inner.State} {bytes rest : Bytes} {value : β}
    {next : outer.State} :
    outer.Ends (wrap state) bytes (.reached (.done value) next rest) ↔
      ∃ first last middle, inner.Ends state bytes (.reached (.done first) last middle) ∧
        outer.EndsBy (finished first last) middle (.reached (.done value) next rest) := by
  constructor
  · intro h
    obtain ⟨r, hr, hgo⟩ := (ends_embed outer inner wrap spoiled finished hstep).1 h
    match r, hgo with
    | .reached (.done first) last middle, hgo => exact ⟨first, last, middle, hr, hgo⟩
    | .reached .pending _ _, hgo => cases hgo
    | .reached (.failed _) _ _, hgo => cases hgo
    | .broken _, hgo => cases hgo
  · rintro ⟨first, last, middle, hfirst, hgo⟩
    exact (ends_embed_of_done outer inner wrap spoiled finished hstep hfirst).2 hgo

end Embed

/-! ## Adapters behind a value -/

section

variable {d : Decoder α} {state next : d.State} {bytes rest : Bytes} {value : α}

theorem ends_map_done_iff {f : α → β} {result : β} :
    (d.map f).Ends state bytes (.reached (.done result) next rest) ↔
      ∃ value, d.Ends state bytes (.reached (.done value) next rest) ∧ f value = result := by
  refine (ends_embed_done_iff (d.map f) d (fun state => state) (fun state => state) _
    fun _ => rfl).trans ?_
  constructor
  · rintro ⟨value, last, middle, hvalue, hgo⟩
    cases hgo
    exact ⟨value, hvalue, rfl⟩
  · rintro ⟨value, hvalue, rfl⟩
    exact ⟨value, next, rest, hvalue, rfl⟩

theorem ends_tryMap_done_iff {f : α → Except DecodeError β} {result : β} :
    (d.tryMap f).Ends state bytes (.reached (.done result) next rest) ↔
      ∃ value, d.Ends state bytes (.reached (.done value) next rest) ∧ f value = .ok result := by
  refine (ends_embed_done_iff (d.tryMap f) d (fun state => state) (fun state => state) _
    fun _ => rfl).trans ?_
  constructor
  · rintro ⟨value, last, middle, hvalue, hgo⟩
    cases hf : f value with
    | ok result' =>
        rw [hf] at hgo
        cases hgo
        exact ⟨value, hvalue, hf⟩
    | error error =>
        rw [hf] at hgo
        cases hgo
  · rintro ⟨value, hvalue, hf⟩
    refine ⟨value, next, rest, hvalue, ?_⟩
    rw [hf]
    rfl

theorem ends_tryMap_of_done (h : d.Ends state bytes (.reached (.done value) next rest))
    (f : α → Except DecodeError β) {run : Run d.State Bytes β} :
    (d.tryMap f).Ends state bytes run ↔ run = .reached (.ofExcept (f value)) next rest := by
  refine (ends_embed_of_done (d.tryMap f) d (fun state => state) (fun state => state) _
    (fun _ => rfl) h).trans ?_
  cases f value <;> exact Iff.rfl

theorem ends_andThen_of_done (h : d.Ends state bytes (.reached (.done value) next rest))
    (f : α → Decoder β) {run : Run (d.andThen f).State Bytes β} :
    (d.andThen f).Ends ⟨state, none⟩ bytes run ↔
      (d.andThen f).Ends ⟨next, some ⟨value, (f value).start⟩⟩ rest run :=
  ends_embed_of_done (d.andThen f) d (⟨·, none⟩) (⟨·, none⟩) _ (fun _ => rfl) h

theorem exists_ends_andThen (first : d.State) {f : α → Decoder β} {second last : (f value).State}
    {outcome : Outcome β} (h : (f value).Ends second bytes (.reached outcome last rest)) :
    ∃ last, (d.andThen f).Ends ⟨first, some ⟨value, second⟩⟩ bytes (.reached outcome last rest) := by
  have hgraft := @ends_embed _ _ (d.andThen f) (f value) (fun second => ⟨first, some ⟨value, second⟩⟩)
    (fun second => ⟨first, some ⟨value, second⟩⟩) (fun result _ => .done result ⟨first, none⟩)
    (fun _ => rfl) second bytes
  cases outcome with
  | done result => exact ⟨⟨first, none⟩, hgraft.2 ⟨_, h, rfl⟩⟩
  | pending => exact ⟨_, hgraft.2 ⟨_, h, rfl⟩⟩
  | failed error => exact ⟨_, hgraft.2 ⟨_, h, rfl⟩⟩

end

end Decoder

end Piecemeal
