/-
# Decoders that cannot be told apart

Two decoders of one type of values are the same to their user if every sequence of calls shows the
same outcomes and leaves the same bytes, `Decoder.Shows`.  Inside they may be quite different: what
one does in a step the other does in five.

`Decoder.Bisimulation` is the argument for that.  It is a relation of states under which both
decoders come, after finitely many steps without the source, to steps that ask for the same bytes
or give the same answer (`Step.Agrees`), or to states that are related again.  In the latter case
both have to take a step, so that one of them does not go on for ever while the other answers.

    Bisimulation a b P → P s s' → (a.Shows s slices ends ↔ b.Shows s' slices ends)

First comes one call: it ends in the second decoder as it does in the first, and in related states,
`BisimulationUnless.ends`.  Then come calls in turn, by induction on the slices.

`BisimulationUnless E E'` is the same up to errors: one of the two may give up with an error of a
kind that the other does not know.  Up to that call they show the same, `SameUnless`, and in that
call the other comes to a state with the same bytes left, `BisimulationUnless.comes_to`.  What is
said of calls is proved for this relation; a bisimulation is the case in which nobody gives up.

`Decoder.Renewable` is the contract of decoders in the same terms: used for one value after
another, a decoder goes on as one that is made anew for each of them.  `Renews` is the case in
which it does so because it is back in the state in which it was made, so the library's own
decoders keep the contract, `Standard.renewable`.
-/
import Piecemeal.Proofs.Freshness
import Piecemeal.Proofs.Histories

namespace Piecemeal

/-! ## Steps that agree -/

namespace Step

variable {σ τ α β : Type}

/-- Both steps ask for the same bytes, go on without the source, answer values that `V` relates, or
end with the same error or misuse.  The states they lead to are related by `P` inside a value, and by
`D` behind it. -/
inductive Agrees (V : α → β → Prop) (P D : σ → τ → Prop) : Step σ α → Step τ β → Prop
  | request {step : Step σ α} {step' : Step τ β} {n : Nat} {resume : Bytes → σ}
      {resume' : Bytes → τ} :
      step.request? = some (n, resume) → step'.request? = some (n, resume') →
      (∀ bytes : Bytes, bytes.length ≤ n → P (resume bytes) (resume' bytes)) →
      Agrees V P D step step'
  | tick {state : σ} {state' : τ} (events events' : List Event) :
      P state state' → Agrees V P D (.tick state events) (.tick state' events')
  | done {value : α} {value' : β} {state : σ} {state' : τ} :
      V value value' → D state state' → Agrees V P D (.done value state) (.done value' state')
  | fail (error : DecodeError) (state : σ) (state' : τ) :
      Agrees V P D (.fail error state) (.fail error state')
  | broken (misuse : Misuse) : Agrees V P D (.broken misuse) (.broken misuse)

variable {V V' : α → β → Prop} {P D P' D' : σ → τ → Prop} {step : Step σ α} {step' : Step τ β}

theorem Agrees.mono (h : step.Agrees V P D step') (hV : ∀ v v', V v v' → V' v v')
    (hP : ∀ s s', P s s' → P' s s') (hD : ∀ s s', D s s' → D' s s') :
    step.Agrees V' P' D' step' := by
  cases h with
  | request hreq hreq' hnext =>
      exact .request hreq hreq' fun bytes hlen => hP _ _ (hnext bytes hlen)
  | tick events events' hnext => exact .tick events events' (hP _ _ hnext)
  | done hvalue hnext => exact .done (hV _ _ hvalue) (hD _ _ hnext)
  | fail error state state' => exact .fail error state state'
  | broken misuse => exact .broken misuse

theorem Agrees.symm (h : step.Agrees V P D step') :
    step'.Agrees (fun value value' => V value' value) (fun s s' => P s' s) (fun s s' => D s' s)
      step := by
  cases h with
  | request hreq hreq' hnext => exact .request hreq' hreq hnext
  | tick events events' hnext => exact .tick events' events hnext
  | done hvalue hnext => exact .done hvalue hnext
  | fail error state state' => exact .fail error state' state
  | broken misuse => exact .broken misuse

theorem Agrees.refl (step : Step σ α) : step.Agrees Eq Eq Eq step := by
  cases step using Step.casesRequest with
  | request step n resume hreq => exact .request hreq hreq fun _ _ => rfl
  | tick state events => exact .tick events events rfl
  | done value state => exact .done rfl rfl
  | fail error state => exact .fail error state state
  | broken misuse => exact .broken misuse

theorem Agrees.map {γ δ : Type} {W : γ → δ → Prop} (h : step.Agrees V P D step') (f : α → γ)
    (f' : β → δ) (hW : ∀ v v', V v v' → W (f v) (f' v')) :
    (step.embed id id fun value state => .done (f value) state).Agrees W P D
      (step'.embed id id fun value state => .done (f' value) state) := by
  cases h with
  | request hreq hreq' hnext =>
      rw [embed_eq_graft, embed_eq_graft]
      exact .request (request?_graft hreq ..) (request?_graft hreq' ..) hnext
  | tick events events' hnext => exact .tick events events' hnext
  | done hvalue hnext => exact .done (hW _ _ hvalue) hnext
  | fail error state state' => exact .fail error state state'
  | broken misuse => exact .broken misuse

theorem embed_id (step : Step σ α) :
    (step.embed id id fun value state => .done (id value) state) = step := by
  cases step <;> rfl

end Step

namespace Decoder

variable {α β : Type}

/-! ## The contract -/

/-- Used for value after value from `s` on, the decoder keeps pace with one in `s'` that is made anew
for each further value. -/
def KeepsPace (d : Decoder α) (s s' : d.State) : Prop :=
  ∃ R : d.State → d.State → Prop, R s s' ∧ ∀ t t', R t t' →
    (d.step t).Agrees Eq R (fun next _ => R next d.start) (d.step t')

/-- When it has answered a value the decoder is ready for the next one: in use it cannot be told from
decoders that are made anew. -/
def Renewable (d : Decoder α) : Prop := d.KeepsPace d.start d.start

theorem KeepsPace.step {d : Decoder α} {s s' : d.State} (h : d.KeepsPace s s') :
    (d.step s).Agrees Eq d.KeepsPace (fun next _ => d.KeepsPace next d.start) (d.step s') := by
  obtain ⟨R, hR, hstep⟩ := h
  exact (hstep s s' hR).mono (fun _ _ hvalue => hvalue) (fun t t' ht => ⟨R, ht, hstep⟩)
    fun t _ ht => ⟨R, ht, hstep⟩

theorem Renews.renewable {d : Decoder α} (h : d.Renews) : d.Renewable := by
  refine ⟨fun s s' => s = s' ∧ d.Midway s, ⟨rfl, h⟩, ?_⟩
  rintro s _ ⟨rfl, hs⟩
  have hstep := hs.step
  cases hd : d.step s using Step.casesRequest with
  | request step n resume hreq =>
      subst hd
      exact .request hreq hreq fun bytes _ => ⟨rfl, hstep.of_request hreq trivial⟩
  | tick state events =>
      rw [hd] at hstep
      exact .tick events events ⟨rfl, hstep⟩
  | done value state =>
      rw [hd] at hstep
      obtain rfl : state = d.start := hstep
      exact .done rfl ⟨rfl, h⟩
  | fail error state => exact .fail error state state
  | broken misuse => exact .broken misuse

theorem Standard.renewable {d : Decoder α} (h : d.Standard) : d.Renewable := h.renews.renewable

/-! ## Bisimulations -/

section Bisimulation

variable {a : Decoder α} {b : Decoder α} {P : a.State → b.State → Prop}

/-- Without the source both decoders come to steps that agree, or each takes a step, and they come to
related states. -/
inductive Meets (a b : Decoder α) (P : a.State → b.State → Prop) (s : a.State) (s' : b.State) :
    Prop
  | now {t : a.State} {t' : b.State} :
      a.Idles s t → b.Idles s' t' → (a.step t).Agrees Eq P P (b.step t') → Meets a b P s s'
  | later {next t : a.State} {next' t' : b.State} {events events' : List Event} :
      a.step s = .tick next events → a.Idles next t →
      b.step s' = .tick next' events' → b.Idles next' t' → P t t' → Meets a b P s s'

/-- Related states behave alike, and lead to related states. -/
def Bisimulation (a b : Decoder α) (P : a.State → b.State → Prop) : Prop :=
  ∀ s s', P s s' → Meets a b P s s'

theorem Meets.symm {s : a.State} {s' : b.State} (h : Meets a b P s s') :
    Meets b a (fun s' s => P s s') s' s := by
  cases h with
  | now hidles hidles' hagrees =>
      refine .now hidles' hidles (hagrees.symm.mono ?_ (fun _ _ h => h) fun _ _ h => h)
      exact fun _ _ hvalue => hvalue.symm
  | later hs hidles hs' hidles' hP => exact .later hs' hidles' hs hidles hP

theorem Bisimulation.symm (h : Bisimulation a b P) : Bisimulation b a fun s' s => P s s' :=
  fun s' s hs => (h s s' hs).symm

/-- Two inner machines agree on a step, so the decoders around them meet, if they do behind a value and
behind a rejection. -/
theorem meets_of_graft {σ τ ε ζ : Type} {V : ε → ζ → Prop} {Q D : σ → τ → Prop}
    {inner : Step σ ε} {inner' : Step τ ζ} (h : inner.Agrees V Q D inner') {s : a.State}
    {s' : b.State} {wrap : σ → a.State} {finished : ε → σ → Step a.State α}
    {rejected : DecodeError → σ → Step a.State α} {wrap' : τ → b.State}
    {finished' : ζ → τ → Step b.State α} {rejected' : DecodeError → τ → Step b.State α}
    (hs : a.step s = inner.graft wrap finished rejected)
    (hs' : b.step s' = inner'.graft wrap' finished' rejected')
    (hwrap : ∀ x x', Q x x' → P (wrap x) (wrap' x'))
    (hdone : ∀ v v' x x', V v v' → D x x' → a.step s = finished v x → b.step s' = finished' v' x' →
      Meets a b P s s')
    (hfail : ∀ error x x', a.step s = rejected error x → b.step s' = rejected' error x' →
      Meets a b P s s') : Meets a b P s s' := by
  cases h with
  | request hreq hreq' hnext =>
      refine .now (.here s) (.here s') ?_
      rw [hs, hs']
      exact .request (Step.request?_graft hreq ..) (Step.request?_graft hreq' ..)
        fun bytes hlen => hwrap _ _ (hnext bytes hlen)
  | tick events events' hnext =>
      refine .now (.here s) (.here s') ?_
      rw [hs, hs']
      exact .tick events events' (hwrap _ _ hnext)
  | done hvalue hnext => exact hdone _ _ _ _ hvalue hnext hs hs'
  | fail error state state' => exact hfail error state state' hs hs'
  | broken misuse =>
      refine .now (.here s) (.here s') ?_
      rw [hs, hs']
      exact .broken misuse

end Bisimulation

end Decoder

/-- Both runs end with the same outcome and the same bytes left, and in related states unless the
data was rejected. -/
inductive Run.Agrees {σ τ α : Type} (P : σ → τ → Prop) : Run σ Bytes α → Run τ Bytes α → Prop
  | reached {outcome : Outcome α} {state : σ} {state' : τ} (rest : Bytes) :
      ((∀ error, outcome ≠ .failed error) → P state state') →
      Agrees P (.reached outcome state rest) (.reached outcome state' rest)
  | broken (misuse : Misuse) : Agrees P (.broken misuse) (.broken misuse)

theorem Run.Agrees.symm {σ τ α : Type} {P : σ → τ → Prop} {run : Run σ Bytes α}
    {run' : Run τ Bytes α} (h : run.Agrees P run') : run'.Agrees (fun s' s => P s s') run := by
  cases h with
  | reached rest hnext => exact .reached rest hnext
  | broken misuse => exact .broken misuse

namespace Decoder

section Calls

variable {α : Type} {a b : Decoder α} {P : a.State → b.State → Prop}

/-! ## Bisimulations up to errors -/

/-- Without the source the decoder comes to reject the data, with an error of this kind. -/
def GivesUp (d : Decoder α) (E : DecodeError → Prop) (s : d.State) : Prop :=
  ∃ last error next, d.Idles s last ∧ d.step last = .fail error next ∧ E error

/-- Related states behave alike, and lead to related states, unless the first decoder gives up with
an error in `E`, or the second with one in `E'`. -/
def BisimulationUnless (E E' : DecodeError → Prop) (a b : Decoder α)
    (P : a.State → b.State → Prop) : Prop :=
  ∀ s s', P s s' → Meets a b P s s' ∨ a.GivesUp E s ∨ b.GivesUp E' s'

variable {E E' : DecodeError → Prop}

theorem BisimulationUnless.symm (h : BisimulationUnless E E' a b P) :
    BisimulationUnless E' E b a fun s' s => P s s' := by
  intro s' s hs
  rcases h s s' hs with hmeets | hup | hup
  · exact .inl hmeets.symm
  · exact .inr (.inr hup)
  · exact .inr (.inl hup)

theorem Bisimulation.unless (h : Bisimulation a b P) :
    BisimulationUnless (fun _ => False) (fun _ => False) a b P :=
  fun s s' hs => .inl (h s s' hs)

theorem Bisimulation.of_unless
    (h : BisimulationUnless (fun _ => False) (fun _ => False) a b P) : Bisimulation a b P := by
  intro s s' hs
  rcases h s s' hs with hmeets | ⟨_, _, _, _, _, hnever⟩ | ⟨_, _, _, _, _, hnever⟩
  · exact hmeets
  · exact hnever.elim
  · exact hnever.elim

/-- How the call in `s'` ends if a call of another decoder on the same bytes has ended so: alike,
unless one of the two has given up.  If it is the other one, this call comes to a state with the same
bytes left. -/
inductive EndsUnless {σ : Type} (E E' : DecodeError → Prop) (b : Decoder α)
    (P : σ → b.State → Prop) (s' : b.State) (bytes : Bytes) : Run σ Bytes α → Prop
  | agrees {run : Run σ Bytes α} {run' : Run b.State Bytes α} :
      b.Ends s' bytes run' → run.Agrees P run' → EndsUnless E E' b P s' bytes run
  | first {error : DecodeError} {state : σ} {rest : Bytes} {last : b.State} :
      E error → b.Visits s' bytes last rest →
      EndsUnless E E' b P s' bytes (.reached (.failed error) state rest)
  | second {run : Run σ Bytes α} {error : DecodeError} {next : b.State} {rest : Bytes} :
      E' error → b.Ends s' bytes (.reached (.failed error) next rest) →
      EndsUnless E E' b P s' bytes run

theorem Idles.visits {d : Decoder α} {s t last : d.State} {bytes rest : Bytes}
    (h : d.Idles s t) (hvisits : d.Visits t bytes last rest) : d.Visits s bytes last rest := by
  induction h with
  | here s => exact hvisits
  | tick hs _ ih => exact .tick hs (ih hvisits)

/-- The call ends so in an earlier state, if that leads to the later one on these bytes. -/
theorem EndsUnless.of_later {σ : Type} {P : σ → b.State → Prop} {s' t' : b.State}
    {bytes later : Bytes} {run : Run σ Bytes α} (h : EndsUnless E E' b P t' later run)
    (hends : ∀ run, b.Ends t' later run → b.Ends s' bytes run)
    (hvisits : ∀ last rest, b.Visits t' later last rest → b.Visits s' bytes last rest) :
    EndsUnless E E' b P s' bytes run := by
  cases h with
  | agrees hrun hagrees => exact .agrees (hends _ hrun) hagrees
  | first herror hlast => exact .first herror (hvisits _ _ hlast)
  | second herror hrun => exact .second herror (hends _ hrun)

theorem endsUnless_of_agrees {t : a.State} {t' : b.State}
    (hagrees : (a.step t).Agrees Eq P P (b.step t')) {budget : Nat} {bytes : Bytes}
    {run : Run a.State Bytes α} (hrun : a.run (budget + 1) t bytes = run)
    (hlater : ∀ {s s' bytes}, P s s' → a.run budget s bytes = run →
      EndsUnless E E' b P s' bytes run) : EndsUnless E E' b P t' bytes run := by
  generalize hx : a.step t = x at hagrees
  generalize hy : b.step t' = y at hagrees
  cases hagrees with
  | @request _ _ n resume resume' hreq hreq' hnext =>
      subst hx hy
      rw [run_succ_of_request hreq] at hrun
      split at hrun
      next hlt =>
        subst hrun
        have hshort : b.Ends t' bytes (.reached .pending (resume' bytes) []) := by
          rw [ends_of_request hreq', if_pos hlt]
        exact .agrees hshort (.reached [] fun _ => hnext bytes (Nat.le_of_lt hlt))
      next hlt =>
        have hlen : (bytes.take n).length ≤ n := by rw [List.length_take]; omega
        refine (hlater (hnext _ hlen) hrun).of_later ?_ ?_
        · intro _ hrest
          rw [ends_of_request hreq', if_neg hlt]
          exact hrest
        · exact fun _ _ hlast => .request hreq' (Nat.not_lt.1 hlt) hlast
  | tick events events' hnext =>
      rw [Decoder.run, hx] at hrun
      refine (hlater hnext hrun).of_later ?_ ?_
      · exact fun _ hrest => (ends_of_tick hy).2 hrest
      · exact fun _ _ hlast => .tick hy hlast
  | done hvalue hnext =>
      subst hvalue
      rw [Decoder.run, hx] at hrun
      subst hrun
      exact .agrees ((ends_of_done hy).2 rfl) (.reached _ fun _ => hnext)
  | fail error state state' =>
      rw [Decoder.run, hx] at hrun
      subst hrun
      exact .agrees ((ends_of_fail hy).2 rfl) (.reached _ fun hok => absurd rfl (hok error))
  | broken misuse =>
      rw [Decoder.run, hx] at hrun
      subst hrun
      exact .agrees ((ends_of_broken hy).2 rfl) (.broken misuse)

/-- Calls in related states end alike, unless one of the decoders gives up. -/
theorem BisimulationUnless.ends (h : BisimulationUnless E E' a b P) {s : a.State} {s' : b.State}
    (hs : P s s') {bytes : Bytes} {run : Run a.State Bytes α} (hends : a.Ends s bytes run) :
    EndsUnless E E' b P s' bytes run := by
  obtain ⟨hne, budget, hrun⟩ := hends
  induction budget generalizing s s' bytes with
  | zero => exact absurd hrun.symm hne
  | succ budget ih =>
      rcases h s s' hs with hmeets | ⟨last, error, next, hidles, hfail, herror⟩ |
        ⟨last, error, next, hidles, hfail, herror⟩
      · cases hmeets with
        | later hstep hidles hstep' hidles' ht =>
            rw [Decoder.run, hstep] at hrun
            refine (ih ht (hidles.run hrun hne)).of_later ?_ ?_
            · exact fun _ hrun' => (ends_of_tick hstep').2 (hidles'.ends_iff.2 hrun')
            · exact fun _ _ hlast => .tick hstep' (hidles'.visits hlast)
        | @now _ t' hidles hidles' hagrees =>
            have hnow : EndsUnless E E' b P t' bytes run :=
              endsUnless_of_agrees hagrees (hidles.run hrun hne) fun ht hrest => ih ht hrest
            refine hnow.of_later ?_ ?_
            · exact fun _ => hidles'.ends_iff.2
            · exact fun _ _ => hidles'.visits
      · have hgiven : a.Ends s bytes (.reached (.failed error) next bytes) :=
          hidles.ends_iff.2 ((ends_of_fail hfail).2 rfl)
        obtain rfl := hgiven.unique ⟨hne, _, hrun⟩
        exact .first herror (.here s' bytes)
      · exact .second herror (hidles.ends_iff.2 ((ends_of_fail hfail).2 rfl))

theorem Bisimulation.ends (h : Bisimulation a b P) {s : a.State} {s' : b.State} (hs : P s s')
    {bytes : Bytes} {run : Run a.State Bytes α} (hends : a.Ends s bytes run) :
    ∃ run', b.Ends s' bytes run' ∧ run.Agrees P run' := by
  cases h.unless.ends hs hends with
  | agrees hrun hagrees => exact ⟨_, hrun, hagrees⟩
  | first hnever => exact hnever.elim
  | second hnever => exact hnever.elim

/-! ## Sequences of calls -/

/-- What the user sees of calls on these slices in turn: the outcome of each, and what it has left of
its slice.  Behind a rejection, or a misuse, there is no further call. -/
inductive Shows (d : Decoder α) : d.State → List Bytes → List (Run Unit Bytes α) → Prop
  | nothing (state : d.State) : Shows d state [] []
  | answered {state next : d.State} {slice rest : Bytes} {slices : List Bytes}
      {outcome : Outcome α} {ends : List (Run Unit Bytes α)} :
      d.Ends state slice (.reached outcome next rest) → (∀ error, outcome ≠ .failed error) →
      Shows d next slices ends →
      Shows d state (slice :: slices) (.reached outcome () rest :: ends)
  | rejected {state next : d.State} {slice rest : Bytes} {slices : List Bytes}
      {error : DecodeError} :
      d.Ends state slice (.reached (.failed error) next rest) →
      Shows d state (slice :: slices) [.reached (.failed error) () rest]
  | broken {state : d.State} {slice : Bytes} {slices : List Bytes} {misuse : Misuse} :
      d.Ends state slice (.broken misuse) → Shows d state (slice :: slices) [.broken misuse]

/-- Calls on these slices in turn lead to this state, and none of them rejects its data. -/
inductive Reaches (d : Decoder α) : d.State → List Bytes → d.State → Prop
  | nothing (state : d.State) : Reaches d state [] state
  | answered {state next last : d.State} {slice rest : Bytes} {slices : List Bytes}
      {outcome : Outcome α} :
      d.Ends state slice (.reached outcome next rest) → (∀ error, outcome ≠ .failed error) →
      Reaches d next slices last → Reaches d state (slice :: slices) last

theorem Bisimulation.reaches (h : Bisimulation a b P) {s t : a.State} {s' t' : b.State}
    (hs : P s s') {slices : List Bytes} (ht : a.Reaches s slices t) (ht' : b.Reaches s' slices t') :
    P t t' := by
  induction ht generalizing s' with
  | nothing s => cases ht' with | nothing => exact hs
  | answered hends hok _ ih =>
      cases ht' with
      | answered hends' hok' hreaches' =>
          obtain ⟨run', hrun', hagrees⟩ := h.ends hs hends
          cases hrun'.unique hends'
          cases hagrees with
          | reached _ hnext => exact ih (hnext hok) hreaches'

theorem shows_of_ends (h : ∀ s s', P s s' → ∀ bytes run, a.Ends s bytes run →
      ∃ run', b.Ends s' bytes run' ∧ run.Agrees P run') {s : a.State} {s' : b.State}
    (hs : P s s') {slices : List Bytes} {ends : List (Run Unit Bytes α)}
    (hshows : a.Shows s slices ends) : b.Shows s' slices ends := by
  induction hshows generalizing s' with
  | nothing s => exact .nothing s'
  | answered hrun hok _ ih =>
      obtain ⟨_, hrun', hagrees⟩ := h _ _ hs _ _ hrun
      cases hagrees with
      | reached rest hnext => exact .answered hrun' hok (ih (hnext hok))
  | rejected hrun =>
      obtain ⟨_, hrun', hagrees⟩ := h _ _ hs _ _ hrun
      cases hagrees with
      | reached => exact .rejected hrun'
  | broken hrun =>
      obtain ⟨_, hrun', hagrees⟩ := h _ _ hs _ _ hrun
      cases hagrees with
      | broken => exact .broken hrun'

theorem Bisimulation.shows_iff (h : Bisimulation a b P) {s : a.State} {s' : b.State}
    (hs : P s s') (slices : List Bytes) (ends : List (Run Unit Bytes α)) :
    a.Shows s slices ends ↔ b.Shows s' slices ends :=
  ⟨shows_of_ends (fun _ _ hs _ _ => h.ends hs) hs,
    shows_of_ends (fun _ _ hs _ _ => h.symm.ends hs) hs⟩

/-- Two calls on the same bytes end alike, or neither of them ends. -/
def EndAlike (a b : Decoder α) (P : a.State → b.State → Prop) (s : a.State) (s' : b.State)
    (bytes : Bytes) : Prop :=
  (∃ run, a.Ends s bytes run) ∨ (∃ run', b.Ends s' bytes run') →
    ∃ run run', a.Ends s bytes run ∧ b.Ends s' bytes run' ∧ run.Agrees P run'

theorem shows_iff_of_endAlike (h : ∀ s s', P s s' → ∀ bytes, EndAlike a b P s s' bytes)
    {s : a.State} {s' : b.State} (hs : P s s') (slices : List Bytes)
    (ends : List (Run Unit Bytes α)) : a.Shows s slices ends ↔ b.Shows s' slices ends := by
  constructor
  · refine shows_of_ends (fun s s' hs bytes run hrun => ?_) hs
    obtain ⟨_, run', hrun₁, hrun', hagrees⟩ := h s s' hs bytes (.inl ⟨run, hrun⟩)
    obtain rfl := hrun.unique hrun₁
    exact ⟨run', hrun', hagrees⟩
  · refine shows_of_ends (P := fun s' s => P s s') (fun s' s hs bytes run' hrun' => ?_) hs
    obtain ⟨run, _, hrun, hrun₁, hagrees⟩ := h s s' hs bytes (.inr ⟨run', hrun'⟩)
    obtain rfl := hrun'.unique hrun₁
    exact ⟨run, hrun, hagrees.symm⟩

/-! ## Sequences of calls up to errors -/

section Shows

variable {d : Decoder α} {state next : d.State} {slice rest : Bytes} {slices : List Bytes}
  {ends : List (Run Unit Bytes α)}

theorem Shows.of_answered (h : d.Shows state (slice :: slices) ends) {outcome : Outcome α}
    (hrun : d.Ends state slice (.reached outcome next rest))
    (hok : ∀ error, outcome ≠ .failed error) :
    ∃ more, ends = .reached outcome () rest :: more ∧ d.Shows next slices more := by
  cases h with
  | answered hrun' _ hrest => cases hrun.unique hrun'; exact ⟨_, rfl, hrest⟩
  | rejected hrun' => cases hrun.unique hrun'; exact absurd rfl (hok _)
  | broken hrun' => cases hrun.unique hrun'

theorem Shows.of_rejected (h : d.Shows state (slice :: slices) ends) {error : DecodeError}
    (hrun : d.Ends state slice (.reached (.failed error) next rest)) :
    ends = [.reached (.failed error) () rest] := by
  cases h with
  | answered hrun' hok => cases hrun.unique hrun'; exact absurd rfl (hok _)
  | rejected hrun' => cases hrun.unique hrun'; rfl
  | broken hrun' => cases hrun.unique hrun'

theorem Shows.of_broken (h : d.Shows state (slice :: slices) ends) {misuse : Misuse}
    (hrun : d.Ends state slice (.broken misuse)) : ends = [.broken misuse] := by
  cases h with
  | answered hrun' => cases hrun.unique hrun'
  | rejected hrun' => cases hrun.unique hrun'
  | broken hrun' => cases hrun.unique hrun'; rfl

end Shows

/-- What the user sees is the same until one of the decoders gives up: the first with an error in `E`
or the second with one in `E'`. -/
inductive SameUntil (E E' : DecodeError → Prop) :
    List (Run Unit Bytes α) → List (Run Unit Bytes α) → Prop
  | nothing : SameUntil E E' [] []
  | call (run : Run Unit Bytes α) {ends ends' : List (Run Unit Bytes α)} :
      SameUntil E E' ends ends' → SameUntil E E' (run :: ends) (run :: ends')
  | first {error : DecodeError} (rest : Bytes) (ends ends' : List (Run Unit Bytes α)) :
      E error → SameUntil E E' (.reached (.failed error) () rest :: ends) ends'
  | second {error : DecodeError} (rest : Bytes) (ends ends' : List (Run Unit Bytes α)) :
      E' error → SameUntil E E' ends (.reached (.failed error) () rest :: ends')

/-- No call is rejected with an error of this kind. -/
def Spared (E : DecodeError → Prop) (ends : List (Run Unit Bytes α)) : Prop :=
  ∀ error rest, .reached (.failed error) () rest ∈ ends → ¬ E error

theorem Spared.tail {run : Run Unit Bytes α} {ends : List (Run Unit Bytes α)}
    (h : Spared E (run :: ends)) : Spared E ends :=
  fun error rest hmem => h error rest (List.mem_cons_of_mem _ hmem)

theorem Spared.head {error : DecodeError} {rest : Bytes} {ends : List (Run Unit Bytes α)}
    (h : Spared E (.reached (.failed error) () rest :: ends)) : ¬ E error :=
  h error rest List.mem_cons_self

theorem SameUntil.eq {ends ends' : List (Run Unit Bytes α)} (h : SameUntil E E' ends ends')
    (hE : Spared E ends) (hE' : Spared E' ends') : ends' = ends := by
  induction h with
  | nothing => rfl
  | call run _ ih => rw [ih hE.tail hE'.tail]
  | first rest ends ends' herror => exact absurd herror hE.head
  | second rest ends ends' herror => exact absurd herror hE'.head

section Unless

variable (h : BisimulationUnless E E' a b P) {s : a.State} {s' : b.State} (hs : P s s')
  {slices : List Bytes} {ends ends' : List (Run Unit Bytes α)}

include h hs

theorem BisimulationUnless.sameUntil (hshows : a.Shows s slices ends)
    (hshows' : b.Shows s' slices ends') : SameUntil E E' ends ends' := by
  induction hshows generalizing s' ends' with
  | nothing s => cases hshows'; exact .nothing
  | answered hrun hok _ ih =>
      cases h.ends hs hrun with
      | first => exact absurd rfl (hok _)
      | second herror hrun' => rw [hshows'.of_rejected hrun']; exact .second _ _ _ herror
      | agrees hrun' hagrees =>
          cases hagrees with
          | reached rest hnext =>
              obtain ⟨more, rfl, hmore⟩ := hshows'.of_answered hrun' hok
              exact .call _ (ih (hnext hok) hmore)
  | rejected hrun =>
      cases h.ends hs hrun with
      | first herror => exact .first _ _ _ herror
      | second herror hrun' => rw [hshows'.of_rejected hrun']; exact .second _ _ _ herror
      | agrees hrun' hagrees =>
          cases hagrees with
          | reached => rw [hshows'.of_rejected hrun']; exact .call _ .nothing
  | broken hrun =>
      cases h.ends hs hrun with
      | second herror hrun' => rw [hshows'.of_rejected hrun']; exact .second _ _ _ herror
      | agrees hrun' hagrees =>
          cases hagrees with
          | broken => rw [hshows'.of_broken hrun']; exact .call _ .nothing

/-- Where the first decoder shows something without giving up, the second does. -/
theorem BisimulationUnless.exists_shows (hshows : a.Shows s slices ends) (hE : Spared E ends) :
    ∃ ends', b.Shows s' slices ends' := by
  induction hshows generalizing s' with
  | nothing s => exact ⟨[], .nothing s'⟩
  | answered hrun hok _ ih =>
      cases h.ends hs hrun with
      | first => exact absurd rfl (hok _)
      | second herror hrun' => exact ⟨_, .rejected hrun'⟩
      | agrees hrun' hagrees =>
          cases hagrees with
          | reached rest hnext =>
              obtain ⟨ends', hends'⟩ := ih (hnext hok) hE.tail
              exact ⟨_, .answered hrun' hok hends'⟩
  | rejected hrun =>
      cases h.ends hs hrun with
      | first herror => exact absurd herror hE.head
      | second herror hrun' => exact ⟨_, .rejected hrun'⟩
      | agrees hrun' hagrees =>
          cases hagrees with
          | reached => exact ⟨_, .rejected hrun'⟩
  | broken hrun =>
      cases h.ends hs hrun with
      | second herror hrun' => exact ⟨_, .rejected hrun'⟩
      | agrees hrun' hagrees =>
          cases hagrees with
          | broken => exact ⟨_, .broken hrun'⟩

end Unless

/-- As far as calls can show, two new decoders are the same until one of them gives up with an error
in `E`.  Where one shows something without that, the other shows something, too. -/
structure SameUnless (E : DecodeError → Prop) (a b : Decoder α) : Prop where
  sameUntil {slices : List Bytes} {ends ends' : List (Run Unit Bytes α)} :
    a.Shows a.start slices ends → b.Shows b.start slices ends' → SameUntil E E ends ends'
  second {slices : List Bytes} {ends : List (Run Unit Bytes α)} :
    a.Shows a.start slices ends → Spared E ends → ∃ ends', b.Shows b.start slices ends'
  first {slices : List Bytes} {ends' : List (Run Unit Bytes α)} :
    b.Shows b.start slices ends' → Spared E ends' → ∃ ends, a.Shows a.start slices ends

theorem BisimulationUnless.sameUnless (h : BisimulationUnless E E a b P)
    (hstart : P a.start b.start) : SameUnless E a b where
  sameUntil hshows hshows' := h.sameUntil hstart hshows hshows'
  second hshows hE := h.exists_shows hstart hshows hE
  first hshows hE := h.symm.exists_shows hstart hshows hE

/-- Where the first decoder gives up, the second shows the same in the calls before, and in its call
on the same slice it comes to a state with the same bytes left. -/
theorem BisimulationUnless.comes_to (h : BisimulationUnless E (fun _ => False) a b P) {s : a.State}
    {s' : b.State} (hs : P s s') {slices : List Bytes} {front : List (Run Unit Bytes α)}
    {error : DecodeError} {rest : Bytes}
    (hshows : a.Shows s slices (front ++ [.reached (.failed error) () rest])) :
    ∃ seen slice unseen state last, slices = seen ++ slice :: unseen ∧ b.Shows s' seen front ∧
      b.Reaches s' seen state ∧ b.Visits state slice last rest := by
  induction front generalizing s s' slices with
  | nil =>
      cases hshows with
      | answered _ hok => exact absurd rfl (hok error)
      | @rejected _ next slice _ slices _ hrun =>
          cases h.ends hs hrun with
          | first _ hlast => exact ⟨[], slice, slices, s', _, rfl, .nothing s', .nothing s', hlast⟩
          | second hnever => exact hnever.elim
          | agrees hrun' hagrees =>
              cases hagrees with
              | reached =>
                  obtain ⟨last, hlast⟩ := hrun'.exists_visits
                  exact ⟨[], slice, slices, s', last, rfl, .nothing s', .nothing s', hlast⟩
  | cons run front ih =>
      rw [List.cons_append] at hshows
      generalize hlater : front ++ [Run.reached (.failed error) () rest] = later at hshows
      have hne : later ≠ [] := hlater ▸ List.append_ne_nil_of_right_ne_nil front (List.cons_ne_nil _ _)
      cases hshows with
      | rejected => exact absurd rfl hne
      | broken => exact absurd rfl hne
      | @answered _ next slice _ slices _ _ hrun hok hmore =>
          subst hlater
          cases h.ends hs hrun with
          | first => exact absurd rfl (hok _)
          | second hnever => exact hnever.elim
          | agrees hrun' hagrees =>
              cases hagrees with
              | reached _ hnext =>
                  obtain ⟨seen, slice', unseen, state, last, rfl, hseen, hreaches, hlast⟩ :=
                    ih (hnext hok) hmore
                  exact ⟨slice :: seen, slice', unseen, state, last, rfl, .answered hrun' hok hseen,
                    .answered hrun' hok hreaches, hlast⟩

end Calls

end Decoder

end Piecemeal
