/-
# A decoder that has answered is a new one

Decoders are used for value after value, and they are reset when something went wrong.  Nothing of
one value may show in the next: when a decoder has answered a value, and when it has been reset, it
is in the state in which it was made.

For resets that is so in every state, also in one in which data was rejected:

    d.Standard → d.reset state = d.start                                (`Standard.reset_eq_start`)

For values it is so as long as no data was rejected, and needs an invariant.  A state is `Midway`
if there is a predicate `P` of it that steps keep, and from which a value is answered in the state
at the start and in no other, `Step.Renews`; `d.Renews` if the start is.

  * A decoder without parts answers each value in the state at the start, wherever it is, `Plain`.
  * A part that is at rest inside an adapter has to be at its start, so the predicate of an adapter
    speaks of all of its parts, of the one at work and of those that wait.  In `andThen` and `both`
    the decoder that is not at work is at its start; in `skipAfter` all bytes are owed until the
    value is there; in `repeated` the decoder of the target and that of the elements are at work in
    turn, and with all elements there both are at their start.
  * A program answers its value and starts again in one step, `renews_program`.

So with `Standard.renews`, by induction on how a decoder is made, strings that are decoded in turn
are decoded each as by a decoder of its own.
-/
import Mathlib.Data.List.Forall2
import Piecemeal.Proofs.Flights
import Piecemeal.Proofs.Histories
import Piecemeal.Proofs.Standard

namespace Piecemeal

/-! ## Steps and runs -/

/-- The step stays within `P`, whatever the source gives, and answers a value only in the state
`fresh`.  Nothing is said of the state in which data was rejected. -/
def Step.Renews {σ α : Type} (P : σ → Prop) (fresh : σ) : Step σ α → Prop :=
  Leads (fun _ _ => True) P (fun _ state => state = fresh) (fun _ _ => True) fun _ => True

def Run.Renews {σ ι α : Type} (P : σ → Prop) (fresh : σ) : Run σ ι α → Prop :=
  Leads P (fun _ state => state = fresh) (fun _ _ => True) fun _ => True

theorem Step.Renews.embed {σ τ α β : Type} {P : σ → Prop} {P' : τ → Prop} {fresh : σ} {fresh' : τ}
    {step : Step σ α} {wrap spoiled : σ → τ} {finished : α → σ → Step τ β}
    (h : step.Renews P fresh) (hwrap : ∀ state, P state → P' (wrap state))
    (hfinished : ∀ value, (finished value fresh).Renews P' fresh') :
    (step.embed wrap spoiled finished).Renews P' fresh' := by
  refine Step.Leads.embed h hwrap ?_ fun _ _ h => h
  rintro value _ rfl
  exact hfinished value

namespace Decoder

variable {α β : Type}

/-! ## In the middle of a value -/

/-- The state is one in the middle of a value: there is an invariant under which values are answered
in the state at the start. -/
def Midway (d : Decoder α) (state : d.State) : Prop :=
  ∃ P : d.State → Prop, P state ∧ ∀ state, P state → (d.step state).Renews P d.start

/-- Values are answered in the state at the start. -/
def Renews (d : Decoder α) : Prop := d.Midway d.start

theorem Midway.step {d : Decoder α} {state : d.State} (h : d.Midway state) :
    (d.step state).Renews d.Midway d.start := by
  obtain ⟨P, hstate, hstep⟩ := h
  have hmidway : ∀ next, P next → d.Midway next := fun next hnext => ⟨P, hnext, hstep⟩
  exact (hstep state hstate).mono hmidway (fun _ _ h => h) (fun _ _ h => h) fun _ h => h

theorem Midway.run {ι : Type} [ByteSource ι] {d : Decoder α} {state : d.State}
    (h : d.Midway state) (budget : Nat) (source : ι) :
    (d.run budget state source).Renews d.Midway d.start :=
  run_leads (fun _ _ => trivial) (fun _ _ => trivial) (fun _ hstate => hstate.step) budget h source

/-! ## Decoders without parts -/

/-- A decoder without parts: whatever a step is given it goes on, or it answers and starts again, or
it rejects. -/
def Plain (d : Decoder α) : Prop :=
  ∀ state, (d.step state).Leads (fun _ _ => True) (fun _ => True)
    (fun _ next => next = d.start) (fun _ _ => True) fun _ => False

theorem plain_number (α : Type) [FixedWidth α] (order : ByteOrder) : (number α order).Plain := by
  intro (received : Bytes)
  simp only [number]
  split
  next => exact fun _ _ => trivial
  next => rfl

theorem plain_bool : bool.Plain := by
  intro (byte : Option UInt8)
  simp only [bool]
  split
  next => exact fun _ _ => trivial
  next => rfl
  next => rfl
  next => trivial

theorem plain_constant (value : α) : (constant value).Plain := fun _ => rfl

theorem plain_reject (error : DecodeError) : (reject error : Decoder α).Plain := fun _ => trivial

theorem plain_bytes (n : Nat) : (bytes n).Plain := by
  intro (received : Array UInt8)
  simp only [bytes]
  split
  next => exact fun _ _ => trivial
  next => rfl

theorem plain_terminated (marker : Bytes) : (terminated marker).Plain := by
  intro (received : Bytes)
  simp only [terminated]
  split
  next => rfl
  next => exact fun _ _ => trivial

theorem plain_skipBytes (n : Nat) : (skipBytes n).Plain := by
  intro (owed : Nat)
  simp only [skipBytes]
  split
  next => rfl
  next => exact fun _ _ => trivial

theorem Plain.renews {d : Decoder α} (h : d.Plain) : d.Renews := by
  refine ⟨fun _ => True, trivial, fun state _ => ?_⟩
  exact (h state).mono (fun _ h => h) (fun _ _ h => h) (fun _ _ h => h) fun _ _ => trivial

/-! ## Adapters -/

theorem Renews.map {d : Decoder α} (hd : d.Renews) (f : α → β) : (d.map f).Renews := by
  refine ⟨d.Midway, hd, fun state hstate => ?_⟩
  exact (Midway.step hstate).embed (fun _ h => h) fun _ => rfl

theorem Renews.tryMap {d : Decoder α} (hd : d.Renews) (f : α → Except DecodeError β) :
    (d.tryMap f).Renews := by
  refine ⟨d.Midway, hd, fun state hstate => (Midway.step hstate).embed (fun _ h => h) ?_⟩
  intro value
  cases f value with
  | ok value => rfl
  | error error => trivial

theorem Renews.andThen {d : Decoder α} {f : α → Decoder β} (hd : d.Renews)
    (hf : ∀ value, (f value).Renews) : (d.andThen f).Renews := by
  refine ⟨fun progress => match progress with
    | ⟨first, none⟩ => d.Midway first
    | ⟨first, some ⟨value, second⟩⟩ => first = d.start ∧ (f value).Midway second, hd, ?_⟩
  rintro ⟨first, _ | ⟨value, second⟩⟩ hstate
  · simp only [Decoder.andThen]
    refine Step.Renews.embed (Midway.step hstate) ?_ ?_
    · exact fun state h => h
    · exact fun value => ⟨rfl, hf value⟩
  · obtain ⟨rfl, hsecond⟩ := hstate
    simp only [Decoder.andThen]
    refine Step.Renews.embed hsecond.step ?_ ?_
    · exact fun state h => ⟨rfl, h⟩
    · exact fun result => rfl

/-- Of the two decoders the one that is not at work is at its start. -/
theorem Renews.both {a : Decoder α} {b : Decoder β} (ha : a.Renews) (hb : b.Renews) :
    (a.both b).Renews := by
  refine ⟨fun progress => match progress with
    | ⟨first, second, none⟩ => a.Midway first ∧ second = b.start
    | ⟨first, second, some _⟩ => first = a.start ∧ b.Midway second, ⟨ha, rfl⟩, ?_⟩
  rintro ⟨first, second, _ | left⟩ hstate
  · obtain ⟨hfirst, rfl⟩ := hstate
    simp only [Decoder.both]
    refine Step.Renews.embed hfirst.step ?_ ?_
    · exact fun state h => ⟨h, rfl⟩
    · exact fun left => ⟨rfl, hb⟩
  · obtain ⟨rfl, hsecond⟩ := hstate
    simp only [Decoder.both]
    refine Step.Renews.embed hsecond.step ?_ ?_
    · exact fun state h => ⟨rfl, h⟩
    · exact fun right => rfl

theorem Renews.skipAfter {d : Decoder α} (hd : d.Renews) (n : Nat) : (d.skipAfter n).Renews := by
  refine ⟨fun progress => match progress with
    | ⟨inner, owed, none⟩ => d.Midway inner ∧ owed = n
    | ⟨inner, _, some _⟩ => inner = d.start, ⟨hd, rfl⟩, ?_⟩
  rintro ⟨inner, owed, _ | value⟩ hstate
  · obtain ⟨hinner, rfl⟩ := hstate
    simp only [Decoder.skipAfter]
    refine Step.Renews.embed hinner.step ?_ ?_
    · exact fun state h => ⟨h, rfl⟩
    · exact fun value => rfl
  · obtain rfl : inner = d.start := hstate
    simp only [Decoder.skipAfter]
    split
    next => rfl
    next => exact fun _ _ => rfl

theorem renews_target {ε : Type} {bound : Bound ε}
    (h : ∀ size, bound = .prefixed size → size.Renews) : bound.target.Renews := by
  cases bound with
  | times n => exact (plain_constant _).renews
  | prefixed size => exact (h size rfl).map some
  | whileHolds predicate addLast => exact (plain_constant _).renews

/-- The decoder of the target and that of the elements are at work in turn.  The one that is not is
at its start, and with all elements there so are both. -/
theorem Renews.repeated {ε ρ : Type} {d : Decoder ε} {bound : Bound ε} (hd : d.Renews)
    (hbound : ∀ size, bound = .prefixed size → size.Renews) (c : Collector ε ρ) :
    (d.repeated bound c).Renews := by
  have htarget := renews_target hbound
  refine ⟨fun progress => match progress with
    | ⟨target, element, none⟩ => bound.target.Midway target ∧ element = d.start
    | ⟨target, element, some tally⟩ =>
        target = bound.target.start ∧ d.Midway element ∧
          (tally.isFull = true → element = d.start), ⟨htarget, rfl⟩, ?_⟩
  rintro ⟨target, element, _ | tally⟩ hstate
  · obtain ⟨htarget, rfl⟩ := hstate
    simp only [Decoder.repeated]
    refine Step.Renews.embed htarget.step ?_ ?_
    · exact fun state h => ⟨h, rfl⟩
    · exact fun n => ⟨rfl, hd, fun _ => rfl⟩
  · obtain ⟨rfl, helement, hfull⟩ := hstate
    simp only [Decoder.repeated]
    split
    next h => rw [hfull h]; rfl
    next h =>
      refine Step.Renews.embed helement.step ?_ ?_
      · exact fun state hstate => ⟨rfl, hstate, fun h' => absurd h' h⟩
      · intro value
        split
        next => rfl
        next => exact ⟨rfl, hd, fun _ => rfl⟩

/-! ## Programs -/

theorem renews_program {κ : Type} [Atom κ] {result : ValueType κ} (p : Program κ result) :
    p.decoder.Renews := by
  refine ⟨fun _ => True, trivial, fun (m : Machine p) _ => ?_⟩
  change m.step.Renews _ _
  by_cases hflight : ∃ index flight, m.phase = .decoding index flight
  · obtain ⟨index, flight, hphase⟩ := hflight
    obtain ⟨phase, frames, values⟩ := m
    obtain rfl : phase = .decoding index flight := hphase
    change (Machine.working index frames values flight).step.Renews _ _
    rw [Machine.step_working]
    cases (p.stage index).action.step flight with
    | read n resume => exact fun _ _ => trivial
    | skip n resume => exact fun _ _ => trivial
    | tick next events => trivial
    | done cell next => trivial
    | fail error next => trivial
    | broken misuse => trivial
  · have hunaided : Machine.Unaided m.step :=
      Machine.unaided_step fun index flight hphase => hflight ⟨index, flight, hphase⟩
    generalize m.step = step at hunaided
    cases hunaided with
    | tick => trivial
    | done => rfl
    | fail => trivial
    | broken => trivial

/-! ## Decoders made from parts -/

theorem Standard.renews {d : Decoder α} (h : d.Standard) : d.Renews := by
  induction h with
  | number α order => exact (plain_number α order).renews
  | bool => exact plain_bool.renews
  | constant value => exact (plain_constant value).renews
  | reject error => exact (plain_reject error).renews
  | bytes n => exact (plain_bytes n).renews
  | @terminated marker d h =>
      unfold terminated? at h
      split at h
      next => cases h
      next => cases h; exact (plain_terminated marker).renews
  | skipBytes n => exact (plain_skipBytes n).renews
  | map f _ ih => exact ih.map f
  | tryMap f _ ih => exact ih.tryMap f
  | andThen _ _ ih ihf => exact ih.andThen ihf
  | both _ _ iha ihb => exact iha.both ihb
  | skipAfter n _ ih => exact ih.skipAfter n
  | repeated c _ _ ih ihbound => exact ih.repeated ihbound c
  | composed => exact renews_program _

theorem Standard.reset_eq_start {d : Decoder α} (h : d.Standard) (state : d.State) :
    d.reset state = d.start := by
  induction h with
  | number α order => rfl
  | bool => rfl
  | constant value => rfl
  | reject error => rfl
  | bytes n => rfl
  | @terminated marker d h =>
      unfold terminated? at h
      split at h
      next => cases h
      next => cases h; rfl
  | skipBytes n => rfl
  | map f _ ih => exact ih state
  | tryMap f _ ih => exact ih state
  | andThen _ _ ih ihf => simp only [Decoder.andThen, ih]
  | both _ _ iha ihb => simp only [Decoder.both, iha, ihb]
  | skipAfter n _ ih => simp only [Decoder.skipAfter, ih]
  | @repeated ε ρ d bound c _ _ ih ihbound =>
      have htarget : bound.target.reset state.target = bound.target.start := by
        cases bound with
        | times n => rfl
        | prefixed size => exact ihbound size rfl state.target
        | whileHolds predicate addLast => rfl
      simp only [Decoder.repeated, htarget, ih]
  | composed => rfl

/-! ## What is seen of a decoder -/

/-- The states that a decoder comes to without a rejection since it was made or last reset, whatever
it was fed from.  The reset may have come at any time, also behind a rejection. -/
inductive Live (d : Decoder α) : d.State → Prop
  | made : Live d d.start
  | decoded {ι : Type} [ByteSource ι] {budget : Nat} {state next : d.State} {source rest : ι}
      {outcome : Outcome α} :
      Live d state → d.run budget state source = .reached outcome next rest →
      (∀ error, outcome ≠ .failed error) → Live d next
  | reset (state : d.State) : Live d (d.reset state)

/-- What is seen of a decoder that is fed one source after another: the end of every call, with its
outcome and what is left unread.  Behind a call that does not answer there is no further one. -/
def seen {ι : Type} [ByteSource ι] (d : Decoder α) (budget : Nat) :
    d.State → List ι → List (Run Unit ι α)
  | _, [] => []
  | state, source :: feeds =>
      match d.run budget state source with
      | .reached outcome next rest => .reached outcome () rest :: d.seen budget next feeds
      | .broken misuse => [.broken misuse]
      | .exhausted => [.exhausted]

/-- No sequence of feeds tells the two states apart. -/
def Alike (d : Decoder α) (state state' : d.State) : Prop :=
  ∀ {ι : Type} [ByteSource ι] (budget : Nat) (feeds : List ι),
    d.seen budget state feeds = d.seen budget state' feeds

/-- `DecodesEach d state strings outcomes`: from this state on the strings, each of them taken for
all the bytes there are, are decoded in turn with these outcomes. -/
inductive DecodesEach (d : Decoder α) : d.State → List Bytes → List (Outcome α) → Prop
  | nil (state : d.State) : DecodesEach d state [] []
  | cons {budget : Nat} {state next : d.State} {bytes rest : Bytes} {outcome : Outcome α}
      {strings : List Bytes} {outcomes : List (Outcome α)} :
      (⟨d, state⟩ : Session α).decodeAll budget bytes = .reached outcome next rest →
      DecodesEach d next strings outcomes →
      DecodesEach d state (bytes :: strings) (outcome :: outcomes)

theorem Standard.midway_of_live {d : Decoder α} (h : d.Standard) {state : d.State}
    (hlive : d.Live state) : d.Midway state := by
  induction hlive with
  | made => exact h.renews
  | @decoded ι _ budget state next source rest outcome _ hrun houtcome ih =>
      have hkeeps := ih.run budget source
      rw [hrun] at hkeeps
      cases outcome with
      | done value =>
          obtain rfl : next = d.start := hkeeps
          exact h.renews
      | pending => exact hkeeps
      | failed error => exact absurd rfl (houtcome error)
  | reset state =>
      rw [h.reset_eq_start]
      exact h.renews

/-- However a string is decoded, the decoder is at its start afterwards. -/
theorem Standard.decodeAll_eq_start {d : Decoder α} (h : d.Standard) {budget : Nat}
    {bytes rest : Bytes} {outcome : Outcome α} {next : d.State}
    (hrun : (Session.fresh d).decodeAll budget bytes = .reached outcome next rest) :
    next = d.start := by
  have hkeeps := Midway.run h.renews budget bytes
  simp only [Session.decodeAll, Session.decode, Session.fresh] at hrun
  cases hs : d.run budget d.start bytes with
  | reached outcome' state rest' =>
      rw [hs] at hrun hkeeps
      cases outcome' with
      | done value =>
          cases hrun
          exact hkeeps
      | pending =>
          cases hrun
          exact h.reset_eq_start state
      | failed error =>
          cases hrun
          exact h.reset_eq_start state
  | broken misuse =>
      rw [hs] at hrun
      cases hrun
  | exhausted =>
      rw [hs] at hrun
      cases hrun

/-! ## The property -/

/-- A decoder is as good as a new one when it has answered a value, if no data was rejected since it
was made or last reset, and when it has been reset, whatever came before.  So strings that are
decoded in turn, some with a value, some cut off and some rejected, are decoded each as by a decoder
of its own. -/
theorem Standard.reusable {d : Decoder α} (h : d.Standard) :
    (∀ {ι : Type} [ByteSource ι] (budget : Nat) (state next : d.State) (source rest : ι)
      (value : α), d.Live state → d.run budget state source = .reached (.done value) next rest →
      d.Alike next d.start) ∧
    (∀ state, d.Alike (d.reset state) d.start) ∧
    ∀ strings outcomes, d.DecodesEach d.start strings outcomes ↔
      List.Forall₂ (fun bytes outcome => d.DecodesEach d.start [bytes] [outcome])
        strings outcomes := by
  refine ⟨?_, ?_, ?_⟩
  · intro ι _ budget state next source rest value hlive hrun
    have hrenews := (h.midway_of_live hlive).run budget source
    rw [hrun] at hrenews
    obtain rfl : next = d.start := hrenews
    exact fun {_} _ _ _ => rfl
  · intro state
    rw [h.reset_eq_start]
    exact fun {_} _ _ _ => rfl
  · intro strings outcomes
    constructor
    · intro hall
      induction strings generalizing outcomes with
      | nil =>
          cases hall with
          | nil => exact .nil
      | cons bytes strings ih =>
          cases hall with
          | cons hrun hrest =>
              obtain rfl := h.decodeAll_eq_start hrun
              exact .cons (.cons hrun (.nil _)) (ih _ hrest)
    · intro hall
      induction hall with
      | nil => exact .nil _
      | cons hone _ ih =>
          cases hone with
          | cons hrun _ =>
              obtain rfl := h.decodeAll_eq_start hrun
              exact .cons hrun ih

/-- A tree that is fed in two parts, one that is nested too deep, and one behind both. -/
theorem nodeCount_reused :
    ∃ p, Recipe.nodeCount.assemble 1 = .ok p ∧
      (∃ suspended next,
        p.decoder.run 30 p.decoder.start ([7] : Bytes) = .reached .pending suspended [] ∧
        p.decoder.run 30 suspended ([0, 0, 9] : Bytes) = .reached (.done (1 : Nat)) next [9] ∧
        p.decoder.Alike next p.decoder.start) ∧
      (∃ rejected, p.decoder.run 30 p.decoder.start ([7, 1, 8] : Bytes) =
          .reached (.failed (.depthLimit 1)) rejected [] ∧
        p.decoder.Alike (p.decoder.reset rejected) p.decoder.start) ∧
      p.decoder.DecodesEach p.decoder.start [[7, 1, 8], [7, 0], [7, 0, 0]]
        [.failed (.depthLimit 1), .failed (.unexpectedEnd "decoder needs more bytes"),
          .done (1 : Nat)] := by
  obtain ⟨p, hp, suspended, next, rejected, hfirst, hsecond, hrejected, hdeep, hshort, hwhole⟩ :
      ∃ p, Recipe.nodeCount.assemble 1 = .ok p ∧ ∃ suspended next rejected,
        p.decoder.run 30 p.decoder.start ([7] : Bytes) = .reached .pending suspended [] ∧
        p.decoder.run 30 suspended ([0, 0, 9] : Bytes) = .reached (.done (1 : Nat)) next [9] ∧
        p.decoder.run 30 p.decoder.start ([7, 1, 8] : Bytes) =
          .reached (.failed (.depthLimit 1)) rejected [] ∧
        (∃ last, (Session.fresh p.decoder).decodeAll 30 [7, 1, 8] =
          .reached (.failed (.depthLimit 1)) last []) ∧
        (∃ last, (Session.fresh p.decoder).decodeAll 30 [7, 0] =
          .reached (.failed (.unexpectedEnd "decoder needs more bytes")) last []) ∧
        ∃ last, (Session.fresh p.decoder).decodeAll 30 [7, 0, 0] =
          .reached (.done (1 : Nat)) last [] :=
    ⟨_, rfl, _, _, _, rfl, rfl, rfl, ⟨_, rfl⟩, ⟨_, rfl⟩, ⟨_, rfl⟩⟩
  have huses : ∀ {α : Type} (d : Decoder α), Recipe.nodeCount.Uses d → d.Standard := by
    intro α d hd
    cases hd with
    | beforeAct hd =>
      cases hd with
      | recur => exact .bool
      | beforeRecur hd =>
        cases hd with
        | recur => exact .bool
        | beforeRecur hd =>
          cases hd with
          | first => exact .number UInt8 .big
  obtain ⟨hdone, hreset, hall⟩ :=
    Standard.reusable (.composed Recipe.nodeCount_accepted hp huses)
  obtain ⟨afterDeep, hdeep⟩ := hdeep
  obtain ⟨afterShort, hshort⟩ := hshort
  obtain ⟨afterWhole, hwhole⟩ := hwhole
  refine ⟨p, hp, ⟨suspended, next, hfirst, hsecond, ?_⟩, ⟨rejected, hrejected, hreset rejected⟩,
    (hall _ _).2 ?_⟩
  · exact hdone 30 suspended next ([0, 0, 9] : Bytes) [9] (1 : Nat)
      (.decoded .made hfirst (by simp)) hsecond
  · exact .cons (.cons hdeep (.nil _))
      (.cons (.cons hshort (.nil _)) (.cons (.cons hwhole (.nil _)) .nil))

end Decoder

end Piecemeal
