/-
# Actions in flight

Once a program has arrived at a step, the action of the step works on its own until it yields a
cell.  So an action in flight is a decoder of cells, `Action.decoder`, and the machine around it
is an adapter:

    (working index frames values flight).step =
      ((p.stage index).action.step flight).graft (working index frames values) …

by `step_working`.  Whatever adapters do for a decoder, be it to ask for its bytes or to end a call
where it does, the machine does for the action, and needs no argument of its own.

With none in flight the machine asks for nothing, `unaided_step`.  What it does then is said once,
by a relation for each kind of step that holds all that is known of it:

  * `Starts`, before the first byte;
  * `Arrives` and `Enters`, in front of a step;
  * `Leaves`, behind one, where the innermost active scope is asked;
  * `Finishes`, at the end of the program.

What the machine keeps is read off these by cases, guards included.
-/
import Piecemeal.Program.Machine
import Piecemeal.Proofs.Runs

namespace Piecemeal

variable {κ : Type} [Atom κ]

namespace Action

/-- The action at work, from this flight on. -/
def decoder (action : Action κ) (flight : action.Flight) : Decoder (Cell κ) where
  State := action.Flight
  start := flight
  step := action.step
  reset _ := flight

end Action

namespace Machine

variable {result : ValueType κ} {p : Program κ result}

variable (index : Fin p.size) (frames : List (Frame p)) (values : Accumulator κ)

/-- The machine while the action of step `index` is in flight. -/
def working (flight : (p.stage index).action.Flight) : Machine p :=
  ⟨.decoding index flight, frames, values⟩

/-- The machine when step `index` has yielded a cell. -/
def landed (cell : Cell κ) : Machine p :=
  ⟨.leaving index, frames, if (p.stage index).stores then values.pushCell cell else values⟩

/-- The machine when step `index` has rejected its data. -/
def rejecting (error : DecodeError) (flight : (p.stage index).action.Flight) : Machine p :=
  ⟨.failing index flight error, frames, values⟩

theorem step_working (flight : (p.stage index).action.Flight) :
    (working index frames values flight).step =
      ((p.stage index).action.step flight).graft (working index frames values)
        (fun cell _ => .tick (landed index frames values cell) [])
        (fun error flight =>
          .tick (rejecting index frames values error flight) [.failed index error]) := by
  show Machine.decode _ index flight = _
  unfold Machine.decode
  cases (p.stage index).action.step flight <;> rfl

/-! ## What one step can do

One relation for each thing that the machine does without the source, with all that is known of the
step.  What the machine keeps is read off these. -/

/-- Before the first byte.  There is room for the scope of the first step. -/
inductive Starts : Machine p → Prop
  | works {flight : (p.stage p.first).action.Flight} {values : Accumulator κ} :
      (p.stage p.first).action.arrive .empty = .ok (flight, values) →
      Starts (working p.first (frame? p.first).toList values flight)
  | broken (misuse : Misuse) : Starts ⟨.broken misuse, [], .empty⟩

theorem starts (p : Program κ result) : Starts (Machine.start p) := by
  unfold Machine.start
  split
  next harrive => exact .works harrive
  next => exact .broken _

theorem Starts.length_frames_le {m : Machine p} (h : Starts m) : m.frames.length ≤ 1 := by
  cases h with
  | works =>
      show (frame? p.first).toList.length ≤ 1
      cases (frame? p.first : Option (Frame p)) with
      | none => exact Nat.zero_le _
      | some f => exact Nat.le_refl _
  | broken => exact Nat.zero_le _

/-- At the end of the program. -/
inductive Finishes (m : Machine p) : Step (Machine p) result.Carrier → Prop
  | answers (value : result.Carrier) (values : Accumulator κ) (events : List Event) :
      Finishes m (.tick ⟨.answering value, m.frames, values⟩ events)
  | broken (misuse : Misuse) : Finishes m (.broken misuse)

theorem finishes (m : Machine p) : Finishes m m.finish := by
  unfold finish
  split
  next => exact .answers ..
  next => exact .broken _

/-- Behind step `i`, where the innermost active scope is asked. -/
inductive Leaves (m : Machine p) (i : Nat) : Step (Machine p) result.Carrier → Prop
  | unasked (events : List Event) :
      m.frames = [] → Leaves m i (.tick ⟨.arriving (i + 1), [], m.values⟩ events)
  | closes {f : Frame p} {frames : List (Frame p)} {move : Move}
      {memory : (p.stage f.index).Memory} {values : Accumulator κ} (events : List Event) :
      m.frames = f :: frames →
      (p.stage f.index).answer i m.values f.memory = .ok ⟨move, memory, values⟩ →
      Leaves m i (.tick ⟨if frames.isEmpty
        then .arriving (move.index ((p.stage f.index).bounds f.memory) i)
        else .leaving ((p.stage f.index).bounds f.memory).last, frames, values⟩ events)
  | stays {f : Frame p} {frames : List (Frame p)} {move : Move}
      {memory : (p.stage f.index).Memory} {values : Accumulator κ} (events : List Event) :
      m.frames = f :: frames →
      (p.stage f.index).answer i m.values f.memory = .ok ⟨move, memory, values⟩ →
      Leaves m i (.tick ⟨.arriving (move.index ((p.stage f.index).bounds f.memory) i),
        ⟨f.index, memory⟩ :: frames, values⟩ events)
  | broken (misuse : Misuse) : Leaves m i (.broken misuse)

theorem leaves (m : Machine p) (i : Nat) : Leaves m i (m.leave i) := by
  unfold leave
  split
  next hframes => exact .unasked _ hframes
  next home memory frames hframes =>
    split
    next => exact .broken _
    next move memory' values hanswer =>
      split
      next => exact .closes (f := ⟨home, memory⟩) _ hframes hanswer
      next => exact .stays (f := ⟨home, memory⟩) _ hframes hanswer

/-- At step `i`, which may be behind the last one. -/
inductive Arrives (m : Machine p) (i : Nat) : Step (Machine p) result.Carrier → Prop
  | enters (h : i < p.size) (events : List Event) :
      Arrives m i (.tick ⟨.entering ⟨i, h⟩, m.frames, m.values⟩ events)
  | ends {step : Step (Machine p) result.Carrier} :
      p.size ≤ i → Finishes m step → Arrives m i step
  | nested {f : Frame p} {frames : List (Frame p)} {values : Accumulator κ} (events : List Event) :
      m.frames = f :: frames → (p.stage f.index).atEnd m.values f.memory = .ok (some values) →
      Arrives m i (.tick ⟨.leaving ((p.stage f.index).bounds f.memory).last, frames, values⟩ events)
  | broken (misuse : Misuse) : Arrives m i (.broken misuse)

theorem arrives (m : Machine p) (i : Nat) : Arrives m i (m.arrive i) := by
  unfold arrive
  split
  next hlt => exact .enters hlt _
  next hend =>
    split
    next => exact .ends (Nat.not_lt.1 hend) (finishes m)
    next home memory frames hframes =>
      split
      next => exact .broken _
      next => exact .ends (Nat.not_lt.1 hend) (finishes m)
      next hnested => exact .nested (f := ⟨home, memory⟩) _ hframes hnested

/-- When the action of a step is started.  Its scope becomes active, if there is room for it. -/
inductive Enters (m : Machine p) (index : Fin p.size) : Step (Machine p) result.Carrier → Prop
  | works {flight : (p.stage index).action.Flight} {values : Accumulator κ} (events : List Event) :
      (p.stage index).action.arrive m.values = .ok (flight, values) →
      (frame? index = none ∨ m.frames.length < p.maxDepth) →
      Enters m index
        (.tick (working index ((frame? index).toList ++ m.frames) values flight) events)
  | tooDeep {flight : (p.stage index).action.Flight} {values : Accumulator κ}
      (events : List Event) :
      (p.stage index).action.arrive m.values = .ok (flight, values) → frame? index ≠ none →
      Enters m index
        (.tick (rejecting index m.frames values (.depthLimit p.maxDepth) flight) events)
  | broken (misuse : Misuse) : Enters m index (.broken misuse)

theorem enters (m : Machine p) (index : Fin p.size) : Enters m index (m.enter index) := by
  unfold enter
  split
  next => exact .broken _
  next flight values harrive =>
    cases hframe : frame? index with
    | none =>
        have hworks := Enters.works (m := m) ((p.stage index).action.arriveEvents flight) harrive
          (.inl hframe)
        rwa [hframe] at hworks
    | some f =>
        dsimp only
        split
        next hroom =>
          have hworks := Enters.works (m := m) ((p.stage index).action.arriveEvents flight) harrive
            (.inr hroom)
          rwa [hframe] at hworks
        next => exact .tooDeep _ harrive (by rw [hframe]; exact Option.some_ne_none f)

/-! ## Steps without the source -/

/-- A step that asks for nothing.  An action that it puts in flight has just arrived. -/
inductive Unaided : Step (Machine p) result.Carrier → Prop
  | tick {next : Machine p} {events : List Event} :
      (∀ index flight, next.phase = .decoding index flight →
        ∃ values values', (p.stage index).action.arrive values = .ok (flight, values')) →
      Unaided (.tick next events)
  | done (value : result.Carrier) : Unaided (.done value (Machine.start p))
  | fail (error : DecodeError) (m : Machine p) : Unaided (.fail error m)
  | broken (misuse : Misuse) : Unaided (.broken misuse)

theorem Finishes.unaided {m : Machine p} {step : Step (Machine p) result.Carrier}
    (h : Finishes m step) : Unaided step := by
  cases h with
  | answers => exact .tick fun _ _ h => nomatch h
  | broken misuse => exact .broken misuse

theorem Leaves.unaided {m : Machine p} {i : Nat} {step : Step (Machine p) result.Carrier}
    (h : Leaves m i step) : Unaided step := by
  cases h with
  | unasked => exact .tick fun _ _ h => nomatch h
  | @closes f frames =>
      cases frames with
      | nil => exact .tick fun _ _ h => nomatch h
      | cons f' frames => exact .tick fun _ _ h => nomatch h
  | stays => exact .tick fun _ _ h => nomatch h
  | broken misuse => exact .broken misuse

theorem Arrives.unaided {m : Machine p} {i : Nat} {step : Step (Machine p) result.Carrier}
    (h : Arrives m i step) : Unaided step := by
  cases h with
  | enters => exact .tick fun _ _ h => nomatch h
  | ends _ hfinishes => exact hfinishes.unaided
  | nested => exact .tick fun _ _ h => nomatch h
  | broken misuse => exact .broken misuse

theorem Enters.unaided {m : Machine p} {index : Fin p.size}
    {step : Step (Machine p) result.Carrier} (h : Enters m index step) : Unaided step := by
  cases h with
  | works _ harrive _ => exact .tick fun _ _ h => by cases h; exact ⟨_, _, harrive⟩
  | tooDeep => exact .tick fun _ _ h => nomatch h
  | broken misuse => exact .broken misuse

theorem unaided_step {m : Machine p} (h : ∀ index flight, m.phase ≠ .decoding index flight) :
    Unaided m.step := by
  obtain ⟨phase, frames, values⟩ := m
  cases phase with
  | decoding index flight => exact absurd rfl (h index flight)
  | failing index flight error => exact .fail _ _
  | leaving i => exact (leaves _ i).unaided
  | arriving i => exact (arrives _ i).unaided
  | entering index => exact (enters _ index).unaided
  | answering value => exact .done value
  | broken misuse => exact .broken misuse

/-- Only an action in flight asks for bytes. -/
theorem exists_decoding_of_request {m : Machine p} {n : Nat} {resume : Bytes → Machine p}
    (h : m.step.request? = some (n, resume)) :
    ∃ index flight, m.phase = .decoding index flight := by
  by_cases hflight : ∃ index flight, m.phase = .decoding index flight
  · exact hflight
  · have hunaided : Unaided m.step :=
      unaided_step fun index flight hphase => hflight ⟨index, flight, hphase⟩
    generalize m.step = s at h hunaided
    cases hunaided with
    | tick => cases h
    | done => cases h
    | fail => cases h
    | broken => cases h

end Machine

end Piecemeal
