/-
# Running a program

The machine is at work on one step of the program at a time, and keeps the active scopes and the
accumulated values.  When a step is complete the innermost active scope is asked where to go on;
without one execution goes on at the following step.  A scope that is finished is dropped, and the
scope around it is asked in turn, as if its own step at the end of the dropped scope were complete.
Behind the last step the program is at its end, unless the innermost scope is a recursion that has
started an instance: then only that instance is.

The machine is a decoder like any other.  Everything it does between two requests for bytes is split
into steps so small that each reports what it did, and needs no loop of its own.
-/
import Piecemeal.Program

namespace Piecemeal

variable {κ : Type} [Atom κ] {result : ValueType κ}

/-- An active scope: the step that is its head, and what the scope remembers. -/
structure Frame (p : Program κ result) where
  index : Fin p.size
  memory : (p.stage index).Memory

/-- What the machine is about to do. -/
inductive Phase (p : Program κ result) where
  /-- The action of a step is in flight. -/
  | decoding (index : Fin p.size) (flight : (p.stage index).action.Flight)
  /-- A step was given up, and the error is to be answered. -/
  | failing (index : Fin p.size) (flight : (p.stage index).action.Flight) (error : DecodeError)
  /-- A step is complete, or a scope that ends there. -/
  | leaving (index : Nat)
  /-- Execution goes on at this index, which may be behind the last step. -/
  | arriving (index : Nat)
  /-- The action of a step is to be started. -/
  | entering (index : Fin p.size)
  /-- The value is to be answered, and the program is at its beginning again. -/
  | answering (value : result.Carrier)
  /-- The program is wrong. -/
  | broken (misuse : Misuse)

/-- The index of the step that the phase belongs to. -/
def Phase.index {p : Program κ result} : Phase p → Nat
  | decoding index _ | failing index _ _ | entering index => index
  | leaving index | arriving index => index
  | answering _ | broken _ => 0

/-- A program at work. -/
structure Machine (p : Program κ result) where
  phase : Phase p
  /-- The active scopes, innermost first. -/
  frames : List (Frame p)
  values : Accumulator κ

namespace Machine

variable {p : Program κ result}

/-- The frame of the scope that a step is the head of, if it has one. -/
def frame? (index : Fin p.size) : Option (Frame p) :=
  (p.stage index).fresh?.map fun memory => ⟨index, memory⟩

/-- The machine before the first byte: it has arrived at the first step. -/
def start (p : Program κ result) : Machine p :=
  match (p.stage p.first).action.arrive .empty with
  | .ok (flight, values) => ⟨.decoding p.first flight, (frame? p.first).toList, values⟩
  | .error misuse => ⟨.broken misuse, [], .empty⟩

/-- The events of starting, or of starting again. -/
def startEvents (p : Program κ result) : List Event :=
  match (start p).phase with
  | .decoding index flight => (p.stage index).action.arriveEvents flight
  | _ => []

/-! ## One step -/

/-- The program is at its end, and its one value is the answer. -/
def finish (m : Machine p) : Step (Machine p) result.Carrier :=
  match m.values.pop result with
  | (.ok value, values) => .tick ⟨.answering value, m.frames, values⟩ (startEvents p)
  | (.error misuse, _) => .broken misuse

/-- Lets the action of a step work. -/
def decode (m : Machine p) (index : Fin p.size) (flight : (p.stage index).action.Flight) :
    Step (Machine p) result.Carrier :=
  match (p.stage index).action.step flight with
  | .read n resume => .read n fun bytes => ⟨.decoding index (resume bytes), m.frames, m.values⟩
  | .skip n resume => .skip n fun skipped => ⟨.decoding index (resume skipped), m.frames, m.values⟩
  | .tick flight events => .tick ⟨.decoding index flight, m.frames, m.values⟩ events
  | .done cell _ =>
      let values := if (p.stage index).stores then m.values.pushCell cell else m.values
      .tick ⟨.leaving index, m.frames, values⟩ []
  | .fail error flight =>
      .tick ⟨.failing index flight error, m.frames, m.values⟩ [.failed index error]
  | .broken misuse => .broken misuse

/-- Asks the innermost active scope where to go on after step `index`. -/
def leave (m : Machine p) (index : Nat) : Step (Machine p) result.Carrier :=
  match m.frames with
  | [] => .tick ⟨.arriving (index + 1), [], m.values⟩ []
  | ⟨home, memory⟩ :: frames =>
      let bounds := (p.stage home).bounds memory
      match (p.stage home).answer index m.values memory with
      | .error misuse => .broken misuse
      | .ok ⟨move, memory, values⟩ =>
          let next := move.index bounds index
          let moved := Event.moved index move bounds
          if move.closes then
            let phase := if frames.isEmpty then .arriving next else .leaving bounds.last
            .tick ⟨phase, frames, values⟩ [moved, .closed bounds frames.length]
          else .tick ⟨.arriving next, ⟨home, memory⟩ :: frames, values⟩ [moved]

/-- Goes on at `index`.  Behind the last step a nested instance is at its end, or the program. -/
def arrive (m : Machine p) (index : Nat) : Step (Machine p) result.Carrier :=
  if h : index < p.size then
    .tick ⟨.entering ⟨index, h⟩, m.frames, m.values⟩ [.entered index (p.stage ⟨index, h⟩).label]
  else
    match m.frames with
    | [] => m.finish
    | ⟨home, memory⟩ :: frames =>
        let bounds := (p.stage home).bounds memory
        match (p.stage home).atEnd m.values memory with
        | .error misuse => .broken misuse
        | .ok none => m.finish
        | .ok (some values) =>
            .tick ⟨.leaving bounds.last, frames, values⟩ [.nestedComplete bounds.head]

/-- Starts the action of a step, and makes its scope active if there is room for it. -/
def enter (m : Machine p) (index : Fin p.size) : Step (Machine p) result.Carrier :=
  match (p.stage index).action.arrive m.values with
  | .error misuse => .broken misuse
  | .ok (flight, values) =>
      let events := (p.stage index).action.arriveEvents flight
      match frame? index with
      | none => .tick ⟨.decoding index flight, m.frames, values⟩ events
      | some frame =>
          if m.frames.length < p.maxDepth then
            .tick ⟨.decoding index flight, frame :: m.frames, values⟩ events
          else
            .tick ⟨.failing index flight (.depthLimit p.maxDepth), m.frames, values⟩
              (events ++ [.tooDeep p.maxDepth index])

def step (m : Machine p) : Step (Machine p) result.Carrier :=
  match m.phase with
  | .decoding index flight => m.decode index flight
  | .failing index flight error => .fail error ⟨.decoding index flight, m.frames, m.values⟩
  | .leaving index => m.leave index
  | .arriving index => m.arrive index
  | .entering index => m.enter index
  | .answering value => .done value (start p)
  | .broken misuse => .broken misuse

/-- The events of giving up. -/
def resetEvents (m : Machine p) : List Event :=
  .reset m.phase.index m.frames.length ::
    match m.phase with
    | .decoding index flight => (p.stage index).action.resetEvents flight
    | _ => []

def describe (m : Machine p) : String :=
  "ComposedDecoder \x7b steps: " ++ toString p.size ++ ", index: " ++ toString m.phase.index ++
  ", scopes: " ++ toString m.frames.length ++ ", accumulator: " ++ m.values.describe ++ " \x7d"

end Machine

/-- What is wrong with a program that cannot start, because its first decoder cannot be made. -/
def Program.misuse? (p : Program κ result) : Option Misuse :=
  match (Machine.start p).step with
  | .broken misuse => some misuse
  | _ => none

/-- The decoder that runs a program.  A copy of it starts from the beginning. -/
def Program.decoder (p : Program κ result) : Decoder result.Carrier where
  State := Machine p
  start := .start p
  step := Machine.step
  reset _ := .start p
  resetEvents m := m.resetEvents ++ Machine.startEvents p
  startEvents := Machine.startEvents p
  copy _ := .start p

end Piecemeal
