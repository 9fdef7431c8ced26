/-
# Actions

What a step of a program does: it runs a decoder, which may be chosen for an accumulated value, or it
replaces accumulated values by one.  On arrival an action takes from the accumulator what it needs;
from then on it is in flight, and works on its own until it yields a cell.
-/
import Piecemeal.Decoder.Adapters
import Piecemeal.Reading

namespace Piecemeal

/-- What a step does. -/
inductive Action (κ : Type) [Atom κ] : Type 1 where
  /-- Runs a decoder. -/
  | decode (type : ValueType κ) (decoder : Decoder type.Carrier)
  /-- Takes the last value and runs the decoder chosen for it. -/
  | replace (source type : ValueType κ) (choose : source.Carrier → Decoder type.Carrier)
  /-- Looks at the last value and runs the decoder chosen for it. -/
  | follow (source type : ValueType κ) (choose : source.Carrier → Decoder type.Carrier)
  /-- Replaces the last `arity` values by what the reading makes of them. -/
  | reduce (arity : Nat) (type : ValueType κ) (reading : Reading κ type.Carrier)

namespace Action

variable {κ : Type} [Atom κ]

/-- The type of value that the action yields. -/
def type : Action κ → ValueType κ
  | decode type _ | replace _ type _ | follow _ type _ | reduce _ type _ => type

/-- What an action keeps in flight. -/
def Flight : Action κ → Type
  | decode _ decoder => decoder.State
  | replace source _ choose | follow source _ choose =>
      (value : source.Carrier) × (choose value).State
  | reduce _ type _ => type.Carrier

/-- Arrival: takes from the accumulator what the action needs. -/
def arrive (acc : Accumulator κ) : (action : Action κ) →
    Except Misuse (action.Flight × Accumulator κ)
  | decode _ decoder => .ok (decoder.start, acc)
  | replace source _ choose =>
      match acc.pop source with
      | (.ok value, acc) => .ok (⟨value, (choose value).start⟩, acc)
      | (.error misuse, _) => .error misuse
  | follow source _ choose =>
      match acc.peek source with
      | .ok value => .ok (⟨value, (choose value).start⟩, acc)
      | .error misuse => .error misuse
  | reduce arity _ reading =>
      match acc.reduce arity reading with
      | (.ok value, acc) => .ok (value, acc)
      | (.error misuse, _) => .error misuse

/-- The events of the arrival that put this in flight: those of making its decoder. -/
def arriveEvents : (action : Action κ) → action.Flight → List Event
  | decode _ decoder, _ => decoder.startEvents
  | replace _ _ choose, ⟨value, _⟩ => (choose value).startEvents
  | follow _ _ choose, ⟨value, _⟩ => (choose value).startEvents
  | reduce .., _ => []

/-- One step in flight. -/
def step : (action : Action κ) → action.Flight → Step action.Flight (Cell κ)
  | decode type decoder, state =>
      (decoder.step state).embed id id fun value state => .done ⟨type, value⟩ state
  | replace _ type choose, ⟨value, state⟩ =>
      ((choose value).step state).embed (⟨value, ·⟩) (⟨value, ·⟩)
        fun result state => .done ⟨type, result⟩ ⟨value, state⟩
  | follow _ type choose, ⟨value, state⟩ =>
      ((choose value).step state).embed (⟨value, ·⟩) (⟨value, ·⟩)
        fun result state => .done ⟨type, result⟩ ⟨value, state⟩
  | reduce _ type _, value => .done ⟨type, value⟩ value

/-- The events of giving up in flight. -/
def resetEvents : (action : Action κ) → action.Flight → List Event
  | decode _ decoder, state => decoder.resetEvents state
  | replace _ _ choose, ⟨value, state⟩ => (choose value).resetEvents state
  | follow _ _ choose, ⟨value, state⟩ => (choose value).resetEvents state
  | reduce .., _ => []

end Action

end Piecemeal
