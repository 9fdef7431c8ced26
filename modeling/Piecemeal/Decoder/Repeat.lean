/-
# Repetition

A decoder run again and again, its values folded into a collector.  How many elements there are is
fixed, decoded in front of them, or left to the elements: as long as they satisfy a predicate.  All
three are one machine that first learns its target from a decoder, which reads nothing unless the
count stands in the data.
-/
import Piecemeal.Collector
import Piecemeal.Decoder.Adapters
import Piecemeal.Decoder.Number

namespace Piecemeal

/-- What ends a repetition of elements of type `ε`. -/
inductive Bound (ε : Type) : Type 1 where
  /-- So many elements. -/
  | times (n : Nat)
  /-- As many elements as this decoder says. -/
  | prefixed (size : Decoder Nat)
  /-- The first element that fails the predicate, which is an element itself if `addLast`. -/
  | whileHolds (predicate : ε → Bool) (addLast : Bool)

namespace Bound

variable {ε : Type}

/-- As many elements as the integer that this decoder answers. -/
def prefixedBy {α : Type} [CountPrefix α] (size : Decoder α) : Bound ε :=
  .prefixed (size.tryMap toLength)

/-- The number of elements, or `none` if the elements decide. -/
def target : Bound ε → Decoder (Option Nat)
  | .times n => .constant (some n)
  | .prefixed size => size.map some
  | .whileHolds .. => .constant none

/-- Whether the element ends the repetition. -/
def endsAt : Bound ε → ε → Bool
  | .whileHolds predicate _, element => !predicate element
  | _, _ => false

/-- Whether the element that ends the repetition is collected. -/
def keepsLast : Bound ε → Bool
  | .whileHolds _ addLast => addLast
  | _ => false

end Bound

/-- The elements of a repetition so far, in a container of type `γ`. -/
structure Tally (γ : Type) where
  /-- The number of elements to collect, if it is known. -/
  target : Option Nat
  container : γ
  /-- The number of elements collected, which is the index of the next. -/
  produced : Nat

namespace Tally

variable {ε ρ : Type}

/-- The beginning of a repetition, once its target is known. -/
def start (c : Collector ε ρ) (target : Option Nat) : Tally c.Container :=
  ⟨target, c.supply target, 0⟩

def isFull {γ : Type} (tally : Tally γ) : Bool := tally.target == some tally.produced

def add (c : Collector ε ρ) (tally : Tally c.Container) (element : ε) : Tally c.Container :=
  ⟨tally.target, c.accumulate tally.container element tally.produced, tally.produced + 1⟩

/-- What the collector makes of the elements so far. -/
def finish (c : Collector ε ρ) (tally : Tally c.Container) : ρ := c.finish tally.container

end Tally

namespace Decoder

variable {ε ρ : Type}

/-- Progress of `repeated`. -/
structure Repeating (d : Decoder ε) (bound : Bound ε) (c : Collector ε ρ) where
  target : bound.target.State
  element : d.State
  /-- What is collected, once the target is known. -/
  tally : Option (Tally c.Container)

/-- Decodes elements until the bound is met, and answers what the collector makes of them. -/
def repeated (d : Decoder ε) (bound : Bound ε) (c : Collector ε ρ) : Decoder ρ where
  State := Repeating d bound c
  start := ⟨bound.target.start, d.start, none⟩
  step
    | ⟨target, element, none⟩ =>
        (bound.target.step target).embed (⟨·, element, none⟩) (⟨·, element, none⟩)
          fun n target => .tick ⟨target, element, some (.start c n)⟩ []
    | ⟨target, element, some tally⟩ =>
        if tally.isFull then .done (tally.finish c) ⟨target, element, none⟩
        else
          (d.step element).embed (⟨target, ·, some tally⟩) (⟨target, ·, some tally⟩)
            fun value element =>
              if bound.endsAt value then
                let tally := if bound.keepsLast then tally.add c value else tally
                .done (tally.finish c) ⟨target, element, none⟩
              else .tick ⟨target, element, some (tally.add c value)⟩ []
  reset progress := ⟨bound.target.reset progress.target, d.reset progress.element, none⟩
  resetEvents progress :=
    d.resetEvents progress.element ++ bound.target.resetEvents progress.target
  startEvents := d.startEvents ++ bound.target.startEvents
  copy progress :=
    ⟨bound.target.copy progress.target, d.copy progress.element, progress.tally⟩

end Decoder

end Piecemeal
