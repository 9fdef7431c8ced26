/-
# Scopes

A scope is a stretch of a program that is run several times, perhaps, or in a new instance.  It
becomes active when execution arrives at its head, and while it is the innermost active one it is
asked how to go on after every step.

* A repetition runs its body until its bound is met and folds the elements into a collector.
* An option runs its body only if its head yielded true.
* A recursion starts the whole program again if its head yielded true.  The nested instance keeps
  its values in a layer of its own, so it cannot touch those below; when it has run to its end its
  one value is taken over.  A reduction of all values of the layer closes it early, and the value is
  then found at the top.
-/
import Piecemeal.Accumulator
import Piecemeal.Decoder.Repeat
import Piecemeal.Program.Move

namespace Piecemeal

/-- How an active scope steers execution. -/
inductive Rule (κ : Type) [Atom κ] : Type 1 where
  /-- Elements of one type, collected into a value of another. -/
  | repetition (element result : ValueType κ) (bound : Bound element.Carrier)
      (collector : Collector element.Carrier result.Carrier)
  /-- A value that may be absent. -/
  | optional (type : ValueType κ)
  /-- A nested instance of the program, with a result of this type, that may be absent. -/
  | recursion (result : ValueType κ)

namespace Rule

variable {κ : Type} [Atom κ]

/-- What a scope remembers while it is active: its elements, nothing, or the number of open layers
when the nested instance was started. -/
def Memory : Rule κ → Type
  | repetition _ _ _ collector => Option (Tally collector.Container)
  | optional _ => Unit
  | recursion _ => Option Nat

/-- The memory of a scope that has just become active. -/
def fresh : (rule : Rule κ) → rule.Memory
  | repetition .. => none
  | optional _ => ()
  | recursion _ => none

/-- An answer of an active scope: the move, and what the scope remembers from then on. -/
structure Answer (κ : Type) [Atom κ] (μ : Type) where
  move : Move
  memory : μ
  values : Accumulator κ

/-- The number of elements of a repetition, after its head: it is among the values if the head has
decoded it. -/
def elementCount {ε : Type} (values : Accumulator κ) :
    Bound ε → Except Misuse (Option Nat) × Accumulator κ
  | .times n => (.ok (some n), values)
  | .whileHolds .. => (.ok none, values)
  | .prefixed _ =>
      match values.pop .size with
      | (.ok n, values) => (.ok (some n), values)
      | (.error misuse, values) => (.error misuse, values)

/-- A repetition after its head.  With no element to come it is finished. -/
def begin (element result : ValueType κ) (bound : Bound element.Carrier)
    (collector : Collector element.Carrier result.Carrier) (bounds : Bounds)
    (values : Accumulator κ) :
    Except Misuse (Answer κ (repetition element result bound collector).Memory) :=
  match elementCount values bound with
  | (.error misuse, _) => .error misuse
  | (.ok target, values) =>
      let tally := Tally.start collector target
      if target = some 0 then
        .ok ⟨.leave bounds, none, values.push result (tally.finish collector)⟩
      else .ok ⟨.following, some tally, values⟩

/-- A repetition after its body, which has left an element on top. -/
def collect (element result : ValueType κ) (bound : Bound element.Carrier)
    (collector : Collector element.Carrier result.Carrier) (bounds : Bounds)
    (memory : Option (Tally collector.Container)) (values : Accumulator κ) :
    Except Misuse (Answer κ (repetition element result bound collector).Memory) :=
  match values.pop element with
  | (.error misuse, _) => .error misuse
  | (.ok value, values) =>
      let tally := memory.getD (Tally.start collector none)
      let grown := tally.add collector value
      if bound.endsAt value then
        leave (if bound.keepsLast then grown else tally) values
      else if grown.isFull then leave grown values
      else .ok ⟨.body, some grown, values⟩
where
  /-- The repetition is finished. -/
  leave (tally : Tally collector.Container) (values : Accumulator κ) :
      Except Misuse (Answer κ (repetition element result bound collector).Memory) :=
    .ok ⟨.leave bounds, none, values.push result (tally.finish collector)⟩

/-- The answer of an active scope when step `current` is complete, or a nested scope that ends
there. -/
def answer (bounds : Bounds) (current : Nat) (values : Accumulator κ) :
    (rule : Rule κ) → rule.Memory → Except Misuse (Answer κ rule.Memory)
  | repetition element result bound collector, memory =>
      if current = bounds.head then begin element result bound collector bounds values
      else if current = bounds.last then
        collect element result bound collector bounds memory values
      else .ok ⟨.following, memory, values⟩
  | optional type, memory =>
      if current = bounds.head then
        match values.pop .bool with
        | (.error misuse, _) => .error misuse
        | (.ok true, values) => .ok ⟨.following, memory, values⟩
        | (.ok false, values) => .ok ⟨.leave bounds, memory, values.push (.option type) none⟩
      else if current = bounds.last then
        match values.pop type with
        | (.error misuse, _) => .error misuse
        | (.ok value, values) =>
            .ok ⟨.leave bounds, memory, values.push (.option type) (some value)⟩
      else .ok ⟨.following, memory, values⟩
  | recursion _, some depth => .ok ⟨.following, some depth, values⟩
  | recursion result, none =>
      match values.pop .bool with
      | (.error misuse, _) => .error misuse
      | (.ok false, values) => .ok ⟨.leave bounds, none, values.push (.option result) none⟩
      | (.ok true, values) =>
          match values.openLayer with
          | .error misuse => .error misuse
          | .ok values => .ok ⟨.step 0, some values.depth, values⟩

/-- What an active scope makes of the end of the program: it may let it stand, or take it for the end
of the nested instance, whose value it takes over. -/
def atEnd (values : Accumulator κ) :
    (rule : Rule κ) → rule.Memory → Except Misuse (Option (Accumulator κ))
  | repetition .., _ | optional _, _ | recursion _, none => .ok none
  | recursion result, some depth =>
      match if depth ≤ values.depth then values.next result else values.pop result with
      | (.error misuse, _) => .error misuse
      | (.ok value, values) => .ok (some (values.push (.option result) (some value)))

end Rule

/-- A rule with the steps that it governs. -/
structure Scope (κ : Type) [Atom κ] where
  rule : Rule κ
  bounds : Bounds

end Piecemeal
