/-
# Reductions

A reduction takes the last values of an accumulator, oldest first, and makes one value of them.
What it does is a reading: a tree of requests, each of which depends on what the requests before it
were answered.  A reading may ask for fewer values than its arity, and the rest are dropped; it may
not ask for more.
-/
import Piecemeal.Accumulator

namespace Piecemeal

/-- What a reduction asks for, and what it makes of the answers. -/
inductive Reading (κ : Type) [Atom κ] (α : Type) where
  /-- The result. -/
  | result (value : α)
  /-- The next value, at a type. -/
  | next (type : ValueType κ) (resume : type.Carrier → Reading κ α)
  /-- How many values have not been taken. -/
  | remaining (resume : Nat → Reading κ α)

/-- One value of each type in turn. -/
def Row {κ : Type} [Atom κ] : List (ValueType κ) → Type
  | [] => Unit
  | type :: types => type.Carrier × Row types

namespace Reading

variable {κ α : Type} [Atom κ]

/-- Asks for one value of each type in turn. -/
def row : (types : List (ValueType κ)) → (Row types → α) → Reading κ α
  | [], f => .result (f ())
  | type :: types, f => .next type fun value => row types fun values => f (value, values)

/-- Answers a reading from an accumulator, where it may take `left` more values. -/
def run (left : Nat) (acc : Accumulator κ) : Reading κ α → Except Misuse (α × Nat) × Accumulator κ
  | .result value => (.ok (value, left), acc)
  | .remaining resume => run left acc (resume left)
  | .next type resume =>
      match left with
      | 0 => (.error .readPastArity, acc)
      | left + 1 =>
          match acc.next type with
          | (.ok value, acc) => run left acc (resume value)
          | (.error misuse, acc) => (.error misuse, acc)

end Reading

namespace Accumulator

variable {κ α : Type} [Atom κ]

/-- Takes the next `n` values and drops them. -/
def dropNext (acc : Accumulator κ) : Nat → Except Misuse Unit × Accumulator κ
  | 0 => (.ok (), acc)
  | n + 1 =>
      match acc.nextCell with
      | (.ok _, acc) => acc.dropNext n
      | (.error misuse, acc) => (.error misuse, acc)

/-- Replaces the last `arity` values by what the reading makes of them, which is handed out. -/
def reduce (acc : Accumulator κ) (arity : Nat) (reading : Reading κ α) :
    Except Misuse α × Accumulator κ :=
  match acc.readBack arity with
  | .error misuse => (.error misuse, acc)
  | .ok acc =>
      match reading.run arity acc with
      | (.error misuse, acc) => (.error misuse, acc)
      | (.ok (value, left), acc) =>
          match acc.dropNext left with
          | (.ok (), acc) => (.ok value, acc)
          | (.error misuse, acc) => (.error misuse, acc)

end Accumulator

end Piecemeal
