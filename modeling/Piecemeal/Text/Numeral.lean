/-
# Numerals

Reading an unsigned number below a limit from text in a given base.  A plus sign may stand in
front; the digits are taken from the left, and the first thing that goes wrong is the answer, so a
number that is too large is reported as such even when a later character is no digit.
-/
import Piecemeal.Bytes

namespace Piecemeal.Numeral

/-- Why a text is no numeral. -/
inductive Fault where
  /-- There is no text at all. -/
  | empty
  /-- There is no digit where one is due. -/
  | badDigit
  /-- The number reaches the limit. -/
  | tooLarge
deriving DecidableEq, Repr

def Fault.message : Fault → String
  | .empty => "cannot parse integer from empty string"
  | .badDigit => "invalid digit found in string"
  | .tooLarge => "number too large to fit in target type"

/-- The value of a byte as a digit, letters of either case standing for ten and more. -/
def digit? (base : Nat) (b : UInt8) : Option Nat :=
  let n := b.toNat
  let value :=
    if 0x30 ≤ n ∧ n ≤ 0x39 then some (n - 0x30)
    else if 0x41 ≤ n ∧ n ≤ 0x5A then some (n - 0x41 + 10)
    else if 0x61 ≤ n ∧ n ≤ 0x7A then some (n - 0x61 + 10)
    else none
  value.filter (· < base)

/-- Reads digits onto the number read so far. -/
def digits (base limit : Nat) : (value : Nat) → Bytes → Except Fault Nat
  | value, [] => .ok value
  | value, b :: rest =>
      match digit? base b with
      | none => .error .badDigit
      | some d =>
          if value * base + d < limit then digits base limit (value * base + d) rest
          else .error .tooLarge

/-- The number below `limit` that the text denotes. -/
def parse (base limit : Nat) : Bytes → Except Fault Nat
  | [] => .error .empty
  | 0x2B :: [] => .error .badDigit
  | 0x2B :: b :: rest => digits base limit 0 (b :: rest)
  | b :: rest => digits base limit 0 (b :: rest)

example : parse 16 256 [0x2B, 0x66] = .ok 15 := by rfl

end Piecemeal.Numeral
