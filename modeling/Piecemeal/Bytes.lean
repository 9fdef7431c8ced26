/-
# Bytes

The one representation of byte strings in the library, and their reading as unsigned integers.
A byte string is a list: sources take it apart from the front, and every statement about what was
consumed is a statement about `++`.
-/
namespace Piecemeal

/-- A byte string, first byte first. -/
abbrev Bytes := List UInt8

/-- In which order the bytes of a number stand. -/
inductive ByteOrder where
  /-- The most significant byte first. -/
  | big
  /-- The least significant byte first. -/
  | little
deriving DecidableEq, Repr

/-- The unsigned integer whose base-256 digits are the bytes, most significant first. -/
def Bytes.toNat (bytes : Bytes) : Nat :=
  bytes.foldl (fun n b => n * 256 + b.toNat) 0

/-- The last `width` base-256 digits of a number, most significant first. -/
def Bytes.ofNat : (width : Nat) → Nat → Bytes
  | 0, _ => []
  | width + 1, n => Bytes.ofNat width (n / 256) ++ [UInt8.ofNat n]

@[simp] theorem Bytes.length_ofNat (width n : Nat) : (Bytes.ofNat width n).length = width := by
  induction width generalizing n <;> simp [Bytes.ofNat, *]

/-- The unsigned integer that the bytes denote in the given order. -/
def ByteOrder.toNat (order : ByteOrder) (bytes : Bytes) : Nat :=
  match order with
  | .big => Bytes.toNat bytes
  | .little => Bytes.toNat bytes.reverse

end Piecemeal
