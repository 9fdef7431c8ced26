/-
# Numbers

Decoders of numbers of a fixed width, and lengths made from them.  Floating-point numbers are kept
as their bits: nothing in the library computes with them.
-/
import Piecemeal.Decoder
import Piecemeal.Text.Hex

namespace Piecemeal

/-- Types whose values stand in a fixed number of bytes. -/
class FixedWidth (α : Type) where
  /-- The number of bytes, at least one. -/
  width : Nat
  /-- The value of that many bytes. -/
  ofBytes : ByteOrder → Bytes → α

/-- An IEEE 754 number of 32 bits, as its bits. -/
structure Binary32 where
  bits : UInt32
deriving DecidableEq, Repr

/-- An IEEE 754 number of 64 bits, as its bits. -/
structure Binary64 where
  bits : UInt64
deriving DecidableEq, Repr

instance : FixedWidth UInt8 := ⟨1, fun order bytes => UInt8.ofNat (order.toNat bytes)⟩
instance : FixedWidth UInt16 := ⟨2, fun order bytes => UInt16.ofNat (order.toNat bytes)⟩
instance : FixedWidth UInt32 := ⟨4, fun order bytes => UInt32.ofNat (order.toNat bytes)⟩
instance : FixedWidth UInt64 := ⟨8, fun order bytes => UInt64.ofNat (order.toNat bytes)⟩
instance : FixedWidth Int8 := ⟨1, fun order bytes => Int8.ofNat (order.toNat bytes)⟩
instance : FixedWidth Int16 := ⟨2, fun order bytes => Int16.ofNat (order.toNat bytes)⟩
instance : FixedWidth Int32 := ⟨4, fun order bytes => Int32.ofNat (order.toNat bytes)⟩
instance : FixedWidth Int64 := ⟨8, fun order bytes => Int64.ofNat (order.toNat bytes)⟩
instance : FixedWidth Binary32 := ⟨4, fun order bytes => ⟨UInt32.ofNat (order.toNat bytes)⟩⟩
instance : FixedWidth Binary64 := ⟨8, fun order bytes => ⟨UInt64.ofNat (order.toNat bytes)⟩⟩

namespace Decoder

/-- Decodes one number. -/
def number (α : Type) [FixedWidth α] (order : ByteOrder) : Decoder α where
  -- the bytes that have arrived
  State := Bytes
  start := []
  step received :=
    if received.length < FixedWidth.width α then
      .read (FixedWidth.width α - received.length) fun bytes => received ++ bytes
    else .done (FixedWidth.ofBytes order received) []
  reset _ := []

/-- Decodes a truth value: one byte, zero or one. -/
def bool : Decoder Bool where
  State := Option UInt8
  start := none
  step
    | none => .read 1 fun bytes => bytes.head?
    | some 0 => .done false none
    | some 1 => .done true none
    | some b =>
        .fail (.validation ("invalid boolean byte 0x" ++ Hex.render [b])) none
  reset _ := none

end Decoder

/-! ## Lengths -/

/-- Integer types that may announce a length or a count. -/
class CountPrefix (α : Type) where
  toInt : α → Int

instance : CountPrefix UInt8 := ⟨fun n => n.toNat⟩
instance : CountPrefix UInt16 := ⟨fun n => n.toNat⟩
instance : CountPrefix UInt32 := ⟨fun n => n.toNat⟩
instance : CountPrefix UInt64 := ⟨fun n => n.toNat⟩
instance : CountPrefix Int8 := ⟨Int8.toInt⟩
instance : CountPrefix Int16 := ⟨Int16.toInt⟩
instance : CountPrefix Int32 := ⟨Int32.toInt⟩
instance : CountPrefix Int64 := ⟨Int64.toInt⟩
instance : CountPrefix Nat := ⟨Int.ofNat⟩
instance : CountPrefix Int := ⟨id⟩

/-- Lengths and counts stay below this number, the 64th power of two. -/
def lengthLimit : Nat := 18446744073709551616

/-- The length that an integer announces.  Negative integers and those that reach the limit announce
none. -/
def toLength {α : Type} [CountPrefix α] (value : α) : Except DecodeError Nat :=
  let n := CountPrefix.toInt value
  if 0 ≤ n ∧ n < lengthLimit then .ok n.toNat
  else .error (.invalidLength s!"length prefix {n} is out of range")

end Piecemeal
