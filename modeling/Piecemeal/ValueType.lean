/-
# Types of values

A program keeps values of many types on one stack, so their types are data: codes, each with the
Lean type of its values.  Beside the library's own there may be any family of further types, its
atoms.

A cell is a value together with its code.  It can be read at the type it was stored at and at no
other.
-/
import Piecemeal.Bytes
import Piecemeal.Decoder.Number
import Piecemeal.Misuse

namespace Piecemeal

/-- Families of further types of values. -/
class Atom (κ : Type) where
  /-- Atoms can be told apart. -/
  decEq : DecidableEq κ
  /-- The values of an atom. -/
  Carrier : κ → Type
  /-- The name of an atom in messages. -/
  name : κ → String

instance {κ : Type} [Atom κ] : DecidableEq κ := Atom.decEq

/-- Codes of types of values, over a family `κ` of atoms. -/
inductive ValueType (κ : Type) where
  /-- No information: what a step that decodes nothing yields. -/
  | unit
  | bool
  /-- Lengths and counts. -/
  | size
  | uint8
  | uint16
  | uint32
  | uint64
  | int8
  | int16
  | int32
  | int64
  | binary32
  | binary64
  | text
  | option (value : ValueType κ)
  | list (element : ValueType κ)
  | pair (left right : ValueType κ)
  | atom (name : κ)
deriving DecidableEq

namespace ValueType

variable {κ : Type}

/-- The type that a code stands for. -/
def Carrier [Atom κ] : ValueType κ → Type
  | unit => Unit
  | bool => Bool
  | size => Nat
  | uint8 => UInt8
  | uint16 => UInt16
  | uint32 => UInt32
  | uint64 => UInt64
  | int8 => Int8
  | int16 => Int16
  | int32 => Int32
  | int64 => Int64
  | binary32 => Binary32
  | binary64 => Binary64
  | text => String
  | option value => Option value.Carrier
  | list element => List element.Carrier
  | pair left right => left.Carrier × right.Carrier
  | atom name => Atom.Carrier name

/-- The name of a type in messages. -/
def name [Atom κ] : ValueType κ → String
  | unit => "()"
  | bool => "bool"
  | size => "usize"
  | uint8 => "u8"
  | uint16 => "u16"
  | uint32 => "u32"
  | uint64 => "u64"
  | int8 => "i8"
  | int16 => "i16"
  | int32 => "i32"
  | int64 => "i64"
  | binary32 => "f32"
  | binary64 => "f64"
  | text => "String"
  | option value => s!"Option<{value.name}>"
  | list element => s!"Vec<{element.name}>"
  | pair left right => s!"({left.name}, {right.name})"
  | atom name => Atom.name name

/-- The decoder of a number, if the values of the type are numbers of a fixed width. -/
def number? [Atom κ] (order : ByteOrder) : (type : ValueType κ) → Option (Decoder type.Carrier)
  | uint8 => some (.number UInt8 order)
  | uint16 => some (.number UInt16 order)
  | uint32 => some (.number UInt32 order)
  | uint64 => some (.number UInt64 order)
  | int8 => some (.number Int8 order)
  | int16 => some (.number Int16 order)
  | int32 => some (.number Int32 order)
  | int64 => some (.number Int64 order)
  | binary32 => some (.number Binary32 order)
  | binary64 => some (.number Binary64 order)
  | _ => none

/-- Byte strings are lists of bytes. -/
abbrev bytes : ValueType κ := list uint8

end ValueType

/-- A value with the code of its type. -/
structure Cell (κ : Type) [Atom κ] where
  type : ValueType κ
  value : type.Carrier

namespace Cell

variable {κ : Type} [Atom κ]

/-- The cell that stands for no information. -/
def blank : Cell κ := ⟨.unit, ()⟩

/-- The value, if it is of the given type. -/
def read (cell : Cell κ) (type : ValueType κ) : Except Misuse type.Carrier :=
  if h : cell.type = type then .ok (h ▸ cell.value) else .error (.wrongType type.name)

@[simp] theorem read_mk (type : ValueType κ) (value : type.Carrier) :
    (Cell.mk type value).read type = .ok value := by
  simp [read]

/-- A cell can be read at its own type only. -/
theorem type_eq_of_read {cell : Cell κ} {type : ValueType κ} {value : type.Carrier}
    (h : cell.read type = .ok value) : cell = ⟨type, value⟩ := by
  obtain ⟨t, v⟩ := cell
  simp only [read] at h
  split at h
  · next ht => subst ht; cases h; rfl
  · cases h

end Cell

end Piecemeal
