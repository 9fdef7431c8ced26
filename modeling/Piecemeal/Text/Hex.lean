/-
# Hexadecimal text

Byte strings written as text, two digits a byte.  Blanks may stand anywhere, also between the two
digits of a byte.  The text is cut into pairs of bytes first, so it may turn out only then that a
pair is no text.
-/
import Piecemeal.Text.Numeral
import Piecemeal.Text.Quoted
import Piecemeal.Text.Utf8

namespace Piecemeal.Hex

/-- Why a text denotes no byte string. -/
inductive Fault where
  /-- One digit has no partner. -/
  | oddLength
  /-- A pair of bytes is no text. -/
  | notText (fault : Utf8.Fault)
  /-- A pair is text, but not two digits. -/
  | badPair (text : String) (fault : Numeral.Fault)
deriving DecidableEq, Repr

def Fault.message : Fault → String
  | .oddLength => "hex input has an odd number of digits"
  | .notText fault => fault.message
  | .badPair text _ => "invalid hex byte " ++ Quoted.text text

/-- What is behind the fault, if there is more to say. -/
def Fault.cause? : Fault → Option String
  | .badPair _ fault => some fault.message
  | _ => none

/-- The two digits of a byte. -/
def digits (b : UInt8) : List Char :=
  [Nat.digitChar (b.toNat / 16), Nat.digitChar (b.toNat % 16)]

/-- The text that denotes a byte string, in lower case and without blanks. -/
def render (bytes : Bytes) : String := String.ofList (bytes.flatMap digits)

/-- Space, tab, line feed, form feed and carriage return. -/
def isBlank (b : UInt8) : Bool :=
  b = 0x20 || b = 0x09 || b = 0x0A || b = 0x0C || b = 0x0D

/-- The byte that two digits denote. -/
def pair (high low : UInt8) : Except Fault UInt8 := do
  let text ← (Utf8.decode [high, low]).mapError .notText
  let n ← (Numeral.parse 16 256 [high, low]).mapError (.badPair text)
  return UInt8.ofNat n

/-- The bytes that an even number of digits denote. -/
def pairs : Bytes → Except Fault Bytes
  | high :: low :: digits => do
      let b ← pair high low
      return b :: (← pairs digits)
  | _ => .ok []

/-- The byte string that a text denotes. -/
def parse (text : String) : Except Fault Bytes :=
  let digits := (Utf8.encode text).filter fun b => !isBlank b
  if digits.length % 2 = 0 then pairs digits else .error .oddLength

end Piecemeal.Hex
