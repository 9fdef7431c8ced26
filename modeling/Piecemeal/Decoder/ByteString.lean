/-
# Byte strings and text

Three ways to say where a byte string ends: its length is known, its length stands in front of it,
or a marker stands behind it.  Text is any of them, read as UTF-8.

A byte string whose length is known is read in blocks.  So an announced length costs nothing until
its bytes arrive, and a source that gives at most so many bytes per read is asked again within one
call only as long as it fills whole blocks.
-/
import Piecemeal.Decoder.Adapters
import Piecemeal.Decoder.Number
import Piecemeal.Text.Utf8

namespace Piecemeal.Decoder

/-- The most bytes that are asked for at once. -/
def fillBlock : Nat := 4096

/-- Decodes `n` bytes. -/
def bytes (n : Nat) : Decoder Bytes where
  -- the bytes that have arrived
  State := Array UInt8
  start := #[]
  step received :=
    if received.size < n then
      .read (min (n - received.size) fillBlock) fun bytes => received ++ bytes
    else .done received.toList #[]
  reset _ := #[]

/-- The length that a prefix announces, if it is at most `max`. -/
def boundedLength {α : Type} [CountPrefix α] (max : Option Nat) (value : α) :
    Except DecodeError Nat := do
  let n ← toLength value
  match max with
  | none => return n
  | some max =>
      if max < n then throw (.invalidLength s!"length {n} exceeds maximum {max}") else return n

/-- Decodes a length, at most `max`, and that many bytes. -/
def prefixed {α : Type} [CountPrefix α] (length : Decoder α) (max : Option Nat) : Decoder Bytes :=
  (length.tryMap (boundedLength max)).andThen bytes

/-- Decodes the bytes up to a marker, which is dropped.  Bytes are taken one by one, so nothing behind
the marker is touched.  Behind an empty marker there is nothing to look for: see `terminated?`. -/
def terminated (marker : Bytes) : Decoder Bytes where
  -- the bytes that have arrived, latest first
  State := Bytes
  start := []
  step received :=
    if marker.reverse.isPrefixOf received then
      .done (received.drop marker.length).reverse []
    else .read 1 fun bytes => bytes ++ received
  reset _ := []

/-- The decoder of bytes up to a marker, which must not be empty. -/
def terminated? (marker : Bytes) : Except Misuse (Decoder Bytes) :=
  if marker.isEmpty then .error .emptyMarker else .ok (terminated marker)

/-! ## Text -/

/-- Reads the bytes of another decoder as UTF-8. -/
def utf8 (d : Decoder Bytes) : Decoder String :=
  d.tryMap fun bytes => (Utf8.decode bytes).mapError .invalidUtf8

/-- Text behind its length in bytes. -/
def prefixedText {α : Type} [CountPrefix α] (length : Decoder α) : Decoder String :=
  (prefixed length none).utf8

/-- Text behind its length in bytes, a signed number of four bytes, most significant first. -/
def text : Decoder String :=
  prefixedText (number Int32 .big)

/-- Text in front of a marker. -/
def terminatedText? (marker : Bytes) : Except Misuse (Decoder String) :=
  (terminated? marker).map utf8

end Piecemeal.Decoder
