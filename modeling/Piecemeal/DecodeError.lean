/-
# Decode errors

Why data cannot be decoded.  The causes that only the user of the library knows carry their text;
the others carry what the text is made from.  `DecodeError.message` is the one place that words
them.
-/
import Piecemeal.Text.Utf8

namespace Piecemeal

/-- Why a decoder rejects the data it was given. -/
inductive DecodeError where
  /-- A value is outside what its format allows. -/
  | validation (text : String)
  /-- A length or count is out of range. -/
  | invalidLength (text : String)
  /-- A text is not well-formed. -/
  | invalidUtf8 (fault : Utf8.Fault)
  /-- The data ends inside a value. -/
  | unexpectedEnd (text : String)
  /-- More scopes would be active at once than the limit allows. -/
  | depthLimit (limit : Nat)
  /-- Any other cause, in the words of the format's author. -/
  | custom (text : String)
deriving DecidableEq, Repr

def DecodeError.message : DecodeError → String
  | .validation text => s!"Validation: {text}"
  | .invalidLength text => s!"Invalid length: {text}"
  | .invalidUtf8 fault => s!"Invalid UTF-8: {fault.message}"
  | .unexpectedEnd text => s!"Unexpected end of input: {text}"
  | .depthLimit limit => s!"Nesting depth exceeds limit of {limit}"
  | .custom text => text

end Piecemeal
