/-
# Record lists

A format of messages: a count of four bytes, most significant first, and as many records.  A record
is two names, each a text of at most 255 bytes behind a byte that holds its length, and two more
bytes, the age and the height.
-/
import Piecemeal.Collector
import Piecemeal.Decoder.ByteString
import Piecemeal.Program.Machine
import Piecemeal.Recipe.Builder

namespace Piecemeal

/-- What is known of a person. -/
structure Record where
  firstName : String
  lastName : String
  age : UInt8
  height : UInt8
deriving DecidableEq, Repr

namespace Records

/-- Records are the only values that the format adds. -/
inductive Kind where
  | record
deriving DecidableEq

instance : Atom Kind where
  decEq := inferInstance
  Carrier _ := Record
  name _ := "Record"

/-- The type of one record. -/
abbrev record : ValueType Kind := .atom .record

/-- A name behind its length. -/
def name : Decoder String := .prefixedText (.number UInt8 .big)

/-- How to decode one record. -/
def recordRecipe : Recipe Kind (.list record) :=
  Recipe.first .text name
    |>.decode .text name
    |>.decode .uint8 (.number UInt8 .big)
    |>.decode .uint8 (.number UInt8 .big)
    |>.act (.reduce 4 record (.row [.text, .text, .uint8, .uint8]
        fun (firstName, lastName, age, height, _) => Record.mk firstName lastName age height))

/-- How to decode a message. -/
def recipe : Recipe Kind (.list record) :=
  recordRecipe.repetition record (.list record) (.prefixedBy (.number UInt32 .big)) .toList

def program : Program Kind (.list record) :=
  recipe.program rfl Program.defaultMaxDepth

/-- Decodes the records of one message. -/
def decoder : Decoder (List Record) := program.decoder

/-! ## Encoding -/

/-- A name of at most 255 bytes behind its length. -/
def encodeName (name : String) : Bytes :=
  let bytes := Utf8.encode name
  UInt8.ofNat bytes.length :: bytes

def encodeRecord (record : Record) : Bytes :=
  encodeName record.firstName ++ encodeName record.lastName ++ [record.age, record.height]

/-- The message of fewer records than four bytes can count. -/
def encode (records : List Record) : Bytes :=
  Bytes.ofNat 4 records.length ++ records.flatMap encodeRecord

/-! ## Decoding in a session -/

/-- More steps than it takes to decode messages from so many bytes. -/
def budget (bytes : Nat) : Nat := 128 * (bytes + 16)

/-! ## Text -/

def line (record : Record) : String :=
  s!"  {record.firstName} {record.lastName}, age {record.age}, height {record.height}\n"

/-- A message, the `index`-th of its stream, line by line. -/
def message (index : Nat) (records : List Record) : String :=
  s!"message {index} ({records.length} records)\n" ++ String.join (records.map line)

end Records

end Piecemeal
