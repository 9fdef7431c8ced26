/-
# Listing records from the command line

The tool takes at most one file, lists the messages in it or in its standard input, and says how many
there were.  It can be told to feed the decoder so many bytes at a time, and to read hexadecimal
text.

What the tool writes is a function of its arguments and of the contents that it is given.
-/
import Piecemeal.Records.Listing
import Piecemeal.Text.Hex

namespace Piecemeal.Records

/-- What is wrong with the arguments, the input or a message. -/
inductive Problem where
  /-- An option without its value. -/
  | missingValue (option : String)
  | badChunkSize (text : String) (fault : Numeral.Fault)
  | zeroChunkSize
  | tooManyFiles (n : Nat)
  | cannotOpen (path reason : String)
  /-- The input could not be read as a whole. -/
  | cannotRead (reason : String)
  /-- The input is no text. -/
  | notText (fault : Utf8.Fault)
  | badHex (fault : Hex.Fault)
  /-- The stream failed after so many messages. -/
  | streamFailed (reason : String)
  | badMessage (index : Nat) (error : DecodeError)
  | truncated (index : Nat)
  | abandoned
deriving DecidableEq, Repr

namespace Problem

def message : Problem → String
  | missingValue option => s!"{option} expects a value"
  | badChunkSize text _ => "invalid chunk size " ++ Quoted.text text
  | zeroChunkSize => "chunk size must be at least 1"
  | tooManyFiles n => s!"expected at most one input file, got {n}"
  | cannotOpen path _ => s!"open {path}"
  | cannotRead reason => reason
  | notText _ => "hex input is not text"
  | badHex fault => fault.message
  | streamFailed _ => "read failed"
  | badMessage index error => s!"message {index}: {error.message}"
  | truncated index => s!"input ends inside message {index}"
  | abandoned => "gave up"

/-- What is behind the problem, if there is more to say. -/
def cause? : Problem → Option String
  | badChunkSize _ fault => some fault.message
  | cannotOpen _ reason => some reason
  | notText fault => some fault.message
  | badHex fault => fault.cause?
  | streamFailed reason => some reason
  | _ => none

/-- The problem as it is reported. -/
def text (problem : Problem) : String :=
  "Error: " ++ problem.message ++
    match problem.cause? with
    | none => "\n"
    | some cause => "\n\nCaused by:\n    " ++ cause ++ "\n"

end Problem

/-! ## Arguments -/

/-- What the tool is asked to do. -/
structure Options where
  /-- How many bytes the decoder is fed at a time, at least one. -/
  chunk : Option Nat
  /-- Whether the input is hexadecimal text. -/
  hex : Bool
  /-- The file to read, or standard input. -/
  file : Option String
deriving DecidableEq, Repr

namespace Options

/-- Takes the first of the named options and its value out of the arguments. -/
def takeValue (option short : String) (args : List String) :
    Except Problem (Option String × List String) :=
  match args.span fun arg => arg ≠ option ∧ arg ≠ short with
  | (before, _ :: value :: after) => .ok (some value, before ++ after)
  | (_, [_]) => .error (.missingValue option)
  | (_, []) => .ok (none, args)

/-- Takes the first of the named flags out of the arguments. -/
def takeFlag (flag short : String) (args : List String) : Bool × List String :=
  match args.span fun arg => arg ≠ flag ∧ arg ≠ short with
  | (before, _ :: after) => (true, before ++ after)
  | (_, []) => (false, args)

/-- The number of bytes that a text asks for. -/
def chunkSize (text : String) : Except Problem Nat :=
  match Numeral.parse 10 lengthLimit (Utf8.encode text) with
  | .error fault => .error (.badChunkSize text fault)
  | .ok 0 => .error .zeroChunkSize
  | .ok n => .ok n

def parse (args : List String) : Except Problem Options := do
  let (value, args) ← takeValue "--chunk" "-c" args
  let chunk ← value.mapM chunkSize
  let (hex, args) := takeFlag "--hex" "-x" args
  if 1 < args.length then throw (.tooManyFiles args.length)
  return ⟨chunk, hex, args.head?⟩

end Options

/-! ## Contents and report -/

/-- What a file or standard input gives. -/
structure Contents where
  bytes : Bytes
  /-- Why there were no more bytes, unless they were at their end. -/
  failure : Option String
deriving DecidableEq, Repr

/-- What the tool writes. -/
structure Report where
  /-- To standard output. -/
  output : String
  /-- To standard error. -/
  notice : String
  succeeded : Bool
deriving DecidableEq, Repr

namespace Report

/-- Nothing was listed. -/
def ofProblem (problem : Problem) : Report := ⟨"", problem.text, false⟩

/-- The problem that a listing ends with. -/
def problem? (listing : Listing) : Option Problem :=
  match listing.ending with
  | .complete => none
  | .truncated => some (.truncated listing.messages.length)
  | .malformed error => some (.badMessage listing.messages.length error)
  | .unreadable reason => some (.streamFailed reason)
  | .abandoned => some .abandoned

def ofListing (listing : Listing) : Report :=
  match problem? listing with
  | none => ⟨listing.output, s!"decoded {listing.messages.length} message(s)\n", true⟩
  | some problem => ⟨listing.output, problem.text, false⟩

end Report

/-- The bytes of the input where they are needed as a whole. -/
def Contents.whole (contents : Contents) (hex : Bool) : Except Problem Bytes :=
  match contents.failure with
  | some reason => .error (.cannotRead reason)
  | none =>
      if hex then
        match Utf8.decode contents.bytes with
        | .ok text => (Hex.parse text).mapError .badHex
        | .error fault => .error (.notText fault)
      else .ok contents.bytes

/-- What the tool writes when it is given these contents. -/
def report (options : Options) (contents : Contents) : Report :=
  if options.chunk.isNone ∧ options.hex = false then
    .ofListing (.ofStream contents.bytes contents.failure)
  else
    match contents.whole options.hex with
    | .ok bytes => .ofListing (.ofPieces (options.chunk.getD (max bytes.length 1)) bytes)
    | .error problem => .ofProblem problem

end Piecemeal.Records
