/-
# Listings

All messages of a stream, and how the stream ends.  A stream is read by a reader and decoded as it
comes, or it is cut into pieces that the decoder is fed one after another.  Only with pieces it is
noticed that the bytes end inside a message: a reader that is at its end looks like one that waits.
-/
import Piecemeal.Records
import Piecemeal.Source.Reader

namespace Piecemeal.Records

/-- How a stream of messages ends. -/
inductive Ending where
  /-- There are no more bytes. -/
  | complete
  /-- The bytes end inside a message. -/
  | truncated
  /-- A message is malformed. -/
  | malformed (error : DecodeError)
  /-- The stream failed, in the words of the system. -/
  | unreadable (reason : String)
  /-- Decoding was given up without an answer. -/
  | abandoned
deriving DecidableEq, Repr

/-- The messages of a stream up to its end. -/
structure Listing where
  messages : List (List Record)
  ending : Ending
deriving DecidableEq, Repr

namespace Listing

/-- A stream without a message before its end. -/
def ends (ending : Ending) : Listing := ⟨[], ending⟩

/-- One more message in front. -/
def cons (records : List Record) (listing : Listing) : Listing :=
  { listing with messages := records :: listing.messages }

/-- Decodes messages from a reader until it is dry, in at most so many calls. -/
def read (budget : Nat) (state : decoder.State) (reader : Reader) : (calls : Nat) → Listing
  | 0 => ends .abandoned
  | calls + 1 =>
      match decoder.run budget state reader with
      | .reached (.done records) state reader => (read budget state reader calls).cons records
      | .reached .pending _ reader =>
          match reader.failure with
          | none => ends .complete
          | some reason => ends (.unreadable reason)
      | .reached (.failed error) _ _ => ends (.malformed error)
      | .broken _ | .exhausted => ends .abandoned

/-- Decodes messages from pieces, in at most so many calls.  `inside` says whether the bytes so far end
inside a message. -/
def feed (budget : Nat) (state : decoder.State) (inside : Bool) (pieces : List Bytes)
    (calls : Nat) : Listing :=
  match pieces, calls with
  | [], _ => ends (if inside then .truncated else .complete)
  | _ :: _, 0 => ends .abandoned
  | piece :: pieces, calls + 1 =>
      match decoder.run budget state piece with
      | .reached (.done records) state rest =>
          let pieces := if rest.isEmpty then pieces else rest :: pieces
          (feed budget state false pieces calls).cons records
      | .reached .pending state _ => feed budget state true pieces calls
      | .reached (.failed error) _ _ => ends (.malformed error)
      | .broken _ | .exhausted => ends .abandoned

/-- The pieces of `n` bytes that a byte string is cut into.  The last may be shorter. -/
def pieces (n : Nat) (bytes : Bytes) : List Bytes :=
  if n = 0 ∨ bytes = [] then [] else bytes.take n :: pieces n (bytes.drop n)
termination_by bytes.length
decreasing_by
  have hmore : ¬(n = 0 ∨ bytes = []) := ‹_›
  have : bytes.length ≠ 0 := fun h0 => hmore (.inr (List.length_eq_zero_iff.1 h0))
  simp only [List.length_drop]; omega

/-- The listing of a stream that gives these bytes and then ends, or fails. -/
def ofStream (bytes : Bytes) (failure : Option String) : Listing :=
  -- a call that gave no bytes would be the end of the stream
  let arrived := if bytes.isEmpty then [] else [StreamEvent.data bytes]
  let script := arrived ++ failure.toList.map .failed
  read (budget bytes.length) decoder.start (.ofScript script) (bytes.length + 1)

/-- The listing of a byte string that is fed `n` bytes at a time. -/
def ofPieces (n : Nat) (bytes : Bytes) : Listing :=
  feed (budget bytes.length) decoder.start false (pieces n bytes) (bytes.length + 1)

/-! ## Text -/

/-- The messages one after another. -/
def output (listing : Listing) : String :=
  String.join (listing.messages.zipIdx.map fun (records, index) => message index records)

end Listing

end Piecemeal.Records
