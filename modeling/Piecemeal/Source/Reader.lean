/-
# Readers

A reader is a byte source over a stream that may stall, be interrupted, fail or end.  The stream is
given by what its successive calls will meet; after the last of these it has ended.

Reading goes on over interruptions until enough bytes are there.  A stall, a failure or the end
stops it: what has arrived by then is handed out, the end is remembered for good, and a failure is
kept until it is taken.
-/
import Piecemeal.Source

namespace Piecemeal

/-- What one call on a stream meets. -/
inductive StreamEvent where
  /-- Bytes that have arrived.  Those that a call has no room for stay first in line. -/
  | data (bytes : Bytes)
  /-- The end of the stream, for this call. -/
  | ended
  /-- The call was interrupted and is to be made again. -/
  | interrupted
  /-- Nothing is there yet. -/
  | stalled
  /-- The stream failed, in the words of the system. -/
  | failed (reason : String)
deriving DecidableEq, Repr

/-- A byte source over a stream. -/
structure Reader where
  /-- What the next calls on the stream will meet. -/
  script : List StreamEvent
  /-- Whether the end of the stream has been met. -/
  hasEnded : Bool
  /-- The latest failure that has not been taken. -/
  failure : Option String

namespace Reader

/-- A reader over a stream that has not been called yet. -/
def ofScript (script : List StreamEvent) : Reader := ⟨script, false, none⟩

/-- Calls the stream until `n` bytes are there or something stops it. -/
def fill (hasEnded : Bool) (failure : Option String) : List StreamEvent → (n : Nat) → Bytes × Reader
  | script, 0 => ([], ⟨script, hasEnded, failure⟩)
  | [], _ + 1 => ([], ⟨[], true, failure⟩)
  | .interrupted :: script, n + 1 => fill hasEnded failure script (n + 1)
  | .stalled :: script, _ + 1 => ([], ⟨script, hasEnded, failure⟩)
  | .ended :: script, _ + 1 => ([], ⟨script, true, failure⟩)
  | .failed reason :: script, _ + 1 => ([], ⟨script, hasEnded, some reason⟩)
  -- a call that gives no bytes is the end of the stream
  | .data [] :: script, _ + 1 => ([], ⟨script, true, failure⟩)
  | .data (b :: bytes) :: script, n + 1 =>
      match bytes.drop n with
      | [] =>
          let (more, reader) := fill hasEnded failure script (n - bytes.length)
          (b :: bytes ++ more, reader)
      | rest => (b :: bytes.take n, ⟨.data rest :: script, hasEnded, failure⟩)

def read (reader : Reader) (n : Nat) : Bytes × Reader :=
  fill reader.hasEnded reader.failure reader.script n

instance : ByteSource Reader where
  read := read
  skip := ByteSource.skipByReading read

/-- Hands out the failure that is kept, if there is one. -/
def takeFailure (reader : Reader) : Option String × Reader :=
  (reader.failure, { reader with failure := none })

end Reader

end Piecemeal
