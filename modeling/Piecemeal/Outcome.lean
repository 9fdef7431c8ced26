/-
# Outcomes

What one call of a decoder answers: a value, that it needs more bytes, or that the data is wrong.
-/
import Piecemeal.DecodeError
import Piecemeal.Misuse

namespace Piecemeal

/-- The answer of one decode call. -/
inductive Outcome (α : Type) where
  /-- A value was decoded. -/
  | done (value : α)
  /-- The source ran dry inside a value. -/
  | pending
  /-- The data is wrong. -/
  | failed (error : DecodeError)
deriving DecidableEq, Repr

namespace Outcome

variable {α β : Type}

def isDone : Outcome α → Bool
  | .done _ => true
  | _ => false

def isPending : Outcome α → Bool
  | .pending => true
  | _ => false

def bind (o : Outcome α) (f : α → Outcome β) : Outcome β :=
  match o with
  | .done value => f value
  | .pending => .pending
  | .failed error => .failed error

def map (f : α → β) (o : Outcome α) : Outcome β :=
  o.bind fun value => .done (f value)

/-- The same answer at another type of value.  A value has no counterpart there. -/
def retype : Outcome α → Except Misuse (Outcome β)
  | .done _ => .error .finishedOutcome
  | .pending => .ok .pending
  | .failed error => .ok (.failed error)

def value? : Outcome α → Option α
  | .done value => some value
  | _ => none

/-- The answer when no more bytes will come: data that ends inside a value is an error. -/
def toExcept : Outcome α → Except DecodeError α
  | .done value => .ok value
  | .pending => .error (.unexpectedEnd "decoder needs more bytes")
  | .failed error => .error error

def ofExcept : Except DecodeError α → Outcome α
  | .ok value => .done value
  | .error error => .failed error

end Outcome

end Piecemeal
