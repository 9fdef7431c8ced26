/-
# Moves

How execution of a laid-out program goes on after a step: the bounds of scopes, and the moves that
an active scope may answer.
-/
namespace Piecemeal

/-- The steps of a scope: its head and its last step. -/
structure Bounds where
  /-- The index of the head. -/
  head : Nat
  /-- The index of the last step. -/
  last : Nat
deriving DecidableEq, Repr

/-- Where execution goes on. -/
inductive Target where
  /-- At the following step. -/
  | following
  /-- At this step. -/
  | step (index : Nat)
  /-- At the first step of the scope's body. -/
  | body
deriving DecidableEq, Repr

/-- What an active scope answers when a step of it is complete. -/
structure Move where
  /-- Where to go on. -/
  target : Target
  /-- Whether the scope is finished. -/
  closes : Bool
deriving DecidableEq, Repr

namespace Move

def following : Move := ⟨.following, false⟩

def step (index : Nat) : Move := ⟨.step index, false⟩

def body : Move := ⟨.body, false⟩

/-- Finishes the scope and goes on behind it. -/
def leave (bounds : Bounds) : Move := ⟨.step (bounds.last + 1), true⟩

/-- The index that a move from step `current` of a scope leads to. -/
def index (move : Move) (bounds : Bounds) (current : Nat) : Nat :=
  match move.target with
  | .following => current + 1
  | .step index => index
  | .body => bounds.head + 1

end Move

/-! ## Texts -/

def Bounds.describe (bounds : Bounds) : String :=
  "ScopeBounds \x7b start: " ++ toString bounds.head ++ ", end: " ++ toString bounds.last ++ " \x7d"

def Target.describe : Target → String
  | .following => "Increment"
  | .step index => s!"GoTo({index})"
  | .body => "Rewind"

def Move.describe (move : Move) : String :=
  "StepTransition \x7b kind: " ++ move.target.describe ++ ", pop: " ++ toString move.closes ++ " \x7d"

end Piecemeal
