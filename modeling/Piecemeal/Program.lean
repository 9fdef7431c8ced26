/-
# Programs

A program is a list of steps.  Each step has an action, which yields a value, and may be the head of
a scope, which then becomes active when execution arrives there.  How the steps are run is the
business of `Piecemeal.Program.Machine`.
-/
import Piecemeal.Program.Action
import Piecemeal.Program.Scope

namespace Piecemeal

/-- One step of a program. -/
structure Stage (κ : Type) [Atom κ] where
  /-- The name of the step in logs. -/
  label : String
  /-- Whether the value that the action yields is kept. -/
  stores : Bool
  action : Action κ
  /-- The scope that the step is the head of. -/
  scope : Option (Scope κ)

namespace Stage

variable {κ : Type} [Atom κ]

/-- What the scope of a step remembers while it is active.  A step without a scope has none to be
active. -/
def Memory (stage : Stage κ) : Type :=
  match stage.scope with
  | some scope => scope.rule.Memory
  | none => Empty

/-- The memory of the step's scope when execution arrives, if the step has one. -/
def fresh? : (stage : Stage κ) → Option stage.Memory
  | ⟨_, _, _, some scope⟩ => some scope.rule.fresh
  | ⟨_, _, _, none⟩ => none

/-- The bounds of the step's scope. -/
def bounds : (stage : Stage κ) → stage.Memory → Bounds
  | ⟨_, _, _, some scope⟩, _ => scope.bounds
  | ⟨_, _, _, none⟩, memory => nomatch memory

/-- What the step's scope, while it is the innermost active one, answers when step `current` is
complete. -/
def answer (current : Nat) (values : Accumulator κ) :
    (stage : Stage κ) → stage.Memory → Except Misuse (Rule.Answer κ stage.Memory)
  | ⟨_, _, _, some scope⟩, memory => scope.rule.answer scope.bounds current values memory
  | ⟨_, _, _, none⟩, memory => nomatch memory

/-- What the step's scope, while it is the innermost active one, makes of the end of the program. -/
def atEnd (values : Accumulator κ) :
    (stage : Stage κ) → stage.Memory → Except Misuse (Option (Accumulator κ))
  | ⟨_, _, _, some scope⟩, memory => scope.rule.atEnd values memory
  | ⟨_, _, _, none⟩, memory => nomatch memory

end Stage

/-- Steps that decode a value of type `result`. -/
structure Program (κ : Type) [Atom κ] (result : ValueType κ) where
  stages : Array (Stage κ)
  stages_nonempty : 0 < stages.size
  /-- How many scopes may be active at once, at least one. -/
  maxDepth : Nat
  maxDepth_pos : 0 < maxDepth

namespace Program

variable {κ : Type} [Atom κ] {result : ValueType κ}

/-- How many scopes may be active at once unless the user says otherwise. -/
def defaultMaxDepth : Nat := 256

abbrev size (p : Program κ result) : Nat := p.stages.size

def stage (p : Program κ result) (index : Fin p.size) : Stage κ := p.stages[index]

/-- The index of the first step. -/
def first (p : Program κ result) : Fin p.size := ⟨0, p.stages_nonempty⟩

end Program

end Piecemeal
