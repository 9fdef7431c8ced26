/-
# Recipes

A recipe says how to decode a value, piece by piece.  It works on a stack of pending values: most
parts put one more value there, or replace the latest; an option or a repetition wraps all parts
before it, and replaces their one value.  So a recipe is built up from its first decoder, one part
after another, and `Recipe.pending` says which types of values it leaves.

A recipe is laid out as steps of a program.  The head of an option or a repetition stands in front
of the parts that it wraps, and so the bounds of scopes depend on where the layout begins.
-/
import Piecemeal.Program

namespace Piecemeal

/-- How to decode a value of type `whole`, or a beginning of it. -/
inductive Recipe (κ : Type) [Atom κ] (whole : ValueType κ) : Type 1 where
  /-- The beginning: a decoder. -/
  | first (type : ValueType κ) (decoder : Decoder type.Carrier)
  /-- One more action. -/
  | act (before : Recipe κ whole) (action : Action κ)
  /-- Drops bytes. -/
  | skip (before : Recipe κ whole) (n : Nat)
  /-- A flag, and a value of the whole recipe if it is set. -/
  | recur (before : Recipe κ whole) (flag : Decoder Bool)
  /-- A flag in front of all of the body, which is left out unless the flag is set. -/
  | optional (body : Recipe κ whole) (type : ValueType κ) (flag : Decoder Bool)
  /-- The body again and again. -/
  | repetition (body : Recipe κ whole) (element result : ValueType κ)
      (bound : Bound element.Carrier) (collector : Collector element.Carrier result.Carrier)

namespace Recipe

variable {κ : Type} [Atom κ] {whole : ValueType κ}

/-- The types of the pending values, latest first. -/
def pending : Recipe κ whole → List (ValueType κ)
  | first type _ => [type]
  | act before action =>
      match action with
      | .decode type _ | .follow _ type _ => type :: before.pending
      | .replace _ type _ => type :: before.pending.tail
      | .reduce arity type _ => type :: before.pending.drop arity
  | skip before _ => before.pending
  | recur before _ => .option whole :: before.pending
  | optional _ type _ => [.option type]
  | repetition _ _ result _ _ => [result]

/-- The number of steps. -/
def size : Recipe κ whole → Nat
  | first .. => 1
  | act before _ | skip before _ | recur before _ => before.size + 1
  | optional body _ _ | repetition body _ _ _ _ => body.size + 1

/-! ## Layout -/

/-- The step of an action. -/
def actionStage (action : Action κ) : Stage κ where
  label :=
    match action with
    | .decode .. => "then"
    | .replace .. => "map"
    | .follow .. => "map_and_store"
    | .reduce .. => "reduce"
  stores := true
  action := action
  scope := none

/-- The step that drops bytes. -/
def skipStage (n : Nat) : Stage κ where
  label := "skip"
  stores := false
  action := .decode .unit (.skipBytes n)
  scope := none

/-- The step of a recursion, which is a scope of its own. -/
def recurStage (whole : ValueType κ) (flag : Decoder Bool) (index : Nat) : Stage κ where
  label := "then_itself_or_null"
  stores := true
  action := .decode .bool flag
  scope := some ⟨.recursion whole, ⟨index, index⟩⟩

/-- The head of an option. -/
def optionalStage (type : ValueType κ) (flag : Decoder Bool) (bounds : Bounds) : Stage κ where
  label := "optional"
  stores := true
  action := .decode .bool flag
  scope := some ⟨.optional type, bounds⟩

/-- The name of a repetition. -/
def repetitionLabel {ε : Type} : Bound ε → String
  | .times _ => "repeat"
  | .prefixed _ => "repeat_prefixed"
  | .whileHolds .. => "repeat_while"

/-- The head of a repetition.  It decodes the number of elements, if that stands in the data. -/
def repetitionStage (element result : ValueType κ) (bound : Bound element.Carrier)
    (collector : Collector element.Carrier result.Carrier) (bounds : Bounds) : Stage κ where
  label := repetitionLabel bound
  stores := match bound with
    | .prefixed _ => true
    | _ => false
  action := match bound with
    | .prefixed size => .decode .size size
    | _ => .decode .unit (.constant ())
  scope := some ⟨.repetition element result bound collector, bounds⟩

/-- The steps of a recipe that is laid out from index `start` on. -/
def stages (start : Nat) : Recipe κ whole → List (Stage κ)
  | first type decoder => [actionStage (.decode type decoder)]
  | act before action => before.stages start ++ [actionStage action]
  | skip before n => before.stages start ++ [skipStage n]
  | recur before flag => before.stages start ++ [recurStage whole flag (start + before.size)]
  | optional body type flag =>
      optionalStage type flag ⟨start, start + body.size⟩ :: body.stages (start + 1)
  | repetition body element result bound collector =>
      repetitionStage element result bound collector ⟨start, start + body.size⟩ ::
        body.stages (start + 1)

@[simp] theorem length_stages (r : Recipe κ whole) (start : Nat) :
    (r.stages start).length = r.size := by
  induction r generalizing start <;> simp [stages, size, *]

theorem size_pos (r : Recipe κ whole) : 0 < r.size := by
  cases r <;> exact Nat.succ_pos _

/-! ## Text -/

def describe (r : Recipe κ whole) : String :=
  "Composer \x7b steps: " ++ toString r.size ++ ", pending: " ++
  Quoted.list (r.pending.reverse.map ValueType.name) ++ " \x7d"

end Recipe

end Piecemeal
