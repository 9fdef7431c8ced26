/-
# Building recipes

The parts of a recipe, each with the check that the values it works on are there and have the types
it expects, and the last step, which makes a program of the recipe if one value of the right type is
pending.  What passes these checks is a recipe whose parts fit.
-/
import Piecemeal.Recipe

namespace Piecemeal.Recipe

variable {κ : Type} [Atom κ] {whole : ValueType κ}

/-! ## Checks -/

/-- What is wrong with the latest pending values where values of these types are wanted, oldest
first. -/
def tailMisuse? (r : Recipe κ whole) (label : String) (wanted : List (ValueType κ)) :
    Option Misuse :=
  if r.pending.length < wanted.length then
    some (.tooFewPending label wanted.length r.pending.length)
  else
    (((r.pending.take wanted.length).reverse.zip wanted).find? fun pair => pair.1 ≠ pair.2).map
      fun (found, wanted) => .pendingType label wanted.name found.name

/-- What is wrong with the pending values where one value of this type is wanted. -/
def singleMisuse? (r : Recipe κ whole) (label : String) (wanted : ValueType κ) : Option Misuse :=
  if r.pending.length = 1 then r.tailMisuse? label [wanted]
  else some (.notSingle label r.pending.length)

/-- The recipe, unless something is wrong. -/
def checked (misuse? : Option Misuse) (r : Recipe κ whole) : Except Misuse (Recipe κ whole) :=
  match misuse? with
  | none => .ok r
  | some misuse => .error misuse

/-! ## Parts -/

/-- Decodes one more value. -/
def decode (r : Recipe κ whole) (type : ValueType κ) (decoder : Decoder type.Carrier) :
    Recipe κ whole :=
  r.act (.decode type decoder)

/-- Decodes one more value and transforms it. -/
def decodeMapped {α : Type} (r : Recipe κ whole) (type : ValueType κ) (decoder : Decoder α)
    (f : α → type.Carrier) : Recipe κ whole :=
  r.decode type (decoder.map f)

/-- Replaces the last value by what the decoder chosen for it decodes. -/
def replace (r : Recipe κ whole) (source type : ValueType κ)
    (choose : source.Carrier → Decoder type.Carrier) : Except Misuse (Recipe κ whole) :=
  checked (r.tailMisuse? "map" [source]) (r.act (.replace source type choose))

/-- Keeps the last value and decodes one more with the decoder chosen for it. -/
def follow (r : Recipe κ whole) (source type : ValueType κ)
    (choose : source.Carrier → Decoder type.Carrier) : Except Misuse (Recipe κ whole) :=
  checked (r.tailMisuse? "map_and_store" [source]) (r.act (.follow source type choose))

/-- Replaces the last `arity` values by what a reading makes of them.  At which types it reads them is
not checked. -/
def reduce (r : Recipe κ whole) (arity : Nat) (type : ValueType κ)
    (reading : Reading κ type.Carrier) : Except Misuse (Recipe κ whole) :=
  if arity = 0 then .error .emptyReduction
  else if r.pending.length < arity then .error (.reductionArity arity r.pending.length)
  else .ok (r.act (.reduce arity type reading))

/-- Replaces the last values, one of each type in turn, by what a function makes of them. -/
def reduceRow (r : Recipe κ whole) (types : List (ValueType κ)) (type : ValueType κ)
    (f : Row types → type.Carrier) : Except Misuse (Recipe κ whole) :=
  match r.tailMisuse? s!"reduce{types.length}" types with
  | none => r.reduce types.length type (.row types f)
  | some misuse => .error misuse

/-- Wraps all parts in an option. -/
def optionally (r : Recipe κ whole) (type : ValueType κ) (flag : Decoder Bool) :
    Except Misuse (Recipe κ whole) :=
  checked (r.singleMisuse? "optional" type) (r.optional type flag)

/-- Wraps all parts in a repetition. -/
def repeated (r : Recipe κ whole) (element result : ValueType κ) (bound : Bound element.Carrier)
    (collector : Collector element.Carrier result.Carrier) : Except Misuse (Recipe κ whole) :=
  checked (r.singleMisuse? (repetitionLabel bound) element)
    (r.repetition element result bound collector)

/-- Wraps all parts in a repetition that ends at the first element that satisfies the predicate. -/
def repeatedUntil (r : Recipe κ whole) (element result : ValueType κ)
    (predicate : element.Carrier → Bool) (addLast : Bool)
    (collector : Collector element.Carrier result.Carrier) : Except Misuse (Recipe κ whole) :=
  r.repeated element result (.whileHolds (fun value => !predicate value) addLast) collector

/-! ## Assembly -/

/-- The program of a recipe that leaves one value of its type.

A limit of zero counts as one, as it does where the limit of an assembly is set: the scope of the
first step is active before the first byte.  A limit that is made zero past that setting is not
represented. -/
def program (r : Recipe κ whole) (_ : r.pending = [whole]) (maxDepth : Nat) :
    Program κ whole where
  stages := (r.stages 0).toArray
  stages_nonempty := by simpa using r.size_pos
  maxDepth := max maxDepth 1
  maxDepth_pos := by omega

/-- The program of a recipe, with the check that it leaves one value of its type. -/
def assemble (r : Recipe κ whole) (maxDepth : Nat) : Except Misuse (Program κ whole) :=
  if h : r.pending = [whole] then .ok (r.program h maxDepth)
  else .error (.unassembled whole.name (r.pending.reverse.map ValueType.name))

/-- What assembling reports. -/
def assembleEvents (r : Recipe κ whole) : List Event :=
  if r.pending = [whole] then [.assembled r.size whole.name] else []

/-- Transforms the one pending value into the result, and assembles. -/
def finish (r : Recipe κ whole) (source : ValueType κ) (f : source.Carrier → whole.Carrier) :
    Except Misuse (Recipe κ whole) :=
  r.reduceRow [source] whole fun row => f row.1

end Piecemeal.Recipe
