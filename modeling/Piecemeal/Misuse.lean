/-
# Misuse

Mistakes of the program that uses the library, as opposed to faults of the data it decodes.  A
`Misuse` ends the work at hand: it is never an outcome of decoding.  Types of values are named by
their texts, because a misuse is only ever reported.
-/
import Piecemeal.Text.Quoted

namespace Piecemeal

/-- A mistake of the program, found while it builds or runs a decoder. -/
inductive Misuse where
  /-- A finished outcome was taken for an unfinished one. -/
  | finishedOutcome
  /-- The marker that ends a byte string is empty. -/
  | emptyMarker
  /-- A value was to be removed from an accumulator that holds none. -/
  | popEmpty (type : String)
  /-- A value was to be looked at in an accumulator that holds none. -/
  | peekEmpty (type : String)
  /-- The value at hand has another type. -/
  | wrongType (type : String)
  /-- A layer was to be opened that does not start above the active one. -/
  | layerNotAbove (start active : Nat)
  /-- More values were to be read back than the active layer holds, or none. -/
  | readBackRange (asked held : Nat)
  /-- The values of the active layer have all been read. -/
  | nothingLeft
  /-- Values below the start of the active layer are gone. -/
  | layerCutOff
  /-- A reduction asked for more values than its arity. -/
  | readPastArity
  /-- A step needs more values than are pending. -/
  | tooFewPending (step : String) (needed available : Nat)
  /-- A step expects another type of value than the one that is pending. -/
  | pendingType (step wanted found : String)
  /-- A step that wraps the whole recipe found another number of pending values than one. -/
  | notSingle (step : String) (found : Nat)
  /-- A reduction of no values. -/
  | emptyReduction
  /-- A reduction of more values than are pending. -/
  | reductionArity (arity pending : Nat)
  /-- The values pending at the end are not one value of the result's type. -/
  | unassembled (result : String) (pending : List String)
deriving DecidableEq, Repr

def Misuse.message : Misuse → String
  | .finishedOutcome => "cast_pending called on a Done state"
  | .emptyMarker => "end marker must not be empty"
  | .popEmpty type => s!"pop::<{type}> on an empty accumulator"
  | .peekEmpty type => s!"peek::<{type}> on an empty accumulator"
  | .wrongType type => s!"accumulated value is not a `{type}`"
  | .layerNotAbove start active => s!"layer at {start} must start above the active layer at {active}"
  | .readBackRange asked held => s!"cannot read back {asked} values from a layer holding {held}"
  | .nothingLeft => "no value left to read in the active layer"
  | .layerCutOff => "attempt to subtract with overflow"
  | .readPastArity => "reduce read more values than its arity"
  | .tooFewPending step needed available =>
      s!"`{step}` needs {needed} pending values but only {available} are available"
  | .pendingType step wanted found =>
      s!"`{step}` expects a `{wanted}` but the pending value is a `{found}`"
  | .notSingle step found =>
      s!"`{step}` wraps everything composed so far and needs exactly one pending value, found {found}"
  | .emptyReduction => "`reduce` needs at least one value"
  | .reductionArity arity pending => s!"`reduce` of {arity} values but only {pending} are pending"
  | .unassembled result pending =>
      s!"assembling a `{result}` requires exactly one pending value of that type, found " ++
        Quoted.list pending

end Piecemeal
