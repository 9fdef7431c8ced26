/-
# Events

What a running program reports about itself.  An event is data; `Event.level` and `Event.message`
are the only places that know how it is logged.
-/
import Piecemeal.DecodeError
import Piecemeal.Program.Move

namespace Piecemeal

/-- How much detail an event belongs to. -/
inductive Level where
  | debug
  | trace
deriving DecidableEq, Repr

def Level.name : Level → String
  | .debug => "DEBUG"
  | .trace => "TRACE"

/-- Something that a program reports. -/
inductive Event where
  /-- A recipe was laid out. -/
  | assembled (steps : Nat) (result : String)
  /-- Execution arrived at a step. -/
  | entered (index : Nat) (label : String)
  /-- A scope cannot become active, because as many are active as may be. -/
  | tooDeep (limit index : Nat)
  /-- The innermost scope answered how to go on after a step. -/
  | moved (index : Nat) (move : Move) (bounds : Bounds)
  /-- A scope is finished, and so many remain active. -/
  | closed (bounds : Bounds) (active : Nat)
  /-- A nested instance of the program is complete. -/
  | nestedComplete (index : Nat)
  /-- A step rejected its data. -/
  | failed (index : Nat) (error : DecodeError)
  /-- A session was reset. -/
  | reset (index active : Nat)
deriving DecidableEq, Repr

namespace Event

def level : Event → Level
  | .assembled .. | .tooDeep .. | .closed .. | .failed .. | .reset .. => .debug
  | .entered .. | .moved .. | .nestedComplete .. => .trace

def message : Event → String
  | .assembled steps result => s!"assembled {steps} steps for `{result}`"
  | .entered index label => s!"enter step {index} `{label}`"
  | .tooDeep limit index => s!"scope depth limit {limit} reached at step {index}"
  | .moved index move bounds => s!"step {index} -> {move.describe} (scope {bounds.describe})"
  | .closed bounds active => s!"scope {bounds.head}..={bounds.last} finished, {active} still active"
  | .nestedComplete index => s!"nested instance at step {index} complete"
  | .failed index error => s!"step {index} failed: {error.message}"
  | .reset index active => s!"reset at step {index} with {active} active scopes"

/-- The event as a log line. -/
def line (event : Event) : String := s!"{event.level.name} {event.message}"

end Event

end Piecemeal
