/-
# Decoders

A decoder is a machine whose every step either does something inside, or asks the byte source for
bytes, or answers.  It never touches a source itself: `Decoder.run` hands each request to whatever
source it runs on, and suspends the machine as soon as the source gives fewer bytes than asked.
So one definition of a decoder runs on every kind of source, and what it keeps between two calls
is its state and nothing else.

A step that answers leaves the machine in the state from which it decodes the next value.  Some
machines can go on for ever without asking for a byte (a repetition that waits for an element that
never comes), so a run carries a budget of steps, and running out of it is an answer of its own,
apart from all that decoding can answer.
-/
import Piecemeal.Event
import Piecemeal.Outcome
import Piecemeal.Source

namespace Piecemeal

/-- What a decoder does next in a state. -/
inductive Step (σ α : Type) where
  /-- Asks for up to so many bytes. -/
  | read (n : Nat) (resume : Bytes → σ)
  /-- Asks for up to so many bytes to be dropped, and to be told how many were. -/
  | skip (n : Nat) (resume : Nat → σ)
  /-- Goes on without the source, and reports these events. -/
  | tick (state : σ) (events : List Event)
  /-- Answers a value. -/
  | done (value : α) (state : σ)
  /-- Rejects the data. -/
  | fail (error : DecodeError) (state : σ)
  /-- Finds that the program is wrong. -/
  | broken (misuse : Misuse)

/-- A step of an inner machine as a step of the machine around it: `wrap` embeds the states in
which the inner machine is at work, `spoiled` those in which it has failed, and `finished` says
what follows when it is done. -/
def Step.embed {σ τ α β : Type} (step : Step σ α) (wrap spoiled : σ → τ)
    (finished : α → σ → Step τ β) : Step τ β :=
  match step with
  | .read n resume => .read n (fun bytes => wrap (resume bytes))
  | .skip n resume => .skip n (fun skipped => wrap (resume skipped))
  | .tick state events => .tick (wrap state) events
  | .done value state => finished value state
  | .fail error state => .fail error (spoiled state)
  | .broken misuse => .broken misuse

/-- A resumable decoder of values of type `α`. -/
structure Decoder (α : Type) : Type 1 where
  /-- What the decoder remembers between steps. -/
  State : Type
  /-- The state in which no byte of a value has been read. -/
  start : State
  step : State → Step State α
  /-- Drops all partial progress. -/
  reset : State → State
  /-- The events that dropping the progress reports. -/
  resetEvents : State → List Event := fun _ => []
  /-- The events that making the decoder reports. -/
  startEvents : List Event := []
  /-- The state of a copy of the decoder. -/
  copy : State → State := fun state => state

/-- How a run ends: with an outcome, the state that the decoder is left in and the rest of the
source, or without one. -/
inductive Run (σ ι α : Type) where
  | reached (outcome : Outcome α) (state : σ) (source : ι)
  /-- The program is wrong. -/
  | broken (misuse : Misuse)
  /-- The budget of steps is used up. -/
  | exhausted

namespace Decoder

variable {α ι : Type}

/-- Lets the decoder work on a source until it answers or the source runs dry. -/
def run [ByteSource ι] (d : Decoder α) (budget : Nat) (state : d.State) (source : ι) :
    Run d.State ι α :=
  match budget with
  | 0 => .exhausted
  | budget + 1 =>
      match d.step state with
      | .read n resume =>
          let (bytes, source) := ByteSource.read source n
          if bytes.length < n then .reached .pending (resume bytes) source
          else run d budget (resume bytes) source
      | .skip n resume =>
          let (skipped, source) := ByteSource.skip source n
          if skipped < n then .reached .pending (resume skipped) source
          else run d budget (resume skipped) source
      | .tick state _ => run d budget state source
      | .done value state => .reached (.done value) state source
      | .fail error state => .reached (.failed error) state source
      | .broken misuse => .broken misuse

/-- The events that the same run reports. -/
def events [ByteSource ι] (d : Decoder α) (budget : Nat) (state : d.State) (source : ι) :
    List Event :=
  match budget with
  | 0 => []
  | budget + 1 =>
      match d.step state with
      | .read n resume =>
          let (bytes, source) := ByteSource.read source n
          if bytes.length < n then [] else events d budget (resume bytes) source
      | .skip n resume =>
          let (skipped, source) := ByteSource.skip source n
          if skipped < n then [] else events d budget (resume skipped) source
      | .tick state reported => reported ++ events d budget state source
      | .done .. | .fail .. | .broken .. => []

end Decoder

/-! ## Sessions -/

/-- A decoder at work: one stream of values, decoded call by call. -/
structure Session (α : Type) : Type 1 where
  decoder : Decoder α
  state : decoder.State

namespace Session

variable {α ι : Type}

/-- A session that has read nothing yet. -/
def fresh (d : Decoder α) : Session α := ⟨d, d.start⟩

/-- One decode call. -/
def decode [ByteSource ι] (s : Session α) (budget : Nat) (source : ι) :
    Run s.decoder.State ι α :=
  s.decoder.run budget s.state source

def reset (s : Session α) : Session α := ⟨s.decoder, s.decoder.reset s.state⟩

/-- A second session that stands where this one does, as far as the decoder can be copied. -/
def copy (s : Session α) : Session α := ⟨s.decoder, s.decoder.copy s.state⟩

/-- Decodes one value from bytes after which no more will come, so the outcome is never pending.
Without a value the session is reset, and the next call starts afresh. -/
def decodeAll (s : Session α) (budget : Nat) (bytes : Bytes) : Run s.decoder.State Bytes α :=
  match s.decode budget bytes with
  | .reached outcome state rest =>
      match outcome.toExcept with
      | .ok value => .reached (.done value) state rest
      | .error error => .reached (.failed error) (s.decoder.reset state) rest
  | .broken misuse => .broken misuse
  | .exhausted => .exhausted

/-- The events that `decodeAll` reports: those of the run, and those of the reset if there is one. -/
def decodeAllEvents (s : Session α) (budget : Nat) (bytes : Bytes) : List Event :=
  s.decoder.events budget s.state bytes ++
    match s.decode budget bytes with
    | .reached outcome state _ => if outcome.isDone then [] else s.decoder.resetEvents state
    | _ => []

end Session

end Piecemeal
