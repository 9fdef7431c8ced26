/-
# Adapters

Decoders made from decoders: a value transformed, checked, followed by another value that may depend
on it, paired, or followed by bytes that are dropped; and the two decoders that read nothing.  An
adapter's state is its parts' states and what it must keep between them.
-/
import Piecemeal.Decoder

namespace Piecemeal.Decoder

variable {α β : Type}

/-! ## Without input -/

/-- Answers the same value every time. -/
def constant (value : α) : Decoder α where
  State := Unit
  start := ()
  step _ := .done value ()
  reset _ := ()

/-- Rejects all data, for branches of a format that must not be taken. -/
def reject (error : DecodeError) : Decoder α where
  State := Unit
  start := ()
  step _ := .fail error ()
  reset _ := ()

/-- Stands in for a decoder that cannot be made: whoever lets it work is wrong. -/
def unmade (misuse : Misuse) : Decoder α where
  State := Unit
  start := ()
  step _ := .broken misuse
  reset _ := ()

/-! ## Transformed values -/

def map (f : α → β) (d : Decoder α) : Decoder β where
  State := d.State
  start := d.start
  step state := (d.step state).embed id id fun value state => .done (f value) state
  reset := d.reset
  resetEvents := d.resetEvents
  startEvents := d.startEvents
  copy := d.copy

/-- Transforms a value by a function that may reject it. -/
def tryMap (f : α → Except DecodeError β) (d : Decoder α) : Decoder β where
  State := d.State
  start := d.start
  step state := (d.step state).embed id id fun value state =>
    match f value with
    | .ok value => .done value state
    | .error error => .fail error state
  reset := d.reset
  resetEvents := d.resetEvents
  startEvents := d.startEvents
  copy := d.copy

/-! ## One value after another -/

/-- Progress of `andThen`. -/
structure Chained (d : Decoder α) (f : α → Decoder β) where
  first : d.State
  /-- The value of the first decoder and the decoder chosen for it, once there is one. -/
  second : Option ((value : α) × (f value).State)

/-- Decodes a value, then what the decoder chosen for it decodes. -/
def andThen (d : Decoder α) (f : α → Decoder β) : Decoder β where
  State := Chained d f
  start := ⟨d.start, none⟩
  step
    | ⟨first, none⟩ =>
        (d.step first).embed (⟨·, none⟩) (⟨·, none⟩) fun value first =>
          .tick ⟨first, some ⟨value, (f value).start⟩⟩ (f value).startEvents
    | ⟨first, some ⟨value, second⟩⟩ =>
        ((f value).step second).embed (fun second => ⟨first, some ⟨value, second⟩⟩)
          (fun second => ⟨first, some ⟨value, second⟩⟩) fun result _ => .done result ⟨first, none⟩
  reset progress := ⟨d.reset progress.first, none⟩
  resetEvents progress := d.resetEvents progress.first
  startEvents := d.startEvents
  copy progress :=
    ⟨d.copy progress.first, progress.second.map fun ⟨value, second⟩ => ⟨value, (f value).copy second⟩⟩

/-- Progress of `both`. -/
structure Paired (a : Decoder α) (b : Decoder β) where
  first : a.State
  second : b.State
  /-- The first value, once it is there. -/
  left : Option α

/-- Decodes two values and answers the pair.  If the second is rejected the first is lost. -/
def both (a : Decoder α) (b : Decoder β) : Decoder (α × β) where
  State := Paired a b
  start := ⟨a.start, b.start, none⟩
  step
    | ⟨first, second, none⟩ =>
        (a.step first).embed (⟨·, second, none⟩) (⟨·, second, none⟩) fun left first =>
          .tick ⟨first, second, some left⟩ []
    | ⟨first, second, some left⟩ =>
        (b.step second).embed (⟨first, ·, some left⟩) (⟨first, ·, none⟩) fun right second =>
          .done (left, right) ⟨first, second, none⟩
  reset progress := ⟨a.reset progress.first, b.reset progress.second, none⟩
  resetEvents progress := a.resetEvents progress.first ++ b.resetEvents progress.second
  startEvents := a.startEvents ++ b.startEvents
  copy progress := ⟨a.copy progress.first, b.copy progress.second, progress.left⟩

/-! ## Dropped bytes -/

/-- Drops `n` bytes. -/
def skipBytes (n : Nat) : Decoder Unit where
  -- how many bytes are still to be dropped
  State := Nat
  start := n
  step owed :=
    if owed = 0 then .done () n else .skip owed fun skipped => owed - skipped
  reset _ := n

/-- Progress of `skipAfter`. -/
structure Trailed (d : Decoder α) where
  inner : d.State
  /-- How many bytes are still to be dropped. -/
  owed : Nat
  /-- The value, once it is there. -/
  value : Option α

/-- Decodes a value and drops the `n` bytes behind it. -/
def skipAfter (d : Decoder α) (n : Nat) : Decoder α where
  State := Trailed d
  start := ⟨d.start, n, none⟩
  step
    | ⟨inner, owed, none⟩ =>
        (d.step inner).embed (⟨·, owed, none⟩) (⟨·, owed, none⟩) fun value inner =>
          .tick ⟨inner, owed, some value⟩ []
    | ⟨inner, owed, some value⟩ =>
        if owed = 0 then .done value ⟨inner, n, none⟩
        else .skip owed fun skipped => ⟨inner, owed - skipped, some value⟩
  reset progress := ⟨d.reset progress.inner, n, none⟩
  resetEvents progress := d.resetEvents progress.inner
  startEvents := d.startEvents
  copy progress := { progress with inner := d.copy progress.inner }

end Piecemeal.Decoder
