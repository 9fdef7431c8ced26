/-
# Accumulators

A stack of cells whose values can also be read from the bottom of a layer upwards.

Reads at the top take the latest value.  An ordered read takes the oldest value of the active layer
that has not been read, and leaves a blank in its place.  The read that takes the last value of a
layer closes it: its cells are gone, and the layer below is active again, to be read from its own
start.  Closing the outermost layer, which starts at the bottom and is always open, empties the
accumulator.

A layer starts above the start of the one below it.  Opening a layer and reading back check that;
taking values from the top does not, so a layer can lose its cells and more.  What can be known of
its length then is that it has been cut off.
-/
import Piecemeal.ValueType

namespace Piecemeal

/-- Accumulated values, with the layers in which they are read. -/
structure Accumulator (κ : Type) [Atom κ] where
  /-- The cells, oldest first. -/
  cells : Array (Cell κ)
  /-- The starts of the open layers above the outermost one, latest first. -/
  layers : List Nat
  /-- The index of the cell that the next ordered read takes. -/
  cursor : Nat

namespace Accumulator

variable {κ : Type} [Atom κ]

def empty : Accumulator κ := ⟨#[], [], 0⟩

def size (acc : Accumulator κ) : Nat := acc.cells.size

/-- The number of open layers above the outermost one. -/
def depth (acc : Accumulator κ) : Nat := acc.layers.length

/-- Where the active layer starts. -/
def layerStart (acc : Accumulator κ) : Nat := acc.layers.headD 0

/-- The number of cells in the active layer. -/
def layerSize (acc : Accumulator κ) : Except Misuse Nat :=
  if acc.layerStart ≤ acc.size then .ok (acc.size - acc.layerStart) else .error .layerCutOff

def clear (_ : Accumulator κ) : Accumulator κ := empty

/-! ## The top -/

def pushCell (acc : Accumulator κ) (cell : Cell κ) : Accumulator κ :=
  { acc with cells := acc.cells.push cell }

def push (acc : Accumulator κ) (type : ValueType κ) (value : type.Carrier) : Accumulator κ :=
  acc.pushCell ⟨type, value⟩

/-- Removes the latest value.  A value of another type is removed all the same. -/
def pop (acc : Accumulator κ) (type : ValueType κ) :
    Except Misuse type.Carrier × Accumulator κ :=
  match acc.cells.back? with
  | none => (.error (.popEmpty type.name), acc)
  | some cell => (cell.read type, { acc with cells := acc.cells.pop })

/-- The latest value. -/
def peek (acc : Accumulator κ) (type : ValueType κ) : Except Misuse type.Carrier :=
  match acc.cells.back? with
  | none => .error (.peekEmpty type.name)
  | some cell => cell.read type

/-! ## Layers -/

/-- Opens a layer for the values to come. -/
def openLayer (acc : Accumulator κ) : Except Misuse (Accumulator κ) :=
  if acc.layerStart < acc.size then
    .ok { acc with layers := acc.size :: acc.layers, cursor := acc.size }
  else .error (.layerNotAbove acc.size acc.layerStart)

/-- Prepares ordered reads of the last `n` values: in the active layer if they are all of it, else in
a layer of their own. -/
def readBack (acc : Accumulator κ) (n : Nat) : Except Misuse (Accumulator κ) := do
  let held ← acc.layerSize
  if 0 < n ∧ n ≤ held then
    let first := acc.size - n
    return { acc with
      layers := if acc.layerStart < first then first :: acc.layers else acc.layers
      cursor := first }
  else throw (.readBackRange n held)

/-- Closes the active layer. -/
def closeLayer (acc : Accumulator κ) : Accumulator κ :=
  match acc.layers with
  | [] => empty
  | start :: layers => ⟨acc.cells.take start, layers, layers.headD 0⟩

/-- Takes the next value of the active layer as a cell. -/
def nextCell (acc : Accumulator κ) : Except Misuse (Cell κ) × Accumulator κ :=
  if h : acc.cursor < acc.cells.size then
    let cell := acc.cells[acc.cursor]
    let acc := ⟨acc.cells.set acc.cursor .blank, acc.layers, acc.cursor + 1⟩
    (.ok cell, if acc.cursor = acc.size then acc.closeLayer else acc)
  else (.error .nothingLeft, acc)

/-- Takes the next value of the active layer.  A value of another type is taken all the same. -/
def next (acc : Accumulator κ) (type : ValueType κ) :
    Except Misuse type.Carrier × Accumulator κ :=
  match acc.nextCell with
  | (.ok cell, acc) => (cell.read type, acc)
  | (.error misuse, acc) => (.error misuse, acc)

/-! ## Text -/

def describe (acc : Accumulator κ) : String :=
  "ElementsAccumulator \x7b len: " ++ toString acc.size ++
  ", layers: [" ++ ", ".intercalate (acc.layers.reverse.map toString) ++
  "], cursor: " ++ toString acc.cursor ++ " \x7d"

end Accumulator

end Piecemeal
