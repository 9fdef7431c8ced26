/-
# Accumulators as stacks

An accumulator that is in order is a stack of values on top of the values of others.  `Holds acc
below outer stack` says so: `stack` are the values on top, latest first; `below` are the cells
underneath, with the layers `outer` open in them; and the values on top may have a layer of their
own or not,

    acc.cells.toList = below ++ stack.reverse
    acc.layers = outer ∨ acc.layers = below.length :: outer

Whether they have one depends on what has been reduced before, and no operation shows the
difference.  So each operation has one lemma here, from one such picture to the next:

    push v            stack          →  v :: stack
    pop, peek         v :: stack     →  stack, v :: stack
    reduce            taken ++ stack →  stack, and the value that the reading makes of `taken`
    openLayer         below, stack   →  below ++ stack.reverse, []

and `Holds.takeOver` is the way back from a nested layer with one value, whether the layer is still
open or was closed early.

The one that takes work is `Holds.reduce`: the read at its heart opens a layer or reads the active
one, leaves blanks behind, and closes a layer with its last value.  `Draining` is what holds in the
middle of it: the cells still to be read are at the cursor, and closing the layer here leads to
where the reduction will end.  A reading is followed along its answers, `Draining.run`; what it
does not ask for is dropped.
-/
import Piecemeal.Reading

namespace Piecemeal

variable {κ : Type} [Atom κ]

/-- What a reading makes of cells, oldest first, and the cells that it does not take. -/
def Reading.evaluate {α : Type} : Reading κ α → List (Cell κ) → Except Misuse (α × List (Cell κ))
  | .result value, cells => .ok (value, cells)
  | .remaining resume, cells => (resume cells.length).evaluate cells
  | .next _ _, [] => .error .readPastArity
  | .next type resume, cell :: cells =>
      match cell.read type with
      | .ok value => (resume value).evaluate cells
      | .error misuse => .error misuse

namespace Accumulator

/-! ## Ordered reads -/

theorem toList_take (cells : Array (Cell κ)) (n : Nat) :
    (cells.take n).toList = cells.toList.take n := by
  simp only [Array.take_eq_extract, Array.toList_extract, List.extract_eq_take_drop, Nat.sub_zero,
    List.drop_zero]

/-- In the middle of an ordered read: `rest` are the cells still to come, and the read of the last
of them leaves `after`. -/
inductive Draining (after : Accumulator κ) : Accumulator κ → List (Cell κ) → Prop
  | finished : Draining after after []
  | reading {acc : Accumulator κ} (read rest : List (Cell κ)) :
      rest ≠ [] → acc.cells.toList = read ++ rest → acc.cursor = read.length →
      acc.layerStart ≤ read.length → acc.closeLayer = after → Draining after acc rest

theorem closeLayer_congr (acc acc' : Accumulator κ) (hlayers : acc'.layers = acc.layers)
    (hcells : acc'.cells.toList.take acc.layerStart = acc.cells.toList.take acc.layerStart) :
    acc'.closeLayer = acc.closeLayer := by
  unfold closeLayer
  rw [hlayers]
  cases hl : acc.layers with
  | nil => rfl
  | cons start layers =>
      have hstart : acc.layerStart = start := by rw [layerStart, hl]; rfl
      rw [hstart] at hcells
      have htake : acc'.cells.take start = acc.cells.take start :=
        Array.ext' (by rw [toList_take, toList_take, hcells])
      simp only [htake]

theorem Draining.nextCell {after acc : Accumulator κ} {cell : Cell κ} {rest : List (Cell κ)}
    (h : Draining after acc (cell :: rest)) :
    ∃ acc', acc.nextCell = (.ok cell, acc') ∧ Draining after acc' rest := by
  cases h with
  | reading read _ hne hcells hcursor hstart hclose =>
      have hsize : acc.cells.size = read.length + (rest.length + 1) := by
        rw [← Array.length_toList, hcells]; simp
      have hlt : acc.cursor < acc.cells.size := by omega
      have hcell : acc.cells[acc.cursor] = cell := by
        rw [← Array.getElem_toList]
        simp [hcells, hcursor]
      have hset : (acc.cells.set acc.cursor .blank).toList = (read ++ [.blank]) ++ rest := by
        rw [Array.toList_set, hcells, hcursor]
        simp
      have hclosed : closeLayer ⟨acc.cells.set acc.cursor .blank, acc.layers, acc.cursor + 1⟩ =
          after := by
        rw [← hclose]
        refine closeLayer_congr acc _ rfl ?_
        show (acc.cells.set acc.cursor .blank).toList.take _ = _
        rw [hset, hcells, List.append_assoc, List.take_append_of_le_length hstart,
          List.take_append_of_le_length hstart]
      rw [Accumulator.nextCell, dif_pos hlt, hcell]
      refine ⟨_, rfl, ?_⟩
      by_cases hrest : rest = []
      · subst hrest
        rw [if_pos (by simp [size, hsize, hcursor]), hclosed]
        exact .finished
      · have hpos : 0 < rest.length := List.length_pos_iff.2 hrest
        rw [if_neg (by simp only [size, Array.size_set, hsize, hcursor]; omega)]
        refine .reading (read ++ [.blank]) rest hrest hset (by simp [hcursor]) ?_ hclosed
        simp only [layerStart] at hstart ⊢
        rw [List.length_append]; omega

theorem Draining.dropNext {after acc : Accumulator κ} {rest : List (Cell κ)}
    (h : Draining after acc rest) : acc.dropNext rest.length = (.ok (), after) := by
  induction rest generalizing acc with
  | nil =>
      cases h with
      | finished => rfl
      | reading read _ hne => exact absurd rfl hne
  | cons cell rest ih =>
      obtain ⟨acc', hnext, h'⟩ := h.nextCell
      rw [List.length_cons, Accumulator.dropNext, hnext]
      exact ih h'

/-- A reading answered from an accumulator makes of the cells to come what it makes of cells. -/
theorem Draining.run {α : Type} {after acc : Accumulator κ} {rest : List (Cell κ)}
    (h : Draining after acc rest) (reading : Reading κ α) :
    match reading.evaluate rest with
    | .ok (value, rest') => ∃ acc',
        reading.run rest.length acc = (.ok (value, rest'.length), acc') ∧ Draining after acc' rest'
    | .error misuse => (reading.run rest.length acc).1 = .error misuse := by
  induction reading generalizing acc rest with
  | result value => exact ⟨acc, rfl, h⟩
  | remaining resume ih => exact ih rest.length h
  | next type resume ih =>
      cases rest with
      | nil => rfl
      | cons cell rest =>
          obtain ⟨acc', hnext, h'⟩ := h.nextCell
          simp only [Reading.evaluate, Reading.run, List.length_cons, Accumulator.next, hnext]
          cases cell.read type with
          | ok value => exact ih value h'
          | error misuse => rfl

theorem Draining.reduce {α : Type} {after start acc : Accumulator κ} {cells : List (Cell κ)}
    (h : Draining after start cells) (hback : acc.readBack cells.length = .ok start)
    (reading : Reading κ α) :
    match reading.evaluate cells with
    | .ok (value, _) => acc.reduce cells.length reading = (.ok value, after)
    | .error misuse => (acc.reduce cells.length reading).1 = .error misuse := by
  have hrun := h.run reading
  simp only [Accumulator.reduce, hback]
  cases he : reading.evaluate cells with
  | ok result =>
      obtain ⟨value, rest⟩ := result
      rw [he] at hrun
      obtain ⟨acc', hok, hrest⟩ := hrun
      simp only [hok, hrest.dropNext]
  | error misuse =>
      rw [he] at hrun
      generalize reading.run cells.length start = r at hrun
      obtain ⟨result, acc'⟩ := r
      simp only at hrun
      subst hrun
      rfl

/-! ## Reading back -/

/-- `after` is the accumulator without its last `n` cells.  The active layer is closed if that is
all of it. -/
structure DropsLast (acc : Accumulator κ) (n : Nat) (after : Accumulator κ) : Prop where
  cells : after.cells.toList = acc.cells.toList.take (acc.size - n)
  layers_of_lt : n < acc.size - acc.layerStart → after.layers = acc.layers
  layers_of_eq : n = acc.size - acc.layerStart → after.layers = acc.layers.tail
  cursor : after.cursor = after.layerStart

/-- Reading back the last cells of the active layer, and what is left when all of them have been
read. -/
theorem exists_readBack {acc : Accumulator κ} {n : Nat} (hstart : acc.layerStart ≤ acc.size)
    (hpos : 0 < n) (hle : n ≤ acc.size - acc.layerStart) :
    ∃ reading after, acc.readBack n = .ok reading ∧
      Draining after reading (acc.cells.toList.drop (acc.size - n)) ∧ acc.DropsLast n after := by
  have hlength : acc.cells.toList.length = acc.size := Array.length_toList
  have hread : (acc.cells.toList.take (acc.size - n)).length = acc.size - n := by
    rw [List.length_take]
    omega
  have hheld : acc.layerSize = .ok (acc.size - acc.layerStart) := by rw [layerSize, if_pos hstart]
  refine ⟨{ acc with
    layers := if acc.layerStart < acc.size - n then (acc.size - n) :: acc.layers else acc.layers
    cursor := acc.size - n }, _, ?_, .reading (acc.cells.toList.take (acc.size - n)) _ ?_
      (List.take_append_drop ..).symm hread.symm ?_ rfl, ?_⟩
  · rw [Accumulator.readBack, hheld]
    show (if _ then _ else _) = _
    rw [if_pos ⟨hpos, hle⟩]
    rfl
  · intro hnil
    rw [List.drop_eq_nil_iff] at hnil
    omega
  · show List.headD (if _ then _ else _) 0 ≤ _
    by_cases hlt : acc.layerStart < acc.size - n
    · rw [if_pos hlt]
      exact Nat.le_of_eq hread.symm
    · rw [if_neg hlt]
      exact Nat.le_trans (show acc.layerStart ≤ _ by omega) (Nat.le_of_eq hread.symm)
  · by_cases hlt : acc.layerStart < acc.size - n
    · -- the cells had a layer of their own for the read, and it is closed again
      simp only [closeLayer, if_pos hlt]
      exact ⟨toList_take .., fun _ => rfl, fun heq => by omega, rfl⟩
    · -- the read was of the whole active layer
      simp only [closeLayer, if_neg hlt]
      have hwhole : acc.layerStart = acc.size - n := by omega
      cases hlayers : acc.layers with
      | nil =>
          rw [layerStart, hlayers] at hwhole
          refine ⟨?_, fun _ => hlayers.symm, fun _ => by rw [hlayers]; rfl, rfl⟩
          rw [← hwhole]
          rfl
      | cons start layers =>
          have hstart : start = acc.size - n := by
            rw [← hwhole, layerStart, hlayers]
            rfl
          refine ⟨?_, fun hlt' => by omega, fun _ => by rw [hlayers]; rfl, rfl⟩
          rw [← hstart]
          exact toList_take ..

/-! ## Stacks -/

/-- The accumulator is in order, with the values `stack` on top, latest first.  Underneath are the
cells `below`, with the layers `outer` open. -/
structure Holds (acc : Accumulator κ) (below : List (Cell κ)) (outer : List Nat)
    (stack : List (Cell κ)) : Prop where
  cells : acc.cells.toList = below ++ stack.reverse
  /-- The values on top may have a layer of their own. -/
  layers : acc.layers = outer ∨ below ≠ [] ∧ acc.layers = below.length :: outer
  cursor : acc.cursor = acc.layerStart
  /-- The layer underneath is not empty. -/
  grounded : below = [] ∧ outer = [] ∨ outer.headD 0 < below.length

variable {acc : Accumulator κ} {below : List (Cell κ)} {outer : List Nat} {cell : Cell κ}
  {stack : List (Cell κ)}

theorem holds_empty : Holds (empty : Accumulator κ) [] [] [] :=
  ⟨rfl, .inl rfl, rfl, .inl ⟨rfl, rfl⟩⟩

namespace Holds

theorem size_eq (h : Holds acc below outer stack) : acc.size = below.length + stack.length := by
  rw [size, ← Array.length_toList, h.cells, List.length_append, List.length_reverse]

theorem layerStart_le (h : Holds acc below outer stack) : acc.layerStart ≤ below.length := by
  rcases h.layers with hl | ⟨-, hl⟩
  · rw [layerStart, hl]
    rcases h.grounded with ⟨-, rfl⟩ | hlt
    · exact Nat.zero_le _
    · exact Nat.le_of_lt hlt
  · rw [layerStart, hl]
    exact Nat.le_refl _

theorem pushCell (h : Holds acc below outer stack) (cell : Cell κ) :
    Holds (acc.pushCell cell) below outer (cell :: stack) where
  cells := by simp [Accumulator.pushCell, h.cells]
  layers := h.layers
  cursor := h.cursor
  grounded := h.grounded

theorem push (h : Holds acc below outer stack) (type : ValueType κ) (value : type.Carrier) :
    Holds (acc.push type value) below outer (⟨type, value⟩ :: stack) :=
  h.pushCell ⟨type, value⟩

theorem back?_eq (h : Holds acc below outer (cell :: stack)) : acc.cells.back? = some cell := by
  rw [← Array.getLast?_toList, h.cells]
  simp

theorem pop (h : Holds acc below outer (cell :: stack)) (type : ValueType κ) :
    ∃ acc', acc.pop type = (cell.read type, acc') ∧ Holds acc' below outer stack := by
  refine ⟨{ acc with cells := acc.cells.pop }, ?_, ?_, h.layers, h.cursor, h.grounded⟩
  · rw [Accumulator.pop, h.back?_eq]
  · rw [Array.toList_pop, h.cells]
    simp [← List.append_assoc]

theorem peek (h : Holds acc below outer (cell :: stack)) (type : ValueType κ) :
    acc.peek type = cell.read type := by
  rw [Accumulator.peek, h.back?_eq]

theorem pop_mk (type : ValueType κ) (value : type.Carrier)
    (h : Holds acc below outer (⟨type, value⟩ :: stack)) :
    ∃ acc', acc.pop type = (.ok value, acc') ∧ Holds acc' below outer stack := by
  obtain ⟨acc', hpop, hacc'⟩ := h.pop type
  exact ⟨acc', by rw [hpop, Cell.read_mk], hacc'⟩

theorem openLayer (h : Holds acc below outer stack) (hne : stack ≠ []) :
    ∃ acc', acc.openLayer = .ok acc' ∧ acc'.depth = acc.layers.length + 1 ∧
      Holds acc' (below ++ stack.reverse) acc.layers [] := by
  have hpos : 0 < stack.length := List.length_pos_iff.2 hne
  have hlt : acc.layerStart < acc.size := by
    have := h.layerStart_le
    rw [h.size_eq]; omega
  have hsize : acc.size = (below ++ stack.reverse).length := by
    rw [h.size_eq, List.length_append, List.length_reverse]
  refine ⟨{ acc with layers := acc.size :: acc.layers, cursor := acc.size }, ?_, rfl, ?_, ?_, rfl,
    ?_⟩
  · rw [Accumulator.openLayer, if_pos hlt]
  · rw [h.cells, List.reverse_nil, List.append_nil]
  · refine .inr ⟨?_, by rw [hsize]⟩
    intro hnil
    rw [hnil] at hsize
    rw [hsize] at hlt
    exact absurd hlt (Nat.not_lt_zero _)
  · exact .inr (hsize ▸ hlt)

theorem of_cells {acc' : Accumulator κ} (h : Holds acc below outer stack)
    {stack' : List (Cell κ)} (hcells : acc'.cells.toList = below ++ stack'.reverse)
    (hlayers : acc'.layers = acc.layers ∨ acc'.layers = outer)
    (hcursor : acc'.cursor = acc'.layerStart) : Holds acc' below outer stack' where
  cells := hcells
  layers := by
    rcases hlayers with hl | hl
    · rw [hl]; exact h.layers
    · exact .inl hl
  cursor := hcursor
  grounded := h.grounded

/-- The one value of a nested layer is taken over, whether the layer is still open or was closed
early, and everything underneath is as it was when the layer was opened. -/
theorem takeOver {inner : Accumulator κ} (h : Holds acc below outer stack)
    (hinner : Holds inner (below ++ stack.reverse) acc.layers [cell]) (type : ValueType κ) :
    ∃ acc', (if acc.layers.length + 1 ≤ inner.depth then inner.next type else inner.pop type) =
        (cell.read type, acc') ∧ acc'.layers = acc.layers ∧ Holds acc' below outer stack := by
  rcases hinner.layers with hl | ⟨-, hl⟩
  · obtain ⟨acc', hpop, hacc'⟩ := hinner.pop type
    have hlayers : acc'.layers = acc.layers := by
      have hkeep : (inner.pop type).2.layers = inner.layers := by
        rw [Accumulator.pop, hinner.back?_eq]
      rw [hpop] at hkeep
      exact hkeep.trans hl
    rw [if_neg (by rw [depth, hl]; omega)]
    refine ⟨acc', hpop, hlayers, h.of_cells ?_ (.inl hlayers) hacc'.cursor⟩
    rw [hacc'.cells, List.reverse_nil, List.append_nil]
  · have hstart : inner.layerStart = (below ++ stack.reverse).length := by
      rw [layerStart, hl]; rfl
    have hdrain : Draining inner.closeLayer inner [cell] :=
      .reading (below ++ stack.reverse) [cell] (by simp) (by rw [hinner.cells]; rfl)
        (hinner.cursor.trans hstart) (Nat.le_of_eq hstart) rfl
    obtain ⟨acc', hnext, hlast⟩ := hdrain.nextCell
    obtain rfl : acc' = inner.closeLayer := by
      cases hlast with
      | finished => rfl
      | reading _ _ hne => exact absurd rfl hne
    have hclose : inner.closeLayer =
        ⟨inner.cells.take (below ++ stack.reverse).length, acc.layers, acc.layers.headD 0⟩ := by
      rw [closeLayer, hl]
    have hlayers : inner.closeLayer.layers = acc.layers := by rw [hclose]
    rw [if_pos (by rw [depth, hl]; exact Nat.le_refl _)]
    refine ⟨inner.closeLayer, ?_, hlayers, h.of_cells ?_ (.inl hlayers) ?_⟩
    · rw [Accumulator.next, hnext]
    · rw [hclose]
      show (inner.cells.take _).toList = _
      rw [toList_take, hinner.cells]
      exact List.take_left
    · rw [hclose]; rfl

theorem readBack {taken : List (Cell κ)} (h : Holds acc below outer (taken ++ stack))
    (hne : taken ≠ []) :
    ∃ reading after, acc.readBack taken.length = .ok reading ∧
      Draining after reading taken.reverse ∧ Holds after below outer stack := by
  have hpos : 0 < taken.length := List.length_pos_iff.2 hne
  have hsize := h.size_eq
  rw [List.length_append] at hsize
  have hbelow := h.layerStart_le
  have hread : (below ++ stack.reverse).length = acc.size - taken.length := by
    rw [List.length_append, List.length_reverse]; omega
  have hcells : acc.cells.toList = (below ++ stack.reverse) ++ taken.reverse := by
    rw [h.cells, List.reverse_append, List.append_assoc]
  have hstart : acc.layerStart ≤ acc.size := by omega
  have hheld : taken.length ≤ acc.size - acc.layerStart := by omega
  obtain ⟨reading, after, hback, hdrain, hafter⟩ := exists_readBack hstart hpos hheld
  rw [hcells, ← hread, List.drop_left] at hdrain
  refine ⟨reading, after, hback, hdrain, ?_, ?_, hafter.cursor, h.grounded⟩
  · rw [hafter.cells, hcells, ← hread, List.take_left]
  · by_cases hlt : taken.length < acc.size - acc.layerStart
    · rw [hafter.layers_of_lt hlt]
      exact h.layers
    · -- the read was of the whole active layer, so nothing else was on top
      have hbelow : acc.layerStart = below.length := by omega
      rw [hafter.layers_of_eq (by omega)]
      rcases h.layers with hl | ⟨-, hl⟩
      · rcases h.grounded with ⟨-, rfl⟩ | hgrounded
        · rw [hl]
          exact .inl rfl
        · rw [layerStart, hl] at hbelow
          omega
      · rw [hl]
        exact .inl rfl

/-- A reduction of the last values makes of them what its reading makes of them, oldest first, and
they are gone afterwards. -/
theorem reduce {α : Type} {taken : List (Cell κ)} (h : Holds acc below outer (taken ++ stack))
    (hne : taken ≠ []) (reading : Reading κ α) :
    match reading.evaluate taken.reverse with
    | .ok (value, _) => ∃ acc',
        acc.reduce taken.length reading = (.ok value, acc') ∧ Holds acc' below outer stack
    | .error misuse => (acc.reduce taken.length reading).1 = .error misuse := by
  obtain ⟨start, after, hback, hdrain, hafter⟩ := h.readBack hne
  rw [← List.length_reverse] at hback ⊢
  have hreduce := hdrain.reduce hback reading
  cases he : reading.evaluate taken.reverse with
  | ok result =>
      rw [he] at hreduce
      exact ⟨after, hreduce, hafter⟩
  | error misuse =>
      rw [he] at hreduce
      exact hreduce

end Holds

end Accumulator

end Piecemeal
