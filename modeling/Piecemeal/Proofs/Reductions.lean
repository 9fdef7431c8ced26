/-
# What a reduction takes and what it leaves

A reduction hands its reading the last values of the accumulator, the oldest of them first.  The
reading takes some of them, each at its type, and the others are dropped; what is left is the
accumulator without all of them, `DropsLast`.  This is so whatever layers are open, as long as the
active one does not start above the top, and wherever the cursor is.

    reading.Takes n taken value → … → acc.reduce n reading = (.ok value, acc')
    reading.Overreads cells     → … → acc.reduce n reading = (.error misuse, acc')

with `acc'` the accumulator without its last `n` values in both cases.  `Takes` is a reading
answered from the front of a list: its first question is answered by the first cell, at the type of
that, and it may have a result when cells are left.  One that takes them all and asks for one more,
`Overreads`, is a misuse; but this shows only when the layer of the values is closed, so the older
values are as they were then too.
-/
import Piecemeal.Program.Action
import Piecemeal.Proofs.Layers
import Piecemeal.Proofs.Standard

namespace Piecemeal

variable {κ α : Type} [Atom κ]

namespace Reading

/-- The reading, which may ask for `left` values, asks for these in turn and makes `value` of
them. -/
inductive Takes : Reading κ α → (left : Nat) → List (Cell κ) → (value : α) → Prop
  | result {value : α} {left : Nat} : Takes (.result value) left [] value
  | remaining {resume : Nat → Reading κ α} {left : Nat} {cells : List (Cell κ)} {value : α} :
      Takes (resume left) left cells value → Takes (.remaining resume) left cells value
  | next {type : ValueType κ} {resume : type.Carrier → Reading κ α} {answer : type.Carrier}
      {left : Nat} {cells : List (Cell κ)} {value : α} :
      Takes (resume answer) left cells value →
      Takes (.next type resume) (left + 1) (⟨type, answer⟩ :: cells) value

/-- The reading, which may ask for these values, asks for all of them in turn and for one more. -/
inductive Overreads : Reading κ α → List (Cell κ) → Prop
  | past {type : ValueType κ} {resume : type.Carrier → Reading κ α} :
      Overreads (.next type resume) []
  | remaining {resume : Nat → Reading κ α} {cells : List (Cell κ)} :
      Overreads (resume cells.length) cells → Overreads (.remaining resume) cells
  | next {type : ValueType κ} {resume : type.Carrier → Reading κ α} {answer : type.Carrier}
      {cells : List (Cell κ)} :
      Overreads (resume answer) cells → Overreads (.next type resume) (⟨type, answer⟩ :: cells)

theorem Takes.evaluate {reading : Reading κ α} {left : Nat} {taken rest : List (Cell κ)} {value : α}
    (h : reading.Takes left taken value) (hleft : (taken ++ rest).length = left) :
    reading.evaluate (taken ++ rest) = .ok (value, rest) := by
  induction h with
  | result => rfl
  | remaining _ ih =>
      rw [Reading.evaluate, hleft]
      exact ih hleft
  | next _ ih =>
      simp only [List.cons_append, Reading.evaluate, Cell.read_mk]
      exact ih (Nat.succ.inj hleft)

end Reading

namespace Accumulator

theorem Draining.run_of_overreads {after acc : Accumulator κ} {cells : List (Cell κ)}
    (h : Draining after acc cells) {reading : Reading κ α} (hreading : reading.Overreads cells) :
    reading.run cells.length acc = (.error .readPastArity, after) := by
  induction hreading generalizing acc with
  | past =>
      cases h with
      | finished => rfl
      | reading _ _ hne => exact absurd rfl hne
  | remaining _ ih => exact ih h
  | next _ ih =>
      obtain ⟨acc', hnext, h'⟩ := h.nextCell
      simp only [Reading.run, List.length_cons, Accumulator.next, hnext, Cell.read_mk]
      exact ih h'

theorem DropsLast.eq_empty {acc after : Accumulator κ} {n : Nat} (h : acc.DropsLast n after)
    (hlayers : acc.layers = []) (hn : n = acc.size) : after = empty := by
  obtain ⟨cells, layers, cursor⟩ := after
  have hstart : acc.layerStart = 0 := by
    rw [layerStart, hlayers]
    rfl
  obtain rfl : layers = [] := by
    have hclosed := h.layers_of_eq (by rw [hn, hstart, Nat.sub_zero])
    rwa [hlayers] at hclosed
  obtain rfl : cursor = 0 := h.cursor
  have hcells := h.cells
  rw [hn, Nat.sub_self, List.take_zero] at hcells
  obtain rfl : cells = #[] := Array.toList_eq_nil_iff.1 hcells
  rfl

/-! ## The property -/

/-- A reduction of the last `n` values in the active layer hands them to its reading in turn, the
oldest first, and leaves the accumulator without them, however many the reading takes: the older
cells as they were, the layers too unless that was all of the active layer, which is closed then,
and the cursor at the start of the layer that is active.  Of the outermost layer nothing is left.  A
reading that asks for one value more is a misuse and leaves the same. -/
theorem reduces_last_values (acc : Accumulator κ) {n : Nat} (hstart : acc.layerStart ≤ acc.size)
    (hpos : 1 ≤ n) (hle : n ≤ acc.size - acc.layerStart) :
    ∃ after, acc.DropsLast n after ∧
      (n = acc.size - acc.layerStart → acc.layers = [] → after = empty) ∧
      ∀ (type : ValueType κ) (reading : Reading κ type.Carrier),
        (∀ taken rest value, acc.cells.toList.drop (acc.size - n) = taken ++ rest →
          reading.Takes n taken value →
          (Action.reduce n type reading).arrive acc = .ok (value, after)) ∧
        (reading.Overreads (acc.cells.toList.drop (acc.size - n)) →
          (Action.reduce n type reading).arrive acc = .error .readPastArity ∧
          (acc.reduce n reading).2 = after) := by
  obtain ⟨start, after, hback, hdrain, hafter⟩ := exists_readBack hstart hpos hle
  have hlength : (acc.cells.toList.drop (acc.size - n)).length = n := by
    rw [List.length_drop, Array.length_toList]
    simp only [size] at hstart hle ⊢
    omega
  refine ⟨after, hafter, ?_, fun type reading => ⟨?_, ?_⟩⟩
  · intro hn hlayers
    refine hafter.eq_empty hlayers ?_
    rw [hn, layerStart, hlayers]
    rfl
  · intro taken rest value hcells htakes
    have hreduce := hdrain.reduce (hlength.symm ▸ hback) reading
    rw [hcells, htakes.evaluate (hcells ▸ hlength), ← hcells, hlength] at hreduce
    simp only [Action.arrive, hreduce]
  · intro hover
    have hrun := hdrain.run_of_overreads hover
    rw [hlength] at hrun
    have hreduce : acc.reduce n reading = (.error .readPastArity, after) := by
      simp only [reduce, hback, hrun]
    exact ⟨by simp only [Action.arrive, hreduce], by rw [hreduce]⟩

/-- The active layer holds three values and all of them are reduced, though the cursor has gone
astray.  One value is read and two are dropped, and the layer is closed.  Reading four is a
misuse. -/
theorem reduces_last_values_of_layer :
    let byte (n : UInt8) : Cell Empty := ⟨.uint8, n⟩
    let acc : Accumulator Empty := ⟨#[byte 1, byte 2, byte 3, byte 4], [1], 7⟩
    let first : Reading Empty UInt8 :=
      .next .uint8 fun value : UInt8 => .remaining fun left => .result (value + UInt8.ofNat left)
    let four : Reading Empty UInt8 := .row [.uint8, .uint8, .uint8, .uint8] fun _ => 0
    acc.layerStart ≤ acc.size ∧ 3 ≤ acc.size - acc.layerStart ∧
      ∃ after : Accumulator Empty, after.cells.toList = [byte 1] ∧ after.layers = [] ∧
        after.cursor = 0 ∧ (Action.reduce 3 .uint8 first).arrive acc = .ok ((4 : UInt8), after) ∧
        (Action.reduce 3 .uint8 four).arrive acc = .error .readPastArity ∧
        (acc.reduce 3 four).2 = after := by
  intro byte acc first four
  have hstart : acc.layerStart ≤ acc.size := by decide
  have hle : 3 ≤ acc.size - acc.layerStart := by decide
  obtain ⟨after, hafter, -, hreduce⟩ := reduces_last_values acc hstart (by decide) hle
  have hlayers : after.layers = [] := hafter.layers_of_eq rfl
  have hcursor : after.cursor = 0 := by rw [hafter.cursor, layerStart, hlayers]; rfl
  have hfirst := (hreduce .uint8 first).1 [byte 2] [byte 3, byte 4] (4 : UInt8) rfl
    (.next (.remaining .result))
  have hfour := (hreduce .uint8 four).2 (.next (.next (.next .past)))
  exact ⟨hstart, hle, after, hafter.cells, hlayers, hcursor, hfirst, hfour⟩

end Accumulator

end Piecemeal
