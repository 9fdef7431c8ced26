/-
# Where layers start

Every call of an accumulator, also one that is a misuse, leaves the starts of the open layers in
order: each above the one below it, and all above the bottom.  `Reshapes acc call next` says what a
call can do to the layers at all, with five cases: they are kept, the top one grows or shrinks by a
cell, one is opened, or one is closed.  The order is `LayersNest`,

    acc.layers.Pairwise (· > ·)   ∀ start ∈ acc.layers, 1 ≤ start   acc.layerStart ≤ acc.cursor

and is read off these cases, for one call by `reshapes` and for any sequence of calls by induction.

That no layer starts above the top is another matter.  Values are removed at the top without a look
at where the active layer starts, so `layerStart ≤ size` is kept only as long as nothing is removed
from a layer that holds nothing, `Careful`.  Then the size of the active layer is always known,
`readBack_ne_layerCutOff`, and the read that closes a layer leaves the cells below it, which are
one at least, `below_of_closed`.
-/
import Piecemeal.Proofs.OrderedReads

namespace Piecemeal.Accumulator

variable {κ : Type} [Atom κ]

/-! ## What a call does to the layers -/

/-- The call removes a value at the top. -/
def Call.IsPop : Call κ → Prop
  | .pop _ => True
  | _ => False

/-- What the call can make of the layers, the cells and the cursor, whatever it answers. -/
inductive Reshapes (acc : Accumulator κ) (call : Call κ) : Accumulator κ → Prop
  | kept {next : Accumulator κ} : next.layers = acc.layers → next.size = acc.size →
      acc.cursor ≤ next.cursor ∨ acc.layerStart ≤ next.cursor → Reshapes acc call next
  | grew {next : Accumulator κ} : next.layers = acc.layers → next.size = acc.size + 1 →
      next.cursor = acc.cursor → Reshapes acc call next
  | shrank {next : Accumulator κ} : call.IsPop → next.layers = acc.layers →
      next.size + 1 = acc.size → next.cursor = acc.cursor → Reshapes acc call next
  | opened {next : Accumulator κ} : acc.layerStart < next.cursor → next.cursor ≤ acc.size →
      next.layers = next.cursor :: acc.layers → next.size = acc.size → Reshapes acc call next
  | closed {next : Accumulator κ} {start : Nat} {outer : List Nat} : acc.layers = start :: outer →
      next.layers = outer → next.cursor = next.layerStart →
      next.cells.toList = (acc.cells.toList.set acc.cursor .blank).take start →
      Reshapes acc call next
  /-- The outermost layer has been read to its end. -/
  | drained : acc.layers = [] → Reshapes acc call empty
  | cleared : call = .clear → Reshapes acc call empty

theorem reshapes_nextCell (acc : Accumulator κ) (call : Call κ) :
    Reshapes acc call acc.nextCell.2 := by
  rw [nextCell]
  split
  next hlt =>
    dsimp only
    split
    next hlast =>
      rw [closeLayer]
      dsimp only
      cases hlayers : acc.layers with
      | nil => exact .drained hlayers
      | cons start outer =>
          refine .closed hlayers rfl rfl ?_
          rw [toList_take, Array.toList_set]
    next => exact .kept rfl (by simp [size]) (.inl (Nat.le_succ _))
  next => exact .kept rfl rfl (.inl (Nat.le_refl _))

theorem reshapes_readBack {acc next : Accumulator κ} {n : Nat} (h : acc.readBack n = .ok next)
    (call : Call κ) : Reshapes acc call next := by
  cases serves_readBack h with
  | pushed hpushed => cases hpushed
  | @readBack cells layers cursor _ hn hle =>
      split
      next hlt => exact .opened hlt (Nat.sub_le ..) rfl rfl
      next => exact .kept rfl rfl (.inr (by simp only [layerStart]; omega))

theorem reshapes_perform (acc : Accumulator κ) (call : Call κ) :
    Reshapes acc call (acc.perform call).2 := by
  have unchanged : Reshapes acc call acc := .kept rfl rfl (.inl (Nat.le_refl _))
  cases call with
  | push type value => exact .grew rfl (by simp [perform, push, pushCell, size]) rfl
  | pushCell cell => exact .grew rfl (by simp [perform, pushCell, size]) rfl
  | pop type =>
      rw [perform, pop]
      split
      next => exact unchanged
      next cell hlast =>
        have hne : acc.cells ≠ #[] := by
          rintro hnil
          simp [hnil] at hlast
        refine .shrank trivial rfl ?_ rfl
        have hpos : 0 < acc.cells.size := Array.size_pos_iff.2 hne
        simp only [size, Array.size_pop]
        omega
  | peek type => exact unchanged
  | next type =>
      have hcell := reshapes_nextCell acc (.next type)
      rw [perform, next]
      split
      next hnext => rwa [hnext] at hcell
      next hnext => rwa [hnext] at hcell
  | nextCell => exact reshapes_nextCell acc .nextCell
  | openLayer =>
      rw [perform, openLayer]
      split
      next opened hopen =>
        split at hopen
        next hlt =>
          cases hopen
          exact .opened hlt (Nat.le_refl _) rfl rfl
        next => cases hopen
      next => exact unchanged
  | readBack n =>
      rw [perform]
      split
      next hback => exact reshapes_readBack hback _
      next => exact unchanged
  | clear => exact .cleared rfl

/-! ## Starts in order -/

/-- The starts of the open layers are in order, and the cursor is in the active layer or above. -/
structure LayersNest (acc : Accumulator κ) : Prop where
  /-- Each layer starts above the one below it; the latest is the first. -/
  increasing : acc.layers.Pairwise (· > ·)
  positive : ∀ start ∈ acc.layers, 1 ≤ start
  layerStart_le : acc.layerStart ≤ acc.cursor

theorem layersNest_empty : LayersNest (empty : Accumulator κ) :=
  ⟨.nil, fun _ h => absurd h List.not_mem_nil, Nat.le_refl _⟩

namespace LayersNest

variable {acc next : Accumulator κ} {call : Call κ}

theorem congr (h : LayersNest acc) (hlayers : next.layers = acc.layers)
    (hcursor : acc.cursor ≤ next.cursor ∨ acc.layerStart ≤ next.cursor) : LayersNest next where
  increasing := hlayers ▸ h.increasing
  positive := hlayers ▸ h.positive
  layerStart_le := by
    have := h.layerStart_le
    rw [layerStart, hlayers, ← layerStart]
    omega

theorem headD_lt (h : LayersNest acc) {start : Nat} {outer : List Nat}
    (hlayers : acc.layers = start :: outer) : outer.headD 0 < start := by
  have hincreasing := hlayers ▸ h.increasing
  cases outer with
  | nil => exact h.positive start (hlayers ▸ List.mem_cons_self)
  | cons below outer => exact List.rel_of_pairwise_cons hincreasing List.mem_cons_self

theorem reshapes (h : LayersNest acc) (hcall : Reshapes acc call next) : LayersNest next := by
  cases hcall with
  | kept hlayers _ hcursor => exact h.congr hlayers hcursor
  | grew hlayers _ hcursor => exact h.congr hlayers (.inl (Nat.le_of_eq hcursor.symm))
  | shrank _ hlayers _ hcursor => exact h.congr hlayers (.inl (Nat.le_of_eq hcursor.symm))
  | opened hlt _ hlayers _ =>
      -- all starts below are at most that of the layer which was active
      have hbelow : ∀ start ∈ acc.layers, start ≤ acc.layerStart := by
        intro start hmem
        obtain ⟨first, outer, hcons⟩ := List.exists_cons_of_ne_nil (List.ne_nil_of_mem hmem)
        have hincreasing := hcons ▸ h.increasing
        rw [layerStart, hcons]
        rcases List.mem_cons.1 (hcons ▸ hmem) with rfl | hmem
        · exact Nat.le_refl _
        · exact Nat.le_of_lt (List.rel_of_pairwise_cons hincreasing hmem)
      refine ⟨?_, ?_, ?_⟩
      · rw [hlayers, List.pairwise_cons]
        exact ⟨fun start hmem => Nat.lt_of_le_of_lt (hbelow start hmem) hlt, h.increasing⟩
      · rw [hlayers, List.forall_mem_cons]
        exact ⟨Nat.lt_of_le_of_lt (Nat.zero_le _) hlt, h.positive⟩
      · rw [layerStart, hlayers]
        exact Nat.le_refl _
  | closed hlayers hnext hcursor _ =>
      have hincreasing := hlayers ▸ h.increasing
      have hpositive := hlayers ▸ h.positive
      refine ⟨?_, ?_, Nat.le_of_eq hcursor.symm⟩
      · rw [hnext]
        exact (List.pairwise_cons.1 hincreasing).2
      · rw [hnext]
        exact fun start hmem => hpositive start (List.mem_cons_of_mem _ hmem)
  | drained => exact layersNest_empty
  | cleared => exact layersNest_empty

/-- No layer starts above the top, if nothing is removed from a layer that holds nothing. -/
theorem layerStart_le_size (h : LayersNest acc) (hcall : Reshapes acc call next)
    (hpop : call.IsPop → acc.layerStart < acc.size) (hsize : acc.layerStart ≤ acc.size) :
    next.layerStart ≤ next.size := by
  have same (hlayers : next.layers = acc.layers) : next.layerStart = acc.layerStart := by
    rw [layerStart, hlayers, layerStart]
  cases hcall with
  | kept hlayers hcells _ => rwa [same hlayers, hcells]
  | grew hlayers hcells _ =>
      rw [same hlayers, hcells]
      omega
  | shrank hcall hlayers hcells _ =>
      have hlt := hpop hcall
      rw [same hlayers]
      omega
  | opened _ hle hlayers hcells => rwa [layerStart, hlayers, hcells]
  | @closed _ start outer hlayers hnext _ hcells =>
      have hlt := h.headD_lt hlayers
      have hstart : start ≤ acc.size := by
        rwa [layerStart, hlayers] at hsize
      rw [layerStart, hnext, size, ← Array.length_toList, hcells, List.length_take,
        List.length_set, Array.length_toList]
      simp only [size] at hstart
      omega
  | drained => exact Nat.le_refl _
  | cleared => exact Nat.le_refl _

/-- Whatever closes a layer leaves the cells below it, which are one at least. -/
theorem below_of_closed (h : LayersNest acc) (hcall : Reshapes acc call next)
    (hsize : acc.layerStart ≤ acc.size) (hclear : call ≠ .clear) (hdepth : next.depth < acc.depth) :
    next.layers = acc.layers.tail ∧ next.cells.toList = acc.cells.toList.take acc.layerStart ∧
      next.layerStart < next.size := by
  have not_same (hlayers : next.layers = acc.layers) : False := by
    rw [depth, depth, hlayers] at hdepth
    exact Nat.lt_irrefl _ hdepth
  cases hcall with
  | kept hlayers => exact (not_same hlayers).elim
  | grew hlayers => exact (not_same hlayers).elim
  | shrank _ hlayers => exact (not_same hlayers).elim
  | opened _ _ hlayers =>
      rw [depth, depth, hlayers, List.length_cons] at hdepth
      omega
  | @closed _ start outer hlayers hnext _ hcells =>
      have hlt := h.headD_lt hlayers
      have hstart : acc.layerStart = start := by
        rw [layerStart, hlayers]
        rfl
      have hcells : next.cells.toList = acc.cells.toList.take acc.layerStart := by
        rw [hcells, hstart, List.take_set_of_le (hstart ▸ h.layerStart_le)]
      refine ⟨by rw [hnext, hlayers, List.tail_cons], hcells, ?_⟩
      rw [layerStart, hnext, size, ← Array.length_toList, hcells, List.length_take,
        Array.length_toList, hstart]
      rw [hstart, size] at hsize
      omega
  | drained hlayers =>
      rw [depth, depth, hlayers] at hdepth
      exact absurd hdepth (Nat.not_lt_zero _)
  | cleared hcall => exact absurd hcall hclear

end LayersNest

/-! ## Sequences of calls -/

/-- What is left when the calls have been made one after another, misuses among them. -/
def performAll (acc : Accumulator κ) (calls : List (Call κ)) : Accumulator κ :=
  calls.foldl (fun acc call => (acc.perform call).2) acc

/-- Nothing is removed at the top while the active layer holds nothing. -/
def Careful : Accumulator κ → List (Call κ) → Prop
  | _, [] => True
  | acc, call :: calls =>
      (call.IsPop → acc.layerStart < acc.size) ∧ Careful (acc.perform call).2 calls

theorem LayersNest.performAll {acc : Accumulator κ} (h : LayersNest acc) (calls : List (Call κ)) :
    LayersNest (acc.performAll calls) := by
  induction calls generalizing acc with
  | nil => exact h
  | cons call calls ih => exact ih (h.reshapes (reshapes_perform acc call))

theorem Careful.layerStart_le_size {acc : Accumulator κ} {calls : List (Call κ)}
    (hcalls : Careful acc calls) (h : LayersNest acc) (hsize : acc.layerStart ≤ acc.size) :
    (acc.performAll calls).layerStart ≤ (acc.performAll calls).size := by
  induction calls generalizing acc with
  | nil => exact hsize
  | cons call calls ih =>
      obtain ⟨hpop, hcalls⟩ := hcalls
      have hcall := reshapes_perform acc call
      exact ih hcalls (h.reshapes hcall) (h.layerStart_le_size hcall hpop hsize)

theorem readBack_ne_layerCutOff {acc : Accumulator κ} (h : acc.layerStart ≤ acc.size) (n : Nat) :
    acc.readBack n ≠ .error .layerCutOff := by
  have hheld : acc.layerSize = .ok (acc.size - acc.layerStart) := by rw [layerSize, if_pos h]
  rw [readBack, hheld]
  dsimp only [bind, Except.bind]
  split
  next => exact fun h => by cases h
  next => exact fun h => by cases h

/-! ## The property -/

/-- Whatever calls have been made, misuses among them, the starts of the open layers increase
strictly and are one at least.  If no value has been removed at the top while the active layer held
none, no layer starts above the top: the size of the active layer is known, so is what can be read
back, and the call that closes a layer leaves the layer below, with one cell at least. -/
theorem layer_starts_in_order (calls : List (Call κ)) :
    let acc := (empty : Accumulator κ).performAll calls
    (acc.layers.Pairwise (· > ·) ∧ ∀ start ∈ acc.layers, 1 ≤ start) ∧
    (Careful .empty calls →
      acc.layerStart ≤ acc.size ∧
      acc.layerSize = .ok (acc.size - acc.layerStart) ∧
      (∀ n, acc.readBack n ≠ .error .layerCutOff) ∧
      ∀ call next, next = (acc.perform call).2 → call ≠ .clear → next.depth < acc.depth →
        next.layers = acc.layers.tail ∧ next.cells.toList = acc.cells.toList.take acc.layerStart ∧
        next.layerStart < next.size) := by
  intro acc
  have hnest : LayersNest acc := layersNest_empty.performAll calls
  refine ⟨⟨hnest.increasing, hnest.positive⟩, fun hcalls => ?_⟩
  have hsize : acc.layerStart ≤ acc.size :=
    hcalls.layerStart_le_size layersNest_empty (Nat.le_refl _)
  refine ⟨hsize, by rw [layerSize, if_pos hsize], readBack_ne_layerCutOff hsize, ?_⟩
  rintro call next rfl hclear hdepth
  exact hnest.below_of_closed (reshapes_perform acc call) hsize hclear hdepth

/-- A layer is opened twice, read at the wrong type to its end, a value removed at the wrong type
and another read back: misuses all over, and a layer of one value is open at one.  One more read at
the wrong type closes it. -/
theorem layer_starts_in_order_misused :
    let calls : List (Call Empty) :=
      [.push .uint8 (1 : UInt8), .openLayer, .openLayer, .push .uint8 (2 : UInt8), .next .bool,
        .push .uint8 (3 : UInt8), .push .uint8 (4 : UInt8), .pop .bool, .readBack 1]
    let acc := (empty : Accumulator Empty).performAll calls
    acc = ⟨#[⟨.uint8, (1 : UInt8)⟩, ⟨.uint8, (3 : UInt8)⟩], [1], 1⟩ ∧ Careful .empty calls ∧
      acc.layerSize = .ok 1 ∧ (acc.perform (.next .bool)).1 = .error (.wrongType "bool") ∧
      (acc.perform (.next .bool)).2.layers = [] ∧
      (acc.perform (.next .bool)).2.layerStart < (acc.perform (.next .bool)).2.size := by
  intro calls acc
  have hacc : acc = ⟨#[⟨.uint8, (1 : UInt8)⟩, ⟨.uint8, (3 : UInt8)⟩], [1], 1⟩ := rfl
  have hcareful : Careful .empty calls :=
    ⟨False.elim, False.elim, False.elim, False.elim, False.elim, False.elim, False.elim,
      fun _ => by decide, False.elim, trivial⟩
  obtain ⟨-, hcalls⟩ := layer_starts_in_order calls
  obtain ⟨-, hsize, -, hclosed⟩ := hcalls hcareful
  obtain ⟨hlayers, -, hbelow⟩ := hclosed (.next .bool) _ rfl (by simp) (by decide)
  exact ⟨hacc, hcareful, hsize, rfl, hlayers, hbelow⟩

end Piecemeal.Accumulator
