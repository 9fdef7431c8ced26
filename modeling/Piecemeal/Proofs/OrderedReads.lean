/-
# What ordered reads hand out

The calls of an accumulator are data here, and `Serves` says of each what it answers and leaves, in
terms of lists.  Two laws are read off these steps, and carried over to sequences of calls by the
same induction, `Served.conserves`.

  * Whatever is called, no value comes out twice.  What is handed out was pushed, or is one of the
    blanks that ordered reads leave behind:

        (log.pushed ++ log.blanks).Perm (log.taken ++ acc.cells.toList ++ lost)

  * No blank comes out as long as no ordered read is interrupted.  The values pushed are those
    handed out, those that wait, and those cleared away:

        log.pushed.Perm (log.taken ++ acc.waiting ++ cleared)

    with `waiting` the cells below the active layer and those from the cursor on.  What is between
    is blank, `Waits`, and a call that interrupts no read keeps it so.

A read is interrupted by what moves the cursor away from it, and by a read at the top when there is
nothing above the cursor.  The cursor does not come back: when a layer is closed, the layer below
is read from its own start, so a read of it that has begun meets the blanks it left,
`Waits.served_nested`.
-/
import Mathlib.Data.List.Perm.Subperm
import Piecemeal.Proofs.Layers
import Piecemeal.Proofs.Standard

namespace Piecemeal.Accumulator

variable {κ : Type} [Atom κ]

/-! ## Calls -/

/-- What can be asked of an accumulator. -/
inductive Call (κ : Type) [Atom κ] where
  | push (type : ValueType κ) (value : type.Carrier)
  | pushCell (cell : Cell κ)
  | pop (type : ValueType κ)
  | peek (type : ValueType κ)
  | next (type : ValueType κ)
  | nextCell
  | openLayer
  | readBack (n : Nat)
  | clear

namespace Call

/-- The values that the call brings. -/
def pushed : Call κ → List (Cell κ)
  | .push type value => [⟨type, value⟩]
  | .pushCell cell => [cell]
  | _ => []

/-- The call takes a value at the cursor. -/
def IsOrdered : Call κ → Prop
  | .next _ | .nextCell => True
  | _ => False

/-- The values that leave the accumulator with this answer. -/
def taken : Call κ → Option (Cell κ) → List (Cell κ)
  | .pop _, answer | .next _, answer | .nextCell, answer => answer.toList
  | _, _ => []

/-- The blanks that the call leaves. -/
def blanks : Call κ → List (Cell κ)
  | .next _ | .nextCell => [Cell.blank]
  | _ => []

theorem taken_of_pushed {call : Call κ} {cell : Cell κ} (h : call.pushed = [cell]) :
    call.blanks = [] ∧ call.taken none = [] := by
  cases call <;> cases h <;> exact ⟨rfl, rfl⟩

theorem IsOrdered.taken {call : Call κ} (h : call.IsOrdered) (cell : Cell κ) :
    call.pushed = [] ∧ call.blanks = [.blank] ∧ call.taken (some cell) = [cell] := by
  cases call <;> cases h <;> exact ⟨rfl, rfl, rfl⟩

end Call

/-- The answer to a call, which is a value if one is handed out, and what the call leaves. -/
def perform (acc : Accumulator κ) : Call κ → Except Misuse (Option (Cell κ)) × Accumulator κ
  | .push type value => (.ok none, acc.push type value)
  | .pushCell cell => (.ok none, acc.pushCell cell)
  | .pop type => ((acc.pop type).1.map fun value => some ⟨type, value⟩, (acc.pop type).2)
  | .peek type => ((acc.peek type).map fun value => some ⟨type, value⟩, acc)
  | .next type => ((acc.next type).1.map fun value => some ⟨type, value⟩, (acc.next type).2)
  | .nextCell => (acc.nextCell.1.map some, acc.nextCell.2)
  | .openLayer =>
      match acc.openLayer with
      | .ok opened => (.ok none, opened)
      | .error misuse => (.error misuse, acc)
  | .readBack n =>
      match acc.readBack n with
      | .ok reading => (.ok none, reading)
      | .error misuse => (.error misuse, acc)
  | .clear => (.ok none, acc.clear)

/-- What the calls that are no misuse answer and leave. -/
inductive Serves : Accumulator κ → Call κ → Option (Cell κ) → Accumulator κ → Prop
  | pushed {cells : List (Cell κ)} {layers : List Nat} {cursor : Nat} {call : Call κ}
      {cell : Cell κ} : call.pushed = [cell] →
      Serves ⟨cells.toArray, layers, cursor⟩ call none ⟨(cells ++ [cell]).toArray, layers, cursor⟩
  | popped {cells : List (Cell κ)} {layers : List Nat} {cursor : Nat} {type : ValueType κ}
      {cell : Cell κ} :
      Serves ⟨(cells ++ [cell]).toArray, layers, cursor⟩ (.pop type) (some cell)
        ⟨cells.toArray, layers, cursor⟩
  | peeked {cells : List (Cell κ)} {layers : List Nat} {cursor : Nat} {type : ValueType κ}
      {cell : Cell κ} :
      Serves ⟨(cells ++ [cell]).toArray, layers, cursor⟩ (.peek type) (some cell)
        ⟨(cells ++ [cell]).toArray, layers, cursor⟩
  /-- An ordered read of a value that is not the last of its layer. -/
  | took {before after : List (Cell κ)} {layers : List Nat} {call : Call κ} {cell : Cell κ} :
      call.IsOrdered → after ≠ [] →
      Serves ⟨(before ++ cell :: after).toArray, layers, before.length⟩ call (some cell)
        ⟨(before ++ .blank :: after).toArray, layers, before.length + 1⟩
  /-- An ordered read of the last value of a layer, which is closed. -/
  | closed {before : List (Cell κ)} {layers : List Nat} {call : Call κ} {cell : Cell κ} :
      call.IsOrdered →
      Serves ⟨(before ++ [cell]).toArray, layers, before.length⟩ call (some cell)
        (closeLayer ⟨(before ++ [Cell.blank]).toArray, layers, before.length + 1⟩)
  | opened {cells : List (Cell κ)} {layers : List Nat} {cursor : Nat} :
      layers.headD 0 < cells.length →
      Serves ⟨cells.toArray, layers, cursor⟩ .openLayer none
        ⟨cells.toArray, cells.length :: layers, cells.length⟩
  | readBack {cells : List (Cell κ)} {layers : List Nat} {cursor n : Nat} :
      0 < n → layers.headD 0 + n ≤ cells.length →
      Serves ⟨cells.toArray, layers, cursor⟩ (.readBack n) none
        ⟨cells.toArray,
          if layers.headD 0 < cells.length - n then (cells.length - n) :: layers else layers,
          cells.length - n⟩
  | cleared {acc : Accumulator κ} : Serves acc .clear none .empty

theorem serves_nextCell {acc next : Accumulator κ} {call : Call κ} (hcall : call.IsOrdered)
    {cell : Cell κ} (h : acc.nextCell = (.ok cell, next)) : Serves acc call (some cell) next := by
  obtain ⟨⟨cells⟩, layers, cursor⟩ := acc
  rw [Accumulator.nextCell] at h
  split at h
  next hlt =>
    obtain ⟨before, first, after, rfl, rfl⟩ : ∃ before first after,
        cells = before ++ first :: after ∧ cursor = before.length := by
      have hlen : cursor < cells.length := hlt
      refine ⟨cells.take cursor, cells[cursor], cells.drop (cursor + 1), ?_, ?_⟩
      · rw [List.getElem_cons_drop, List.take_append_drop]
      · rw [List.length_take]
        omega
    have hset : (before ++ first :: after).toArray.set before.length .blank hlt =
        (before ++ .blank :: after).toArray := by simp
    have hfirst : (before ++ first :: after).toArray[before.length] = first := by simp
    dsimp only at h
    rw [hset, hfirst] at h
    cases after with
    | nil =>
        rw [if_pos (by simp [size])] at h
        cases h
        exact .closed hcall
    | cons second after =>
        rw [if_neg (by simp [size])] at h
        cases h
        exact .took hcall (by simp)
  next => cases h

theorem serves_openLayer {acc next : Accumulator κ} (h : acc.openLayer = .ok next) :
    Serves acc .openLayer none next := by
  obtain ⟨⟨cells⟩, layers, cursor⟩ := acc
  rw [Accumulator.openLayer] at h
  split at h
  next hlt =>
    cases h
    exact .opened hlt
  next => cases h

theorem serves_readBack {acc next : Accumulator κ} {n : Nat} (h : acc.readBack n = .ok next) :
    Serves acc (.readBack n) none next := by
  obtain ⟨⟨cells⟩, layers, cursor⟩ := acc
  simp only [Accumulator.readBack, layerSize] at h
  split at h
  next hstart =>
    have hsize : layers.headD 0 ≤ cells.length := hstart
    dsimp only [bind, Except.bind] at h
    split at h
    next hn =>
      cases h
      refine .readBack hn.1 ?_
      have hle : n ≤ cells.length - layers.headD 0 := hn.2
      omega
    next => cases h
  next => cases h

theorem eq_of_read {cell : Cell κ} {type : ValueType κ} {answer : Option (Cell κ)}
    (h : (cell.read type).map (fun value => some (Cell.mk type value)) = .ok answer) :
    answer = some cell := by
  cases hread : cell.read type with
  | ok value =>
      rw [hread] at h
      cases h
      rw [Cell.type_eq_of_read hread]
  | error misuse =>
      rw [hread] at h
      cases h

theorem serves_of_perform {acc next : Accumulator κ} {call : Call κ} {answer : Option (Cell κ)}
    (h : acc.perform call = (.ok answer, next)) : Serves acc call answer next := by
  obtain ⟨⟨cells⟩, layers, cursor⟩ := acc
  cases call with
  | push type value =>
      cases h
      simp only [Accumulator.push, Accumulator.pushCell, List.push_toArray]
      exact .pushed rfl
  | pushCell cell =>
      cases h
      simp only [Accumulator.pushCell, List.push_toArray]
      exact .pushed rfl
  | pop type =>
      rcases List.eq_nil_or_concat' cells with rfl | ⟨cells, cell, rfl⟩
      · cases h
      · simp only [perform, Accumulator.pop, List.back?_toArray, List.getLast?_concat,
          List.pop_toArray, List.dropLast_concat, Prod.mk.injEq] at h
        obtain ⟨hanswer, rfl⟩ := h
        rw [eq_of_read hanswer]
        exact .popped
  | peek type =>
      rcases List.eq_nil_or_concat' cells with rfl | ⟨cells, cell, rfl⟩
      · cases h
      · simp only [perform, Accumulator.peek, List.back?_toArray, List.getLast?_concat,
          Prod.mk.injEq] at h
        obtain ⟨hanswer, rfl⟩ := h
        rw [eq_of_read hanswer]
        exact .peeked
  | next type =>
      cases hnext : nextCell ⟨cells.toArray, layers, cursor⟩ with
      | mk first rest =>
          simp only [perform, Accumulator.next, hnext] at h
          cases first with
          | ok cell =>
              obtain ⟨hanswer, rfl⟩ := Prod.mk.inj h
              rw [eq_of_read hanswer]
              exact serves_nextCell (show (Call.next type).IsOrdered from trivial) hnext
          | error misuse => cases h
  | nextCell =>
      cases hnext : nextCell ⟨cells.toArray, layers, cursor⟩ with
      | mk first rest =>
          simp only [perform, hnext] at h
          cases first with
          | ok cell =>
              cases h
              exact serves_nextCell (show (Call.nextCell : Call κ).IsOrdered from trivial) hnext
          | error misuse => cases h
  | openLayer =>
      simp only [perform] at h
      split at h
      next opened hopen =>
        cases h
        exact serves_openLayer hopen
      next => cases h
  | readBack n =>
      simp only [perform] at h
      split at h
      next reading hback =>
        cases h
        exact serves_readBack hback
      next => cases h
  | clear =>
      cases h
      exact .cleared

/-! ## Sequences of calls -/

/-- Calls with their answers. -/
abbrev Log (κ : Type) [Atom κ] := List (Call κ × Option (Cell κ))

namespace Log

def pushed (log : Log κ) : List (Cell κ) := log.flatMap fun entry => entry.1.pushed

def taken (log : Log κ) : List (Cell κ) := log.flatMap fun entry => entry.1.taken entry.2

def blanks (log : Log κ) : List (Cell κ) := log.flatMap fun entry => entry.1.blanks

end Log

/-- Each of the calls is as `P` asks for and gets this answer, and none is a misuse. -/
inductive Served (P : Accumulator κ → Call κ → Prop) :
    Accumulator κ → Log κ → Accumulator κ → Prop
  | nil (acc : Accumulator κ) : Served P acc [] acc
  | cons {acc next last : Accumulator κ} {call : Call κ} {answer : Option (Cell κ)} {log : Log κ} :
      P acc call → acc.perform call = (.ok answer, next) → Served P next log last →
      Served P acc ((call, answer) :: log) last

variable {P : Accumulator κ → Call κ → Prop}

theorem Served.append {acc next last : Accumulator κ} {log log' : Log κ} (h : Served P acc log next)
    (h' : Served P next log' last) : Served P acc (log ++ log') last := by
  induction h with
  | nil acc => exact h'
  | cons hP hperform _ ih => exact .cons hP hperform (ih h')

/-- If each call adds to what is held what it brings, and takes from it what it hands out and what
is lost, so does a sequence of calls.  Calls that lose nothing may be singled out by `Q`. -/
theorem Served.conserves {Held : Accumulator κ → List (Cell κ) → Prop}
    {brings : Call κ → List (Cell κ)} {Q : Call κ → Prop}
    (hstep : ∀ {acc call answer next values}, Held acc values → P acc call →
      Serves acc call answer next → ∃ rest lost, Held next rest ∧
        (values ++ brings call).Perm (call.taken answer ++ rest ++ lost) ∧ (Q call → lost = []))
    {acc last : Accumulator κ} {log : Log κ} (h : Served P acc log last) {values : List (Cell κ)}
    (hacc : Held acc values) :
    ∃ rest lost, Held last rest ∧
      (values ++ log.flatMap fun entry => brings entry.1).Perm (log.taken ++ rest ++ lost) ∧
      ((∀ entry ∈ log, Q entry.1) → lost = []) := by
  induction h generalizing values with
  | nil acc => exact ⟨values, [], hacc, by simp [Log.taken], fun _ => rfl⟩
  | @cons acc next last call answer log hP hperform _ ih =>
      obtain ⟨between, lost, hnext, hperm, hlost⟩ :=
        hstep hacc hP (serves_of_perform hperform)
      obtain ⟨rest, losses, hlast, hperms, hlosses⟩ := ih hnext
      refine ⟨rest, lost ++ losses, hlast, ?_, ?_⟩
      · classical
        rw [List.perm_iff_count] at hperm hperms ⊢
        intro cell
        have hcall := hperm cell
        have hcalls := hperms cell
        simp only [Log.taken, List.flatMap_cons, List.count_append] at hcall hcalls ⊢
        omega
      · intro hQ
        rw [hlost (hQ _ List.mem_cons_self),
          hlosses fun entry h => hQ entry (List.mem_cons_of_mem _ h), List.append_nil]

/-! ## No value comes out twice -/

theorem exists_eq_closeLayer_append (acc : Accumulator κ) :
    ∃ lost, acc.cells.toList = acc.closeLayer.cells.toList ++ lost := by
  rw [closeLayer]
  cases acc.layers with
  | nil => exact ⟨acc.cells.toList, rfl⟩
  | cons start layers =>
      refine ⟨acc.cells.toList.drop start, ?_⟩
      rw [toList_take, List.take_append_drop]

theorem Serves.conserves_cells {acc next : Accumulator κ} {call : Call κ}
    {answer : Option (Cell κ)} (h : Serves acc call answer next) :
    ∃ lost, (acc.cells.toList ++ (call.pushed ++ call.blanks)).Perm
      (call.taken answer ++ next.cells.toList ++ lost) := by
  cases h with
  | @pushed cells _ _ _ cell hpushed =>
      obtain ⟨hblanks, htaken⟩ := Call.taken_of_pushed hpushed
      refine ⟨[], ?_⟩
      rw [hpushed, hblanks, htaken]
      simp
  | @popped cells _ _ _ cell =>
      refine ⟨[], ?_⟩
      simp [Call.pushed, Call.blanks, Call.taken]
  | peeked => exact ⟨[], by simp [Call.pushed, Call.blanks, Call.taken]⟩
  | @took before after _ _ cell hordered =>
      obtain ⟨hpushed, hblanks, htaken⟩ := hordered.taken cell
      refine ⟨[], ?_⟩
      rw [hpushed, hblanks, htaken]
      classical
      rw [List.perm_iff_count]
      intro value
      simp only [List.count_append, List.count_cons, List.count_nil]
      omega
  | @closed before layers _ cell hordered =>
      obtain ⟨hpushed, hblanks, htaken⟩ := hordered.taken cell
      obtain ⟨lost, hlost⟩ := exists_eq_closeLayer_append
        ⟨(before ++ [Cell.blank]).toArray, layers, before.length + 1⟩
      have hlost : before ++ [Cell.blank] = _ := hlost
      refine ⟨lost, ?_⟩
      rw [hpushed, hblanks, htaken, List.append_assoc [cell], ← hlost]
      simp
  | opened => exact ⟨[], by simp [Call.pushed, Call.blanks, Call.taken]⟩
  | readBack => exact ⟨[], by simp [Call.pushed, Call.blanks, Call.taken]⟩
  | cleared =>
      exact ⟨acc.cells.toList, by simp [Call.pushed, Call.blanks, Call.taken, empty]⟩

theorem Served.conserves_cells {acc last : Accumulator κ} {log : Log κ}
    (h : Served P acc log last) :
    ∃ lost, (acc.cells.toList ++ (log.pushed ++ log.blanks)).Perm
      (log.taken ++ last.cells.toList ++ lost) := by
  have hstep {acc call answer next values} (hcells : acc.cells.toList = values) (_ : P acc call)
      (h : Serves acc call answer next) :
      ∃ rest lost, next.cells.toList = rest ∧
        (values ++ (call.pushed ++ call.blanks)).Perm (call.taken answer ++ rest ++ lost) ∧
        (False → lost = []) := by
    obtain ⟨lost, hperm⟩ := h.conserves_cells
    exact ⟨_, lost, rfl, hcells ▸ hperm, False.elim⟩
  obtain ⟨_, lost, rfl, hperm, -⟩ := h.conserves hstep rfl
  exact ⟨lost, ((List.flatMap_append_perm log _ _).append_left _).trans hperm⟩

/-! ## Reads that go on where they are -/

/-- The values that have been pushed and not taken, but for the blanks of a read that has begun. -/
def waiting (acc : Accumulator κ) : List (Cell κ) :=
  acc.cells.toList.take acc.layerStart ++ acc.cells.toList.drop acc.cursor

/-- The call takes the cursor away from an ordered read that has begun, or reads one of its blanks
from the top. -/
def Interrupts (acc : Accumulator κ) : Call κ → Prop
  | .openLayer | .readBack _ => acc.layerStart < acc.cursor
  | .pop _ | .peek _ => acc.layerStart < acc.cursor ∧ acc.size ≤ acc.cursor
  | _ => False

/-- `values` wait: the cursor is at the start of the active layer, or the cells between are the
blanks of a read that has begun. -/
inductive Waits (acc : Accumulator κ) : List (Cell κ) → Prop
  | unread {values : List (Cell κ)} :
      acc.cells.toList = values → acc.cursor = acc.layerStart → Waits acc values
  | reading (below above : List (Cell κ)) (n : Nat) :
      acc.cells.toList = below ++ List.replicate n Cell.blank ++ above →
      acc.layerStart = below.length → acc.cursor = below.length + n → Waits acc (below ++ above)

theorem Waits.eq {acc : Accumulator κ} {values : List (Cell κ)} (h : Waits acc values) :
    values = acc.waiting := by
  cases h with
  | unread hcells hcursor => rw [waiting, hcursor, List.take_append_drop, hcells]
  | reading below above n hcells hstart hcursor =>
      rw [waiting, hcells, hstart, hcursor]
      simp [List.drop_append]

theorem Waits.unread_of_le {acc : Accumulator κ} {values : List (Cell κ)} (h : Waits acc values)
    (hle : acc.cursor ≤ acc.layerStart) :
    acc.cursor = acc.layerStart ∧ values = acc.cells.toList := by
  cases h with
  | unread hcells hcursor => exact ⟨hcursor, hcells.symm⟩
  | reading below above n hcells hstart hcursor =>
      obtain rfl : n = 0 := by omega
      exact ⟨hcursor.trans hstart.symm, by simpa using hcells.symm⟩

/-- Below the cursor of an ordered read are the cells below the layer and the blanks. -/
theorem Waits.exists_blanks {before after values : List (Cell κ)} {layers : List Nat}
    (h : Waits ⟨(before ++ after).toArray, layers, before.length⟩ values) :
    ∃ below n, before = below ++ List.replicate n Cell.blank ∧ layers.headD 0 = below.length ∧
      values = below ++ after := by
  cases h with
  | unread hcells hcursor => exact ⟨before, 0, by simp, hcursor.symm, hcells.symm⟩
  | reading below above n hcells hstart hcursor =>
      obtain ⟨hbefore, hafter⟩ := List.append_inj hcells (by simpa using hcursor)
      exact ⟨below, n, hbefore, hstart, by rw [hafter]⟩

/-- The read that takes the last value of a layer leaves what is below the layer, unread. -/
theorem waits_closeLayer {below blanks : List (Cell κ)} {layers : List Nat} {cursor : Nat}
    (h : layers.headD 0 = below.length) :
    Waits (closeLayer ⟨(below ++ blanks).toArray, layers, cursor⟩) below := by
  cases layers with
  | nil =>
      obtain rfl : below = [] := List.eq_nil_of_length_eq_zero h.symm
      exact .unread rfl rfl
  | cons start layers =>
      obtain rfl : start = below.length := h
      refine .unread ?_ rfl
      rw [closeLayer, toList_take]
      exact List.take_left

/-- A call that interrupts no ordered read adds what it pushes and takes what it hands out. -/
theorem Serves.conserves_waiting {acc next : Accumulator κ} {call : Call κ}
    {answer : Option (Cell κ)} {values : List (Cell κ)} (hacc : Waits acc values)
    (hcall : ¬acc.Interrupts call) (h : Serves acc call answer next) :
    ∃ rest lost, Waits next rest ∧
      (values ++ call.pushed).Perm (call.taken answer ++ rest ++ lost) ∧
      (call ≠ .clear → lost = []) := by
  cases h with
  | @pushed cells layers cursor _ cell hpushed =>
      obtain ⟨-, htaken⟩ := Call.taken_of_pushed hpushed
      rw [hpushed, htaken]
      cases hacc with
      | unread hcells hcursor =>
          exact ⟨_, [], .unread rfl hcursor, by simp [← hcells], fun _ => rfl⟩
      | reading below above n hcells hstart hcursor =>
          have hcells : cells = below ++ List.replicate n Cell.blank ++ above := hcells
          refine ⟨_, [], .reading below (above ++ [cell]) n ?_ hstart hcursor, by simp,
            fun _ => rfl⟩
          rw [hcells, List.append_assoc _ above]
  | @popped cells layers cursor type cell =>
      by_cases hle : cursor ≤ layers.headD 0
      · obtain ⟨hcursor, rfl⟩ := hacc.unread_of_le hle
        exact ⟨_, [], .unread rfl hcursor, by simp [Call.pushed, Call.taken], fun _ => rfl⟩
      · cases hacc with
        | unread _ hcursor => exact absurd (Nat.le_of_eq hcursor) hle
        | reading below above n hcells hstart hcursor =>
            rcases List.eq_nil_or_concat' above with rfl | ⟨above, last, rfl⟩
            · -- nothing but blanks is left of the read
              refine absurd ⟨Nat.lt_of_not_le hle, ?_⟩ hcall
              rw [size, ← Array.length_toList, hcells, hcursor]
              simp
            · rw [← List.append_assoc] at hcells
              obtain ⟨hrest, hlast⟩ := List.append_inj' hcells rfl
              cases hlast
              refine ⟨_, [], .reading below above n hrest hstart hcursor, ?_, fun _ => rfl⟩
              simpa [Call.pushed, Call.taken] using
                List.perm_append_singleton cell (below ++ above)
  | peeked => exact ⟨values, [], hacc, by simp [Call.pushed, Call.taken], fun _ => rfl⟩
  | @took before after layers _ cell hordered hafter =>
      obtain ⟨hpushed, -, htaken⟩ := hordered.taken cell
      obtain ⟨below, n, rfl, hstart, rfl⟩ := hacc.exists_blanks
      rw [hpushed, htaken]
      -- the value is the first above the blanks, and one more blank is left
      refine ⟨_, [], .reading below after (n + 1) ?_ hstart ?_, by simp, fun _ => rfl⟩
      · simp [List.replicate_succ']
      · simp [Nat.add_assoc]
  | @closed before layers _ cell hordered =>
      obtain ⟨hpushed, -, htaken⟩ := hordered.taken cell
      obtain ⟨below, n, rfl, hstart, rfl⟩ := hacc.exists_blanks
      rw [hpushed, htaken, List.append_assoc below]
      exact ⟨below, [], waits_closeLayer hstart, by simp, fun _ => rfl⟩
  | @opened cells layers cursor _ =>
      obtain ⟨-, rfl⟩ := hacc.unread_of_le (Nat.le_of_not_lt hcall)
      exact ⟨_, [], .unread rfl rfl, by simp [Call.pushed, Call.taken], fun _ => rfl⟩
  | @readBack cells layers cursor n hn hle =>
      obtain ⟨-, rfl⟩ := hacc.unread_of_le (Nat.le_of_not_lt hcall)
      refine ⟨_, [], .unread rfl ?_, by simp [Call.pushed, Call.taken], fun _ => rfl⟩
      rw [layerStart]
      split
      · rfl
      · dsimp only
        omega
  | cleared =>
      exact ⟨[], values, .unread rfl rfl, by simp [Call.pushed, Call.taken], fun h => absurd rfl h⟩

theorem Serves.mem_of_waits {acc next : Accumulator κ} {call : Call κ} {cell : Cell κ}
    {values : List (Cell κ)} (h : Serves acc call (some cell) next) (hacc : Waits acc values)
    (hcall : ¬acc.Interrupts call) : cell ∈ values := by
  have mem_of_taken {call : Call κ} {next : Accumulator κ} (hcall : ¬acc.Interrupts call)
      (h : Serves acc call (some cell) next) (hpushed : call.pushed = [])
      (htaken : call.taken (some cell) = [cell]) : cell ∈ values := by
    obtain ⟨rest, lost, -, hperm, -⟩ := h.conserves_waiting hacc hcall
    rw [hpushed, htaken, List.append_nil] at hperm
    exact hperm.symm.subset (by simp)
  cases h with
  | popped => exact mem_of_taken hcall .popped rfl rfl
  | @peeked cells layers cursor type =>
      exact mem_of_taken (show ¬Interrupts _ (.pop type) from hcall) .popped rfl rfl
  | took hordered hafter =>
      exact mem_of_taken hcall (.took hordered hafter) (hordered.taken cell).1
        (hordered.taken cell).2.2
  | closed hordered =>
      exact mem_of_taken hcall (.closed hordered) (hordered.taken cell).1 (hordered.taken cell).2.2

theorem Serves.head?_of_isOrdered {acc next : Accumulator κ} {call : Call κ} {cell : Cell κ}
    (h : Serves acc call (some cell) next) (hordered : call.IsOrdered) :
    (acc.cells.toList.drop acc.cursor).head? = some cell := by
  cases h with
  | popped => cases hordered
  | peeked => cases hordered
  | took => simp
  | closed => simp

/-! ## Reads that are interrupted -/

theorem served_pushCells (acc : Accumulator κ) (cells : List (Cell κ)) :
    Served (fun _ _ => True) acc (cells.map fun cell => (.pushCell cell, none))
      { acc with cells := acc.cells ++ cells.toArray } := by
  induction cells generalizing acc with
  | nil => simpa using Served.nil acc
  | cons cell cells ih =>
      refine .cons trivial rfl ?_
      simpa [pushCell] using ih (acc.pushCell cell)

theorem Draining.served {after acc : Accumulator κ} {rest : List (Cell κ)}
    (h : Draining after acc rest) :
    Served (fun _ _ => True) acc (rest.map fun cell => (.nextCell, some cell)) after := by
  induction rest generalizing acc with
  | nil =>
      cases h with
      | finished => exact .nil _
      | reading _ _ hne => exact absurd rfl hne
  | cons cell rest ih =>
      obtain ⟨next, hnext, hrest⟩ := h.nextCell
      refine .cons trivial ?_ (ih hrest)
      rw [perform, hnext]
      rfl

/-- A layer is opened, filled with `cells` and read to its end; then the layer below is read. -/
def Log.nested (cells : List (Cell κ)) (cell : Cell κ) : Log κ :=
  (.openLayer, none) :: (cells.map fun cell => (.pushCell cell, none)) ++
    (cells.map fun cell => (.nextCell, some cell)) ++ [(.nextCell, some cell)]

/-- A read of the layer below that had begun starts over, and meets a blank. -/
theorem Waits.served_nested {acc : Accumulator κ} {values : List (Cell κ)} (h : Waits acc values)
    (hbegun : acc.layerStart < acc.cursor) {cells : List (Cell κ)} (hcells : cells ≠ []) :
    ∃ last, Served (fun _ _ => True) acc (.nested cells .blank) last := by
  obtain ⟨below, rest, hread, hstart⟩ : ∃ below rest,
      acc.cells.toList = below ++ Cell.blank :: rest ∧ acc.layerStart = below.length := by
    cases h with
    | unread _ hcursor => omega
    | reading below above n hread hstart hcursor =>
        obtain ⟨n, rfl⟩ : ∃ k, n = k + 1 := ⟨n - 1, by omega⟩
        refine ⟨below, List.replicate n Cell.blank ++ above, ?_, hstart⟩
        rw [hread, List.replicate_succ]
        simp
  have hsize : acc.size = acc.cells.toList.length := Array.length_toList.symm
  have hlt : acc.layerStart < acc.size := by
    rw [hsize, hread, hstart]
    simp
  let opened : Accumulator κ := { acc with layers := acc.size :: acc.layers, cursor := acc.size }
  let filled : Accumulator κ := { opened with cells := opened.cells ++ cells.toArray }
  have hopen : acc.perform .openLayer = (.ok none, opened) := by
    rw [perform, Accumulator.openLayer, if_pos hlt]
  -- the layer is read to its end, which leaves the cells below it, to be read from their start
  have hfilled : Draining filled.closeLayer filled cells :=
    .reading acc.cells.toList cells hcells (Array.toList_append ..) hsize (Nat.le_of_eq hsize) rfl
  have hclosed : filled.closeLayer.cells.toList = below ++ Cell.blank :: rest := by
    show (filled.cells.take acc.size).toList = _
    rw [toList_take, ← hread, hsize]
    simp [filled, opened]
  have hagain : Draining filled.closeLayer.closeLayer filled.closeLayer (Cell.blank :: rest) :=
    .reading below _ (by simp) hclosed hstart (Nat.le_of_eq hstart) rfl
  obtain ⟨last, hlast, -⟩ := hagain.nextCell
  have hperform : filled.closeLayer.perform .nextCell = (.ok (some .blank), last) := by
    rw [perform, hlast]
    rfl
  refine ⟨last, .append (.append ?_ hfilled.served) (.cons trivial hperform (.nil _))⟩
  exact .cons trivial hopen (served_pushCells opened cells)

/-! ## The property -/

/-- What is handed out has been pushed or is a blank that an ordered read has left, and nothing is
handed out twice.  If no ordered read is interrupted, what is handed out has been pushed: the values
pushed are those handed out, those that wait and those cleared away, and an ordered read takes the
first value of its layer that waits.  A read in the middle of which a layer is opened and read to
its end starts over and hands out the blank that it has left. -/
theorem served_in_order (log : Log κ) (acc : Accumulator κ) :
    (Served (fun _ _ => True) .empty log acc →
      ∃ lost, (log.pushed ++ log.blanks).Perm (log.taken ++ acc.cells.toList ++ lost)) ∧
    (Served (fun acc call => ¬acc.Interrupts call) .empty log acc →
      (∃ cleared, log.pushed.Perm (log.taken ++ acc.waiting ++ cleared) ∧
        ((∀ entry ∈ log, entry.1 ≠ .clear) → cleared = [])) ∧
      (∀ call cell next, ¬acc.Interrupts call → acc.perform call = (.ok (some cell), next) →
        cell ∈ acc.waiting ∧
        (call.IsOrdered → (acc.cells.toList.drop acc.cursor).head? = some cell)) ∧
      (acc.layerStart < acc.cursor → ∀ cells ≠ [],
        ∃ last, Served (fun _ _ => True) acc (.nested cells .blank) last)) := by
  refine ⟨fun h => ?_, fun h => ?_⟩
  · exact h.conserves_cells
  · obtain ⟨values, cleared, hwaits, hperm, hcleared⟩ := h.conserves
      (fun hwaits hcall hserves => hserves.conserves_waiting hwaits hcall)
      (show Waits .empty [] from .unread rfl rfl)
    rw [hwaits.eq] at hperm
    refine ⟨⟨cleared, hperm, hcleared⟩, ?_, ?_⟩
    · intro call cell next hcall hperform
      have hserves := serves_of_perform hperform
      rw [← hwaits.eq]
      exact ⟨hserves.mem_of_waits hwaits hcall, hserves.head?_of_isOrdered⟩
    · intro hbegun cells hcells
      exact hwaits.served_nested hbegun hcells

/-- Two values are pushed and the first is read: it has come out, the second waits, and a layer that
is opened now will make the read start over. -/
theorem served_in_order_begun :
    let one : Cell Empty := ⟨.uint8, (1 : UInt8)⟩
    let two : Cell Empty := ⟨.uint8, (2 : UInt8)⟩
    let log : Log Empty := [(.pushCell one, none), (.pushCell two, none), (.nextCell, some one)]
    let acc : Accumulator Empty := ⟨#[.blank, two], [], 1⟩
    Served (fun acc call => ¬acc.Interrupts call) .empty log acc ∧
      (∃ lost, (log.pushed ++ log.blanks).Perm (log.taken ++ acc.cells.toList ++ lost)) ∧
      log.pushed.Perm (log.taken ++ acc.waiting) ∧ two ∈ acc.waiting ∧
      ∃ last, Served (fun _ _ => True) acc (.nested [one] .blank) last := by
  intro one two log acc
  have hserved : Served (fun acc call => ¬acc.Interrupts call) .empty log acc :=
    .cons id rfl (.cons id rfl (.cons id rfl (.nil acc)))
  have hany : Served (fun _ _ => True) .empty log acc :=
    .cons trivial rfl (.cons trivial rfl (.cons trivial rfl (.nil acc)))
  obtain ⟨hcells, hordered⟩ := served_in_order log acc
  obtain ⟨⟨cleared, hperm, hcleared⟩, hanswer, hnested⟩ := hordered hserved
  obtain rfl : cleared = [] := hcleared (by simp [log])
  have hnext : acc.perform .nextCell = (.ok (some two), .empty) := rfl
  refine ⟨hserved, hcells hany, by simpa using hperm, (hanswer _ _ _ id hnext).1, ?_⟩
  exact hnested (by decide) [one] (by simp)

/-- After two values have been pushed and one has been read, a value is pushed and read in a layer
of its own.  The next value is the second one no longer: a blank comes out that was never pushed. -/
theorem blank_handed_out :
    let one : Cell Empty := ⟨.uint8, (1 : UInt8)⟩
    let two : Cell Empty := ⟨.uint8, (2 : UInt8)⟩
    let three : Cell Empty := ⟨.uint8, (3 : UInt8)⟩
    let log : Log Empty :=
      [(.pushCell one, none), (.pushCell two, none), (.nextCell, some one), (.openLayer, none),
        (.pushCell three, none), (.nextCell, some three), (.nextCell, some .blank)]
    Served (fun _ _ => True) .empty log ⟨#[.blank, two], [], 1⟩ ∧
      ¬log.taken.Subperm log.pushed := by
  intro one two three log
  have hbegun : (⟨#[one, two], [], 0⟩ : Accumulator Empty).perform .nextCell =
      (.ok (some one), ⟨#[.blank, two], [], 1⟩) := rfl
  have hopen : (⟨#[.blank, two], [], 1⟩ : Accumulator Empty).perform .openLayer =
      (.ok none, ⟨#[.blank, two], [2], 2⟩) := rfl
  have hclosed : (⟨#[.blank, two, three], [2], 2⟩ : Accumulator Empty).perform .nextCell =
      (.ok (some three), ⟨#[.blank, two], [], 0⟩) := rfl
  have hagain : (⟨#[.blank, two], [], 0⟩ : Accumulator Empty).perform .nextCell =
      (.ok (some .blank), ⟨#[.blank, two], [], 1⟩) := rfl
  refine ⟨.cons trivial rfl (.cons trivial rfl (.cons trivial hbegun (.cons trivial hopen
    (.cons trivial rfl (.cons trivial hclosed (.cons trivial hagain (.nil _))))))), ?_⟩
  intro hsub
  have hmem : Cell.blank ∈ log.pushed := hsub.subset (by simp [log, Log.taken, Call.taken])
  have hbytes : ∀ cell ∈ log.pushed, cell.type = .uint8 := by
    simp [log, Log.pushed, Call.pushed, one, two, three]
  cases hbytes .blank hmem

end Piecemeal.Accumulator
