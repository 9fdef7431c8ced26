/-
# Types of values at run time

The builder checks the types of pending values, with one exception: at which types a reduction
reads its values is only seen when it runs.  `Reading.Reads` is the condition under which that goes
well: a reading asks for no more values than there are, and for each at its type.

    reading.Reads (cells.map Cell.type) → ∃ value rest, reading.evaluate cells = .ok (value, rest)

`Recipe.ReadsPending` is the same for all reductions of a recipe.  A reduction that is given its
types, as `reduceRow` is, satisfies it by `reads_row`.

With that, an action finds on a stack of the expected types all that it needs, and takes no more,
`exists_arrive`; and what it yields has its type, `type_of_step_done`.  So the types of the values
that are pending can be read off the recipe at every step: in front of it `waiting`, behind it
`yields`.
-/
import Piecemeal.Proofs.Layers
import Piecemeal.Proofs.Layout
import Piecemeal.Proofs.Runs

namespace Piecemeal

variable {κ : Type} [Atom κ]

/-! ## Readings -/

namespace Reading

variable {α : Type}

/-- The reading asks for values of these types in this order, or for fewer. -/
def Reads : Reading κ α → List (ValueType κ) → Prop
  | .result _, _ => True
  | .remaining resume, types => (resume types.length).Reads types
  | .next _ _, [] => False
  | .next type resume, found :: types => found = type ∧ ∀ value, (resume value).Reads types

theorem reads_row (types : List (ValueType κ)) (f : Row types → α) : (row types f).Reads types := by
  induction types with
  | nil => trivial
  | cons type types ih => exact ⟨rfl, fun value => ih fun values => f (value, values)⟩

theorem Reads.exists_evaluate {reading : Reading κ α} {cells : List (Cell κ)}
    (h : reading.Reads (cells.map Cell.type)) :
    ∃ value rest, reading.evaluate cells = .ok (value, rest) := by
  induction reading generalizing cells with
  | result value => exact ⟨value, cells, rfl⟩
  | remaining resume ih =>
      rw [Reads, List.length_map] at h
      exact ih cells.length h
  | next type resume ih =>
      cases cells with
      | nil => exact h.elim
      | cons cell cells =>
          obtain ⟨found, value⟩ := cell
          obtain ⟨rfl, hrest⟩ := h
          simp only [evaluate, Cell.read_mk]
          exact ih value (hrest value)

end Reading

/-! ## Stacks of given types -/

namespace Cell

variable {stack : List (Cell κ)} {type : ValueType κ} {types : List (ValueType κ)}

theorem exists_of_types (h : stack.map Cell.type = type :: types) :
    ∃ value rest, stack = ⟨type, value⟩ :: rest ∧ rest.map Cell.type = types := by
  obtain ⟨cell, rest, rfl, rfl, hrest⟩ := List.map_eq_cons_iff.1 h
  exact ⟨cell.value, rest, rfl, hrest⟩

theorem exists_of_single (h : stack.map Cell.type = [type]) : ∃ value, stack = [⟨type, value⟩] := by
  obtain ⟨value, rest, rfl, hrest⟩ := exists_of_types h
  obtain rfl := List.map_eq_nil_iff.1 hrest
  exact ⟨value, rfl⟩

theorem exists_of_head? (h : (stack.map Cell.type).head? = some type) :
    ∃ value rest, stack = ⟨type, value⟩ :: rest := by
  cases stack with
  | nil => cases h
  | cons cell rest =>
      cases h
      exact ⟨cell.value, rest, rfl⟩

end Cell

/-! ## Actions -/

namespace Action

variable {τ υ : Type}

/-- What an action leaves of the values in front of it when it arrives, latest first. -/
def leaves : Action κ → List τ → List τ
  | .decode .., values | .follow .., values => values
  | .replace .., values => values.tail
  | .reduce arity _ _, values => values.drop arity

theorem map_leaves (action : Action κ) (f : τ → υ) (values : List τ) :
    (action.leaves values).map f = action.leaves (values.map f) := by
  cases action with
  | decode => rfl
  | replace => exact List.map_tail
  | follow => rfl
  | reduce arity type reading => exact List.map_drop

/-- A reduction reads its values at the types that are pending. -/
def ReadsPending (pending : List (ValueType κ)) : Action κ → Prop
  | .decode .. | .replace .. | .follow .. => True
  | .reduce arity _ reading => reading.Reads (pending.take arity).reverse

variable {acc : Accumulator κ} {below : List (Cell κ)} {outer : List Nat} {stack : List (Cell κ)}

theorem arrive_replace {source type : ValueType κ} {choose : source.Carrier → Decoder type.Carrier}
    {value : source.Carrier} (h : acc.Holds below outer (⟨source, value⟩ :: stack)) :
    ∃ acc', (replace source type choose).arrive acc = .ok (⟨value, (choose value).start⟩, acc') ∧
      acc'.Holds below outer stack := by
  obtain ⟨acc', hpop, hacc'⟩ := h.pop_mk source value
  exact ⟨acc', by simp only [arrive, hpop], hacc'⟩

theorem arrive_follow {source type : ValueType κ} {choose : source.Carrier → Decoder type.Carrier}
    {value : source.Carrier} (h : acc.Holds below outer (⟨source, value⟩ :: stack)) :
    (follow source type choose).arrive acc = .ok (⟨value, (choose value).start⟩, acc) := by
  have hpeek : acc.peek source = .ok value := by rw [h.peek, Cell.read_mk]
  simp only [arrive, hpeek]

/-- A reduction takes its values and makes of them what its reading does, or it is as wrong as its
reading. -/
theorem arrive_reduce {arity : Nat} {type : ValueType κ} (reading : Reading κ type.Carrier)
    (hpos : 0 < arity) (hle : arity ≤ stack.length) (h : acc.Holds below outer stack) :
    match reading.evaluate (stack.take arity).reverse with
    | .ok (value, _) => ∃ acc', (reduce arity type reading).arrive acc = .ok (value, acc') ∧
        acc'.Holds below outer (stack.drop arity)
    | .error misuse => (reduce arity type reading).arrive acc = .error misuse := by
  have hlen : (stack.take arity).length = arity := by rw [List.length_take]; omega
  rw [← List.take_append_drop arity stack] at h
  have hreduce := h.reduce (List.ne_nil_of_length_pos (by omega)) reading
  rw [hlen] at hreduce
  cases hvalue : reading.evaluate (stack.take arity).reverse with
  | ok result =>
      obtain ⟨value, rest⟩ := result
      rw [hvalue] at hreduce
      obtain ⟨acc', hok, hacc'⟩ := hreduce
      exact ⟨acc', by simp only [arrive, hok], hacc'⟩
  | error misuse =>
      rw [hvalue] at hreduce
      have hpair : acc.reduce arity reading = (.error misuse, (acc.reduce arity reading).2) :=
        Prod.ext hreduce rfl
      show (reduce arity type reading).arrive acc = .error misuse
      rw [arrive, hpair]

/-- On a stack of the expected types an action finds what it needs, and takes no more. -/
theorem exists_arrive {action : Action κ} (hfits : action.Fits (stack.map Cell.type))
    (hreads : action.ReadsPending (stack.map Cell.type)) (h : acc.Holds below outer stack) :
    ∃ flight acc', action.arrive acc = .ok (flight, acc') ∧
      acc'.Holds below outer (action.leaves stack) := by
  cases action with
  | decode type decoder => exact ⟨decoder.start, acc, rfl, h⟩
  | replace source type choose =>
      obtain ⟨value, rest, rfl⟩ := Cell.exists_of_head? hfits
      obtain ⟨acc', harrive, hacc'⟩ := arrive_replace h
      exact ⟨_, acc', harrive, hacc'⟩
  | follow source type choose =>
      obtain ⟨value, rest, rfl⟩ := Cell.exists_of_head? hfits
      exact ⟨_, acc, arrive_follow h, h⟩
  | reduce arity type reading =>
      obtain ⟨hpos, hle⟩ := hfits
      rw [List.length_map] at hle
      rw [ReadsPending, ← List.map_take, ← List.map_reverse] at hreads
      obtain ⟨value, rest, hvalue⟩ := hreads.exists_evaluate
      have harrive := arrive_reduce reading hpos hle h
      rw [hvalue] at harrive
      obtain ⟨acc', hok, hacc'⟩ := harrive
      exact ⟨value, acc', hok, hacc'⟩

theorem type_of_step_done {action : Action κ} {flight next : action.Flight} {cell : Cell κ}
    (h : action.step flight = .done cell next) : cell.type = action.type := by
  cases action with
  | decode type decoder =>
      obtain ⟨value, state, -, hcell⟩ := Step.exists_of_embed_eq_done h
      cases hcell
      rfl
  | replace source type choose =>
      obtain ⟨value, state, -, hcell⟩ := Step.exists_of_embed_eq_done h
      cases hcell
      rfl
  | follow source type choose =>
      obtain ⟨value, state, -, hcell⟩ := Step.exists_of_embed_eq_done h
      cases hcell
      rfl
  | reduce arity type reading =>
      cases h
      rfl

end Action

/-! ## Recipes -/

namespace Recipe

variable {whole : ValueType κ}

theorem pending_act (before : Recipe κ whole) (action : Action κ) :
    (before.act action).pending = action.type :: action.leaves before.pending := by
  cases action <;> rfl

/-- All reductions read their values at the types that are pending. -/
def ReadsPending : Recipe κ whole → Prop
  | first .. => True
  | act before action => before.ReadsPending ∧ action.ReadsPending before.pending
  | skip before _ | recur before _ => before.ReadsPending
  | optional body _ _ | repetition body _ _ _ _ => body.ReadsPending

theorem nodeCount_readsPending : nodeCount.ReadsPending :=
  ⟨trivial, Reading.reads_row _ _⟩

theorem Part.readsPending {root r : Recipe κ whole} {start : Nat} {scopes : List Nat}
    (hroot : root.ReadsPending) (h : Part root r start scopes) : r.ReadsPending := by
  induction h with
  | whole => exact hroot
  | act _ ih => exact ih.1
  | skip _ ih => exact ih
  | recur _ ih => exact ih
  | optional _ ih => exact ih
  | repetition _ ih => exact ih

theorem Fits.own {r : Recipe κ whole} (h : r.Fits) (start : Nat) :
    (r.ownStage start).action.Fits r.waiting := by
  cases r with
  | first => trivial
  | act before action => exact h.2
  | skip => trivial
  | recur => trivial
  | optional => trivial
  | repetition body element result bound collector => cases bound <;> trivial

theorem ReadsPending.own {r : Recipe κ whole} (h : r.ReadsPending) (start : Nat) :
    (r.ownStage start).action.ReadsPending r.waiting := by
  cases r with
  | first => trivial
  | act before action => exact h.2
  | skip => trivial
  | recur => trivial
  | optional => trivial
  | repetition body element result bound collector => cases bound <;> trivial

/-- The types of the values when the step that a part adds is complete, latest first. -/
def yields (r : Recipe κ whole) (start : Nat) : List (ValueType κ) :=
  let left := (r.ownStage start).action.leaves r.waiting
  if (r.ownStage start).stores then (r.ownStage start).action.type :: left else left

theorem yields_of_plain {r : Recipe κ whole} {start : Nat} (h : (r.ownStage start).scope = none) :
    r.yields start = r.pending ∧ r.lead + 1 = r.size := by
  cases r with
  | first => exact ⟨rfl, rfl⟩
  | act before action => exact ⟨(pending_act before action).symm, rfl⟩
  | skip => exact ⟨rfl, rfl⟩
  | recur => cases h
  | optional => cases h
  | repetition => cases h

end Recipe

end Piecemeal
