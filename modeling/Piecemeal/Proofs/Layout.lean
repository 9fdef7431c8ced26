/-
# The layout of a recipe

A recipe is a tree and its program is a list.  This module goes between the two.

  * The step that a part adds itself is `Recipe.ownStage`, it is the one at `Recipe.lead` behind
    the start of the part, and the values pending there have the types `Recipe.waiting`.  The lead
    is zero for scopes, whose head stands in front of their body, and the size of what stands
    before for what is added behind it.
  * `root.Part r start scopes`: the part `r` of the recipe begins at step `start`, and `scopes` are
    the heads of the scopes around it, innermost first.
  * `p.OfRecipe root`: the program has the steps of the recipe, and passes the checks.

The lemma that is used everywhere is `Program.OfRecipe.exists_own`,

    root.Part r start scopes →
      ∃ index, index.val = start + r.lead ∧ p.stage index = r.ownStage start

by which a statement about a step of the program is one about a part of the recipe.  What the
checks of the builder establish is `Recipe.Fits`: the values that a part works on are pending, and
have the types it expects.  It holds of all parts, `Part.fits`, as nothing is added without a
check, `Accepted.fits`.
-/
import Piecemeal.Proofs.Standard

namespace Piecemeal

variable {κ : Type} [Atom κ]

/-! ## What the checks establish -/

/-- The values that an action works on are among the pending ones. -/
def Action.Fits (pending : List (ValueType κ)) : Action κ → Prop
  | .decode .. => True
  | .replace source _ _ | .follow source _ _ => pending.head? = some source
  | .reduce arity _ _ => 0 < arity ∧ arity ≤ pending.length

namespace Recipe

variable {whole : ValueType κ}

/-- Every part finds the values that it works on. -/
def Fits : Recipe κ whole → Prop
  | first .. => True
  | act before action => before.Fits ∧ action.Fits before.pending
  | skip before _ | recur before _ => before.Fits
  | optional body type _ => body.Fits ∧ body.pending = [type]
  | repetition body element _ _ _ => body.Fits ∧ body.pending = [element]

theorem eq_of_zip_find? {found wanted : List (ValueType κ)} (hlen : found.length = wanted.length)
    (h : (found.zip wanted).find? (fun pair => pair.1 ≠ pair.2) = none) : found = wanted := by
  induction found generalizing wanted with
  | nil => exact (List.eq_nil_of_length_eq_zero hlen.symm).symm
  | cons type found ih =>
      cases wanted with
      | nil => cases hlen
      | cons type' wanted =>
          rw [List.zip_cons_cons, List.find?_cons] at h
          split at h
          next => cases h
          next heq =>
            obtain rfl : type = type' := by simpa using heq
            rw [ih (Nat.succ.inj hlen) h]

theorem take_eq_of_tailMisuse? {r : Recipe κ whole} {label : String}
    {wanted : List (ValueType κ)} (h : r.tailMisuse? label wanted = none) :
    wanted.length ≤ r.pending.length ∧ (r.pending.take wanted.length).reverse = wanted := by
  unfold tailMisuse? at h
  split at h
  next => cases h
  next hlen =>
    refine ⟨Nat.not_lt.1 hlen, eq_of_zip_find? ?_ (Option.map_eq_none_iff.1 h)⟩
    rw [List.length_reverse, List.length_take]
    omega

theorem head?_eq_of_tailMisuse? {r : Recipe κ whole} {label : String} {wanted : ValueType κ}
    (h : r.tailMisuse? label [wanted] = none) : r.pending.head? = some wanted := by
  have htake := (take_eq_of_tailMisuse? h).2
  cases hp : r.pending with
  | nil => rw [hp] at htake; cases htake
  | cons type types => rw [hp] at htake; cases htake; rfl

theorem pending_eq_of_singleMisuse? {r : Recipe κ whole} {label : String} {wanted : ValueType κ}
    (h : r.singleMisuse? label wanted = none) : r.pending = [wanted] := by
  unfold singleMisuse? at h
  split at h
  next hlen =>
    obtain ⟨type, hp⟩ := List.length_eq_one_iff.1 hlen
    have hhead := head?_eq_of_tailMisuse? h
    rw [hp] at hhead
    cases hhead
    exact hp
  next => cases h

theorem eq_of_checked {misuse? : Option Misuse} {r r' : Recipe κ whole}
    (h : checked misuse? r = .ok r') : misuse? = none ∧ r' = r := by
  cases misuse? with
  | none => cases h; exact ⟨rfl, rfl⟩
  | some misuse => cases h

theorem eq_of_reduce {r r' : Recipe κ whole} {arity : Nat} {type : ValueType κ}
    {reading : Reading κ type.Carrier} (h : r.reduce arity type reading = .ok r') :
    r' = r.act (.reduce arity type reading) ∧ 0 < arity ∧ arity ≤ r.pending.length := by
  unfold Recipe.reduce at h
  split at h
  next => cases h
  next hzero =>
    split at h
    next => cases h
    next hlen => cases h; exact ⟨rfl, Nat.pos_of_ne_zero hzero, Nat.not_lt.1 hlen⟩

theorem eq_of_reduceRow {r r' : Recipe κ whole} {types : List (ValueType κ)} {type : ValueType κ}
    {f : Row types → type.Carrier} (h : r.reduceRow types type f = .ok r') :
    (r.pending.take types.length).reverse = types ∧
      r.reduce types.length type (.row types f) = .ok r' := by
  unfold reduceRow at h
  split at h
  next hnone => exact ⟨(take_eq_of_tailMisuse? hnone).2, h⟩
  next => cases h

/-- What passes the checks fits. -/
theorem Accepted.fits {r : Recipe κ whole} (h : r.Accepted) : r.Fits := by
  induction h with
  | first type decoder => trivial
  | decode type decoder _ ih => exact ⟨ih, trivial⟩
  | replace source type choose _ hok ih =>
      obtain ⟨hnone, rfl⟩ := eq_of_checked hok
      exact ⟨ih, head?_eq_of_tailMisuse? hnone⟩
  | follow source type choose _ hok ih =>
      obtain ⟨hnone, rfl⟩ := eq_of_checked hok
      exact ⟨ih, head?_eq_of_tailMisuse? hnone⟩
  | reduce arity type reading _ hok ih =>
      obtain ⟨rfl, hfits⟩ := eq_of_reduce hok
      exact ⟨ih, hfits⟩
  | reduceRow types type f _ hok ih =>
      obtain ⟨rfl, hfits⟩ := eq_of_reduce (eq_of_reduceRow hok).2
      exact ⟨ih, hfits⟩
  | skip n _ ih => exact ih
  | recur flag _ ih => exact ih
  | optionally type flag _ hok ih =>
      obtain ⟨hnone, rfl⟩ := eq_of_checked hok
      exact ⟨ih, pending_eq_of_singleMisuse? hnone⟩
  | repeated element result bound collector _ hok ih =>
      obtain ⟨hnone, rfl⟩ := eq_of_checked hok
      exact ⟨ih, pending_eq_of_singleMisuse? hnone⟩

theorem pending_ne_nil (r : Recipe κ whole) : r.pending ≠ [] := by
  induction r with
  | first => simp [pending]
  | act before action ih => cases action <;> simp [pending]
  | skip before n ih => exact ih
  | recur before flag ih => simp [pending]
  | optional => simp [pending]
  | repetition => simp [pending]

/-! ## The step of a part -/

/-- The number of steps in front of the one that the part itself adds. -/
def lead : Recipe κ whole → Nat
  | first .. | optional .. | repetition .. => 0
  | act before _ | skip before _ | recur before _ => before.size

/-- The types of the values pending in front of that step, latest first. -/
def waiting : Recipe κ whole → List (ValueType κ)
  | first .. | optional .. | repetition .. => []
  | act before _ | skip before _ | recur before _ => before.pending

/-- The step that the part itself adds, if the layout begins at `start`. -/
def ownStage (start : Nat) : Recipe κ whole → Stage κ
  | first type decoder => actionStage (.decode type decoder)
  | act _ action => actionStage action
  | skip _ n => skipStage n
  | recur before flag => recurStage whole flag (start + before.size)
  | optional body type flag => optionalStage type flag ⟨start, start + body.size⟩
  | repetition body element result bound collector =>
      repetitionStage element result bound collector ⟨start, start + body.size⟩

theorem lead_lt_size (r : Recipe κ whole) : r.lead < r.size := by
  cases r <;> simp [lead, size]

theorem getElem?_stages_lead (r : Recipe κ whole) (start : Nat) :
    (r.stages start)[r.lead]? = some (r.ownStage start) := by
  cases r <;> simp [stages, lead, ownStage]

/-- The types of the values pending in front of step `i`, latest first, as the builder had recorded
them there.  Inside the body of an option or a repetition they count from the start of the body. -/
def slotsBefore : Recipe κ whole → Nat → List (ValueType κ)
  | first .., _ => []
  | act before _, i | skip before _, i | recur before _, i =>
      if i < before.size then before.slotsBefore i else before.pending
  | optional .., 0 | repetition .., 0 => []
  | optional body _ _, i + 1 | repetition body _ _ _ _, i + 1 => body.slotsBefore i

theorem slotsBefore_lead (r : Recipe κ whole) : r.slotsBefore r.lead = r.waiting := by
  cases r <;> simp [slotsBefore, lead, waiting]

/-! ## Parts -/

/-- `Part root r start scopes`: the part `r` of the recipe `root` is laid out from `start` on,
inside the scopes with these heads, innermost first. -/
inductive Part (root : Recipe κ whole) : Recipe κ whole → Nat → List Nat → Prop
  | whole : Part root root 0 []
  | act {before : Recipe κ whole} {action : Action κ} {start : Nat} {scopes : List Nat} :
      Part root (before.act action) start scopes → Part root before start scopes
  | skip {before : Recipe κ whole} {n : Nat} {start : Nat} {scopes : List Nat} :
      Part root (before.skip n) start scopes → Part root before start scopes
  | recur {before : Recipe κ whole} {flag : Decoder Bool} {start : Nat} {scopes : List Nat} :
      Part root (before.recur flag) start scopes → Part root before start scopes
  | optional {body : Recipe κ whole} {type : ValueType κ} {flag : Decoder Bool} {start : Nat}
      {scopes : List Nat} :
      Part root (body.optional type flag) start scopes →
      Part root body (start + 1) (start :: scopes)
  | repetition {body : Recipe κ whole} {element result : ValueType κ}
      {bound : Bound element.Carrier} {collector : Collector element.Carrier result.Carrier}
      {start : Nat} {scopes : List Nat} :
      Part root (body.repetition element result bound collector) start scopes →
      Part root body (start + 1) (start :: scopes)

namespace Part

variable {root r : Recipe κ whole} {start : Nat} {scopes : List Nat}

theorem fits (hroot : root.Fits) (h : Part root r start scopes) : r.Fits := by
  induction h with
  | whole => exact hroot
  | act _ ih => exact ih.1
  | skip _ ih => exact ih
  | recur _ ih => exact ih
  | optional _ ih => exact ih.1
  | repetition _ ih => exact ih.1

theorem getElem?_stages (h : Part root r start scopes) {i : Nat} {stage : Stage κ}
    (hi : (r.stages start)[i]? = some stage) : (root.stages 0)[start + i]? = some stage := by
  induction h generalizing i with
  | whole => rwa [Nat.zero_add]
  | act _ ih =>
      refine ih ?_
      have hlt := (List.getElem?_eq_some_iff.1 hi).1
      rwa [stages, List.getElem?_append_left hlt]
  | skip _ ih =>
      refine ih ?_
      have hlt := (List.getElem?_eq_some_iff.1 hi).1
      rwa [stages, List.getElem?_append_left hlt]
  | recur _ ih =>
      refine ih ?_
      have hlt := (List.getElem?_eq_some_iff.1 hi).1
      rwa [stages, List.getElem?_append_left hlt]
  | optional _ ih =>
      rw [Nat.add_assoc, Nat.add_comm 1 i]
      exact ih (by rwa [stages, List.getElem?_cons_succ])
  | repetition _ ih =>
      rw [Nat.add_assoc, Nat.add_comm 1 i]
      exact ih (by rwa [stages, List.getElem?_cons_succ])

theorem slotsBefore_add (h : Part root r start scopes) {i : Nat} (hi : i < r.size) :
    root.slotsBefore (start + i) = r.slotsBefore i := by
  induction h generalizing i with
  | whole => rw [Nat.zero_add]
  | act _ ih => rw [ih (by rw [size]; omega), slotsBefore, if_pos hi]
  | skip _ ih => rw [ih (by rw [size]; omega), slotsBefore, if_pos hi]
  | recur _ ih => rw [ih (by rw [size]; omega), slotsBefore, if_pos hi]
  | optional _ ih =>
      rw [Nat.add_assoc, Nat.add_comm 1 i, ih (by rw [size]; omega), slotsBefore]
  | repetition _ ih =>
      rw [Nat.add_assoc, Nat.add_comm 1 i, ih (by rw [size]; omega), slotsBefore]

theorem add_size_le (h : Part root r start scopes) : start + r.size ≤ root.size := by
  induction h with
  | whole => exact Nat.le_of_eq (Nat.zero_add _)
  | act _ ih => exact Nat.le_of_succ_le ih
  | skip _ ih => exact Nat.le_of_succ_le ih
  | recur _ ih => exact Nat.le_of_succ_le ih
  | optional _ ih => rw [size] at ih; omega
  | repetition _ ih => rw [size] at ih; omega

theorem own_lt (h : Part root r start scopes) : start + r.lead < root.size :=
  Nat.lt_of_lt_of_le (Nat.add_lt_add_left r.lead_lt_size start) h.add_size_le

/-- In front of the step that a part adds, the values are pending that the part waits for. -/
theorem slotsBefore_own (h : Part root r start scopes) :
    root.slotsBefore (start + r.lead) = r.waiting := by
  rw [h.slotsBefore_add r.lead_lt_size, r.slotsBefore_lead]

theorem exists_leftmost (h : Part root r start scopes) :
    ∃ r', Part root r' start scopes ∧ r'.lead = 0 ∧ r'.waiting = [] := by
  induction r with
  | first => exact ⟨_, h, rfl, rfl⟩
  | act before action ih => exact ih (.act h)
  | skip before n ih => exact ih (.skip h)
  | recur before flag ih => exact ih (.recur h)
  | optional => exact ⟨_, h, rfl, rfl⟩
  | repetition => exact ⟨_, h, rfl, rfl⟩

/-- The scopes around a part begin in front of it and do not end in front of its last step. -/
theorem exists_scope (h : Part root r start scopes) {head : Nat} {heads : List Nat}
    (hscopes : scopes = head :: heads) :
    ∃ last, head < start ∧ start + r.size ≤ last + 1 ∧
      ((∃ (body : Recipe κ whole) (type : _) (flag : _),
          Part root (body.optional type flag) head heads ∧ last = head + body.size) ∨
        ∃ (body : Recipe κ whole) (element result : _) (bound : _) (collector : _),
          Part root (body.repetition element result bound collector) head heads ∧
          last = head + body.size) := by
  induction h with
  | whole => cases hscopes
  | act _ ih =>
      obtain ⟨last, hhead, hlast, hscope⟩ := ih hscopes
      exact ⟨last, hhead, by rw [size] at hlast; omega, hscope⟩
  | skip _ ih =>
      obtain ⟨last, hhead, hlast, hscope⟩ := ih hscopes
      exact ⟨last, hhead, by rw [size] at hlast; omega, hscope⟩
  | recur _ ih =>
      obtain ⟨last, hhead, hlast, hscope⟩ := ih hscopes
      exact ⟨last, hhead, by rw [size] at hlast; omega, hscope⟩
  | optional hpart ih =>
      cases hscopes
      exact ⟨_, by omega, by omega, .inl ⟨_, _, _, hpart, rfl⟩⟩
  | repetition hpart ih =>
      cases hscopes
      exact ⟨_, by omega, by omega, .inr ⟨_, _, _, _, _, hpart, rfl⟩⟩

end Part

end Recipe

/-! ## The program of a recipe -/

variable {whole : ValueType κ}

/-- The program is that of the recipe, whose parts fit and leave the one value that the program
answers. -/
structure Program.OfRecipe (p : Program κ whole) (root : Recipe κ whole) : Prop where
  stages : p.stages.toList = root.stages 0
  fits : root.Fits
  single : root.pending = [whole]

theorem Recipe.Accepted.ofRecipe {root : Recipe κ whole} (h : root.Accepted) {maxDepth : Nat}
    {p : Program κ whole} (hp : root.assemble maxDepth = .ok p) : p.OfRecipe root := by
  obtain ⟨hsingle, rfl⟩ := Recipe.exists_eq_program hp
  exact ⟨by simp [Recipe.program], h.fits, hsingle⟩

namespace Program.OfRecipe

variable {p : Program κ whole} {root r : Recipe κ whole} {start : Nat} {scopes : List Nat}

theorem size_eq (h : p.OfRecipe root) : p.size = root.size := by
  rw [Program.size, ← Array.length_toList, h.stages, Recipe.length_stages]

theorem exists_own (h : p.OfRecipe root) (hpart : root.Part r start scopes) :
    ∃ index : Fin p.size, index.val = start + r.lead ∧ p.stage index = r.ownStage start := by
  have hget := hpart.getElem?_stages (r.getElem?_stages_lead start)
  rw [← h.stages] at hget
  obtain ⟨hlt, hstage⟩ := List.getElem?_eq_some_iff.1 hget
  exact ⟨⟨start + r.lead, by simpa using hlt⟩, rfl, hstage⟩

end Program.OfRecipe

end Piecemeal
