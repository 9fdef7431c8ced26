/-
# Outlines

The parts of a recipe are recorded as an outline: lines one below the other, and below the head of
a scope, indented, the lines that it wraps.  To assemble a program the outline is flattened: each
line becomes a step, the lines below it come next, and only now the bounds of scopes are known.
That this gives the layout of the recipe is `flattenAll_outline`,

    Entry.flattenAll out r.outline = out ++ r.stages out.length

by induction on the recipe, with one lemma for a line at the end and one for a head in front.

`Place outline start entry i` says that an entry ends up at index `i`, if the outline begins at
`start`.  What follows from it for any outline is told by induction on outlines,
`outlineInduction`:

  * the steps of an entry stand together, its own in front, `exists_flatten`;
  * every index is that of an entry, `exists_place`;
  * two entries are apart, or the later one is below the earlier one, so scopes are apart or
    nested, `apart_or_below`:

        i < i' → i + entry.size ≤ i' ∨ i' + entry'.size ≤ i + entry.size

What the checks of the builder add is that no body ends with a recursion, and neither does the
program, `not_recurs_of_getLast?`.  A recursion leaves its option on top of the values that are
pending before it, so there is more than one, and what is wrapped or assembled leaves a single
value.
-/
import Piecemeal.Proofs.Layout

namespace Piecemeal

variable {κ : Type} [Atom κ]

/-! ## Entries -/

/-- A step before its place is known. -/
structure Line (κ : Type) [Atom κ] where
  label : String
  stores : Bool
  action : Action κ

/-- The step of a line with this scope. -/
def Line.stage (line : Line κ) (scope : Option (Scope κ)) : Stage κ :=
  ⟨line.label, line.stores, line.action, scope⟩

/-- What is left of a step without its scope. -/
def Stage.line (stage : Stage κ) : Line κ := ⟨stage.label, stage.stores, stage.action⟩

/-- A line with what is below it. -/
inductive Entry (κ : Type) [Atom κ] : Type 1 where
  | plain (line : Line κ)
  /-- The head of a scope, with the entries that it wraps. -/
  | head (line : Line κ) (rule : Rule κ) (body : List (Entry κ))

namespace Entry

mutual

/-- The number of steps of an entry. -/
def size : Entry κ → Nat
  | plain _ => 1
  | head _ _ body => 1 + sizeAll body

/-- The number of steps of an outline. -/
def sizeAll : List (Entry κ) → Nat
  | [] => 0
  | entry :: entries => entry.size + sizeAll entries

end

/-- What is below an entry. -/
def body : Entry κ → List (Entry κ)
  | plain _ => []
  | head _ _ body => body

/-- The step of the entry itself, if its index is `index`. -/
def stage (index : Nat) : Entry κ → Stage κ
  | plain line => line.stage none
  | head line rule body =>
      line.stage (some ⟨rule, ⟨index, index + (head line rule body).size - 1⟩⟩)

mutual

/-- Adds the steps of an entry. -/
def flatten (out : List (Stage κ)) : Entry κ → List (Stage κ)
  | plain line => out ++ [line.stage none]
  | head line rule body =>
      let bounds := ⟨out.length, out.length + (head line rule body).size - 1⟩
      flattenAll (out ++ [line.stage (some ⟨rule, bounds⟩)]) body

/-- Adds the steps of an outline. -/
def flattenAll (out : List (Stage κ)) : List (Entry κ) → List (Stage κ)
  | [] => out
  | entry :: entries => flattenAll (entry.flatten out) entries

end

/-- An outline is empty, or it is an entry with the outline below it and the outline behind it. -/
theorem outlineInduction {P : List (Entry κ) → Prop} (nil : P [])
    (cons : ∀ entry rest, P entry.body → P rest → P (entry :: rest))
    (entries : List (Entry κ)) : P entries :=
  @Entry.rec_1 κ _ (fun entry => P entry.body) P (fun _ => nil) (fun _ _ _ hbody => hbody) nil
    (fun entry rest hbody hrest => cons entry rest hbody hrest) entries

theorem size_eq (entry : Entry κ) : entry.size = 1 + sizeAll entry.body := by
  cases entry <;> rfl

theorem flatten_eq (out : List (Stage κ)) (entry : Entry κ) :
    entry.flatten out = flattenAll (out ++ [entry.stage out.length]) entry.body := by
  cases entry <;> rfl

theorem sizeAll_append (entries entries' : List (Entry κ)) :
    sizeAll (entries ++ entries') = sizeAll entries + sizeAll entries' := by
  induction entries with
  | nil => exact (Nat.zero_add _).symm
  | cons entry entries ih => rw [List.cons_append, sizeAll, sizeAll, ih, Nat.add_assoc]

theorem flattenAll_append (out : List (Stage κ)) (entries entries' : List (Entry κ)) :
    flattenAll out (entries ++ entries') = flattenAll (flattenAll out entries) entries' := by
  induction entries generalizing out with
  | nil => rfl
  | cons entry entries ih => exact ih (entry.flatten out)

theorem exists_flattenAll (entries : List (Entry κ)) (out : List (Stage κ)) :
    ∃ block, flattenAll out entries = out ++ block ∧ block.length = sizeAll entries := by
  induction entries using outlineInduction generalizing out with
  | nil => exact ⟨[], (List.append_nil out).symm, rfl⟩
  | cons entry rest hbody hrest =>
      obtain ⟨block, hblock, hlen⟩ := hbody (out ++ [entry.stage out.length])
      obtain ⟨block', hblock', hlen'⟩ := hrest (entry.flatten out)
      refine ⟨entry.stage out.length :: (block ++ block'), ?_, ?_⟩
      · rw [flattenAll, hblock', flatten_eq, hblock]
        simp only [List.append_assoc, List.cons_append, List.nil_append]
      · rw [List.length_cons, List.length_append, hlen, hlen', sizeAll, size_eq]
        omega

/-- Flattening an entry adds as many steps as it has, its own first. -/
theorem exists_flatten (entry : Entry κ) (out : List (Stage κ)) :
    ∃ block, entry.flatten out = out ++ entry.stage out.length :: block ∧
      block.length + 1 = entry.size := by
  obtain ⟨block, hblock, hlen⟩ := exists_flattenAll entry.body (out ++ [entry.stage out.length])
  refine ⟨block, ?_, ?_⟩
  · rw [flatten_eq, hblock, List.append_assoc]
    rfl
  · rw [size_eq, hlen, Nat.add_comm]

theorem length_flatten (entry : Entry κ) (out : List (Stage κ)) :
    (entry.flatten out).length = out.length + entry.size := by
  obtain ⟨block, hblock, hlen⟩ := exists_flatten entry out
  rw [hblock, List.length_append, List.length_cons, hlen]

/-! ## Places -/

/-- `Place entries start entry i`: of an outline that is flattened from index `start` on, the entry
begins at index `i`. -/
inductive Place : List (Entry κ) → Nat → Entry κ → Nat → Prop
  | here {entry : Entry κ} {rest : List (Entry κ)} {start : Nat} :
      Place (entry :: rest) start entry start
  | inside {first entry : Entry κ} {rest : List (Entry κ)} {start i : Nat} :
      Place first.body (start + 1) entry i → Place (first :: rest) start entry i
  | after {first entry : Entry κ} {rest : List (Entry κ)} {start i : Nat} :
      Place rest (start + first.size) entry i → Place (first :: rest) start entry i

namespace Place

variable {entries : List (Entry κ)} {entry entry' : Entry κ} {start i i' : Nat}

theorem start_le (h : Place entries start entry i) : start ≤ i := by
  induction h with
  | here => exact Nat.le_refl _
  | inside _ ih => exact Nat.le_of_succ_le ih
  | after _ ih => exact Nat.le_trans (Nat.le_add_right ..) ih

theorem add_size_le (h : Place entries start entry i) :
    i + entry.size ≤ start + sizeAll entries := by
  induction h with
  | here => rw [sizeAll]; omega
  | @inside first _ _ _ _ _ ih => rw [sizeAll, size_eq first]; omega
  | after _ ih => rw [sizeAll]; omega

theorem exists_flattenAll (h : Place entries start entry i) {out : List (Stage κ)}
    (hout : out.length = start) :
    ∃ front back, front.length = i ∧ flattenAll out entries = entry.flatten front ++ back := by
  induction h generalizing out with
  | @here entry rest start =>
      obtain ⟨block, hblock, -⟩ := Entry.exists_flattenAll rest (entry.flatten out)
      exact ⟨out, block, hout, hblock⟩
  | @inside first entry rest start i _ ih =>
      have hout' : (out ++ [first.stage out.length]).length = start + 1 :=
        List.length_append.trans (congrArg (· + 1) hout)
      obtain ⟨front, back, hfront, hback⟩ := ih hout'
      obtain ⟨block, hblock, -⟩ := Entry.exists_flattenAll rest (first.flatten out)
      refine ⟨front, back ++ block, hfront, ?_⟩
      rw [flattenAll, hblock, flatten_eq, hback, List.append_assoc]
  | @after first entry rest start i _ ih =>
      exact ih (by rw [length_flatten, hout])

theorem exists_getLast? (h : Place entries start entry i) {out : List (Stage κ)}
    (hout : out.length = start) :
    ∃ front, (flattenAll front entry.body).getLast? =
      (flattenAll out entries)[i + sizeAll entry.body]? := by
  obtain ⟨front, back, hfront, hback⟩ := h.exists_flattenAll hout
  have hlen := length_flatten entry front
  rw [hfront, size_eq] at hlen
  refine ⟨front ++ [entry.stage front.length], ?_⟩
  rw [← flatten_eq, List.getLast?_eq_getElem?, hback,
    List.getElem?_append_left (by omega), hlen]
  congr 1
  omega

/-- Two entries are apart, or the later one is below the earlier one. -/
theorem apart_or_below (h : Place entries start entry i) (h' : Place entries start entry' i')
    (hi : i < i') : i + entry.size ≤ i' ∨ i' + entry'.size ≤ i + entry.size := by
  induction h with
  | @here entry rest start =>
      cases h' with
      | here => omega
      | inside h' => have := h'.add_size_le; rw [size_eq entry]; omega
      | after h' => exact .inl h'.start_le
  | @inside first entry rest start i h ih =>
      have hstart := h.start_le
      have hsize := h.add_size_le
      have hfirst := size_eq first
      cases h' with
      | here => omega
      | inside h' => exact ih h' hi
      | after h' => have := h'.start_le; omega
  | @after first entry rest start i h ih =>
      have hstart := h.start_le
      have hfirst := size_eq first
      cases h' with
      | here => omega
      | inside h' => have := h'.add_size_le; have := size_eq entry'; omega
      | after h' => exact ih h' hi

theorem trans (h : Place entries start entry i) (h' : Place entry.body (i + 1) entry' i') :
    Place entries start entry' i' := by
  induction h with
  | here => exact .inside h'
  | inside _ ih => exact .inside (ih h')
  | after _ ih => exact .after (ih h')

theorem append_right (entries' : List (Entry κ))
    (h : Place entries (start + sizeAll entries') entry i) : Place (entries' ++ entries) start entry i := by
  induction entries' generalizing start with
  | nil => exact h
  | cons first entries' ih =>
      rw [sizeAll, ← Nat.add_assoc] at h
      exact .after (ih h)

end Place

theorem exists_place (entries : List (Entry κ)) {start i : Nat} (hlow : start ≤ i)
    (hhigh : i < start + sizeAll entries) : ∃ entry, Place entries start entry i := by
  induction entries using outlineInduction generalizing start with
  | nil => exact absurd hhigh (Nat.not_lt.2 hlow)
  | cons entry rest hbody hrest =>
      rw [sizeAll, size_eq] at hhigh
      by_cases hi : i = start
      · exact ⟨entry, hi ▸ .here⟩
      · by_cases hbelow : i < start + entry.size
        · rw [size_eq] at hbelow
          obtain ⟨entry', h⟩ := @hbody (start + 1) (by omega) (by omega)
          exact ⟨entry', .inside h⟩
        · obtain ⟨entry', h⟩ := hrest (Nat.not_lt.1 hbelow) (by rw [size_eq]; omega)
          exact ⟨entry', .after h⟩

theorem place_append (before : List (Entry κ)) (entry : Entry κ) (after : List (Entry κ))
    (start : Nat) : Place (before ++ entry :: after) start entry (start + sizeAll before) :=
  .append_right before .here

theorem Place.of_append {entries entries' : List (Entry κ)} {entry : Entry κ} {start i : Nat}
    (h : Place (entries ++ entries') start entry i) :
    Place entries start entry i ∨ Place entries' (start + sizeAll entries) entry i := by
  induction entries generalizing start with
  | nil => exact .inr h
  | cons first entries ih =>
      cases h with
      | here => exact .inl .here
      | inside h => exact .inl (.inside h)
      | after h =>
          rcases ih h with h | h
          · exact .inl (.after h)
          · rw [Nat.add_assoc] at h
            exact .inr h

theorem Place.of_singleton {entry entry' : Entry κ} {start i : Nat}
    (h : Place [entry] start entry' i) : entry' = entry ∨ Place entry.body (start + 1) entry' i := by
  cases h with
  | here => exact .inl rfl
  | inside h => exact .inr h
  | after h => cases h

theorem Place.of_concat {entries : List (Entry κ)} {last entry : Entry κ} {start i : Nat}
    (h : Place (entries ++ [last]) start entry i) (hbody : last.body = []) :
    Place entries start entry i ∨ entry = last := by
  rcases h.of_append with h | h
  · exact .inl h
  · rcases h.of_singleton with rfl | h
    · exact .inr rfl
    · rw [hbody] at h
      cases h

end Entry

/-! ## The outline of a recipe -/

/-- The scope starts the program again. -/
def Rule.Recurs : Rule κ → Prop
  | recursion _ => True
  | repetition .. | optional _ => False

/-- The step is a recursion. -/
def Stage.Recurs (stage : Stage κ) : Prop :=
  ∃ scope, stage.scope = some scope ∧ scope.rule.Recurs

theorem Stage.not_recurs_of_plain {stage : Stage κ} (h : stage.scope = none) : ¬stage.Recurs := by
  rintro ⟨scope, hscope, -⟩
  rw [h] at hscope
  cases hscope

namespace Recipe

variable {whole : ValueType κ}

/-- What the recipe is recorded as. -/
def outline : Recipe κ whole → List (Entry κ)
  | first type decoder => [.plain (actionStage (.decode type decoder)).line]
  | act before action => before.outline ++ [.plain (actionStage action).line]
  | skip before n => before.outline ++ [.plain (skipStage n).line]
  | recur before flag =>
      before.outline ++ [.head (recurStage whole flag 0).line (.recursion whole) []]
  | optional body type flag =>
      [.head (optionalStage type flag ⟨0, 0⟩).line (.optional type) body.outline]
  | repetition body element result bound collector =>
      [.head (repetitionStage element result bound collector ⟨0, 0⟩).line
        (.repetition element result bound collector) body.outline]

theorem sizeAll_outline (r : Recipe κ whole) : Entry.sizeAll r.outline = r.size := by
  induction r with
  | first => rfl
  | act before action ih => rw [outline, Entry.sizeAll_append, ih]; rfl
  | skip before n ih => rw [outline, Entry.sizeAll_append, ih]; rfl
  | recur before flag ih => rw [outline, Entry.sizeAll_append, ih]; rfl
  | optional body type flag ih =>
      show 1 + Entry.sizeAll body.outline + 0 = _
      rw [ih, size, Nat.add_comm 1]
  | repetition body element result bound collector ih =>
      show 1 + Entry.sizeAll body.outline + 0 = _
      rw [ih, size, Nat.add_comm 1]

theorem flattenAll_snoc {before : Recipe κ whole} {out : List (Stage κ)}
    (h : Entry.flattenAll out before.outline = out ++ before.stages out.length) {entry : Entry κ}
    (hbody : entry.body = []) :
    Entry.flattenAll out (before.outline ++ [entry]) =
      out ++ (before.stages out.length ++ [entry.stage (out.length + before.size)]) := by
  have hlen : (out ++ before.stages out.length).length = out.length + before.size := by
    rw [List.length_append, length_stages]
  rw [Entry.flattenAll_append, h, Entry.flattenAll, Entry.flatten_eq, hbody, hlen,
    List.append_assoc]
  rfl

theorem flattenAll_head {body : Recipe κ whole}
    (h : ∀ out, Entry.flattenAll out body.outline = out ++ body.stages out.length)
    (out : List (Stage κ)) (line : Line κ) (rule : Rule κ) :
    Entry.flattenAll out [.head line rule body.outline] =
      out ++ line.stage (some ⟨rule, ⟨out.length, out.length + body.size⟩⟩) ::
        body.stages (out.length + 1) := by
  have hsize : (Entry.head line rule body.outline).size = 1 + body.size := by
    rw [Entry.size, sizeAll_outline]
  have hlast : out.length + (1 + body.size) - 1 = out.length + body.size := by omega
  show Entry.flattenAll (out ++ [line.stage (some ⟨rule, ⟨_, _⟩⟩)]) body.outline = _
  rw [h, hsize, hlast, List.length_append, List.append_assoc]
  rfl

theorem flattenAll_outline (r : Recipe κ whole) (out : List (Stage κ)) :
    Entry.flattenAll out r.outline = out ++ r.stages out.length := by
  induction r generalizing out with
  | first => rfl
  | act before action ih => exact flattenAll_snoc (ih out) rfl
  | skip before n ih => exact flattenAll_snoc (ih out) rfl
  | recur before flag ih => exact flattenAll_snoc (ih out) rfl
  | optional body type flag ih => exact flattenAll_head ih out _ _
  | repetition body element result bound collector ih => exact flattenAll_head ih out _ _

theorem stages_ne_nil (r : Recipe κ whole) (start : Nat) : r.stages start ≠ [] :=
  List.ne_nil_of_length_pos (by rw [length_stages]; exact r.size_pos)

/-- A recursion leaves more than one value, so what is wrapped or assembled does not end with one. -/
theorem not_recurs_of_getLast? {r : Recipe κ whole} (hfits : r.Fits) {type : ValueType κ}
    (hpending : r.pending = [type]) {start : Nat} {stage : Stage κ}
    (h : (r.stages start).getLast? = some stage) : ¬stage.Recurs := by
  induction r generalizing start type with
  | first =>
      cases h
      exact Stage.not_recurs_of_plain rfl
  | act before action ih =>
      rw [stages, List.getLast?_concat] at h
      cases h
      exact Stage.not_recurs_of_plain rfl
  | skip before n ih =>
      rw [stages, List.getLast?_concat] at h
      cases h
      exact Stage.not_recurs_of_plain rfl
  | recur before flag ih => exact absurd (List.cons.inj hpending).2 before.pending_ne_nil
  | optional body type' flag ih =>
      rw [stages, List.getLast?_cons_of_ne_nil (body.stages_ne_nil _)] at h
      exact ih hfits.1 hfits.2 h
  | repetition body element result bound collector ih =>
      rw [stages, List.getLast?_cons_of_ne_nil (body.stages_ne_nil _)] at h
      exact ih hfits.1 hfits.2 h

/-- What is below the entry is as the builder leaves it: nothing below a recursion, and below the
other heads a body that does not end with a recursion. -/
def WellWrapped : Entry κ → Prop
  | .plain _ => True
  | .head _ (.recursion _) body => body = []
  | .head _ (.optional _) body | .head _ (.repetition ..) body =>
      0 < Entry.sizeAll body ∧
        ∀ out stage, (Entry.flattenAll out body).getLast? = some stage → ¬stage.Recurs

theorem wellWrapped_body {body : Recipe κ whole} (hfits : body.Fits) {type : ValueType κ}
    (hpending : body.pending = [type]) :
    0 < Entry.sizeAll body.outline ∧
      ∀ out stage, (Entry.flattenAll out body.outline).getLast? = some stage → ¬stage.Recurs := by
  refine ⟨by rw [sizeAll_outline]; exact body.size_pos, fun out stage h => ?_⟩
  have hlast := List.getLast?_eq_some_getLast (body.stages_ne_nil out.length)
  rw [flattenAll_outline, List.getLast?_append, hlast, Option.some_or] at h
  cases h
  exact not_recurs_of_getLast? hfits hpending hlast

theorem wellWrapped {r : Recipe κ whole} (hfits : r.Fits) {start i : Nat} {entry : Entry κ}
    (h : Entry.Place r.outline start entry i) : WellWrapped entry := by
  induction r generalizing start with
  | first =>
      rcases h.of_singleton with rfl | h
      · trivial
      · cases h
  | act before action ih =>
      rcases h.of_concat rfl with h | rfl
      · exact ih hfits.1 h
      · trivial
  | skip before n ih =>
      rcases h.of_concat rfl with h | rfl
      · exact ih hfits h
      · trivial
  | recur before flag ih =>
      rcases h.of_concat rfl with h | rfl
      · exact ih hfits h
      · exact rfl
  | optional body type flag ih =>
      rcases h.of_singleton with rfl | h
      · exact wellWrapped_body hfits.1 hfits.2
      · exact ih hfits.1 h
  | repetition body element result bound collector ih =>
      rcases h.of_singleton with rfl | h
      · exact wellWrapped_body hfits.1 hfits.2
      · exact ih hfits.1 h

end Recipe

/-! ## The property -/

open Entry (Place sizeAll flattenAll)

variable {whole : ValueType κ}

/-- The program is the outline, flattened, and its scopes are as they have to be for execution to
find its way. -/
structure Program.Flattens (p : Program κ whole) (outline : List (Entry κ)) : Prop where
  stages : p.stages.toList = flattenAll [] outline
  /-- The steps of an entry stand together, its own in front. -/
  together {entry : Entry κ} {i : Nat} : Place outline 0 entry i →
    ∃ front block back, p.stages.toList = front ++ entry.stage i :: block ++ back ∧
      entry.flatten front = front ++ entry.stage i :: block ∧
      front.length = i ∧ block.length + 1 = entry.size
  /-- Every step is that of an entry. -/
  covered (index : Fin p.size) : ∃ entry, Place outline 0 entry index ∧
    p.stage index = entry.stage index
  /-- Entries come in the order in which they are recorded. -/
  inOrder {before after : List (Entry κ)} {entry : Entry κ} : outline = before ++ entry :: after →
    Place outline 0 entry (sizeAll before)
  /-- So do those of a body, behind the head. -/
  bodyInOrder {line : Line κ} {rule : Rule κ} {before after : List (Entry κ)} {entry : Entry κ}
    {i : Nat} : Place outline 0 (.head line rule (before ++ entry :: after)) i →
    Place outline 0 entry (i + 1 + sizeAll before)
  /-- A scope extends from its head to the last step of its body. -/
  bounds {index : Fin p.size} {scope : Scope κ} : (p.stage index).scope = some scope →
    ∃ line body, Place outline 0 (.head line scope.rule body) index ∧
      scope.bounds = ⟨index, index + sizeAll body⟩ ∧ scope.bounds.last < p.size
  /-- Of two scopes, one is behind the other or in its body. -/
  apart {index index' : Fin p.size} {scope scope' : Scope κ} : index < index' →
    (p.stage index).scope = some scope → (p.stage index').scope = some scope' →
    scope.bounds.last < scope'.bounds.head ∨
      scope.bounds.head + 1 ≤ scope'.bounds.head ∧ scope'.bounds.last ≤ scope.bounds.last
  /-- A recursion has no body. -/
  recursion {index : Fin p.size} {scope : Scope κ} : (p.stage index).scope = some scope →
    scope.rule.Recurs → scope.bounds.head = scope.bounds.last
  /-- The other scopes have, and it does not end with a recursion. -/
  wrapped {index : Fin p.size} {scope : Scope κ} : (p.stage index).scope = some scope →
    ¬scope.rule.Recurs → scope.bounds.head < scope.bounds.last ∧
      ∀ last : Fin p.size, last.val = scope.bounds.last → ¬(p.stage last).Recurs
  /-- Nor does the program. -/
  ending (last : Fin p.size) : last.val + 1 = p.size → ¬(p.stage last).Recurs

theorem Program.getElem?_stages (p : Program κ whole) (index : Fin p.size) :
    p.stages.toList[index.val]? = some (p.stage index) :=
  List.getElem?_eq_some_iff.2 ⟨index.isLt, rfl⟩

namespace Program.OfRecipe

variable {p : Program κ whole} {root : Recipe κ whole}

theorem stages_eq_flattenAll (h : p.OfRecipe root) : p.stages.toList = flattenAll [] root.outline :=
  h.stages.trans (root.flattenAll_outline []).symm

theorem exists_flatten (h : p.OfRecipe root) {entry : Entry κ} {i : Nat}
    (hplace : Place root.outline 0 entry i) :
    ∃ front block back, p.stages.toList = front ++ entry.stage i :: block ++ back ∧
      entry.flatten front = front ++ entry.stage i :: block ∧
      front.length = i ∧ block.length + 1 = entry.size := by
  obtain ⟨front, back, rfl, hback⟩ := hplace.exists_flattenAll List.length_nil
  obtain ⟨block, hblock, hlen⟩ := entry.exists_flatten front
  refine ⟨front, block, back, ?_, hblock, rfl, hlen⟩
  rw [h.stages_eq_flattenAll, hback, hblock]

theorem stage_eq_of_place (h : p.OfRecipe root) {entry : Entry κ} {index : Fin p.size}
    (hplace : Place root.outline 0 entry index) : p.stage index = entry.stage index := by
  obtain ⟨front, block, back, hstages, -, hfront, -⟩ := h.exists_flatten hplace
  have hget := p.getElem?_stages index
  rw [hstages, List.append_assoc, List.getElem?_append_right (Nat.le_of_eq hfront), hfront,
    Nat.sub_self] at hget
  exact (Option.some.inj hget).symm

theorem exists_place (h : p.OfRecipe root) (index : Fin p.size) :
    ∃ entry, Place root.outline 0 entry index ∧ p.stage index = entry.stage index := by
  have hlt : index.val < 0 + sizeAll root.outline := by
    rw [Nat.zero_add, root.sizeAll_outline, ← h.size_eq]
    exact index.isLt
  obtain ⟨entry, hplace⟩ := Entry.exists_place root.outline (Nat.zero_le _) hlt
  exact ⟨entry, hplace, h.stage_eq_of_place hplace⟩

theorem exists_head (h : p.OfRecipe root) {index : Fin p.size} {scope : Scope κ}
    (hscope : (p.stage index).scope = some scope) :
    ∃ line body, Place root.outline 0 (.head line scope.rule body) index ∧
      scope.bounds = ⟨index, index + sizeAll body⟩ := by
  obtain ⟨entry, hplace, hstage⟩ := h.exists_place index
  rw [hstage] at hscope
  cases entry with
  | plain line => cases hscope
  | head line rule body =>
      cases hscope
      have hlast : index.val + (1 + sizeAll body) - 1 = index + sizeAll body := by omega
      exact ⟨line, body, hplace, congrArg (Bounds.mk _) hlast⟩

theorem place_lt (h : p.OfRecipe root) {entry : Entry κ} {i : Nat}
    (hplace : Place root.outline 0 entry i) : i + sizeAll entry.body < p.size := by
  have hle := hplace.add_size_le
  rw [Entry.size_eq, root.sizeAll_outline, ← h.size_eq] at hle
  omega

theorem apart_or_inside (h : p.OfRecipe root) {index index' : Fin p.size} {scope scope' : Scope κ}
    (hlt : index < index') (hscope : (p.stage index).scope = some scope)
    (hscope' : (p.stage index').scope = some scope') :
    scope.bounds.last < scope'.bounds.head ∨
      scope.bounds.head + 1 ≤ scope'.bounds.head ∧ scope'.bounds.last ≤ scope.bounds.last := by
  obtain ⟨line, body, hplace, hbounds⟩ := h.exists_head hscope
  obtain ⟨line', body', hplace', hbounds'⟩ := h.exists_head hscope'
  have hapart := hplace.apart_or_below hplace' hlt
  rw [hbounds, hbounds']
  simp only [Entry.size] at hapart ⊢
  omega

theorem wellWrapped (h : p.OfRecipe root) {index : Fin p.size} {scope : Scope κ}
    (hscope : (p.stage index).scope = some scope) :
    ∃ line body, Place root.outline 0 (.head line scope.rule body) index ∧
      scope.bounds = ⟨index, index + sizeAll body⟩ ∧
      Recipe.WellWrapped (.head line scope.rule body) := by
  obtain ⟨line, body, hplace, hbounds⟩ := h.exists_head hscope
  exact ⟨line, body, hplace, hbounds, Recipe.wellWrapped h.fits hplace⟩

theorem head_eq_last (h : p.OfRecipe root) {index : Fin p.size} {scope : Scope κ}
    (hscope : (p.stage index).scope = some scope) (hrecurs : scope.rule.Recurs) :
    scope.bounds.head = scope.bounds.last := by
  obtain ⟨line, body, -, hbounds, hbody⟩ := h.wellWrapped hscope
  obtain ⟨rule, bounds⟩ := scope
  cases rule with
  | repetition => exact hrecurs.elim
  | optional => exact hrecurs.elim
  | recursion result =>
      cases hbounds
      cases hbody
      rfl

theorem head_lt_last (h : p.OfRecipe root) {index : Fin p.size} {scope : Scope κ}
    (hscope : (p.stage index).scope = some scope) (hrecurs : ¬scope.rule.Recurs) :
    scope.bounds.head < scope.bounds.last ∧
      ∀ last : Fin p.size, last.val = scope.bounds.last → ¬(p.stage last).Recurs := by
  obtain ⟨line, body, hplace, hbounds, hwrapped⟩ := h.wellWrapped hscope
  have hbody : 0 < sizeAll body ∧
      ∀ out stage, (flattenAll out body).getLast? = some stage → ¬stage.Recurs := by
    obtain ⟨rule, bounds⟩ := scope
    cases rule with
    | repetition => exact hwrapped
    | optional => exact hwrapped
    | recursion => exact (hrecurs trivial).elim
  rw [hbounds]
  refine ⟨Nat.lt_add_of_pos_right hbody.1, fun last hlast => ?_⟩
  obtain ⟨front, hfront⟩ := hplace.exists_getLast? List.length_nil
  refine hbody.2 front _ (hfront.trans ?_)
  rw [← h.stages_eq_flattenAll, ← p.getElem?_stages last, hlast]
  rfl

theorem not_recurs_last (h : p.OfRecipe root) {last : Fin p.size} (hlast : last.val + 1 = p.size) :
    ¬(p.stage last).Recurs := by
  have hget : (root.stages 0).getLast? = some (p.stage last) := by
    rw [← h.stages, List.getLast?_eq_getElem?, ← p.getElem?_stages last, Array.length_toList,
      Nat.sub_eq_of_eq_add hlast.symm]
  exact Recipe.not_recurs_of_getLast? h.fits h.single hget

end Program.OfRecipe

/-- A recipe that passes the checks of the builder is flattened so that entries stand together, in
recorded order and heads in front of their bodies, that scopes are apart or nested, and that neither
a body nor the program ends with a recursion. -/
theorem Recipe.Accepted.flattens {root : Recipe κ whole} (h : root.Accepted) {maxDepth : Nat}
    {p : Program κ whole} (hp : root.assemble maxDepth = .ok p) : p.Flattens root.outline where
  stages := (h.ofRecipe hp).stages_eq_flattenAll
  together := (h.ofRecipe hp).exists_flatten
  covered := (h.ofRecipe hp).exists_place
  inOrder {before after entry} hsplit := by
    have hplace := Entry.place_append before entry after 0
    rwa [Nat.zero_add, ← hsplit] at hplace
  bodyInOrder {_ _ before after entry i} hplace :=
    hplace.trans (Entry.place_append before entry after (i + 1))
  bounds hscope := by
    obtain ⟨line, body, hplace, hbounds⟩ := (h.ofRecipe hp).exists_head hscope
    exact ⟨line, body, hplace, hbounds, by rw [hbounds]; exact (h.ofRecipe hp).place_lt hplace⟩
  apart := (h.ofRecipe hp).apart_or_inside
  recursion := (h.ofRecipe hp).head_eq_last
  wrapped := (h.ofRecipe hp).head_lt_last
  ending _ := (h.ofRecipe hp).not_recurs_last

/-- How to decode two rows and join them: a row is an optional byte, made of two, with a nested value
behind it that is dropped. -/
def Recipe.twoRows : Recipe Empty (.list .uint8) :=
  first .uint8 (.number UInt8 .big)
    |>.decode .uint8 (.number UInt8 .big)
    |>.act (.reduce 2 .uint8 (.row [.uint8, .uint8] fun (a, b, _) => UInt8.xor a b))
    |>.optional .uint8 .bool
    |>.recur .bool
    |>.act (.reduce 2 (.list .uint8) (.row [.option .uint8, .option (.list .uint8)]
        fun (a, _, _) => a.toList))
    |>.repetition (.list .uint8) (.list (.list .uint8)) (.times 2) .toList
    |>.act (.reduce 1 (.list .uint8) (.row [.list (.list .uint8)] fun (rows, _) => rows.flatten))

theorem Recipe.twoRows_accepted : twoRows.Accepted :=
  .reduceRow [.list (.list .uint8)] (.list .uint8) _
    (.repeated (.list .uint8) (.list (.list .uint8)) (.times 2) .toList
      (.reduceRow [.option .uint8, .option (.list .uint8)] (.list .uint8) _
        (.recur .bool
          (.optionally .uint8 .bool
            (.reduceRow [.uint8, .uint8] .uint8 _
              (.decode .uint8 (.number UInt8 .big) (.first .uint8 (.number UInt8 .big))) rfl)
            rfl))
        rfl)
      rfl)
    rfl

/-- Eight steps, with a repetition of six of them, an option inside it and behind that a recursion. -/
theorem twoRows_flattens :
    ∃ p, Recipe.twoRows.assemble 8 = .ok p ∧ p.Flattens Recipe.twoRows.outline ∧
      p.stages.toList.map (fun stage => (stage.label, stage.scope.map Scope.bounds)) =
        [("repeat", some ⟨0, 6⟩), ("optional", some ⟨1, 4⟩), ("then", none), ("then", none),
          ("reduce", none), ("then_itself_or_null", some ⟨5, 5⟩), ("reduce", none),
          ("reduce", none)] :=
  ⟨_, rfl, Recipe.twoRows_accepted.flattens rfl, rfl⟩

end Piecemeal
