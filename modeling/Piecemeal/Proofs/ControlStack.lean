/-
# The control stack

Which scopes are active while a program runs.  A step is surrounded by the scopes whose bounds it
is within, `Program.scopesAround`, and when execution stands at the step, the frames of the
innermost instance are those of these scopes, outermost first.  An instance that waits stands at a
recursion, so its frames are those of the scopes around it, with the recursion itself on top.
`StandsAt frames index` is both:

    frames.reverse = groups.flatten ++ current
      with  Waiting group                                    for every one of the groups
      and   current.map (·.index.val) = p.scopesAround index

and `Recipe.Accepted.frames_grouped` says that it holds wherever a program is suspended.

  * Where a part of a recipe stands says which heads are around it (`Recipe.Part`), and the bounds
    in the program say the same: `scopesAround_own`.  The heads around a part are those in front of
    it whose scopes have not ended there; the scopes inside a part end inside it, `bounds_inside`,
    and those in front of its own step end in front of that, `last_lt_own`.
  * What is active then follows from the invariant of the machine, `Coherent.standsAt`.
  * Behind the last step the innermost scope is asked whether the end of the program stands.  An
    instance that has come there is outside of all scopes of its own, so what is asked is the
    recursion that has started it, and only such a recursion says no, `restarted_of_atEnd`.
-/
import Piecemeal.Proofs.Isolation
import Piecemeal.Proofs.Outlines

namespace Piecemeal

variable {κ : Type} [Atom κ] {whole : ValueType κ} {p : Program κ whole}
  {root r : Recipe κ whole} {start : Nat} {scopes : List Nat}

/-! ## Scopes around a step -/

/-- The index is within the bounds of the step's scope. -/
def Stage.surrounds (stage : Stage κ) (i : Nat) : Bool :=
  stage.scope.any fun scope => scope.bounds.head ≤ i && i ≤ scope.bounds.last

/-- The heads of the scopes that the index is within the bounds of, outermost first. -/
def Program.scopesAround (p : Program κ whole) (i : Nat) : List Nat :=
  (List.range p.size).filter fun head => p.stages[head]?.any fun stage => stage.surrounds i

theorem Stage.surrounds_iff {stage : Stage κ} {i : Nat} :
    stage.surrounds i = true ↔
      ∃ scope, stage.scope = some scope ∧ scope.bounds.head ≤ i ∧ i ≤ scope.bounds.last := by
  rw [surrounds, Option.any_eq_true]
  simp only [Bool.and_eq_true, decide_eq_true_eq]

theorem Program.OfRecipe.mem_scopesAround (hp : p.OfRecipe root) {head i : Nat} :
    head ∈ p.scopesAround i ↔
      ∃ stage, (root.stages 0)[head]? = some stage ∧ stage.surrounds i = true := by
  rw [scopesAround, List.mem_filter, List.mem_range, Option.any_eq_true, ← hp.stages,
    ← Array.getElem?_toList]
  constructor
  · exact fun h => h.2
  · rintro ⟨stage, hget, hsurrounds⟩
    obtain ⟨hlt, -⟩ := List.getElem?_eq_some_iff.1 hget
    exact ⟨by simpa using hlt, stage, hget, hsurrounds⟩

theorem of_getElem?_concat {α : Type _} {xs : List α} {x y : α} {k : Nat}
    (h : (xs ++ [x])[k]? = some y) : xs[k]? = some y ∨ k = xs.length ∧ y = x := by
  rcases Nat.lt_trichotomy k xs.length with hlt | rfl | hgt
  · exact .inl (by rwa [List.getElem?_append_left hlt] at h)
  · exact .inr ⟨rfl, by rw [List.getElem?_concat_length] at h; exact (Option.some.inj h).symm⟩
  · rw [List.getElem?_eq_none (by rw [List.length_append]; exact hgt)] at h
    cases h

namespace Recipe

/-- The scopes inside a part begin at their heads and end inside the part. -/
theorem bounds_inside {k : Nat} {stage : Stage κ} {scope : Scope κ}
    (hget : (r.stages start)[k]? = some stage) (hscope : stage.scope = some scope) :
    scope.bounds.head = start + k ∧ scope.bounds.last < start + r.size := by
  induction r generalizing start k with
  | first =>
      have hget' : ([] ++ [actionStage _])[k]? = some stage := hget
      rcases of_getElem?_concat hget' with hget | ⟨-, rfl⟩
      · cases hget
      · cases hscope
  | act before action ih =>
      rcases of_getElem?_concat hget with hget | ⟨-, rfl⟩
      · exact (ih hget).imp_right Nat.lt_succ_of_lt
      · cases hscope
  | skip before n ih =>
      rcases of_getElem?_concat hget with hget | ⟨-, rfl⟩
      · exact (ih hget).imp_right Nat.lt_succ_of_lt
      · cases hscope
  | recur before flag ih =>
      rcases of_getElem?_concat hget with hget | ⟨rfl, rfl⟩
      · exact (ih hget).imp_right Nat.lt_succ_of_lt
      · cases hscope
        exact ⟨by rw [length_stages], Nat.lt_succ_self _⟩
  | optional body type flag ih =>
      cases k with
      | zero => cases hget; cases hscope; exact ⟨rfl, Nat.lt_succ_self _⟩
      | succ k =>
          obtain ⟨hhead, hlast⟩ := ih hget
          exact ⟨by omega, by rw [size]; omega⟩
  | repetition body element result bound collector ih =>
      cases k with
      | zero => cases hget; cases hscope; exact ⟨rfl, Nat.lt_succ_self _⟩
      | succ k =>
          obtain ⟨hhead, hlast⟩ := ih hget
          exact ⟨by omega, by rw [size]; omega⟩

theorem last_lt_own {k : Nat} {stage : Stage κ} {scope : Scope κ} (hk : k < r.lead)
    (hget : (r.stages start)[k]? = some stage) (hscope : stage.scope = some scope) :
    scope.bounds.last < start + r.lead := by
  cases r with
  | first => cases hk
  | act before action =>
      rw [stages, List.getElem?_append_left (by rw [length_stages]; exact hk)] at hget
      exact (bounds_inside hget hscope).2
  | skip before n =>
      rw [stages, List.getElem?_append_left (by rw [length_stages]; exact hk)] at hget
      exact (bounds_inside hget hscope).2
  | recur before flag =>
      rw [stages, List.getElem?_append_left (by rw [length_stages]; exact hk)] at hget
      exact (bounds_inside hget hscope).2
  | optional => cases hk
  | repetition => cases hk

theorem surrounds_own (r : Recipe κ whole) (start : Nat) :
    (r.ownStage start).surrounds (start + r.lead) = (r.ownStage start).scope.isSome := by
  cases r with
  | first => rfl
  | act => rfl
  | skip => rfl
  | recur before flag =>
      exact Stage.surrounds_iff.2 ⟨_, rfl, Nat.le_refl _, Nat.le_refl _⟩
  | optional body type flag =>
      exact Stage.surrounds_iff.2 ⟨_, rfl, Nat.le_refl _, Nat.le_add_right ..⟩
  | repetition body element result bound collector =>
      exact Stage.surrounds_iff.2 ⟨_, rfl, Nat.le_refl _, Nat.le_add_right ..⟩

namespace Part

/-- A scope wraps all that is recorded before it, so nothing but heads stands in front of a body. -/
theorem scopes_eq (h : root.Part r start scopes) : scopes = (List.range start).reverse := by
  induction h with
  | whole => rfl
  | act _ ih => exact ih
  | skip _ ih => exact ih
  | recur _ ih => exact ih
  | optional _ ih => rw [List.range_succ, List.reverse_concat, ← ih]
  | repetition _ ih => rw [List.range_succ, List.reverse_concat, ← ih]

theorem mem_scopes (h : root.Part r start scopes) {head : Nat} : head ∈ scopes ↔ head < start := by
  rw [h.scopes_eq, List.mem_reverse, List.mem_range]

theorem exists_surrounding (h : root.Part r start scopes) {head : Nat} (hhead : head ∈ scopes) :
    ∃ stage scope, (root.stages 0)[head]? = some stage ∧ stage.scope = some scope ∧
      scope.bounds.head = head ∧ start + r.size ≤ scope.bounds.last + 1 := by
  induction scopes generalizing r start with
  | nil => cases hhead
  | cons first heads ih =>
      obtain ⟨last, -, hlast, hscope⟩ := h.exists_scope rfl
      rcases hscope with ⟨body, type, flag, hpart, rfl⟩ |
        ⟨body, element, result, bound, collector, hpart, rfl⟩
      · rcases List.mem_cons.1 hhead with rfl | hhead
        · exact ⟨_, _, hpart.getElem?_stages (getElem?_stages_lead _ _), rfl, rfl, hlast⟩
        · obtain ⟨stage, scope, hget, hscope, hbounds, hle⟩ := ih hpart hhead
          exact ⟨stage, scope, hget, hscope, hbounds, by rw [size] at hle; omega⟩
      · rcases List.mem_cons.1 hhead with rfl | hhead
        · exact ⟨_, _, hpart.getElem?_stages (getElem?_stages_lead _ _), rfl, rfl, hlast⟩
        · obtain ⟨stage, scope, hget, hscope, hbounds, hle⟩ := ih hpart hhead
          exact ⟨stage, scope, hget, hscope, hbounds, by rw [size] at hle; omega⟩

end Part

end Recipe

/-- The heads of the scopes around the step that a part itself adds, innermost first: the step
itself if it is a head, and the heads around the part. -/
def Recipe.around (r : Recipe κ whole) (start : Nat) (scopes : List Nat) : List Nat :=
  if (r.ownStage start).scope.isSome then (start + r.lead) :: scopes else scopes

theorem Recipe.mem_around {head : Nat} :
    head ∈ r.around start scopes ↔
      (r.ownStage start).scope.isSome = true ∧ head = start + r.lead ∨ head ∈ scopes := by
  unfold around
  split
  next hsome => rw [List.mem_cons, and_iff_right hsome]
  next hnone => exact ⟨.inr, fun h => h.resolve_left fun h => hnone h.1⟩

theorem Recipe.Part.mem_around (h : root.Part r start scopes) {head : Nat} :
    head ∈ r.around start scopes ↔
      ∃ stage, (root.stages 0)[head]? = some stage ∧ stage.surrounds (start + r.lead) = true := by
  have hown := h.getElem?_stages (r.getElem?_stages_lead start)
  have hsurrounds := r.surrounds_own start
  have hlead := r.lead_lt_size
  rw [Recipe.mem_around]
  constructor
  · rintro (⟨hsome, rfl⟩ | hhead)
    · exact ⟨_, hown, hsurrounds.trans hsome⟩
    · have hlt := h.mem_scopes.1 hhead
      obtain ⟨stage, scope, hget, hscope, hbounds, hlast⟩ := h.exists_surrounding hhead
      exact ⟨stage, hget, Stage.surrounds_iff.2 ⟨scope, hscope, by omega, by omega⟩⟩
  · rintro ⟨stage, hget, hstage⟩
    obtain ⟨scope, hscope, hlow, hhigh⟩ := Stage.surrounds_iff.1 hstage
    obtain ⟨hhead, -⟩ := Recipe.bounds_inside hget hscope
    rcases Nat.lt_trichotomy head (start + r.lead) with hlt | rfl | hgt
    · refine .inr (h.mem_scopes.2 (Nat.lt_of_not_le fun hle => ?_))
      -- a scope that begins inside the part has ended
      obtain ⟨k, rfl⟩ := Nat.exists_eq_add_of_le hle
      have hk : k < (r.stages start).length := by rw [Recipe.length_stages]; omega
      have hinside := List.getElem?_eq_getElem hk
      have hsame := h.getElem?_stages hinside
      rw [hget] at hsame
      cases hsame
      have hlast := Recipe.last_lt_own (by omega) hinside hscope
      omega
    · rw [hown] at hget
      cases hget
      exact .inl ⟨hsurrounds.symm.trans hstage, rfl⟩
    · omega

theorem Recipe.Part.pairwise_around (h : root.Part r start scopes) :
    (r.around start scopes).Pairwise (· > ·) := by
  have hscopes : scopes.Pairwise (· > ·) := by
    rw [h.scopes_eq]
    exact List.pairwise_reverse.2 List.pairwise_lt_range
  unfold Recipe.around
  split
  next =>
    refine .cons (fun head hhead => ?_) hscopes
    exact Nat.lt_of_lt_of_le (h.mem_scopes.1 hhead) (Nat.le_add_right ..)
  next => exact hscopes

/-- Where a part stands in the recipe and the bounds in the program agree on the scopes around it. -/
theorem Program.OfRecipe.scopesAround_own (hp : p.OfRecipe root)
    (hpart : root.Part r start scopes) :
    p.scopesAround (start + r.lead) = (r.around start scopes).reverse := by
  have hlt : (p.scopesAround (start + r.lead)).Pairwise (· < ·) := List.pairwise_lt_range.filter _
  have hlt' : (r.around start scopes).reverse.Pairwise (· < ·) :=
    List.pairwise_reverse.2 hpart.pairwise_around
  refine List.Perm.eq_of_pairwise (fun a b _ _ hab hba => absurd hab (Nat.lt_asymm hba)) hlt hlt' ?_
  rw [List.perm_ext_iff_of_nodup (hlt.imp Nat.ne_of_lt) (hlt'.imp Nat.ne_of_lt)]
  intro head
  rw [hp.mem_scopesAround, List.mem_reverse, hpart.mem_around]

/-! ## Frames of instances -/

namespace Machine

/-- The frames of an instance that waits, outermost first: the scopes around a recursion, and the
recursion itself, which has started the program again. -/
def Waiting (group : List (Frame p)) : Prop :=
  ∃ front home, group = front ++ [home] ∧ (∀ f ∈ front, f.restarted = false) ∧
    home.restarted = true ∧ group.map (·.index.val) = p.scopesAround home.index

/-- The frames fall into those of one instance after another, outermost first, and the innermost
instance stands at this step. -/
def StandsAt (frames : List (Frame p)) (index : Nat) : Prop :=
  ∃ (groups : List (List (Frame p))) (current : List (Frame p)),
    frames.reverse = groups.flatten ++ current ∧
    (∀ group ∈ groups, Waiting group) ∧ (∀ f ∈ current, f.restarted = false) ∧
    current.map (·.index.val) = p.scopesAround index

theorem restarted_of_homes {frames : List (Frame p)} (h : homes frames = []) :
    ∀ f ∈ frames, f.restarted = false := by
  intro f hf
  have hfilter := List.filter_eq_nil_iff.1 (List.map_eq_nil_iff.1 h) f hf
  exact Bool.eq_false_iff.2 hfilter

variable {inner frames : List (Frame p)}

theorem map_index_own (hp : p.OfRecipe root) (hpart : root.Part r start scopes)
    {index : Fin p.size} (hindex : index.val = start + r.lead)
    (hinner : inner.map (·.index.val) = scopes) :
    ((frame? index).toList ++ inner).reverse.map (·.index.val) = p.scopesAround index := by
  have hstage := hp.stage_eq hpart hindex
  rw [List.map_reverse, hindex, hp.scopesAround_own hpart, List.map_append, hinner]
  congr 1
  unfold Recipe.around
  cases hscope : (r.ownStage start).scope with
  | none =>
      rw [frame?_eq_none (by rw [hstage, hscope])]
      rfl
  | some scope =>
      obtain ⟨f, hframe, hf, -⟩ := exists_frame ((congrArg Stage.scope hstage).trans hscope)
      rw [hframe, ← hindex, ← hf]
      rfl

/-- The instances that wait have one group of frames each. -/
theorem Enclosing.exists_groups (hp : p.OfRecipe root) {below : List (Cell κ)} {outer : List Nat}
    (h : Enclosing root frames below outer) :
    ∃ groups : List (List (Frame p)), frames.reverse = groups.flatten ∧
      ∀ group ∈ groups, Waiting group := by
  induction h with
  | outermost => exact ⟨[], rfl, fun group hgroup => nomatch hgroup⟩
  | @nested before flag start scopes home inner frames acc below outer stack hpart hf hactive hinner
      henclosing hacc htypes ih =>
      obtain ⟨groups, hframes, hgroups⟩ := ih
      refine ⟨groups ++ [inner.reverse ++ [home]], ?_, fun group hgroup => ?_⟩
      · rw [List.reverse_cons, List.reverse_append, hframes, List.flatten_concat, List.append_assoc]
      · rcases List.mem_append.1 hgroup with hgroup | hgroup
        · exact hgroups group hgroup
        · obtain rfl := List.mem_singleton.1 hgroup
          refine ⟨inner.reverse, home, rfl, fun f hmem => ?_, by rw [Frame.restarted, hactive]; rfl,
            ?_⟩
          · exact restarted_of_homes (homes_inner hp hpart hinner) f (List.mem_reverse.1 hmem)
          · have haround : (before.recur flag).around start scopes = home.index.val :: scopes := by
              rw [hf]; rfl
            rw [hf]
            show _ = p.scopesAround (start + (before.recur flag).lead)
            rw [hp.scopesAround_own hpart, haround, List.map_append, List.map_reverse, hinner,
              List.reverse_cons]
            rfl

theorem Coherent.standsAt (hp : p.OfRecipe root) {m : Machine p} (h : Coherent root m)
    {index : Fin p.size} {flight : (p.stage index).action.Flight}
    (hphase : m.phase = .decoding index flight) : StandsAt m.frames index := by
  cases h with
  | @decoding r start scopes index flight frames values hpart hindex hrun =>
      cases hphase
      obtain @⟨inner, enclosing, below, outer, stack, rfl, hinner, henclosing, -, -⟩ := hrun
      obtain ⟨groups, hframes, hgroups⟩ := henclosing.exists_groups hp
      refine ⟨groups, ((frame? index).toList ++ inner).reverse, ?_, hgroups, ?_,
        map_index_own hp hpart hindex hinner⟩
      · rw [← List.append_assoc, List.reverse_append, hframes]
      · refine fun f hf => restarted_of_homes ?_ f (List.mem_reverse.1 hf)
        rw [homes_append, homes_frame?, homes_inner hp hpart hinner]
        rfl
  | headed => cases hphase
  | left => cases hphase
  | arriving => cases hphase
  | ended => cases hphase
  | entering => cases hphase
  | failing => cases hphase
  | answering => cases hphase

/-! ## The end of the program -/

/-- Only a recursion that has started the program again takes the end of the program for its own. -/
theorem restarted_of_atEnd {f : Frame p} {values after : Accumulator κ}
    (h : (p.stage f.index).atEnd values f.memory = .ok (some after)) : f.restarted = true := by
  cases hactive : f.active with
  | mk scope memory =>
      rw [Stage.atEnd_of_active hactive] at h
      rw [Frame.restarted, hactive]
      obtain ⟨rule, bounds⟩ := scope
      cases rule with
      | repetition => cases h
      | optional => cases h
      | recursion result =>
          cases memory with
          | none => cases h
          | some depth => rfl

theorem exists_atEnd {f : Frame p} {values : Accumulator κ} {i last : Nat}
    {frames' : List (Frame p)} {after : Accumulator κ} (hend : p.size ≤ i)
    (h : MovesTo ⟨.arriving i, f :: frames, values⟩ ⟨.leaving last, frames', after⟩) :
    (p.stage f.index).atEnd values f.memory = .ok (some after) := by
  obtain ⟨events, h⟩ := h
  simp only [step, arrive, dif_neg (Nat.not_lt.2 hend)] at h
  split at h
  next => cases h
  next =>
    unfold finish at h
    split at h
    next => cases h
    next => cases h
  next values' hstage =>
    cases h
    exact hstage

end Machine

/-! ## The property -/

open Machine in
/-- When a program is suspended, its frames fall into groups, one for each active instance.  The
innermost instance has the frames of exactly the scopes around the step that it is at, outermost
first; each instance that waits has those of the scopes around the recursion that has started the
next one, and this recursion is the last of them.  So behind the last step, with a scope active, it
is such a recursion that is asked, and it does not let the end of the program stand. -/
theorem Recipe.Accepted.frames_grouped (h : root.Accepted) (hreads : root.ReadsPending)
    {maxDepth : Nat} (hp : root.assemble maxDepth = .ok p) {m : Machine p}
    (hready : p.decoder.Ready m) (bytes : Bytes) :
    (∀ next rest, p.decoder.Ends m bytes (.reached .pending next rest) →
      ∃ index flight, next.phase = .decoding index flight ∧ StandsAt next.frames index) ∧
    ∀ i f frames values rest, p.size ≤ i →
      p.decoder.Visits m bytes ⟨.arriving i, f :: frames, values⟩ rest →
      f.restarted = true ∧
        ∃ after, (p.stage f.index).atEnd values f.memory = .ok (some after) := by
  have hof := h.ofRecipe hp
  constructor
  · intro next rest hends
    obtain ⟨index, flight, -, hphase, -⟩ := exists_decoding_of_pending hends
    have hcoherent : Coherent root next :=
      coherent_of_ready hof hreads (.decoded hready hends (by simp))
    exact ⟨index, flight, hphase, hcoherent.standsAt hof hphase⟩
  · intro i f frames values rest hend hvisits
    obtain ⟨-, -, -, after, -, -, -, -, hmoves, -⟩ :=
      (coherent_of_visits hof hreads hready hvisits).ends_nested hof hend
    have hatEnd := exists_atEnd hend hmoves
    exact ⟨restarted_of_atEnd hatEnd, after, hatEnd⟩

theorem Recipe.twoRows_readsPending : twoRows.ReadsPending :=
  ⟨⟨⟨⟨trivial, trivial⟩, Reading.reads_row _ _⟩, Reading.reads_row _ _⟩, Reading.reads_row _ _⟩

open Machine in
/-- Two rows whose data ends inside the option of a row of a nested value: the outer instance waits at
its recursion, step 5, inside a repetition, and the nested one stands at step 3, inside a repetition
and an option.  And a tree whose first subtree is complete. -/
theorem twoRows_frames_grouped :
    (∃ (p : Program Empty (.list .uint8)) (next : Machine p), Recipe.twoRows.assemble 8 = .ok p ∧
      p.decoder.Ends p.decoder.start ([1, 7, 8, 1, 1, 9] : Bytes) (.reached .pending next []) ∧
      p.scopesAround 5 = [0, 5] ∧ p.scopesAround 3 = [0, 1] ∧
      next.frames.reverse.map (·.index.val) = [0, 5] ++ [0, 1] ∧ StandsAt next.frames 3) ∧
    ∃ (p : Program Empty .size) (f : Frame p) (frames : List (Frame p)) (values : Accumulator Empty),
      Recipe.nodeCount.assemble 8 = .ok p ∧ p.size ≤ 4 ∧
      p.decoder.Visits p.decoder.start [7, 1, 8, 0, 0] ⟨.arriving 4, f :: frames, values⟩ [] ∧
      f.restarted = true ∧ ∃ after, (p.stage f.index).atEnd values f.memory = .ok (some after) := by
  constructor
  · obtain ⟨p, hp, hfive, hthree, next, hnext, hframes, hindex⟩ :
        ∃ p, Recipe.twoRows.assemble 8 = .ok p ∧ p.scopesAround 5 = [0, 5] ∧
          p.scopesAround 3 = [0, 1] ∧ ∃ next,
            p.decoder.Ends p.decoder.start ([1, 7, 8, 1, 1, 9] : Bytes)
              (.reached .pending next []) ∧
            next.frames.reverse.map (·.index.val) = [0, 5] ++ [0, 1] ∧ next.phase.index = 3 := by
      refine ⟨_, rfl, rfl, rfl, _, ⟨by simp, 60, rfl⟩, ?_, ?_⟩
      · rfl
      · rfl
    have hgrouped := Recipe.twoRows_accepted.frames_grouped Recipe.twoRows_readsPending hp .fresh
      [1, 7, 8, 1, 1, 9]
    obtain ⟨index, flight, hphase, hstands⟩ := hgrouped.1 next [] hnext
    rw [hphase] at hindex
    exact ⟨p, next, hp, hnext, hfive, hthree, hframes, hindex ▸ hstands⟩
  · obtain ⟨p, hp, hsize, f, frames, values, hvisits⟩ :
        ∃ p, Recipe.nodeCount.assemble 8 = .ok p ∧ p.size ≤ 4 ∧ ∃ f frames values,
          p.decoder.Visits p.decoder.start [7, 1, 8, 0, 0] ⟨.arriving 4, f :: frames, values⟩ [] := by
      refine ⟨_, rfl, Nat.le_refl 4, ?_, ?_, ?_, ?_⟩
      rotate_left 3
      -- step by step, until the program is left behind inside the nested instance
      repeat first
        | exact .here _ _
        | refine .tick rfl ?_
        | refine .request rfl (by decide) ?_
    have hgrouped := Recipe.nodeCount_accepted.frames_grouped Recipe.nodeCount_readsPending hp
      .fresh [7, 1, 8, 0, 0]
    exact ⟨p, f, frames, values, hp, hsize, hvisits,
      hgrouped.2 4 f frames values [] hsize hvisits⟩

end Piecemeal
