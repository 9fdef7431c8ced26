/-
# Instances and their values

What the accumulator of a program looks like from outside.  The frames say which instances are
active: one for every recursion that has started the program again, at its `home`, and the
innermost one.  The builder has recorded which slots are pending in front of every step,
`Recipe.slotsBefore`.  With the action of step `index` in flight a machine `m` has

    m.values.cells.toList.map Cell.type = root.slotsBelow (homes m.frames) ++
        ((p.stage index).action.leaves (root.slotsBefore index)).reverse
    m.values.layers.Sublist (root.bottoms (homes m.frames))

by `Coherent.shape`: the accumulated values are, bottom to top, one for each pending slot in one
instance after another, less what the action has taken, and the open layers start where nested
instances start.  Whether an instance has a layer depends on what has been reduced before, hence a
sublist.

So a nested instance leaves the others alone.  When it is at its end its one result is taken over
as a value of the instance around it, whether it has a layer of its own at that point or not,
`Coherent.ends_nested`.  Both are read off the invariant, where the frames of scopes that are no
recursions count for nothing: `homes_inner`, `homes_frame?`.
-/
import Piecemeal.Proofs.Coherence

namespace Piecemeal

variable {κ : Type} [Atom κ] {whole : ValueType κ} {p : Program κ whole}
  {root r : Recipe κ whole} {start : Nat} {scopes : List Nat}

/-! ## Slots of instances -/

namespace Recipe

/-- The types of the values that instances hold which wait at these recursions, innermost first,
from the bottom of the accumulator upwards. -/
def slotsBelow (root : Recipe κ whole) : List Nat → List (ValueType κ)
  | [] => []
  | home :: homes => root.slotsBelow homes ++ (root.slotsBefore home).reverse

/-- Where the instances start that are nested at these recursions, innermost first. -/
def bottoms (root : Recipe κ whole) : List Nat → List Nat
  | [] => []
  | home :: homes => (root.slotsBelow (home :: homes)).length :: root.bottoms homes

theorem le_of_mem_bottoms {homes : List Nat} {n : Nat} (h : n ∈ root.bottoms homes) :
    n ≤ (root.slotsBelow homes).length := by
  induction homes with
  | nil => cases h
  | cons home homes ih =>
      rcases List.mem_cons.1 h with rfl | h
      · exact Nat.le_refl _
      · refine Nat.le_trans (ih h) ?_
        rw [slotsBelow, List.length_append]
        exact Nat.le_add_right ..

end Recipe

/-- What a suspended action leaves of the values in front of it: a replacement has taken the last.
-/
def Action.untaken {τ : Type} : Action κ → List τ → List τ
  | .replace .., values => values.tail
  | .decode .., values | .follow .., values | .reduce .., values => values

theorem Action.leaves_eq_untaken {τ : Type} {action : Action κ} {flight : action.Flight}
    (h : (action.step flight).request? ≠ none) (values : List τ) :
    action.leaves values = action.untaken values := by
  cases action with
  | decode => rfl
  | replace => rfl
  | follow => rfl
  | reduce => exact absurd rfl h

/-! ## Active instances -/

/-- The scope is a recursion that has started the program again. -/
def Frame.restarted (f : Frame p) : Bool :=
  match f.active with
  | ⟨⟨.recursion _, _⟩, memory⟩ => Option.isSome memory
  | _ => false

namespace Machine

/-- The recursions that have started the program again, innermost first. -/
def homes (frames : List (Frame p)) : List Nat :=
  (frames.filter Frame.restarted).map (·.index.val)

theorem homes_append (frames frames' : List (Frame p)) :
    homes (frames ++ frames') = homes frames ++ homes frames' := by
  rw [homes, List.filter_append, List.map_append]
  rfl

theorem homes_cons (f : Frame p) (frames : List (Frame p)) :
    homes (f :: frames) = if f.restarted then f.index.val :: homes frames else homes frames := by
  cases hrestarted : f.restarted with
  | true => rw [homes, List.filter_cons_of_pos hrestarted]; rfl
  | false =>
      rw [homes, List.filter_cons_of_neg (by rw [hrestarted]; exact Bool.false_ne_true)]
      rfl

theorem homes_inner (hp : p.OfRecipe root) (hpart : root.Part r start scopes)
    {inner : List (Frame p)} (hinner : inner.map (·.index.val) = scopes) : homes inner = [] := by
  induction inner generalizing r start scopes with
  | nil => rfl
  | cons f inner ih =>
      obtain ⟨last, -, -, hscope⟩ := hpart.exists_scope hinner.symm
      rcases hscope with ⟨body, type, flag, hpart', -⟩ |
        ⟨body, element, result, bound, collector, hpart', -⟩
      · obtain ⟨memory, hactive⟩ := hp.exists_active hpart' rfl rfl
        have hrestarted : f.restarted = false := by rw [Frame.restarted, hactive]
        rw [homes_cons, hrestarted]
        exact ih hpart' rfl
      · obtain ⟨memory, hactive⟩ := hp.exists_active hpart' rfl rfl
        have hrestarted : f.restarted = false := by rw [Frame.restarted, hactive]
        rw [homes_cons, hrestarted]
        exact ih hpart' rfl

theorem homes_frame? (index : Fin p.size) : homes (frame? index).toList = [] := by
  cases hscope : (p.stage index).scope with
  | none =>
      rw [frame?_eq_none hscope]
      rfl
  | some scope =>
      obtain ⟨f, hframe, -, hactive⟩ := exists_frame hscope
      have hrestarted : f.restarted = false := by
        obtain ⟨rule, bounds⟩ := scope
        rw [Frame.restarted, hactive]
        cases rule <;> rfl
      rw [hframe]
      show homes [f] = []
      rw [homes_cons, hrestarted]
      rfl

theorem homes_nested (hp : p.OfRecipe root) (hpart : root.Part r start scopes) {f : Frame p}
    {inner frames : List (Frame p)} {type : ValueType κ} {bounds : Bounds} {depth : Nat}
    (hactive : f.active = ⟨⟨.recursion type, bounds⟩, some depth⟩)
    (hinner : inner.map (·.index.val) = scopes) :
    homes (f :: (inner ++ frames)) = f.index.val :: homes frames := by
  have hrestarted : f.restarted = true := by rw [Frame.restarted, hactive]; rfl
  have happend := homes_append inner frames
  rw [homes_inner hp hpart hinner, List.nil_append] at happend
  rw [homes_cons, hrestarted, happend]
  rfl

namespace Enclosing

variable {frames : List (Frame p)} {below : List (Cell κ)} {outer : List Nat}

theorem types_eq (hp : p.OfRecipe root) (h : Enclosing root frames below outer) :
    below.map Cell.type = root.slotsBelow (homes frames) := by
  induction h with
  | outermost => rfl
  | nested hpart hf hactive hinner _ _ htypes ih =>
      rw [homes_nested hp hpart hactive hinner, Recipe.slotsBelow, List.map_append, ih,
        List.map_reverse, htypes, hf]
      exact congrArg _ (congrArg _ hpart.slotsBefore_own.symm)

/-- The open layers, if the innermost instance may have one, start where nested instances start. -/
theorem layers_sublist (hp : p.OfRecipe root) (h : Enclosing root frames below outer)
    (houter : outer.Sublist (root.bottoms (homes frames).tail)) {values : Accumulator κ}
    {stack : List (Cell κ)} (hvalues : values.Holds below outer stack) :
    values.layers.Sublist (root.bottoms (homes frames)) := by
  have htypes := h.types_eq hp
  cases hhomes : homes frames with
  | nil =>
      rw [hhomes] at houter htypes
      rcases hvalues.layers with hl | ⟨hne, -⟩
      · rw [hl]; exact houter
      · exact absurd (List.map_eq_nil_iff.1 htypes) hne
  | cons home homes =>
      rw [hhomes] at houter htypes
      have hlen : below.length = (root.slotsBelow (home :: homes)).length := by
        rw [← htypes, List.length_map]
      rcases hvalues.layers with hl | ⟨-, hl⟩
      · rw [hl]; exact houter.cons _
      · rw [hl, hlen]; exact houter.cons_cons _

theorem outer_sublist (hp : p.OfRecipe root) (h : Enclosing root frames below outer) :
    outer.Sublist (root.bottoms (homes frames).tail) := by
  induction h with
  | outermost => exact List.Sublist.refl _
  | nested hpart hf hactive hinner henclosing hacc htypes ih =>
      rw [homes_nested hp hpart hactive hinner, List.tail_cons]
      exact henclosing.layers_sublist hp ih hacc

theorem bottoms_pairwise (hp : p.OfRecipe root) (h : Enclosing root frames below outer) :
    (root.bottoms (homes frames)).Pairwise (· > ·) := by
  induction h with
  | outermost => exact .nil
  | @nested before flag start scopes f inner frames acc below outer stack hpart hf hactive hinner
      henclosing hacc htypes ih =>
      rw [homes_nested hp hpart hactive hinner]
      refine .cons (fun n hn => ?_) ih
      have hle := Recipe.le_of_mem_bottoms hn
      have hslots : root.slotsBefore f.index = before.pending := by
        rw [hf]; exact hpart.slotsBefore_own
      have hpos : 0 < before.pending.length := List.length_pos_iff.2 before.pending_ne_nil
      rw [Recipe.slotsBelow, List.length_append, List.length_reverse, hslots]
      omega

end Enclosing

/-- The values and layers of a machine whose innermost instance stands at a part. -/
theorem Running.shape (hp : p.OfRecipe root) (hpart : root.Part r start scopes)
    {types : List (ValueType κ)} {frames : List (Frame p)} {values : Accumulator κ}
    (h : Running root scopes types frames values) :
    values.cells.toList.map Cell.type = root.slotsBelow (homes frames) ++ types.reverse ∧
      values.layers.Pairwise (· > ·) ∧ values.layers.Sublist (root.bottoms (homes frames)) := by
  obtain ⟨rfl, hinner, henclosing, hvalues, rfl⟩ := h
  rw [homes_append, homes_inner hp hpart hinner, List.nil_append]
  have hlayers := henclosing.layers_sublist hp (henclosing.outer_sublist hp) hvalues
  refine ⟨?_, (henclosing.bottoms_pairwise hp).sublist hlayers, hlayers⟩
  rw [hvalues.cells, List.map_append, henclosing.types_eq hp, List.map_reverse]

theorem exists_decoding_of_pending {m next : Machine p} {bytes rest : Bytes}
    (h : p.decoder.Ends m bytes (.reached .pending next rest)) :
    ∃ index flight flight', next.phase = .decoding index flight ∧
      ((p.stage index).action.step flight').request? ≠ none := by
  obtain ⟨last, n, resume, bytes', hreq, rfl⟩ := h.exists_request
  obtain ⟨phase, frames, values⟩ := last
  obtain ⟨index, flight, hphase⟩ := exists_decoding_of_request hreq
  obtain rfl : phase = .decoding index flight := hphase
  have hgraft := step_working index frames values flight
  rw [working] at hgraft
  have hreq' : (step ⟨.decoding index flight, frames, values⟩).request? = some (n, resume) := hreq
  rw [hgraft] at hreq'
  cases hs : (p.stage index).action.step flight using Step.casesRequest with
  | request step k resume' hr =>
      subst hs
      rw [Step.request?_graft hr] at hreq'
      cases hreq'
      exact ⟨index, _, flight, rfl, by rw [hr]; exact Option.some_ne_none _⟩
  | tick => rw [hs] at hreq'; cases hreq'
  | done => rw [hs] at hreq'; cases hreq'
  | fail => rw [hs] at hreq'; cases hreq'
  | broken => rw [hs] at hreq'; cases hreq'

/-- With an action in flight, the machine holds one value for each slot that is pending where its
instances stand, less what the action has taken. -/
theorem Coherent.shape (hp : p.OfRecipe root) {m : Machine p} (h : Coherent root m)
    {index : Fin p.size} {flight : (p.stage index).action.Flight}
    (hphase : m.phase = .decoding index flight) :
    m.values.cells.toList.map Cell.type = root.slotsBelow (homes m.frames) ++
        ((p.stage index).action.leaves (root.slotsBefore index)).reverse ∧
      m.values.layers.Pairwise (· > ·) ∧
      m.values.layers.Sublist (root.bottoms (homes m.frames)) := by
  cases h with
  | decoding hpart hindex hrun =>
      cases hphase
      have hshape := hrun.shape hp hpart
      have hslots : root.slotsBefore index = _ := (congrArg _ hindex).trans hpart.slotsBefore_own
      rw [hp.stage_eq hpart hindex, hslots, homes_append, homes_frame?, List.nil_append]
      exact hshape
  | headed => cases hphase
  | left => cases hphase
  | arriving => cases hphase
  | ended => cases hphase
  | entering => cases hphase
  | failing => cases hphase
  | answering => cases hphase

/-- A nested instance at its end holds one value, and gives it to the instance around it. -/
theorem Coherent.ends_nested (hp : p.OfRecipe root) {f : Frame p} {frames : List (Frame p)}
    {values : Accumulator κ} {i : Nat}
    (h : Coherent root ⟨.arriving i, f :: frames, values⟩) (hend : p.size ≤ i) :
    ∃ below outer value after,
      below.map Cell.type = root.slotsBelow (f.index.val :: homes frames) ∧
      outer.Sublist (root.bottoms (homes frames)) ∧
      values.cells.toList = below ++ [⟨whole, value⟩] ∧
      (values.layers = outer ∨ values.layers = below.length :: outer) ∧
      MovesTo ⟨.arriving i, f :: frames, values⟩ ⟨.leaving f.index, frames, after⟩ ∧
      after.cells.toList = below ++ [⟨.option whole, some value⟩] ∧ after.layers = outer ∧
      after.cursor = after.layerStart := by
  generalize hm : (⟨.arriving i, f :: frames, values⟩ : Machine p) = m at h
  cases h with
  | arriving hpart hi =>
      cases hm
      have hlt := hpart.own_lt
      have hsize := hp.size_eq
      omega
  | ended hi hrun =>
      cases hm
      obtain ⟨hframes, hinner, henclosing, hvalues, htypes⟩ := hrun
      obtain rfl := List.map_eq_nil_iff.1 hinner
      rw [List.nil_append] at hframes
      subst hframes
      obtain ⟨value, rfl⟩ := Cell.exists_of_single (htypes.trans hp.single)
      have hbelow := henclosing.types_eq hp
      have houter := henclosing.outer_sublist hp
      cases henclosing with
      | @nested before flag start scopes _ inner enclosing acc below outer stack hpart hf hactive
          hheads henclosing' hacc htypes' =>
          have hhomes := homes_append inner enclosing
          rw [homes_inner hp hpart hheads, List.nil_append] at hhomes
          rw [homes_nested hp hpart hactive hheads] at hbelow houter
          obtain ⟨after, hlayers, hafter, hmoves⟩ := recursion_ends _ hacc hactive hvalues hend
          rw [hhomes]
          refine ⟨_, _, value, after, hbelow, houter, hvalues.cells, ?_, hmoves, ?_, hlayers,
            hafter.cursor⟩
          · rcases hvalues.layers with hl | ⟨-, hl⟩
            · exact .inl hl
            · exact .inr hl
          · rw [hafter.cells, List.reverse_cons, List.append_assoc]
  | decoding => cases hm
  | headed => cases hm
  | left => cases hm
  | entering => cases hm
  | failing => cases hm
  | answering => cases hm

end Machine

/-! ## The property -/

open Machine in
/-- A suspended program holds, bottom to top, one value of the right type for every slot that is
pending where its instances stand, less the value that a suspended replacement has taken; its open
layers strictly increase, and each starts where a nested instance does.  A nested instance at its
end holds one value above those of the instances around it, which get it as the value of their
recursion, with all their values and layers as they were, whether the instance has a layer or not.
-/
theorem Recipe.Accepted.instances_isolated (h : root.Accepted) (hreads : root.ReadsPending)
    {maxDepth : Nat} (hp : root.assemble maxDepth = .ok p) {m : Machine p}
    (hready : p.decoder.Ready m) (bytes : Bytes) :
    (∀ next rest, p.decoder.Ends m bytes (.reached .pending next rest) →
      ∃ index flight, next.phase = .decoding index flight ∧
        next.values.cells.toList.map Cell.type = root.slotsBelow (homes next.frames) ++
          ((p.stage index).action.untaken (root.slotsBefore index)).reverse ∧
        next.values.layers.Pairwise (· > ·) ∧
        next.values.layers.Sublist (root.bottoms (homes next.frames))) ∧
    ∀ i f frames values rest, p.size ≤ i →
      p.decoder.Visits m bytes ⟨.arriving i, f :: frames, values⟩ rest →
      ∃ below outer value after,
        below.map Cell.type = root.slotsBelow (f.index.val :: homes frames) ∧
        outer.Sublist (root.bottoms (homes frames)) ∧
        values.cells.toList = below ++ [⟨whole, value⟩] ∧
        (values.layers = outer ∨ values.layers = below.length :: outer) ∧
        MovesTo ⟨.arriving i, f :: frames, values⟩ ⟨.leaving f.index, frames, after⟩ ∧
        after.cells.toList = below ++ [⟨.option whole, some value⟩] ∧ after.layers = outer ∧
        after.cursor = after.layerStart := by
  have hof := h.ofRecipe hp
  constructor
  · intro next rest hends
    obtain ⟨index, flight, flight', hphase, hreq⟩ := exists_decoding_of_pending hends
    have hcoherent : Coherent root next :=
      coherent_of_ready hof hreads (.decoded hready hends (by simp))
    have hshape := hcoherent.shape hof hphase
    rw [Action.leaves_eq_untaken hreq] at hshape
    exact ⟨index, flight, hphase, hshape⟩
  · intro i f frames values rest hend hvisits
    exact (coherent_of_visits hof hreads hready hvisits).ends_nested hof hend

open Machine in
/-- A tree whose data ends inside the first subtree: two instances hold a value each, and the nested
one has a layer. -/
theorem nodeCount_suspended :
    ∃ (p : Program Empty .size) (next : Machine p), Recipe.nodeCount.assemble 8 = .ok p ∧
      p.decoder.Ends p.decoder.start ([7, 1, 8] : Bytes) (.reached .pending next []) ∧
      homes next.frames = [1] ∧ next.values.cells.toList.map Cell.type = [.uint8, .uint8] ∧
      next.values.layers.Sublist (Recipe.nodeCount.bottoms [1]) := by
  obtain ⟨p, hp, next, hnext, hhomes, hslots⟩ : ∃ p, Recipe.nodeCount.assemble 8 = .ok p ∧
      ∃ next, p.decoder.Ends p.decoder.start ([7, 1, 8] : Bytes) (.reached .pending next []) ∧
        homes next.frames = [1] ∧ ∀ index flight, next.phase = .decoding index flight →
          (p.stage index).action.untaken (Recipe.nodeCount.slotsBefore index) = [.uint8] := by
    refine ⟨_, rfl, _, ⟨by simp, 20, rfl⟩, rfl, ?_⟩
    intro index flight hphase
    cases hphase
    rfl
  have hisolated := Recipe.nodeCount_accepted.instances_isolated Recipe.nodeCount_readsPending hp
    .fresh [7, 1, 8]
  obtain ⟨index, flight, hphase, htypes, -, hlayers⟩ := hisolated.1 next [] hnext
  rw [hhomes, hslots index flight hphase] at htypes
  rw [hhomes] at hlayers
  exact ⟨p, next, hp, hnext, hhomes, htypes, hlayers⟩

end Piecemeal
