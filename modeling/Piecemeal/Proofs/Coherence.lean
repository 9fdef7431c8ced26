/-
# The invariant of the machine

A machine that runs the program of a recipe is a stack of instances: the outermost one, and one
more for every recursion that has started the program again.  Each stands at a part of the recipe,
inside the scopes around that part, and holds the values that are pending there.

  * `Enclosing root frames below outer`: the instances that wait for the innermost one.  Each of
    them waits at a recursion, its frames are those of the scopes around it with the recursion
    itself on top, and the values it holds lie `below`.
  * `Running root scopes types frames values`: the innermost one as well.  It is inside `scopes`,
    and holds values of these types and no others.
  * `Coherent root m`: where in the recipe it stands, with one case for each thing the machine may
    be about to do.

`Coherent.keeps` is the step lemma: a coherent machine goes on to coherent machines, and the only
misuse that it can come upon is one of a decoder that it runs.

    hp : p.OfRecipe root → Coherent root m → m.step.Keeps (Coherent root) (FlightBroken m)

Where the recipe goes on behind a part is settled beforehand, `Recipe.Part.exists_next`: at the
next part, at the end of the scope around it, or at the end of the recipe.  So `keeps_left` has
three cases, and a nested instance whose end is reached comes back to the recursion it belongs to,
`keeps_ended`.  From the step follow the runs, in the middle of a call and between the calls of any
history, `coherent_of_visits` and `coherent_of_ready`.
-/
import Piecemeal.Proofs.Histories
import Piecemeal.Proofs.Moves
import Piecemeal.Proofs.Typing

namespace Piecemeal

variable {κ : Type} [Atom κ] {whole : ValueType κ} {p : Program κ whole}
  {root r : Recipe κ whole} {start : Nat} {scopes : List Nat}

/-! ## Parts and scopes -/

/-- What follows a part: the next part of the same body, the end of the recipe, or the end of the
scope that the part is the whole body of. -/
theorem Recipe.Part.exists_next (h : root.Part r start scopes) :
    (∃ next, root.Part next start scopes ∧ next.lead = r.size ∧ next.waiting = r.pending ∧
      r.size < next.size) ∨
    (r = root ∧ start = 0 ∧ scopes = []) ∨
    ∃ head heads, start = head + 1 ∧ scopes = head :: heads ∧
      ((∃ type flag, root.Part (r.optional type flag) head heads) ∨
        ∃ element result bound collector,
          root.Part (r.repetition element result bound collector) head heads) := by
  cases h with
  | whole => exact .inr (.inl ⟨rfl, rfl, rfl⟩)
  | act h => exact .inl ⟨_, h, rfl, rfl, Nat.lt_succ_self _⟩
  | skip h => exact .inl ⟨_, h, rfl, rfl, Nat.lt_succ_self _⟩
  | recur h => exact .inl ⟨_, h, rfl, rfl, Nat.lt_succ_self _⟩
  | optional h => exact .inr (.inr ⟨_, _, rfl, rfl, .inl ⟨_, _, h⟩⟩)
  | repetition h => exact .inr (.inr ⟨_, _, rfl, rfl, .inr ⟨_, _, _, _, h⟩⟩)

namespace Program.OfRecipe

theorem stage_eq (hp : p.OfRecipe root) (hpart : root.Part r start scopes) {index : Fin p.size}
    (hindex : index.val = start + r.lead) : p.stage index = r.ownStage start := by
  obtain ⟨own, hown, hstage⟩ := hp.exists_own hpart
  obtain rfl : index = own := Fin.ext (hindex.trans hown.symm)
  exact hstage

theorem exists_active (hp : p.OfRecipe root) (hpart : root.Part r start scopes) {f : Frame p}
    (hindex : f.index.val = start + r.lead) {scope : Scope κ}
    (hscope : (r.ownStage start).scope = some scope) : ∃ memory, f.active = ⟨scope, memory⟩ :=
  Stage.exists_active (by rw [hp.stage_eq hpart hindex, hscope]) f.memory

theorem passes (hp : p.OfRecipe root) {head : Nat} {heads : List Nat}
    (hpart : root.Part r start (head :: heads)) {f : Frame p} (hf : f.index.val = head) {i : Nat}
    (hlow : start ≤ i) (hhigh : i + 1 < start + r.size) : f.Passes i := by
  obtain ⟨last, hhead, hlast, hscope⟩ := hpart.exists_scope rfl
  have hi : head < i := Nat.lt_of_lt_of_le hhead hlow
  have hi' : i < last := by omega
  rcases hscope with ⟨body, type, flag, hpart', rfl⟩ |
    ⟨body, element, result, bound, collector, hpart', rfl⟩
  · obtain ⟨memory, hactive⟩ := hp.exists_active hpart' hf rfl
    exact Machine.optional_passes hactive hi hi'
  · obtain ⟨memory, hactive⟩ := hp.exists_active hpart' hf rfl
    exact Machine.repetition_passes hactive hi hi'

end Program.OfRecipe

/-! ## Instances -/

namespace Machine

/-- The frames of the instances that wait for an instance nested in them, with the values that they
hold and the layers that are open. -/
inductive Enclosing (root : Recipe κ whole) : List (Frame p) → List (Cell κ) → List Nat → Prop
  | outermost : Enclosing root [] [] []
  | nested {before : Recipe κ whole} {flag : Decoder Bool} {start : Nat} {scopes : List Nat}
      {f : Frame p} {inner frames : List (Frame p)} {acc : Accumulator κ} {below : List (Cell κ)}
      {outer : List Nat} {stack : List (Cell κ)} :
      root.Part (before.recur flag) start scopes → f.index.val = start + before.size →
      f.active = ⟨⟨.recursion whole, ⟨f.index, f.index⟩⟩, some (acc.layers.length + 1)⟩ →
      inner.map (·.index.val) = scopes → Enclosing root frames below outer →
      acc.Holds below outer stack → stack.map Cell.type = before.pending →
      Enclosing root (f :: (inner ++ frames)) (below ++ stack.reverse) acc.layers

theorem Enclosing.passes {frames : List (Frame p)} {below : List (Cell κ)} {outer : List Nat}
    (h : Enclosing root frames below outer) (i : Nat) : ∀ f ∈ frames.head?, f.Passes i := by
  cases h with
  | outermost => exact fun f hf => nomatch hf
  | nested _ _ hactive =>
      intro f hf
      cases hf
      exact recursion_passes hactive i

/-- The innermost instance is inside the scopes with these heads, and holds values of these types,
latest first. -/
inductive Running (root : Recipe κ whole) (scopes : List Nat) (types : List (ValueType κ))
    (frames : List (Frame p)) (values : Accumulator κ) : Prop
  | intro {inner enclosing : List (Frame p)} {below : List (Cell κ)} {outer : List Nat}
      {stack : List (Cell κ)} :
      frames = inner ++ enclosing → inner.map (·.index.val) = scopes →
      Enclosing root enclosing below outer → values.Holds below outer stack →
      stack.map Cell.type = types → Running root scopes types frames values

namespace Running

variable {types : List (ValueType κ)} {frames : List (Frame p)} {values : Accumulator κ}

theorem scopes_eq_nil (h : Running root scopes types ([] : List (Frame p)) values) :
    scopes = [] := by
  obtain ⟨hframes, hscopes, -, -, -⟩ := h
  obtain ⟨rfl, -⟩ := List.append_eq_nil_iff.1 hframes.symm
  exact hscopes.symm

theorem passes (h : Running root scopes types frames values) (hp : p.OfRecipe root)
    (hpart : root.Part r start scopes) {i : Nat} (hlow : start ≤ i)
    (hhigh : i + 1 < start + r.size) : ∀ f ∈ frames.head?, f.Passes i := by
  obtain @⟨inner, enclosing, below, outer, stack, rfl, hscopes, henclosing, -, -⟩ := h
  cases inner with
  | nil => exact henclosing.passes i
  | cons f inner =>
      subst hscopes
      intro f' hf'
      cases hf'
      exact hp.passes hpart rfl hlow hhigh

/-- Outside of all scopes an instance goes on to its end. -/
theorem passes_of_nil (h : Running root [] types frames values) (i : Nat) :
    ∀ f ∈ frames.head?, f.Passes i := by
  obtain ⟨rfl, hscopes, henclosing, -, -⟩ := h
  obtain rfl := List.map_eq_nil_iff.1 hscopes
  exact henclosing.passes i

theorem exists_arrive {pending : List (ValueType κ)}
    (h : Running root scopes pending frames values) (action : Action κ)
    (hfits : action.Fits pending) (hreads : action.ReadsPending pending) :
    ∃ flight values', action.arrive values = .ok (flight, values') ∧
      Running root scopes (action.leaves pending) frames values' := by
  obtain ⟨hframes, hscopes, henclosing, hvalues, rfl⟩ := h
  obtain ⟨flight, values', harrive, hvalues'⟩ := action.exists_arrive hfits hreads hvalues
  exact ⟨flight, values', harrive, hframes, hscopes, henclosing, hvalues', action.map_leaves _ _⟩

theorem inside {f : Frame p} {head : Nat} {inner enclosing : List (Frame p)}
    {below : List (Cell κ)} {outer : List Nat} (hf : f.index.val = head)
    (hscopes : inner.map (·.index.val) = scopes) (henclosing : Enclosing root enclosing below outer)
    (hvalues : values.Holds below outer []) :
    Running root (head :: scopes) [] (f :: (inner ++ enclosing)) values := by
  subst hf hscopes
  exact .intro List.cons_append.symm rfl henclosing hvalues rfl

theorem pushCell (h : Running root scopes types frames values) (cell : Cell κ) :
    Running root scopes (cell.type :: types) frames (values.pushCell cell) := by
  obtain ⟨hframes, hscopes, henclosing, hvalues, rfl⟩ := h
  exact ⟨hframes, hscopes, henclosing, hvalues.pushCell cell, rfl⟩

end Running

/-! ## Coherence -/

/-- The machine stands somewhere in the recipe, and holds the values that are pending there. -/
inductive Coherent (root : Recipe κ whole) : Machine p → Prop
  | decoding {r : Recipe κ whole} {start : Nat} {scopes : List Nat} {index : Fin p.size}
      {flight : (p.stage index).action.Flight} {frames : List (Frame p)} {values : Accumulator κ} :
      root.Part r start scopes → index.val = start + r.lead →
      Running root scopes ((r.ownStage start).action.leaves r.waiting) frames values →
      Coherent root ⟨.decoding index flight, (frame? index).toList ++ frames, values⟩
  /-- The head of a scope is complete. -/
  | headed {r : Recipe κ whole} {start : Nat} {scopes : List Nat} {i : Nat} {scope : Scope κ}
      {f : Frame p} {frames : List (Frame p)} {values : Accumulator κ} :
      root.Part r start scopes → i = start + r.lead → f.index.val = i →
      (r.ownStage start).scope = some scope → f.active = ⟨scope, scope.rule.fresh⟩ →
      Running root scopes (r.yields start) frames values →
      Coherent root ⟨.leaving i, f :: frames, values⟩
  /-- A part is complete. -/
  | left {r : Recipe κ whole} {start : Nat} {scopes : List Nat} {i : Nat}
      {frames : List (Frame p)} {values : Accumulator κ} :
      root.Part r start scopes → i + 1 = start + r.size →
      Running root scopes r.pending frames values → Coherent root ⟨.leaving i, frames, values⟩
  | arriving {r : Recipe κ whole} {start : Nat} {scopes : List Nat} {i : Nat}
      {frames : List (Frame p)} {values : Accumulator κ} :
      root.Part r start scopes → i = start + r.lead →
      Running root scopes r.waiting frames values → Coherent root ⟨.arriving i, frames, values⟩
  /-- The innermost instance is at its end. -/
  | ended {i : Nat} {frames : List (Frame p)} {values : Accumulator κ} :
      i = root.size → Running root [] root.pending frames values →
      Coherent root ⟨.arriving i, frames, values⟩
  | entering {r : Recipe κ whole} {start : Nat} {scopes : List Nat} {index : Fin p.size}
      {frames : List (Frame p)} {values : Accumulator κ} :
      root.Part r start scopes → index.val = start + r.lead →
      Running root scopes r.waiting frames values → Coherent root ⟨.entering index, frames, values⟩
  | failing {index : Fin p.size} {flight : (p.stage index).action.Flight} {error : DecodeError}
      {frames : List (Frame p)} {values : Accumulator κ} :
      Coherent root ⟨.failing index flight error, frames, values⟩
  | answering {value : whole.Carrier} {frames : List (Frame p)} {values : Accumulator κ} :
      Coherent root ⟨.answering value, frames, values⟩

/-- The machine has come upon a misuse of the decoder that it runs. -/
def FlightBroken (m : Machine p) (misuse : Misuse) : Prop :=
  ∃ index flight, m.phase = .decoding index flight ∧
    (p.stage index).action.step flight = .broken misuse

theorem MovesTo.keeps {m next : Machine p} {P : Machine p → Prop} {Q : Misuse → Prop}
    (h : m.MovesTo next) (hnext : P next) : m.step.Keeps P Q := by
  obtain ⟨events, hstep⟩ := h
  rw [hstep]
  exact hnext

variable {frames : List (Frame p)} {values : Accumulator κ} {i : Nat}

theorem coherent_left (hpart : root.Part r start scopes) (hi : i + 1 = start + r.size)
    (hrun : Running root scopes r.pending frames values) :
    Coherent root (left i frames values) := by
  cases frames with
  | cons f frames => exact .left hpart hi hrun
  | nil =>
      have hscopes := hrun.scopes_eq_nil
      rcases hpart.exists_next with ⟨next, hnext, hlead, hwaiting, -⟩ | ⟨rfl, rfl, rfl⟩ |
        ⟨head, heads, -, hheads, -⟩
      · exact .arriving hnext (by omega) (by rwa [hwaiting])
      · exact .ended (by omega) hrun
      · cases hheads.symm.trans hscopes

theorem coherent_body (hpart : root.Part r start scopes)
    (hrun : Running root scopes [] frames values) :
    Coherent root ⟨.arriving start, frames, values⟩ := by
  obtain ⟨first, hfirst, hlead, hwaiting⟩ := hpart.exists_leftmost
  exact .arriving hfirst (by rw [hlead]; rfl) (by rwa [hwaiting])

/-- The head of a repetition has left the number of elements, or nothing. -/
theorem exists_elementCount {body : Recipe κ whole} {element result : ValueType κ}
    {bound : Bound element.Carrier} {collector : Collector element.Carrier result.Carrier}
    {below : List (Cell κ)} {outer : List Nat} {stack : List (Cell κ)}
    (hvalues : values.Holds below outer stack)
    (htypes : stack.map Cell.type =
      (body.repetition element result bound collector).yields start) :
    ∃ target counted, Rule.elementCount values bound = (.ok target, counted) ∧
      counted.Holds below outer [] := by
  cases bound with
  | times n =>
      obtain rfl := List.map_eq_nil_iff.1 htypes
      exact ⟨some n, values, rfl, hvalues⟩
  | prefixed size =>
      obtain ⟨n, rfl⟩ := Cell.exists_of_single htypes
      obtain ⟨counted, hpop, hcounted⟩ := hvalues.pop_mk .size n
      exact ⟨some n, counted, by simp only [Rule.elementCount, hpop], hcounted⟩
  | whileHolds predicate addLast =>
      obtain rfl := List.map_eq_nil_iff.1 htypes
      exact ⟨none, values, rfl, hvalues⟩

/-! ## Steps -/

section Steps

variable {Q : Misuse → Prop}

theorem keeps_recur {before : Recipe κ whole} {flag : Decoder Bool} {f : Frame p}
    {inner enclosing : List (Frame p)} {below : List (Cell κ)} {outer : List Nat}
    {stack : List (Cell κ)} (hpart : root.Part (before.recur flag) start scopes)
    (hf : f.index.val = start + before.size)
    (hactive : f.active = ⟨⟨.recursion whole, ⟨start + before.size, start + before.size⟩⟩, none⟩)
    (hheads : inner.map (·.index.val) = scopes) (henclosing : Enclosing root enclosing below outer)
    (hvalues : values.Holds below outer stack)
    (htypes : stack.map Cell.type = .bool :: before.pending) :
    (step ⟨.leaving (start + before.size), f :: (inner ++ enclosing), values⟩).Keeps
      (Coherent root) Q := by
  obtain ⟨flag, stack, rfl, hrest⟩ := Cell.exists_of_types htypes
  cases flag with
  | false =>
      obtain ⟨values', hvalues', hmoves⟩ := recursion_unset hactive hvalues
      refine hmoves.keeps (coherent_left hpart rfl ⟨rfl, hheads, henclosing, hvalues', ?_⟩)
      exact congrArg (List.cons _) hrest
  | true =>
      have hne : stack ≠ [] := by
        rintro rfl
        exact before.pending_ne_nil hrest.symm
      obtain ⟨acc, hacc, f', hf', hactive', values', hvalues', hmoves⟩ :=
        recursion_set hactive hne hvalues
      have hindex : f'.index.val = start + before.size := (congrArg Fin.val hf').trans hf
      refine hmoves.keeps
        (coherent_body .whole ⟨(List.nil_append _).symm, rfl, ?_, hvalues', rfl⟩)
      exact .nested hpart hindex (by rw [hactive', hindex]) hheads henclosing hacc hrest

theorem keeps_headed {scope : Scope κ} {f : Frame p} (hpart : root.Part r start scopes)
    (hi : i = start + r.lead) (hf : f.index.val = i)
    (hscope : (r.ownStage start).scope = some scope)
    (hactive : f.active = ⟨scope, scope.rule.fresh⟩)
    (hrun : Running root scopes (r.yields start) frames values) :
    (step ⟨.leaving i, f :: frames, values⟩).Keeps (Coherent root) Q := by
  obtain @⟨inner, enclosing, below, outer, stack, rfl, hheads, henclosing, hvalues, htypes⟩ := hrun
  cases r with
  | first => cases hscope
  | act => cases hscope
  | skip => cases hscope
  | recur before flag =>
      cases hscope
      subst hi
      exact keeps_recur hpart hf hactive hheads henclosing hvalues htypes
  | optional body type flag =>
      cases hscope
      subst hi
      have hflag : stack.map Cell.type = [.bool] := htypes
      obtain ⟨flag, rfl⟩ := Cell.exists_of_single hflag
      cases flag with
      | false =>
          obtain ⟨values', hvalues', hmoves⟩ := optional_unset hactive hvalues
          exact hmoves.keeps (coherent_left hpart rfl ⟨rfl, hheads, henclosing, hvalues', rfl⟩)
      | true =>
          obtain ⟨f', hf', hactive', values', hvalues', hmoves⟩ := optional_set hactive hvalues
          exact hmoves.keeps (coherent_body hpart.optional
            (.inside ((congrArg Fin.val hf').trans hf) hheads henclosing hvalues'))
  | repetition body element result bound collector =>
      cases hscope
      subst hi
      obtain ⟨target, counted, hcount, hcounted⟩ :=
        exists_elementCount hvalues htypes
      by_cases htarget : target = some 0
      · subst htarget
        obtain ⟨values', hvalues', hmoves⟩ := repetition_none hactive hcount hcounted
        exact hmoves.keeps (coherent_left hpart rfl ⟨rfl, hheads, henclosing, hvalues', rfl⟩)
      · obtain ⟨f', hf', hactive', hmoves⟩ := repetition_begin hactive htarget hcount
        exact hmoves.keeps (coherent_body hpart.repetition
          (.inside ((congrArg Fin.val hf').trans hf) hheads henclosing hcounted))

variable (hp : p.OfRecipe root)

include hp

theorem keeps_entering (hreads : root.ReadsPending) {index : Fin p.size}
    (hpart : root.Part r start scopes) (hindex : index.val = start + r.lead)
    (hrun : Running root scopes r.waiting frames values) :
    (step ⟨.entering index, frames, values⟩).Keeps (Coherent root) Q := by
  have hstage := hp.stage_eq hpart hindex
  obtain ⟨flight, values', harrive, hrun'⟩ :=
    hrun.exists_arrive (p.stage index).action
      (by rw [hstage]; exact (hpart.fits hp.fits).own start)
      (by rw [hstage]; exact (hpart.readsPending hreads).own start)
  rw [hstage] at hrun'
  cases hscope : (p.stage index).scope with
  | none => exact (enter_room harrive (.inl hscope)).keeps (.decoding hpart hindex hrun')
  | some scope =>
      by_cases hdepth : frames.length < p.maxDepth
      · exact (enter_room harrive (.inr hdepth)).keeps (.decoding hpart hindex hrun')
      · exact (enter_tooDeep harrive hscope hdepth).keeps .failing

theorem coherent_landed {index : Fin p.size} (hpart : root.Part r start scopes)
    (hindex : index.val = start + r.lead) (cell : Cell κ)
    (htype : cell.type = (r.ownStage start).action.type)
    (hrun : Running root scopes ((r.ownStage start).action.leaves r.waiting) frames values) :
    Coherent root (landed index ((frame? index).toList ++ frames) values cell) := by
  have hstage := hp.stage_eq hpart hindex
  have hyields : Running root scopes (r.yields start) frames
      (if (p.stage index).stores then values.pushCell cell else values) := by
    rw [Recipe.yields, hstage]
    cases (r.ownStage start).stores with
    | true => rw [if_pos rfl, if_pos rfl, ← htype]; exact hrun.pushCell cell
    | false => exact hrun
  cases hscope : (r.ownStage start).scope with
  | none =>
      obtain ⟨hpending, hsize⟩ := r.yields_of_plain hscope
      have hframe : frame? index = none := frame?_eq_none (by rw [hstage, hscope])
      rw [hpending] at hyields
      rw [landed, hframe]
      exact .left hpart (by omega) hyields
  | some scope =>
      obtain ⟨f, hframe, hf, hactive⟩ := exists_frame ((congrArg Stage.scope hstage).trans hscope)
      rw [landed, hframe]
      exact .headed hpart hindex (by rw [hf]) hscope hactive hyields

theorem keeps_decoding {index : Fin p.size} {flight : (p.stage index).action.Flight}
    (hpart : root.Part r start scopes) (hindex : index.val = start + r.lead)
    (hrun : Running root scopes ((r.ownStage start).action.leaves r.waiting) frames values)
    (hbroken : ∀ misuse, (p.stage index).action.step flight = .broken misuse → Q misuse) :
    (step ⟨.decoding index flight, (frame? index).toList ++ frames, values⟩).Keeps
      (Coherent root) Q := by
  have hgraft := step_working index ((frame? index).toList ++ frames) values flight
  rw [working] at hgraft
  rw [hgraft]
  cases hs : (p.stage index).action.step flight with
  | read n resume => exact fun bytes _ => .decoding hpart hindex hrun
  | skip n resume => exact fun skipped _ => .decoding hpart hindex hrun
  | tick next events => exact .decoding hpart hindex hrun
  | done cell next =>
      have htype : cell.type = (r.ownStage start).action.type := by
        rw [Action.type_of_step_done hs, hp.stage_eq hpart hindex]
      exact coherent_landed hp hpart hindex cell htype hrun
  | fail error next => exact .failing
  | broken misuse => exact hbroken misuse hs

/-- A part is complete: the next one follows, or the scope around it is asked. -/
theorem keeps_left (hpart : root.Part r start scopes) (hi : i + 1 = start + r.size)
    (hrun : Running root scopes r.pending frames values) :
    (step ⟨.leaving i, frames, values⟩).Keeps (Coherent root) Q := by
  have hpos := r.size_pos
  rcases hpart.exists_next with ⟨next, hnext, hlead, hwaiting, hlt⟩ | ⟨rfl, rfl, rfl⟩ |
    ⟨head, heads, rfl, rfl, hscope⟩
  · have hpasses := hrun.passes hp hnext (i := i) (by omega) (by omega)
    exact (leave_on hpasses).keeps (.arriving hnext (by omega) (by rwa [hwaiting]))
  · exact (leave_on (hrun.passes_of_nil i)).keeps (.ended (by omega) hrun)
  · obtain @⟨inner, enclosing, below, outer, stack, rfl, hscopes, henclosing, hvalues, htypes⟩ := hrun
    obtain ⟨f, inner, rfl, hf, hheads⟩ := List.map_eq_cons_iff.1 hscopes
    rcases hscope with ⟨type, flag, hpart'⟩ | ⟨element, result, bound, collector, hpart'⟩
    · obtain ⟨memory, hactive⟩ := hp.exists_active hpart' hf rfl
      obtain ⟨value, rfl⟩ := Cell.exists_of_single (htypes.trans (hpart'.fits hp.fits).2)
      obtain rfl : i = head + r.size := by omega
      obtain ⟨values', hvalues', hmoves⟩ :=
        optional_last hactive (Nat.lt_add_of_pos_right hpos) hvalues
      exact hmoves.keeps
        (coherent_left hpart' rfl ⟨rfl, hheads, henclosing, hvalues', rfl⟩)
    · obtain ⟨memory, hactive⟩ := hp.exists_active hpart' hf rfl
      obtain ⟨value, rfl⟩ := Cell.exists_of_single (htypes.trans (hpart'.fits hp.fits).2)
      obtain rfl : i = head + r.size := by omega
      have hlt : head < head + r.size := Nat.lt_add_of_pos_right hpos
      cases hends : bound.endsAt value with
      | true =>
          obtain ⟨values', hvalues', hmoves⟩ := repetition_ends hactive hlt hvalues rfl hends
          exact hmoves.keeps (coherent_left hpart' rfl
            ⟨rfl, hheads, henclosing, hvalues', rfl⟩)
      | false =>
          cases hfull : ((memory.getD (Tally.start collector none)).add collector value).isFull with
          | true =>
              obtain ⟨values', hvalues', hmoves⟩ :=
                repetition_full hactive hlt hvalues rfl hends hfull
              exact hmoves.keeps (coherent_left hpart' rfl
                ⟨rfl, hheads, henclosing, hvalues', rfl⟩)
          | false =>
              obtain ⟨f', hf', hactive', values', hvalues', hmoves⟩ :=
                repetition_again hactive hlt hvalues rfl hends hfull
              exact hmoves.keeps (coherent_body hpart
                (.inside ((congrArg Fin.val hf').trans hf) hheads henclosing hvalues'))

/-- The innermost instance is at its end: the instance around it goes on, or the program is at its
end. -/
theorem keeps_ended (hi : p.size ≤ i) (hrun : Running root [] root.pending frames values) :
    (step ⟨.arriving i, frames, values⟩).Keeps (Coherent root) Q := by
  obtain ⟨rfl, hheads, henclosing, hvalues, htypes⟩ := hrun
  obtain rfl := List.map_eq_nil_iff.1 hheads
  obtain ⟨value, rfl⟩ := Cell.exists_of_single (htypes.trans hp.single)
  cases henclosing with
  | outermost =>
      obtain ⟨values', hmoves⟩ := arrive_last hvalues hi
      exact hmoves.keeps .answering
  | nested hpart hf hactive hheads' henclosing' hacc htypes' =>
      obtain ⟨values', -, hvalues', hmoves⟩ := recursion_ends _ hacc hactive hvalues hi
      refine hmoves.keeps
        (.left hpart (congrArg Nat.succ hf) ⟨rfl, hheads', henclosing', hvalues', ?_⟩)
      exact congrArg (List.cons _) htypes'

theorem Coherent.index_le {m : Machine p} (h : Coherent root m) : m.phase.index ≤ p.size := by
  have hsize := hp.size_eq
  cases h with
  | @decoding r start scopes index => exact Nat.le_of_lt index.isLt
  | @headed r start scopes i scope f frames values hpart hi =>
      have hlt := hpart.own_lt
      show i ≤ p.size
      omega
  | @left r start scopes i frames values hpart hi =>
      have hle := hpart.add_size_le
      show i ≤ p.size
      omega
  | @arriving r start scopes i frames values hpart hi =>
      have hlt := hpart.own_lt
      show i ≤ p.size
      omega
  | ended hi => exact Nat.le_of_eq (hi.trans hsize.symm)
  | @entering r start scopes index => exact Nat.le_of_lt index.isLt
  | @failing index => exact Nat.le_of_lt index.isLt
  | answering => exact Nat.zero_le _

variable (hreads : root.ReadsPending)

include hreads

theorem coherent_start : Coherent root (Machine.start p) := by
  obtain ⟨first, hpart, hlead, hwaiting⟩ :=
    Recipe.Part.exists_leftmost (.whole : root.Part root 0 [])
  have hindex : p.first.val = 0 + first.lead := by rw [hlead]; rfl
  have hstage := hp.stage_eq hpart hindex
  have hrun : Running root [] first.waiting ([] : List (Frame p)) .empty := by
    rw [hwaiting]
    exact ⟨(List.nil_append _).symm, rfl, .outermost, Accumulator.holds_empty, rfl⟩
  obtain ⟨flight, values, harrive, hrun'⟩ := hrun.exists_arrive (p.stage p.first).action
    (by rw [hstage]; exact (hpart.fits hp.fits).own 0)
    (by rw [hstage]; exact (hpart.readsPending hreads).own 0)
  rw [hstage] at hrun'
  have hstart : Machine.start p =
      ⟨.decoding p.first flight, (frame? p.first).toList ++ [], values⟩ := by
    simp only [Machine.start, harrive, List.append_nil]
  rw [hstart]
  exact .decoding hpart hindex hrun'

/-- A coherent machine goes on to coherent machines.  The only misuse that it can come upon is one
of the decoder that it runs. -/
theorem Coherent.keeps {m : Machine p} (h : Coherent root m) :
    m.step.Keeps (Coherent root) m.FlightBroken := by
  have hsize := hp.size_eq
  cases h with
  | decoding hpart hindex hrun =>
      exact keeps_decoding hp hpart hindex hrun fun misuse hs => ⟨_, _, rfl, hs⟩
  | headed hpart hi hf hscope hactive hrun =>
      exact keeps_headed hpart hi hf hscope hactive hrun
  | left hpart hi hrun => exact keeps_left hp hpart hi hrun
  | @arriving r start scopes i frames values hpart hi hrun =>
      obtain ⟨index, hindex, -⟩ := hp.exists_own hpart
      obtain rfl : i = index.val := hi.trans hindex.symm
      exact (arrive_step index frames values).keeps (.entering hpart hindex hrun)
  | ended hi hrun =>
      have hend : p.size ≤ _ := Nat.le_of_eq (hsize.trans hi.symm)
      exact keeps_ended hp hend hrun
  | entering hpart hindex hrun => exact keeps_entering hp hreads hpart hindex hrun
  | failing => trivial
  | answering => exact coherent_start hp hreads

theorem coherent_of_ready {m : Machine p} (h : p.decoder.Ready m) : Coherent root m :=
  h.keeps (fun _ hm => (hm.keeps hp hreads).mono (fun _ h => h) fun _ _ => trivial)
    (coherent_start hp hreads) fun _ => coherent_start hp hreads

theorem coherent_of_visits {m last : Machine p} {bytes rest : Bytes} (h : p.decoder.Ready m)
    (hvisits : p.decoder.Visits m bytes last rest) : Coherent root last :=
  hvisits.keeps (fun _ hm => (hm.keeps hp hreads).mono (fun _ h => h) fun _ _ => trivial)
    (coherent_of_ready hp hreads h)

end Steps

end Machine

end Piecemeal
