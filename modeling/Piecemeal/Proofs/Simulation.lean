/-
# Steps that do what a composite does

The decoder of a program runs a machine.  It has an action in flight, scopes that are asked where
to go on after every step, and one accumulator with the values of all instances on it.  The
composite of a recipe, made of adapters in `Piecemeal.Proofs.Composites`, has none of these.  Here
is what a single move of the machine has in common with a single adapter, stated each time as

    p.decoder.Enacts E b after m b.start

that is: from `m` on the machine shows what `b` shows, except for errors in `E`, and where `b`
answers a value the machine stands in a state that is right `after` the value.

  * **Actions.**  An action that fits the types of the stack arrives and enacts
    `action.composite stack`, or both are broken by the same misuse: `Action.exists_enacts`.  So a
    step enacts the composite of its action, `enacts_plain`, and the head of a scope its decoder,
    `enacts_head`.  Behind either the accumulator holds the stack that the action leaves.
  * **The limit.**  With `frames.length + room = maxDepth` the head of a scope is rejected exactly
    if the composite has no room, `enacts_roomed`.  `SameRoom` also allows the two limits to differ,
    if both errors are in `E`; that is what depth limits are compared by.
  * **From part to part.**  Where the scope around a part is `Quiet` the machine comes from behind
    one part, `Behind`, to the step of the next: `enacts_next` puts the machine on a part against
    `Decoder.andThen`.
  * **Repetitions.**  `Collecting` is the state between two elements.  `enacts_counting` leads there
    from the head, and `enacts_collecting` goes round: for each element the body is enacted, and
    `Collecting` holds again with the element added.
  * **The start.**  `Machine.start` is where arriving at the first step leads to in two steps,
    so the whole recipe may be treated as a part that begins at zero.

The parts themselves, by induction on the recipe, are the matter of `Piecemeal.Proofs.Adequacy`.
-/
import Piecemeal.Proofs.Coherence
import Piecemeal.Proofs.Composites

namespace Piecemeal

variable {κ : Type} [Atom κ] {E : DecodeError → Prop}

namespace Action

variable {below stack : List (Cell κ)} {outer : List Nat} {acc : Accumulator κ}

theorem enacts_flight (host : Decoder (Cell κ)) {type : ValueType κ} (d : Decoder type.Carrier)
    (wrap : d.State → host.State)
    (hstep : ∀ state, host.step (wrap state) = (d.step state).embed wrap wrap
      fun value state => .done ⟨type, value⟩ (wrap state)) (stack : List (Cell κ)) :
    host.Enacts E (d.map fun value => ⟨type, value⟩ :: stack)
      (fun cells s => ∃ cell last, cell.type = type ∧ host.step s = .done cell last ∧
        cells = cell :: stack)
      (wrap d.start) d.start := by
  refine (Decoder.Resembles.refl (E := E) d).hosted (Decoder.hosts_of_embed hstep)
    (Decoder.hosts_map (fun value => Cell.mk type value :: stack) d) ?_
  intro value s t last last' hs ht
  refine Decoder.enacts_of_done (Decoder.step_map _ ht) ⟨⟨type, value⟩, wrap last, rfl, ?_, rfl⟩
  rw [hstep, hs]
  rfl

/-- An action arrives and enacts its composite in flight, or it is as wrong as that. -/
theorem exists_enacts {action : Action κ} (hfits : action.Fits (stack.map Cell.type))
    (h : acc.Holds below outer stack) :
    (∃ flight acc', action.arrive acc = .ok (flight, acc') ∧
      acc'.Holds below outer (action.leaves stack) ∧
      (action.decoder flight).Enacts E (action.composite stack)
        (fun cells s => ∃ cell last, cell.type = action.type ∧ action.step s = .done cell last ∧
          cells = cell :: action.leaves stack)
        flight (action.composite stack).start) ∨
    ∃ misuse, action.arrive acc = .error misuse ∧ action.composite stack = .unmade misuse := by
  cases action with
  | decode type decoder =>
      refine .inl ⟨decoder.start, acc, rfl, h, ?_⟩
      exact enacts_flight ((Action.decode type decoder).decoder decoder.start) decoder id
        (fun _ => rfl) stack
  | replace source type choose =>
      obtain ⟨value, rest, rfl⟩ := Cell.exists_of_head? hfits
      obtain ⟨acc', harrive, hacc'⟩ := arrive_replace h
      refine .inl ⟨⟨value, (choose value).start⟩, acc', harrive, hacc', ?_⟩
      rw [composite, Decoder.topmost_mk]
      refine Decoder.enacts_constant_andThen ?_
      exact enacts_flight ((Action.replace source type choose).decoder _) (choose value)
        (⟨value, ·⟩) (fun _ => rfl) rest
  | follow source type choose =>
      obtain ⟨value, rest, rfl⟩ := Cell.exists_of_head? hfits
      refine .inl ⟨⟨value, (choose value).start⟩, acc, arrive_follow h, h, ?_⟩
      rw [composite, Decoder.topmost_mk]
      refine Decoder.enacts_constant_andThen ?_
      exact enacts_flight ((Action.follow source type choose).decoder _) (choose value) (⟨value, ·⟩)
        (fun _ => rfl) (⟨source, value⟩ :: rest)
  | reduce arity type reading =>
      obtain ⟨hpos, hle⟩ := hfits
      rw [List.length_map] at hle
      have harrive := arrive_reduce reading hpos hle h
      cases hvalue : reading.evaluate (stack.take arity).reverse with
      | ok result =>
          obtain ⟨value, rest⟩ := result
          rw [hvalue] at harrive
          obtain ⟨acc', hok, hacc'⟩ := harrive
          refine .inl ⟨value, acc', hok, hacc', ?_⟩
          rw [composite_reduce hvalue]
          refine Decoder.enacts_constant ?_ ()
          exact ⟨⟨type, value⟩, value, rfl, rfl, rfl⟩
      | error misuse =>
          rw [hvalue] at harrive
          exact .inr ⟨misuse, harrive, by simp only [composite, hvalue]⟩

theorem exists_arrive_of_nil {action : Action κ} (h : action.Fits []) (acc : Accumulator κ) :
    ∃ flight, action.arrive acc = .ok (flight, acc) := by
  cases action with
  | decode type decoder => exact ⟨decoder.start, rfl⟩
  | replace => cases h
  | follow => cases h
  | reduce arity type reading => exact absurd h.2 (Nat.not_le.2 h.1)

end Action

variable {whole : ValueType κ} {p : Program κ whole} {root r : Recipe κ whole}
  {start limit room : Nat} {scopes : List Nat}

/-- A program with so many active scopes has the room that a composite has.  If their limits are not
the same, it is no matter what comes of exceeding them. -/
def SameRoom (E : DecodeError → Prop) (maxDepth active limit room : Nat) : Prop :=
  (limit = maxDepth ∧ active + room = maxDepth) ∨ E (.depthLimit maxDepth) ∧ E (.depthLimit limit)

namespace Machine

variable {frames : List (Frame p)} {values : Accumulator κ} {below : List (Cell κ)}
  {outer : List Nat} {stack : List (Cell κ)} {last : Nat}

/-! ## Steps -/

theorem hosts_working (index : Fin p.size) (frames : List (Frame p)) (values : Accumulator κ)
    (start : (p.stage index).action.Flight) :
    p.decoder.Hosts ((p.stage index).action.decoder start) (working index frames values) := by
  refine Decoder.hosts_of_graft (step_working index frames values) ?_
  intro flight error next hstep
  exact ⟨rejecting index frames values error next, _, .single hstep, rfl⟩

theorem lands (index : Fin p.size) (frames : List (Frame p)) (values : Accumulator κ)
    {flight next : (p.stage index).action.Flight} {cell : Cell κ}
    (h : (p.stage index).action.step flight = .done cell next) :
    (working index frames values flight).MovesTo (landed index frames values cell) :=
  ⟨[], by rw [step_working, h]; rfl⟩

theorem enacts_entering (index : Fin p.size) (frames : List (Frame p))
    (hfits : (p.stage index).action.Fits (stack.map Cell.type))
    (hvalues : values.Holds below outer stack)
    (hroom : (p.stage index).scope = none ∨ frames.length < p.maxDepth) :
    p.decoder.Enacts E ((p.stage index).action.composite stack)
      (fun cells m => ∃ values', values'.Holds below outer
          (if (p.stage index).stores then cells else cells.tail) ∧
        cells.map Cell.type =
          (p.stage index).action.type :: (p.stage index).action.leaves (stack.map Cell.type) ∧
        m = ⟨.leaving index, (frame? index).toList ++ frames, values'⟩)
      ⟨.entering index, frames, values⟩ ((p.stage index).action.composite stack).start := by
  rcases Action.exists_enacts (E := E) hfits hvalues with
    ⟨flight, values', harrive, hvalues', henacts⟩ | ⟨misuse, harrive, hcomposite⟩
  · refine Decoder.Enacts.of_idles ?_ (enter_room harrive hroom).idles (.here _)
    refine henacts.hosted (hosts_working index _ values' flight) (.refl _) ?_
    rintro cells s t next ⟨cell, last, htype, hcell, rfl⟩ hdone
    have hland := lands index ((frame? index).toList ++ frames) values' hcell
    refine (Decoder.enacts_of_done hdone ⟨_, ?_, ?_, rfl⟩).of_idles hland.idles (.here t)
    · cases (p.stage index).stores with
      | true => exact hvalues'.pushCell cell
      | false => exact hvalues'
    · rw [List.map_cons, htype, Action.map_leaves]
  · rw [hcomposite]
    exact Decoder.enacts_unmade (.here _) (enter_broken harrive) ()

theorem enacts_plain (frames : List (Frame p)) {index : Fin p.size} {label : String}
    {stores : Bool} {action : Action κ}
    (hstage : p.stage index = ⟨label, stores, action, none⟩)
    (hfits : action.Fits (stack.map Cell.type)) (hvalues : values.Holds below outer stack) :
    p.decoder.Enacts E (action.composite stack)
      (fun cells m => ∃ values', values'.Holds below outer (if stores then cells else cells.tail) ∧
        cells.map Cell.type = action.type :: action.leaves (stack.map Cell.type) ∧
        m = ⟨.leaving index, frames, values'⟩)
      ⟨.entering index, frames, values⟩ (action.composite stack).start := by
  have hframe : frame? index = none := frame?_eq_none (by rw [hstage])
  have hrun := enacts_entering (E := E) index frames (by rw [hstage]; exact hfits) hvalues
    (.inl (by rw [hstage]))
  rw [hstage, hframe] at hrun
  exact hrun

section Head

variable {index : Fin p.size} {label : String} {type : ValueType κ} {d : Decoder type.Carrier}
  {scope : Scope κ}

/-- The head of a scope that there is room for: its value is on the stack, and its scope is active.
-/
theorem enacts_head {stores : Bool}
    (hstage : p.stage index = ⟨label, stores, .decode type d, some scope⟩)
    (hvalues : values.Holds below outer stack) (hroom : frames.length < p.maxDepth) :
    p.decoder.Enacts E d
      (fun value m => ∃ f values', f.index = index ∧ f.active = ⟨scope, scope.rule.fresh⟩ ∧
        values'.Holds below outer (if stores then ⟨type, value⟩ :: stack else stack) ∧
        m = ⟨.leaving index, f :: frames, values'⟩)
      ⟨.entering index, frames, values⟩ d.start := by
  obtain ⟨f, hframe, hf, hactive⟩ := exists_frame (p := p) (by rw [hstage])
  have hrun := enacts_entering (E := E) index frames (by rw [hstage]; trivial) hvalues
    (.inr hroom)
  rw [hstage, hframe] at hrun
  refine (Decoder.Enacts.of_map hrun).mono ?_
  rintro value m ⟨values', hvalues', -, rfl⟩
  exact ⟨_, .here _, f, values', hf, hactive, hvalues', rfl⟩

/-- Behind the limit the head of a scope is rejected, and so is the composite without room. -/
theorem enacts_roomed {action : Action κ} {stores : Bool}
    (hstage : p.stage index = ⟨label, stores, action, some scope⟩)
    (harrive : ∃ flight, action.arrive values = .ok (flight, values))
    (hlevel : SameRoom E p.maxDepth frames.length limit room) {β : Type} {inside : Decoder β}
    {after : β → Machine p → Prop}
    (h : ∀ room', room = room' + 1 → frames.length < p.maxDepth →
      SameRoom E p.maxDepth (frames.length + 1) limit room' →
      p.decoder.Enacts E inside after ⟨.entering index, frames, values⟩ inside.start) :
    p.decoder.Enacts E (.roomed limit room inside) after ⟨.entering index, frames, values⟩
      (Decoder.roomed limit room inside).start := by
  obtain ⟨flight, harrive⟩ : ∃ flight,
      (p.stage index).action.arrive values = .ok (flight, values) := by
    rw [hstage]
    exact harrive
  have hdeep : ¬ frames.length < p.maxDepth → MovesTo ⟨.entering index, frames, values⟩
      (rejecting index frames values (.depthLimit p.maxDepth) flight) :=
    enter_tooDeep harrive (by rw [hstage])
  cases room with
  | zero =>
      rcases hlevel with ⟨rfl, hroom⟩ | ⟨-, hlimit⟩
      · exact Decoder.enacts_reject (hdeep (by omega)).idles rfl ()
      · exact Decoder.enacts_of_tracks (.second ⟨(), _, (), .here _, rfl, hlimit⟩)
  | succ room =>
      by_cases hroom : frames.length < p.maxDepth
      · refine h room rfl hroom ?_
        rcases hlevel with ⟨rfl, hsum⟩ | hlimits
        · exact .inl ⟨rfl, by omega⟩
        · exact .inr hlimits
      · rcases hlevel with ⟨-, hsum⟩ | ⟨hlimit, -⟩
        · omega
        · exact Decoder.enacts_of_tracks
            (.first ⟨_, _, _, (hdeep hroom).idles, rfl, hlimit⟩)

end Head

/-! ## Between parts -/

/-- The scope around these steps has nothing to say between them. -/
def Quiet (frames : List (Frame p)) (start size : Nat) : Prop :=
  ∀ i, start ≤ i → i + 1 < start + size → ∀ f ∈ frames.head?, f.Passes i

theorem Quiet.mono {size size' : Nat} (h : Quiet frames start size) (hle : size' ≤ size) :
    Quiet frames start size' :=
  fun i hlow hhigh => h i hlow (by omega)

/-- The machine has left the last step of a part, and holds what the part leaves. -/
inductive Behind (r : Recipe κ whole) (start : Nat) (frames : List (Frame p))
    (below : List (Cell κ)) (outer : List Nat) (stack : List (Cell κ)) : Machine p → Prop
  | intro {last : Nat} {values : Accumulator κ} :
      last + 1 = start + r.size → values.Holds below outer stack →
      stack.map Cell.type = r.pending →
      Behind r start frames below outer stack (left last frames values)

theorem idles_arriving (values : Accumulator κ) (h : ∀ f ∈ frames.head?, f.Passes last) :
    p.decoder.Idles (left last frames values) ⟨.arriving (last + 1), frames, values⟩ := by
  cases frames with
  | nil => exact .here _
  | cons f frames => exact (leave_on h).idles

theorem idles_left (last : Nat) (frames : List (Frame p)) (values : Accumulator κ) :
    p.decoder.Idles ⟨.leaving last, frames, values⟩ (left last frames values) := by
  cases frames with
  | nil =>
      have hpasses : ∀ f ∈ ([] : List (Frame p)).head?, f.Passes last := fun f hf => nomatch hf
      exact (leave_on hpasses).idles
  | cons f frames => exact .here _

theorem enacts_next {before : Recipe κ whole} {m : Machine p} {β : Type}
    {after : β → Machine p → Prop} {b : Decoder (List (Cell κ))} {f : List (Cell κ) → Decoder β}
    (hp : p.OfRecipe root) (hpart : root.Part r start scopes) (hlead : r.lead = before.size)
    (hquiet : Quiet frames start r.size)
    (hbefore : p.decoder.Enacts E b (Behind before start frames below outer) m b.start)
    (hf : ∀ (index : Fin p.size) stack values, index.val = start + r.lead →
      p.stage index = r.ownStage start → values.Holds below outer stack →
      stack.map Cell.type = before.pending →
      p.decoder.Enacts E (f stack) after ⟨.entering index, frames, values⟩ (f stack).start) :
    p.decoder.Enacts E (b.andThen f) after m (b.andThen f).start := by
  refine hbefore.andThen ?_
  rintro stack m @⟨last, values, hlast, hvalues, htypes⟩
  obtain ⟨index, hindex, hstage⟩ := hp.exists_own hpart
  have hsize := r.lead_lt_size
  have hpos := before.size_pos
  have hstep : last + 1 = index.val := by omega
  have harriving := idles_arriving values (hquiet last (by omega) (by omega))
  rw [hstep] at harriving
  refine Decoder.Enacts.of_idles ?_ (harriving.trans (arrive_step index frames values).idles)
    (.here _)
  exact hf index stack values hindex hstage hvalues htypes

theorem enacts_arriving {β : Type} {after : β → Machine p → Prop} {b : Decoder β}
    (hp : p.OfRecipe root) (hpart : root.Part r start scopes) (hlead : r.lead = 0)
    (h : ∀ index : Fin p.size, index.val = start → p.stage index = r.ownStage start →
      p.decoder.Enacts E b after ⟨.entering index, frames, values⟩ b.start) :
    p.decoder.Enacts E b after ⟨.arriving start, frames, values⟩ b.start := by
  obtain ⟨index, hindex, hstage⟩ := hp.exists_own hpart
  rw [hlead] at hindex
  have harrive := (arrive_step index frames values).idles
  rw [hindex] at harrive
  exact (h index hindex hstage).of_idles harrive (.here _)

theorem behind_idles {index : Fin p.size} (hindex : index.val + 1 = start + r.size)
    (hvalues : values.Holds below outer stack) (htypes : stack.map Cell.type = r.pending) :
    ∃ m, p.decoder.Idles ⟨.leaving index, frames, values⟩ m ∧
      Behind r start frames below outer stack m :=
  ⟨_, idles_left index frames values, ⟨hindex, hvalues, htypes⟩⟩

/-! ## Repetitions -/

section Repetition

variable {element result : ValueType κ} {bound : Bound element.Carrier}
    {collector : Collector element.Carrier result.Carrier} {bounds : Bounds}

/-- The repetition has so many elements, and either is finished or decodes one more. -/
inductive Collecting (bound : Bound element.Carrier)
    (collector : Collector element.Carrier result.Carrier) (bounds : Bounds)
    (frames : List (Frame p)) (below : List (Cell κ)) (outer : List Nat)
    (tally : Tally collector.Container) : Machine p → Prop
  | finished {values : Accumulator κ} :
      tally.isFull = true → values.Holds below outer [⟨result, tally.finish collector⟩] →
      Collecting bound collector bounds frames below outer tally (left bounds.last frames values)
  | going {f : Frame p} {values : Accumulator κ} :
      tally.isFull = false →
      f.active = ⟨⟨.repetition element result bound collector, bounds⟩, some tally⟩ →
      values.Holds below outer [] →
      Collecting bound collector bounds frames below outer tally
        ⟨.arriving (bounds.head + 1), f :: frames, values⟩

theorem exists_begun {f : Frame p} {target : Option Nat} {counted : Accumulator κ}
    (hactive : f.active = ⟨⟨.repetition element result bound collector, bounds⟩, none⟩)
    (hcount : Rule.elementCount values bound = (.ok target, counted))
    (hcounted : counted.Holds below outer []) :
    ∃ m, Collecting bound collector bounds frames below outer (.start collector target) m ∧
      MovesTo ⟨.leaving bounds.head, f :: frames, values⟩ m := by
  by_cases htarget : target = some 0
  · subst htarget
    obtain ⟨values', hvalues', hmoves⟩ := repetition_none hactive hcount hcounted
    exact ⟨_, .finished rfl hvalues', hmoves⟩
  · obtain ⟨f', -, hactive', hmoves⟩ := repetition_begin hactive htarget hcount
    exact ⟨_, .going (beq_eq_false_iff_ne.2 htarget) hactive' hcounted, hmoves⟩

theorem enacts_counting {index : Fin p.size}
    (hstage : p.stage index = Recipe.repetitionStage element result bound collector bounds)
    (hindex : index.val = bounds.head) (hvalues : values.Holds below outer [])
    (hroom : frames.length < p.maxDepth) :
    p.decoder.Enacts E bound.target
      (fun target => Collecting bound collector bounds frames below outer (.start collector target))
      ⟨.entering index, frames, values⟩ bound.target.start := by
  cases bound with
  | times n =>
      -- the head decodes nothing, and so does the decoder of the target
      have hhead := enacts_head (E := E) hstage hvalues hroom
      refine Decoder.Enacts.map (f := fun _ => some n) hhead ?_
      rintro _ m ⟨f, values', -, hactive, hvalues', rfl⟩
      obtain ⟨m, hm, hmoves⟩ := exists_begun hactive rfl hvalues'
      rw [hindex]
      exact ⟨m, hmoves.idles, hm⟩
  | prefixed size =>
      refine (enacts_head hstage hvalues hroom).map ?_
      rintro n m ⟨f, values', -, hactive, hvalues', rfl⟩
      obtain ⟨counted, hpop, hcounted⟩ := hvalues'.pop_mk .size n
      have hcount : Rule.elementCount values' (.prefixed size : Bound element.Carrier) =
          (.ok (some n), counted) := by
        simp only [Rule.elementCount, hpop]
      obtain ⟨m, hm, hmoves⟩ := exists_begun hactive hcount hcounted
      rw [hindex]
      exact ⟨m, hmoves.idles, hm⟩
  | whileHolds predicate addLast =>
      have hhead := enacts_head (E := E) hstage hvalues hroom
      refine Decoder.Enacts.map (f := fun _ => none) hhead ?_
      rintro _ m ⟨f, values', -, hactive, hvalues', rfl⟩
      obtain ⟨m, hm, hmoves⟩ := exists_begun hactive rfl hvalues'
      rw [hindex]
      exact ⟨m, hmoves.idles, hm⟩

theorem exists_collecting {f : Frame p} {tally : Tally collector.Container}
    {value : element.Carrier}
    (hactive : f.active = ⟨⟨.repetition element result bound collector, bounds⟩, some tally⟩)
    (hlt : bounds.head < bounds.last) (hvalues : values.Holds below outer [⟨element, value⟩])
    (hends : bound.endsAt value = false) :
    ∃ m, Collecting bound collector bounds frames below outer (tally.add collector value) m ∧
      MovesTo ⟨.leaving bounds.last, f :: frames, values⟩ m := by
  cases hfull : (tally.add collector value).isFull with
  | true =>
      obtain ⟨values', hvalues', hmoves⟩ := repetition_full hactive hlt hvalues rfl hends hfull
      exact ⟨_, .finished hfull hvalues', hmoves⟩
  | false =>
      obtain ⟨f', -, hactive', values', hvalues', hmoves⟩ :=
        repetition_again hactive hlt hvalues rfl hends hfull
      exact ⟨_, .going hfull hactive' hvalues', hmoves⟩

/-- The machine goes round and enacts the body for each element. -/
theorem enacts_collecting {body : Decoder element.Carrier} (hlt : bounds.head < bounds.last)
    (hbody : ∀ (f : Frame p) (memory : Option (Tally collector.Container)) (values : Accumulator κ),
      f.active = ⟨⟨.repetition element result bound collector, bounds⟩, memory⟩ →
      values.Holds below outer [] →
      p.decoder.Enacts E body
        (fun value m => ∃ values, values.Holds below outer [⟨element, value⟩] ∧
          m = ⟨.leaving bounds.last, f :: frames, values⟩)
        ⟨.arriving (bounds.head + 1), f :: frames, values⟩ body.start)
    (target : bound.target.State) {tally : Tally collector.Container} {m : Machine p}
    (h : Collecting bound collector bounds frames below outer tally m) :
    p.decoder.Enacts E (body.afresh.repeated bound collector)
      (fun value m => ∃ values, values.Holds below outer [⟨result, value⟩] ∧
        p.decoder.Idles m (left bounds.last frames values))
      m ⟨target, body.afresh.start, some tally⟩ := by
  refine Decoder.enacts_elements (Collecting bound collector bounds frames below outer)
    Decoder.renews_afresh ?_ ?_ target h
  · rintro tally m hcollecting hfull
    cases hcollecting with
    | finished _ hvalues => exact ⟨_, hvalues, .here _⟩
    | going hroom => rw [hroom] at hfull; cases hfull
  · rintro tally m hcollecting hroom
    cases hcollecting with
    | finished hfull => rw [hfull] at hroom; cases hroom
    | @going f values _ hactive hvalues =>
        refine Decoder.Enacts.of_idles ?_ (.here _) (Decoder.idles_within body)
        refine (hbody f (some tally) values hactive hvalues).hosted (.refl _)
          (Decoder.hosts_within body) ?_
        rintro value _ t last ⟨values', hvalues', rfl⟩ hdone
        refine Decoder.enacts_of_done (Decoder.step_within hdone) ?_
        cases hends : bound.endsAt value with
        | true =>
            obtain ⟨last, hlast, hmoves⟩ := repetition_ends hactive hlt hvalues' rfl hends
            rw [if_pos rfl]
            exact ⟨last, hlast, hmoves.idles⟩
        | false =>
            obtain ⟨next, hnext, events, hstep⟩ := exists_collecting hactive hlt hvalues' hends
            rw [if_neg Bool.false_ne_true]
            exact ⟨next, events, hstep, hnext⟩

end Repetition

/-! ## The start -/

/-- Arrived at the first step the machine comes to where it starts, in two steps. -/
theorem exists_steps_to_start (hp : p.OfRecipe root) :
    ∃ entering events events', p.decoder.step (⟨.arriving 0, [], .empty⟩ : Machine p) =
        .tick entering events ∧ p.decoder.step entering = .tick (Machine.start p) events' := by
  obtain ⟨first, hpart, hlead, hwaiting⟩ :=
    Recipe.Part.exists_leftmost (.whole : root.Part root 0 [])
  have hindex : p.first.val = 0 + first.lead := by rw [hlead]; rfl
  have hfits : (p.stage p.first).action.Fits [] := by
    rw [hp.stage_eq hpart hindex, ← hwaiting]
    exact (hpart.fits hp.fits).own 0
  obtain ⟨flight, harrive⟩ := Action.exists_arrive_of_nil hfits .empty
  have hstart : Machine.start p =
      working p.first ((frame? p.first).toList ++ []) .empty flight := by
    simp only [Machine.start, harrive, List.append_nil, working]
  obtain ⟨_, harriving⟩ := arrive_step p.first [] .empty
  have hroom : (p.stage p.first).scope = none ∨ ([] : List (Frame p)).length < p.maxDepth :=
    .inr p.maxDepth_pos
  obtain ⟨_, hentering⟩ := enter_room harrive hroom
  rw [hstart]
  exact ⟨_, _, _, harriving, hentering⟩

end Machine

end Piecemeal
