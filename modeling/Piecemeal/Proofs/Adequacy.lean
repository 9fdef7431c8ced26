/-
# Programs do what their composites do

Every part of the recipe is enacted where it stands in the program.  With `room` scopes left, and
for a part `r` that begins at step `start` inside the active scopes `frames`,

    p.decoder.Enacts E (root.composite limit room r) (Behind r start frames below outer)
      ⟨.arriving start, frames, values⟩ (root.composite limit room r).start

where `values` holds nothing of the instance yet: `EnactsParts`.  Behind the part it holds the stack
that the composite answers, and the values `below` are what they were.

The proof is two inductions, one in the other.

  * On the room, `enactsParts`.  What stands inside a scope has one scope less, be it the body of an
    option, the element of a repetition, or the whole recipe once more behind a recursion.
  * On the recipe, `enactsParts_of_inner`, with one lemma for each constructor: `enacts_act` and
    `enacts_skip` for plain steps, `enacts_optional`, `enacts_repetition` and `enacts_recur` for
    scopes.  Each chains the lemmas of `Piecemeal.Proofs.Simulation`, and opens no step.

For the whole recipe, with the single value popped at the end, the two decoders are bisimilar:

    p.decoder.Shows p.decoder.start slices ends ↔
      (root.compositeValue m m root whole).afresh.Shows _ slices ends      (m = p.maxDepth)

with `afresh` because a program starts anew behind each value.  So whatever calls can show of the
decoder of a program follows from its composite, and that is an expression of adapters.
-/
import Piecemeal.Proofs.Simulation

namespace Piecemeal

variable {κ : Type} [Atom κ] {E : DecodeError → Prop} {whole : ValueType κ} {p : Program κ whole}
  {root r : Recipe κ whole} {start limit room : Nat} {scopes : List Nat}

namespace Machine

variable {frames : List (Frame p)} {values : Accumulator κ} {below : List (Cell κ)}
  {outer : List Nat} {stack : List (Cell κ)}

/-! ## Parts -/

/-- With room for so many scopes the machine enacts every part of the recipe. -/
def EnactsParts (E : DecodeError → Prop) (p : Program κ whole) (root : Recipe κ whole)
    (limit room : Nat) : Prop :=
  ∀ (r : Recipe κ whole) start scopes (frames : List (Frame p)) below outer
    (values : Accumulator κ), root.Part r start scopes → Quiet frames start r.size →
    values.Holds below outer [] → SameRoom E p.maxDepth frames.length limit room →
    p.decoder.Enacts E (root.composite limit room r) (Behind r start frames below outer)
      ⟨.arriving start, frames, values⟩ (root.composite limit room r).start

theorem EnactsParts.leaves_one (h : EnactsParts E p root limit room)
    (hpart : root.Part r start scopes) (hquiet : Quiet frames start r.size)
    (hvalues : values.Holds below outer [])
    (hlevel : SameRoom E p.maxDepth frames.length limit room) {type : ValueType κ}
    (htype : r.pending = [type]) :
    p.decoder.Enacts E (root.compositeValue limit room r type)
      (fun value => Behind r start frames below outer [⟨type, value⟩])
      ⟨.arriving start, frames, values⟩ (root.compositeValue limit room r type).start := by
  refine (h r start scopes frames below outer values hpart hquiet hvalues hlevel).andThen ?_
  intro stack m hbehind
  have htypes : stack.map Cell.type = [type] := by
    cases hbehind with
    | intro _ _ htypes => exact htypes.trans htype
  obtain ⟨value, rfl⟩ := Cell.exists_of_single htypes
  rw [Decoder.topmost_mk]
  refine Decoder.enacts_constant ?_ ()
  exact hbehind

section Scopes

variable {index : Fin p.size}
  (hinner : ∀ room', room = room' + 1 → EnactsParts E p root limit room')
  (hlevel : SameRoom E p.maxDepth frames.length limit room)

include hinner hlevel

theorem enacts_optional {body : Recipe κ whole} {type : ValueType κ} {flag : Decoder Bool}
    (hpart : root.Part (body.optional type flag) start scopes)
    (hstage : p.stage index = (body.optional type flag).ownStage start)
    (hindex : index.val = start) (htype : body.pending = [type])
    (hvalues : values.Holds below outer []) :
    p.decoder.Enacts E (root.composite limit room (body.optional type flag))
      (Behind (body.optional type flag) start frames below outer) ⟨.entering index, frames, values⟩
      (root.composite limit room (body.optional type flag)).start := by
  rw [Recipe.composite_optional]
  refine enacts_roomed hstage ⟨_, rfl⟩ hlevel ?_
  rintro room rfl hroom hlevel
  refine (enacts_head hstage hvalues hroom).andThen ?_
  rintro present m ⟨f, values', -, hactive, hvalues', rfl⟩
  rw [hindex]
  cases present with
  | false =>
      obtain ⟨values'', hvalues'', hmoves⟩ := optional_unset hactive hvalues'
      rw [if_neg Bool.false_ne_true]
      exact Decoder.Enacts.of_idles (Decoder.enacts_constant ⟨rfl, hvalues'', rfl⟩ ())
        hmoves.idles (.here _)
  | true =>
      obtain ⟨f', -, hactive', values'', hvalues'', hmoves⟩ := optional_set hactive hvalues'
      rw [if_pos rfl]
      refine Decoder.Enacts.of_idles ?_ hmoves.idles (.here _)
      have hlt : start < start + body.size := Nat.lt_add_of_pos_right body.size_pos
      have hquiet : Quiet (f' :: frames) (start + 1) body.size := by
        intro i hlow hhigh g hg
        cases hg
        exact optional_passes hactive' hlow (by show i < start + body.size; omega)
      have hbody := (hinner room rfl).leaves_one hpart.optional hquiet hvalues'' hlevel htype
      refine hbody.map ?_
      rintro value m hbehind
      obtain @⟨last, held, hlast, hholds, -⟩ := hbehind
      obtain rfl : last = start + body.size := by omega
      obtain ⟨values', hvalues', hmoves⟩ := optional_last hactive' hlt hholds
      exact ⟨_, hmoves.idles, rfl, hvalues', rfl⟩

theorem enacts_repetition {body : Recipe κ whole} {element result : ValueType κ}
    {bound : Bound element.Carrier} {collector : Collector element.Carrier result.Carrier}
    (hpart : root.Part (body.repetition element result bound collector) start scopes)
    (hstage : p.stage index = (body.repetition element result bound collector).ownStage start)
    (hindex : index.val = start) (htype : body.pending = [element])
    (hvalues : values.Holds below outer []) :
    p.decoder.Enacts E
      (root.composite limit room (body.repetition element result bound collector))
      (Behind (body.repetition element result bound collector) start frames below outer)
      ⟨.entering index, frames, values⟩
      (root.composite limit room (body.repetition element result bound collector)).start := by
  rw [Recipe.composite_repetition]
  have harrive : ∃ flight,
      ((body.repetition element result bound collector).ownStage start).action.arrive values =
        .ok (flight, values) := by
    cases bound <;> exact ⟨_, rfl⟩
  refine enacts_roomed hstage harrive hlevel ?_
  rintro room rfl hroom hlevel
  have hlt : start < start + body.size := Nat.lt_add_of_pos_right body.size_pos
  have hbody : ∀ (f : Frame p) memory (values : Accumulator κ),
      f.active = ⟨⟨.repetition element result bound collector, ⟨start, start + body.size⟩⟩,
        memory⟩ → values.Holds below outer [] →
      p.decoder.Enacts E (root.compositeValue limit room body element)
        (fun value m => ∃ values, values.Holds below outer [⟨element, value⟩] ∧
          m = ⟨.leaving (start + body.size), f :: frames, values⟩)
        ⟨.arriving (start + 1), f :: frames, values⟩
        (root.compositeValue limit room body element).start := by
    intro f memory values hactive hvalues
    have hquiet : Quiet (f :: frames) (start + 1) body.size := by
      intro i hlow hhigh g hg
      cases hg
      exact repetition_passes hactive hlow (by show i < start + body.size; omega)
    refine ((hinner room rfl).leaves_one hpart.repetition hquiet hvalues hlevel htype).mono ?_
    rintro value m hbehind
    obtain @⟨last, held, hlast, hholds, -⟩ := hbehind
    obtain rfl : last = start + body.size := by omega
    exact ⟨_, .here _, held, hholds, rfl⟩
  have helements : p.decoder.Enacts E
      ((root.compositeValue limit room body element).afresh.repeated bound collector)
      (fun value m => ∃ values, values.Holds below outer [⟨result, value⟩] ∧
        p.decoder.Idles m (left (start + body.size) frames values))
      ⟨.entering index, frames, values⟩
      ((root.compositeValue limit room body element).afresh.repeated bound collector).start := by
    refine Decoder.enacts_repeated ((enacts_counting hstage hindex hvalues hroom).mono ?_)
    intro target m hcollecting
    exact ⟨m, .here m, fun begun => enacts_collecting hlt hbody begun hcollecting⟩
  refine helements.map ?_
  rintro value m ⟨values', hvalues', hidles⟩
  exact ⟨_, hidles, rfl, hvalues', rfl⟩

theorem enacts_recur (hp : p.OfRecipe root) {before : Recipe κ whole} {flag : Decoder Bool}
    (hstage : p.stage index = (before.recur flag).ownStage start)
    (hvalues : values.Holds below outer stack)
    (htypes : stack.map Cell.type = before.pending) :
    p.decoder.Enacts E (.roomed limit room <|
        .flagged flag whole (root.compositeValue limit (room - 1) root whole) stack)
      (Behind (before.recur flag) start frames below outer) ⟨.entering index, frames, values⟩
      (Decoder.roomed limit room <|
        .flagged flag whole (root.compositeValue limit (room - 1) root whole) stack).start := by
  refine enacts_roomed hstage ⟨_, rfl⟩ hlevel ?_
  rintro room rfl hroom hlevel
  refine (enacts_head hstage hvalues hroom).andThen ?_
  rintro present m ⟨f, values', -, hactive, hvalues', rfl⟩
  cases present with
  | false =>
      obtain ⟨values'', hvalues'', hmoves⟩ := recursion_unset hactive hvalues'
      rw [if_neg Bool.false_ne_true]
      refine Decoder.Enacts.of_idles (Decoder.enacts_constant ⟨rfl, hvalues'', ?_⟩ ())
        hmoves.idles (.here _)
      exact congrArg (List.cons _) htypes
  | true =>
      have hne : stack ≠ [] := by
        rintro rfl
        exact before.pending_ne_nil htypes.symm
      obtain ⟨acc, hacc, f', -, hactive', inner, hinner', hmoves⟩ :=
        recursion_set hactive hne hvalues'
      rw [if_pos rfl]
      refine Decoder.Enacts.of_idles ?_ hmoves.idles (.here _)
      have hpasses : ∀ i, ∀ g ∈ (f' :: frames).head?, g.Passes i := by
        intro i g hg
        cases hg
        exact recursion_passes hactive' i
      have hnested := (hinner room rfl).leaves_one .whole (fun i _ _ => hpasses i) hinner' hlevel
        hp.single
      refine hnested.map ?_
      rintro value m hbehind
      obtain @⟨last, held, hlast, hholds, -⟩ := hbehind
      have hsize := hp.size_eq
      have hend : p.size ≤ last + 1 := by omega
      obtain ⟨values'', -, hvalues'', hends⟩ := recursion_ends frames hacc hactive' hholds hend
      have hleft := idles_left (start + before.size) frames values''
      have hpending := congrArg (List.cons (ValueType.option whole)) htypes
      exact ⟨_, (idles_arriving held (hpasses last)).trans (hends.idles.trans hleft), rfl, hvalues'',
        hpending⟩

end Scopes

theorem enacts_act {before : Recipe κ whole} {action : Action κ} {index : Fin p.size}
    (hstage : p.stage index = (before.act action).ownStage start)
    (hindex : index.val = start + before.size) (hfits : action.Fits before.pending)
    (hvalues : values.Holds below outer stack) (htypes : stack.map Cell.type = before.pending) :
    p.decoder.Enacts E (action.composite stack)
      (Behind (before.act action) start frames below outer) ⟨.entering index, frames, values⟩
      (action.composite stack).start := by
  have hplain : action.Fits (stack.map Cell.type) := by rwa [htypes]
  refine (enacts_plain frames hstage hplain hvalues).mono ?_
  rintro cells m ⟨values', hvalues', htypes', rfl⟩
  have hpending : cells.map Cell.type = (before.act action).pending := by
    rw [htypes', htypes, Recipe.pending_act]
  exact behind_idles (congrArg Nat.succ hindex) hvalues' hpending

theorem enacts_skip {before : Recipe κ whole} {n : Nat} {index : Fin p.size}
    (hstage : p.stage index = (before.skip n).ownStage start)
    (hindex : index.val = start + before.size) (hvalues : values.Holds below outer stack)
    (htypes : stack.map Cell.type = before.pending) :
    p.decoder.Enacts E ((Decoder.skipBytes n).map fun _ => stack)
      (Behind (before.skip n) start frames below outer) ⟨.entering index, frames, values⟩
      (Decoder.skipBytes n).start := by
  have hskip := (enacts_plain (E := E) frames hstage trivial hvalues).of_map
  refine hskip.map ?_
  rintro _ m ⟨values', hvalues', -, rfl⟩
  exact behind_idles (congrArg Nat.succ hindex) hvalues' htypes

/-- If it does so inside scopes, the machine enacts every part of the recipe. -/
theorem enactsParts_of_inner (hp : p.OfRecipe root)
    (hinner : ∀ room', room = room' + 1 → EnactsParts E p root limit room') :
    EnactsParts E p root limit room := by
  -- bodies are left to `hinner`, so that a nested instance needs no case of its own
  intro r
  induction r with
  | first type decoder =>
      intro start scopes frames below outer values hpart hquiet hvalues hlevel
      rw [Recipe.composite_first]
      refine enacts_arriving hp hpart rfl ?_
      intro index hindex hstage
      refine Decoder.enacts_constant_andThen ?_
      refine (enacts_plain frames hstage trivial hvalues).mono ?_
      rintro cells m ⟨values', hvalues', htypes, rfl⟩
      have hpending : cells.map Cell.type = (Recipe.first type decoder : Recipe κ whole).pending :=
        htypes
      exact behind_idles (congrArg Nat.succ hindex) hvalues' hpending
  | act before action ih =>
      intro start scopes frames below outer values hpart hquiet hvalues hlevel
      have hfits := hpart.fits hp.fits
      have hbefore := ih start scopes frames below outer values hpart.act
        (hquiet.mono (Nat.le_succ _)) hvalues hlevel
      rw [Recipe.composite_act]
      refine enacts_next hp hpart rfl hquiet hbefore ?_
      intro index stack values hindex hstage hvalues htypes
      exact enacts_act hstage hindex hfits.2 hvalues htypes
  | skip before n ih =>
      intro start scopes frames below outer values hpart hquiet hvalues hlevel
      have hbefore := ih start scopes frames below outer values hpart.skip
        (hquiet.mono (Nat.le_succ _)) hvalues hlevel
      rw [Recipe.composite_skip]
      refine enacts_next hp hpart rfl hquiet hbefore ?_
      intro index stack values hindex hstage hvalues htypes
      exact enacts_skip hstage hindex hvalues htypes
  | recur before flag ih =>
      intro start scopes frames below outer values hpart hquiet hvalues hlevel
      have hbefore := ih start scopes frames below outer values hpart.recur
        (hquiet.mono (Nat.le_succ _)) hvalues hlevel
      rw [Recipe.composite_recur]
      refine enacts_next hp hpart rfl hquiet hbefore ?_
      intro index stack values _ hstage hvalues htypes
      exact enacts_recur hinner hlevel hp hstage hvalues htypes
  | optional body type flag =>
      intro start scopes frames below outer values hpart hquiet hvalues hlevel
      refine enacts_arriving hp hpart rfl ?_
      intro index hindex hstage
      exact enacts_optional hinner hlevel hpart hstage hindex (hpart.fits hp.fits).2 hvalues
  | repetition body element result bound collector =>
      intro start scopes frames below outer values hpart hquiet hvalues hlevel
      refine enacts_arriving hp hpart rfl ?_
      intro index hindex hstage
      exact enacts_repetition hinner hlevel hpart hstage hindex (hpart.fits hp.fits).2 hvalues

theorem enactsParts (hp : p.OfRecipe root) (limit room : Nat) : EnactsParts E p root limit room := by
  induction room with
  | zero => exact enactsParts_of_inner hp nofun
  | succ room ih => exact enactsParts_of_inner hp fun _ h => by cases h; exact ih

/-! ## Whole programs -/

/-- A program enacts the composite of its recipe, and answers the one value on the stack. -/
theorem enacts_composite (hp : p.OfRecipe root) (hlevel : SameRoom E p.maxDepth 0 limit room) :
    p.decoder.Enacts E (root.composite limit room root)
      (fun stack m => ∃ value, stack = [⟨whole, value⟩] ∧ p.decoder.Concludes value m)
      p.decoder.start (root.composite limit room root).start := by
  have hquiet : Quiet ([] : List (Frame p)) 0 root.size := fun _ _ _ f hf => nomatch hf
  have hwhole : p.decoder.Enacts E (root.composite limit room root)
      (fun stack m => ∃ value, stack = [⟨whole, value⟩] ∧ p.decoder.Concludes value m)
      ⟨.arriving 0, [], .empty⟩ (root.composite limit room root).start := by
    refine (enactsParts hp limit room root 0 [] [] [] [] .empty .whole hquiet
      Accumulator.holds_empty hlevel).mono ?_
    rintro stack m @⟨last, held, hlast, hholds, htypes⟩
    obtain ⟨value, rfl⟩ := Cell.exists_of_single (htypes.trans hp.single)
    have hsize := hp.size_eq
    obtain ⟨values', hmoves⟩ := arrive_last hholds (show p.size ≤ last + 1 by omega)
    have hpasses : ∀ f ∈ ([] : List (Frame p)).head?, f.Passes last := fun f hf => nomatch hf
    exact ⟨_, (idles_arriving held hpasses).trans hmoves.idles, value, rfl, rfl⟩
  obtain ⟨entering, events, events', harriving, hentering⟩ := exists_steps_to_start hp
  have hticks : ∀ {m next : Machine p} {events}, p.decoder.step m = .tick next events →
      ∀ stack, ¬ ∃ value, stack = [Cell.mk whole value] ∧ p.decoder.Concludes value m := by
    rintro m next events hstep stack ⟨value, -, hdone⟩
    cases hstep.symm.trans hdone
  exact (hwhole.of_tick harriving (hticks harriving)).of_tick hentering (hticks hentering)

theorem enacts_compositeValue (hp : p.OfRecipe root)
    (hlevel : SameRoom E p.maxDepth 0 limit room) :
    p.decoder.Enacts E (root.compositeValue limit room root whole) p.decoder.Concludes
      p.decoder.start (root.compositeValue limit room root whole).start := by
  refine (enacts_composite hp hlevel).andThen ?_
  rintro stack m ⟨value, rfl, hconcludes⟩
  rw [Decoder.topmost_mk]
  exact Decoder.enacts_constant hconcludes ()

end Machine

/-! ## The property -/

/-- What the decoder of a program does from its start on, the composite of its recipe does, made anew
for each value. -/
theorem Program.OfRecipe.exists_bisimulation (hp : p.OfRecipe root) :
    ∃ P, Decoder.Bisimulation p.decoder
        (root.compositeValue p.maxDepth p.maxDepth root whole).afresh P ∧
      P p.decoder.start (root.compositeValue p.maxDepth p.maxDepth root whole).afresh.start := by
  have hlevel : SameRoom (fun _ => False) p.maxDepth 0 p.maxDepth p.maxDepth :=
    .inl ⟨rfl, Nat.zero_add _⟩
  have henacts := Machine.enacts_compositeValue hp hlevel
  exact ⟨_, Decoder.Bisimulation.of_unless (Decoder.bisimulation_afresh henacts), _, henacts,
    Decoder.idles_within _⟩

theorem Program.OfRecipe.shows_iff_composite (hp : p.OfRecipe root) (slices : List Bytes)
    (ends : List (Run Unit Bytes whole.Carrier)) :
    p.decoder.Shows p.decoder.start slices ends ↔
      (root.compositeValue p.maxDepth p.maxDepth root whole).afresh.Shows
        (root.compositeValue p.maxDepth p.maxDepth root whole).afresh.start slices ends := by
  obtain ⟨P, hbisim, hstart⟩ := hp.exists_bisimulation
  exact hbisim.shows_iff hstart slices ends

end Piecemeal
