/-
# Repetitions on their own and in recipes

There are two ways to decode a value again and again.  `Decoder.repeated` runs one decoder, and
goes on with it after every element.  The recipe that consists of the decoder and a repetition
around it is run by the machine: it makes the decoder anew for every element, stores the element,
asks the scope how to go on, and the scope takes the element over.  The two cannot be told apart,
`RepeatsAlike`, as long as the decoders keep the contract: after a value they are ready for the
next.

The argument is a bisimulation,

    Bisimulation (d.repeated bound c) p.decoder (Aligned d bound c maxDepth)

The machine has one scope, and nothing is stored while a decoder is at work.  So there are two
cases: the number of elements is being learned, or there is an element to come.  In the latter what
the decoder of the repetition has collected is what the scope remembers, and the decoder of
elements, which has been used before, keeps pace with the one that the machine has made.

  * Without the source the machine gets from element to element by itself, `idles_body`, and from
    the last element to its answer, `idles_answer`.
  * Where the inner decoders answer together, both sides do the same with the value:
    `meets_learning` and `meets_collecting` are the two cases of the step.
  * A rejection is answered by the repetition at once, by the machine with its next step.
-/
import Piecemeal.Proofs.Bisimulation
import Piecemeal.Proofs.Moves
import Piecemeal.Recipe.Builder

namespace Piecemeal

/-! ## Collectors that keep a record -/

/-- The collector, with a record of all that it is told: the number of elements to expect, and the
elements with their indices. -/
def Collector.recorded {ε ρ : Type} (c : Collector ε ρ) :
    Collector ε (ρ × Option Nat × List (ε × Nat)) where
  -- the elements, latest first
  Container := c.Container × Option Nat × List (ε × Nat)
  supply expected := (c.supply expected, expected, [])
  accumulate container element index :=
    (c.accumulate container.1 element index, container.2.1, (element, index) :: container.2.2)
  finish container := (c.finish container.1, container.2.1, container.2.2.reverse)

theorem Collector.collect_recorded {ε ρ : Type} (c : Collector ε ρ) (expected : Option Nat)
    (elements : List ε) :
    c.recorded.collect expected elements =
      (c.collect expected elements, expected, elements.zipIdx) := by
  have hfold (pairs : List (ε × Nat)) (container : c.Container) (record : List (ε × Nat)) :
      pairs.foldl (fun container e => c.recorded.accumulate container e.1 e.2)
          (container, expected, record) =
        (pairs.foldl (fun container e => c.accumulate container e.1 e.2) container, expected,
          pairs.reverse ++ record) := by
    induction pairs generalizing container record with
    | nil => rfl
    | cons pair pairs ih =>
        refine (ih (c.accumulate container pair.1 pair.2) (pair :: record)).trans ?_
        rw [List.reverse_cons, List.append_assoc]
        rfl
  have hall := hfold elements.zipIdx (c.supply expected) []
  rw [List.append_nil] at hall
  show c.recorded.finish (elements.zipIdx.foldl _ (c.supply expected, expected, [])) = _
  rw [hall]
  simp only [recorded, collect, List.reverse_reverse]

variable {κ : Type} [Atom κ] {element result : ValueType κ}

/-! ## The recipe -/

/-- A decoder, and a repetition around it. -/
def Recipe.repeating (d : Decoder element.Carrier) (bound : Bound element.Carrier)
    (c : Collector element.Carrier result.Carrier) : Recipe κ result :=
  (first element d).repetition element result bound c

theorem Recipe.repeated_first (d : Decoder element.Carrier) (bound : Bound element.Carrier)
    (c : Collector element.Carrier result.Carrier) :
    (first element d : Recipe κ result).repeated element result bound c =
      .ok (repeating d bound c) := by
  simp [repeated, checked, singleMisuse?, tailMisuse?, pending, repeating]

/-- Its program, which has two steps: the head of the repetition, and the decoder. -/
abbrev Program.repeating (d : Decoder element.Carrier) (bound : Bound element.Carrier)
    (c : Collector element.Carrier result.Carrier) (maxDepth : Nat) : Program κ result :=
  (Recipe.repeating d bound c).program rfl maxDepth

section

variable (d : Decoder element.Carrier) (bound : Bound element.Carrier)
  (c : Collector element.Carrier result.Carrier) (maxDepth : Nat)

/-- The step of the decoder. -/
def Program.body : Fin (Program.repeating d bound c maxDepth).size := ⟨1, Nat.lt_succ_self 1⟩

/-- The scope of the repetition, with what it remembers. -/
def Scope.repeating (memory : Option (Tally c.Container)) :
    (scope : Scope κ) × scope.rule.Memory :=
  ⟨⟨.repetition element result bound c, ⟨0, 1⟩⟩, memory⟩

/-- The action of the head. -/
def Action.head : Action κ := (Recipe.repetitionStage element result bound c ⟨0, 1⟩).action

end

/-! ## The head -/

namespace Bound

/-- When the decoder of the number of elements has answered it is ready for the next repetition. -/
def Renewable {ε : Type} (bound : Bound ε) : Prop :=
  ∀ size, bound = .prefixed size → size.Renewable

/-- Between repetitions the decoder of the number cannot be told from a new one. -/
def Ready {ε : Type} : (bound : Bound ε) → bound.target.State → Prop
  | .prefixed size, target => size.KeepsPace target size.start
  | .times _, _ | .whileHolds .., _ => True

theorem Renewable.ready {ε : Type} {bound : Bound ε} (h : bound.Renewable) :
    bound.Ready bound.target.start := by
  cases bound with
  | times n => trivial
  | prefixed size => exact h size rfl
  | whileHolds predicate addLast => trivial

variable {bound : Bound element.Carrier} (c : Collector element.Carrier result.Carrier)

/-- The decoder of the number keeps pace with the head of the repetition. -/
def Heads (c : Collector element.Carrier result.Carrier) :
    (bound : Bound element.Carrier) → bound.target.State → (Action.head bound c).Flight → Prop
  | .prefixed size, target, flight => size.KeepsPace target flight
  | .times _, _, _ | .whileHolds .., _, _ => True

/-- The head leaves this number to its scope, or nothing if the number is known without it. -/
def Counts (c : Collector element.Carrier result.Carrier) (bound : Bound element.Carrier)
    (target : Option Nat) (cell : Cell κ) : Prop :=
  ∀ values : Accumulator κ, values.Holds [] [] [] → ∃ values',
    Rule.elementCount (if (Recipe.repetitionStage element result bound c ⟨0, 1⟩).stores then
      values.pushCell cell else values) bound = (.ok target, values') ∧ values'.Holds [] [] []

theorem Ready.exists_arrive {target : bound.target.State} (h : bound.Ready target)
    (values : Accumulator κ) :
    ∃ flight, (Action.head bound c).arrive values = .ok (flight, values) ∧
      bound.Heads c target flight := by
  cases bound with
  | times n => exact ⟨(), rfl, trivial⟩
  | prefixed size => exact ⟨size.start, rfl, h⟩
  | whileHolds predicate addLast => exact ⟨(), rfl, trivial⟩

theorem Heads.step {target : bound.target.State} {flight : (Action.head bound c).Flight}
    (h : bound.Heads c target flight) :
    (bound.target.step target).Agrees (bound.Counts c) (bound.Heads c)
      (fun target _ => bound.Ready target) ((Action.head bound c).step flight) := by
  cases bound with
  | times n => exact .done (fun values hvalues => ⟨values, rfl, hvalues⟩) trivial
  | whileHolds predicate addLast =>
      exact .done (fun values hvalues => ⟨values, rfl, hvalues⟩) trivial
  | prefixed size =>
      refine (Decoder.KeepsPace.step h).map some (Cell.mk .size) ?_
      rintro n _ rfl values hvalues
      obtain ⟨values', hpop, hvalues'⟩ := (hvalues.pushCell ⟨.size, n⟩).pop_mk .size n
      refine ⟨values', ?_, hvalues'⟩
      show Rule.elementCount (values.pushCell ⟨.size, n⟩) _ = _
      simp only [Rule.elementCount, hpop]

end Bound

/-! ## Side by side -/

section Aligned

variable {d : Decoder element.Carrier} {bound : Bound element.Carrier}
  {c : Collector element.Carrier result.Carrier} {maxDepth : Nat}

open Machine

/-- The repetition on its own and the machine stand at the same place.  The machine has the scope of
the repetition active, and holds no values. -/
inductive Aligned (d : Decoder element.Carrier) (bound : Bound element.Carrier)
    (c : Collector element.Carrier result.Carrier) (maxDepth : Nat) :
    (d.repeated bound c).State → Machine (Program.repeating d bound c maxDepth) → Prop
  /-- The number of elements is being learned. -/
  | learning {target : bound.target.State} {rested : d.State}
      {flight : (Action.head bound c).Flight} {f : Frame (Program.repeating d bound c maxDepth)}
      {values : Accumulator κ} :
      bound.Heads c target flight → d.KeepsPace rested d.start →
      f.active = Scope.repeating bound c none → values.Holds [] [] [] →
      Aligned d bound c maxDepth ⟨target, rested, none⟩
        ⟨.decoding (Program.repeating d bound c maxDepth).first flight, [f], values⟩
  /-- An element is to come. -/
  | collecting {target : bound.target.State} {busy flight : d.State}
      {tally : Tally c.Container} {f : Frame (Program.repeating d bound c maxDepth)}
      {values : Accumulator κ} :
      bound.Ready target → d.KeepsPace busy flight → tally.isFull = false →
      f.active = Scope.repeating bound c (some tally) → values.Holds [] [] [] →
      Aligned d bound c maxDepth ⟨target, busy, some tally⟩
        ⟨.decoding (Program.body d bound c maxDepth) flight, [f], values⟩

theorem aligned_start {target : bound.target.State} {rested : d.State} (htarget : bound.Ready target)
    (hrested : d.KeepsPace rested d.start) :
    Aligned d bound c maxDepth ⟨target, rested, none⟩ (Machine.start _) := by
  obtain ⟨flight, harrive, hheads⟩ := htarget.exists_arrive c (.empty : Accumulator κ)
  obtain ⟨f, hframe, -, hactive⟩ := exists_frame
    (show ((Program.repeating d bound c maxDepth).stage (Program.first _)).scope = some _ from rfl)
  have hstart : Machine.start (Program.repeating d bound c maxDepth) =
      ⟨.decoding (Program.first _) flight, [f], .empty⟩ := by
    have harrive' : ((Program.repeating d bound c maxDepth).stage (Program.first _)).action.arrive
        .empty = .ok (flight, .empty) := harrive
    simp only [Machine.start, harrive', hframe]
    rfl
  rw [hstart]
  exact .learning hheads hrested hactive Accumulator.holds_empty

theorem idles_answer {i : Nat} {f : Frame (Program.repeating d bound c maxDepth)}
    {values : Accumulator κ} {value : result.Carrier}
    (h : ∃ values', values'.Holds [] [] [⟨result, value⟩] ∧
      MovesTo ⟨.leaving i, [f], values⟩ (left 1 [] values')) :
    ∃ m : Machine (Program.repeating d bound c maxDepth),
      (Program.repeating d bound c maxDepth).decoder.Idles ⟨.leaving i, [f], values⟩ m ∧
      m.step = .done value (Machine.start _) := by
  obtain ⟨values', hvalues', hleaves⟩ := h
  obtain ⟨values'', hmoves⟩ : ∃ values'', MovesTo (left 1 [] values')
      (⟨.answering value, [], values''⟩ : Machine (Program.repeating d bound c maxDepth)) :=
    arrive_last hvalues' (Nat.le_refl 2)
  exact ⟨_, hleaves.idles.trans hmoves.idles, rfl⟩

/-- For every element the decoder is made anew. -/
theorem idles_body (f : Frame (Program.repeating d bound c maxDepth)) (values : Accumulator κ) :
    (Program.repeating d bound c maxDepth).decoder.Idles ⟨.arriving 1, [f], values⟩
      ⟨.decoding (Program.body d bound c maxDepth) d.start, [f], values⟩ := by
  have harrive : MovesTo ⟨.arriving 1, [f], values⟩
      ⟨.entering (Program.body d bound c maxDepth), [f], values⟩ :=
    arrive_step (Program.body d bound c maxDepth) [f] values
  have henter : MovesTo ⟨.entering (Program.body d bound c maxDepth), [f], values⟩
      (working (Program.body d bound c maxDepth)
        ((frame? (Program.body d bound c maxDepth)).toList ++ [f]) values d.start) :=
    enter_room rfl (.inl rfl)
  rw [frame?_eq_none rfl] at henter
  exact harrive.idles.trans henter.idles

/-- A rejection is answered by the repetition at once, and by the machine with its next step. -/
theorem meets_of_fail {P : (d.repeated bound c).State →
      Machine (Program.repeating d bound c maxDepth) → Prop}
    {s next : (d.repeated bound c).State} {s' : Machine (Program.repeating d bound c maxDepth)}
    {error : DecodeError} {index : Fin (Program.repeating d bound c maxDepth).size}
    {flight : ((Program.repeating d bound c maxDepth).stage index).action.Flight}
    {frames : List (Frame (Program.repeating d bound c maxDepth))} {values : Accumulator κ}
    (hs : (d.repeated bound c).step s = .fail error next)
    (hs' : s'.MovesTo (rejecting index frames values error flight)) :
    Decoder.Meets (d.repeated bound c) (Program.repeating d bound c maxDepth).decoder P s s' := by
  refine .now (.here s) hs'.idles ?_
  rw [hs]
  exact .fail error next _

theorem meets_learning {target : bound.target.State} {rested : d.State}
    {flight : (Action.head bound c).Flight} {f : Frame (Program.repeating d bound c maxDepth)}
    {values : Accumulator κ} (hheads : bound.Heads c target flight)
    (hrested : d.KeepsPace rested d.start) (hactive : f.active = Scope.repeating bound c none)
    (hvalues : values.Holds [] [] []) :
    Decoder.Meets (d.repeated bound c) (Program.repeating d bound c maxDepth).decoder
      (Aligned d bound c maxDepth) ⟨target, rested, none⟩
      ⟨.decoding (Program.repeating d bound c maxDepth).first flight, [f], values⟩ := by
  have hstep : (d.repeated bound c).step ⟨target, rested, none⟩ =
      (bound.target.step target).graft (⟨·, rested, none⟩)
        (fun n target => .tick ⟨target, rested, some (.start c n)⟩ [])
        (fun error target => .fail error ⟨target, rested, none⟩) := by
    simp only [Decoder.repeated]
    exact Step.embed_eq_graft ..
  have hstep' := step_working (Program.repeating d bound c maxDepth).first [f] values flight
  refine Decoder.meets_of_graft hheads.step hstep hstep' ?_ ?_ ?_
  · intro target flight hheads
    exact .learning hheads hrested hactive hvalues
  · intro n cell target flight' hcounts htarget hs hs'
    obtain ⟨counted, hcount, hcounted⟩ := hcounts values hvalues
    by_cases hn : n = some 0
    · subst hn
      -- no element is to come: both answer what the collector makes of none
      obtain ⟨m, hidles, hdone⟩ := idles_answer (repetition_none hactive hcount hcounted)
      refine .now (.single hs) (.tick hs' hidles) ?_
      show Step.Agrees _ _ _ _ m.step
      rw [hdone]
      exact .done rfl (aligned_start htarget hrested)
    · obtain ⟨f', -, hactive', hmoves⟩ : ∃ f' : Frame _, f'.index = f.index ∧ f'.active = _ ∧
          MovesTo ⟨.leaving 0, [f], _⟩ ⟨.arriving 1, [f'], counted⟩ :=
        repetition_begin hactive hn hcount
      refine .later hs (.here _) hs' (hmoves.idles.trans (idles_body f' counted)) ?_
      refine .collecting htarget hrested ?_ hactive' hcounted
      exact beq_eq_false_iff_ne.2 hn
  · intro error target flight hs hs'
    exact meets_of_fail hs ⟨_, hs'⟩

/-- An element is to come: both sides add it, and are complete or go on with the next. -/
theorem meets_collecting {target : bound.target.State} {busy flight : d.State}
    {tally : Tally c.Container} {f : Frame (Program.repeating d bound c maxDepth)}
    {values : Accumulator κ} (htarget : bound.Ready target) (hbusy : d.KeepsPace busy flight)
    (hfull : tally.isFull = false) (hactive : f.active = Scope.repeating bound c (some tally))
    (hvalues : values.Holds [] [] []) :
    Decoder.Meets (d.repeated bound c) (Program.repeating d bound c maxDepth).decoder
      (Aligned d bound c maxDepth) ⟨target, busy, some tally⟩
      ⟨.decoding (Program.body d bound c maxDepth) flight, [f], values⟩ := by
  have hstep : (d.repeated bound c).step ⟨target, busy, some tally⟩ =
      (d.step busy).graft (⟨target, ·, some tally⟩)
        (fun value rested =>
          if bound.endsAt value then
            .done ((if bound.keepsLast then tally.add c value else tally).finish c)
              ⟨target, rested, none⟩
          else .tick ⟨target, rested, some (tally.add c value)⟩ [])
        (fun error busy => .fail error ⟨target, busy, some tally⟩) := by
    simp only [Decoder.repeated, hfull]
    rw [if_neg Bool.false_ne_true]
    exact Step.embed_eq_graft ..
  have hstep' := step_working (Program.body d bound c maxDepth) [f] values flight
  have hagrees := hbusy.step.map id (Cell.mk element)
    (W := fun value cell => cell = ⟨element, value⟩) fun value _ hvalue => by rw [hvalue]; rfl
  rw [Step.embed_id] at hagrees
  refine Decoder.meets_of_graft hagrees hstep hstep' ?_ ?_ ?_
  · intro busy flight hbusy
    exact .collecting htarget hbusy hfull hactive hvalues
  · rintro value _ rested _ rfl hrested hs hs'
    have hstored := hvalues.pushCell ⟨element, value⟩
    cases hends : bound.endsAt value with
    | true =>
        rw [hends, if_pos rfl] at hs
        obtain ⟨m, hidles, hdone⟩ :=
          idles_answer (repetition_ends hactive Nat.zero_lt_one hstored rfl hends)
        refine .now (.here _) (.tick hs' hidles) ?_
        show Step.Agrees _ _ _ _ m.step
        rw [hs, hdone]
        exact .done rfl (aligned_start htarget hrested)
    | false =>
        rw [hends, if_neg Bool.false_ne_true] at hs
        cases hgrown : (tally.add c value).isFull with
        | true =>
            obtain ⟨m, hidles, hdone⟩ :=
              idles_answer (repetition_full hactive Nat.zero_lt_one hstored rfl hends hgrown)
            refine .now (.single hs) (.tick hs' hidles) ?_
            show Step.Agrees _ _ _ _ m.step
            rw [hdone]
            simp only [Decoder.repeated, hgrown, if_true]
            exact .done rfl (aligned_start htarget hrested)
        | false =>
            obtain ⟨f', -, hactive', values', hvalues', hmoves⟩ :
                ∃ f' : Frame _, f'.index = f.index ∧ f'.active = _ ∧
                  ∃ values', values'.Holds [] [] [] ∧
                    MovesTo ⟨.leaving 1, [f], _⟩ ⟨.arriving 1, [f'], values'⟩ :=
              repetition_again hactive Nat.zero_lt_one hstored rfl hends hgrown
            exact .later hs (.here _) hs' (hmoves.idles.trans (idles_body f' values'))
              (.collecting htarget hrested hgrown hactive' hvalues')
  · intro error busy flight hs hs'
    exact meets_of_fail hs ⟨_, hs'⟩

theorem aligned_bisimulation (d : Decoder element.Carrier) (bound : Bound element.Carrier)
    (c : Collector element.Carrier result.Carrier) (maxDepth : Nat) :
    Decoder.Bisimulation (d.repeated bound c) (Program.repeating d bound c maxDepth).decoder
      (Aligned d bound c maxDepth) := by
  intro s s' h
  cases h with
  | learning hheads hrested hactive hvalues =>
      exact meets_learning hheads hrested hactive hvalues
  | collecting htarget hbusy hfull hactive hvalues =>
      exact meets_collecting htarget hbusy hfull hactive hvalues

end Aligned

/-! ## The property -/

/-- A repetition of `d`, and the program of the recipe that repeats `d`, cannot be told apart.  The
builder accepts the recipe, and whatever slices are fed to both in turn, up to the first rejection,
they answer the same and leave the same bytes.  After any of these calls the one scope of the program
remembers what the repetition has collected. -/
def Decoder.RepeatsAlike (element result : ValueType κ) (d : Decoder element.Carrier)
    (bound : Bound element.Carrier) (c : Collector element.Carrier result.Carrier)
    (maxDepth : Nat) : Prop :=
  ∃ (r : Recipe κ result) (p : Program κ result),
    (Recipe.first element d).repeated element result bound c = .ok r ∧
    r.assemble maxDepth = .ok p ∧
    (∀ slices ends, (d.repeated bound c).Shows (d.repeated bound c).start slices ends ↔
      p.decoder.Shows p.decoder.start slices ends) ∧
    ∀ slices (progress : d.Repeating bound c) (m : Machine p),
      (d.repeated bound c).Reaches (d.repeated bound c).start slices progress →
      p.decoder.Reaches p.decoder.start slices m →
      ∃ f, m.frames = [f] ∧
        f.active = ⟨⟨.repetition element result bound c, ⟨0, 1⟩⟩, progress.tally⟩

theorem Decoder.repeats_of_renewable {d : Decoder element.Carrier} (hd : d.Renewable)
    {bound : Bound element.Carrier} (hbound : bound.Renewable) (result : ValueType κ)
    (c : Collector element.Carrier result.Carrier) (maxDepth : Nat) :
    RepeatsAlike element result d bound c maxDepth := by
  have hstart : Aligned d bound c maxDepth (d.repeated bound c).start (Machine.start _) :=
    aligned_start hbound.ready hd
  refine ⟨.repeating d bound c, .repeating d bound c maxDepth, Recipe.repeated_first d bound c,
    dif_pos rfl, (aligned_bisimulation d bound c maxDepth).shows_iff hstart, ?_⟩
  intro slices progress m hprogress hm
  have haligned := (aligned_bisimulation d bound c maxDepth).reaches hstart hprogress hm
  cases haligned with
  | learning _ _ hactive _ => exact ⟨_, rfl, hactive⟩
  | collecting _ _ _ hactive _ => exact ⟨_, rfl, hactive⟩

/-- For every decoder that keeps the contract of decoders, every bound and every collector, a
repetition does what the recipe of a repetition does, with any limit on the number of active scopes.
The same is true of the collector that records what it is told, so both collectors are told the same
number to expect, the same elements and the same indices. -/
theorem Decoder.Renewable.repeats_alike {d : Decoder element.Carrier} (hd : d.Renewable)
    {bound : Bound element.Carrier} (hbound : bound.Renewable)
    (c : Collector element.Carrier result.Carrier) (maxDepth : Nat) :
    RepeatsAlike element result d bound c maxDepth ∧
    RepeatsAlike element (.pair result (.pair (.option .size) (.list (.pair element .size)))) d
      bound c.recorded maxDepth := by
  constructor
  · exact repeats_of_renewable hd hbound result c maxDepth
  · exact repeats_of_renewable hd hbound
      (.pair result (.pair (.option .size) (.list (.pair element .size))))
      c.recorded maxDepth

/-- Bytes behind their number, cut inside the second byte. -/
theorem repeats_alike_inside_elements :
    ∃ (r : Recipe Empty .bytes) (p : Program Empty .bytes),
      (Recipe.first .uint8 (.number UInt8 .big)).repeated .uint8 .bytes
        (.prefixedBy (Decoder.number UInt8 .big)) .toList = .ok r ∧
      r.assemble 1 = .ok p ∧
      p.decoder.Shows p.decoder.start [[2, 7], [8, 9]]
        [.reached .pending () [], .reached (.done ([7, 8] : Bytes)) () [9]] := by
  have hd : (Decoder.number UInt8 .big).Renewable := (Decoder.Standard.number UInt8 .big).renewable
  have hbound : (Bound.prefixedBy (Decoder.number UInt8 .big) : Bound UInt8).Renewable := by
    intro size hsize
    cases hsize
    exact (Decoder.Standard.tryMap _ (.number UInt8 .big)).renewable
  have halike : Decoder.RepeatsAlike (.uint8 : ValueType Empty) .bytes _ _ _ 1 :=
    (Decoder.Renewable.repeats_alike hd hbound .toList 1).1
  obtain ⟨r, p, hr, hp, hshows, -⟩ := halike
  refine ⟨r, p, hr, hp, (hshows _ _).1 ?_⟩
  refine .answered ⟨by simp, 10, rfl⟩ (by simp) ?_
  exact .answered ⟨by simp, 10, rfl⟩ (by simp) (.nothing _)

end Piecemeal
