/-
# Moves of the machine

One lemma for each thing that the machine can do between two actions in flight: arrive at a step
and start its action, leave a step that has no scope to ask, ask an option, a repetition or a
recursion, and take over the value of a nested instance.  Each is stated for an accumulator that
holds a stack, and says which stack it holds afterwards.  So for an option whose flag is set

    values.Holds below outer (⟨.bool, true⟩ :: stack) → ∃ f' values',
      f'.active = f.active ∧ values'.Holds below outer stack ∧
        MovesTo ⟨.leaving bounds.head, f :: frames, values⟩
          ⟨.arriving (bounds.head + 1), f' :: frames, values'⟩

and the other scopes likewise.

  * An option goes on with its body, or is left at once; behind the body it is left with `some`.
  * A repetition begins with its body, or is left if there is nothing to collect.  Behind the body
    it is left if the element ends it or is the last that was wanted; else the body starts again.
  * A recursion goes on with step zero, with the values so far underneath, or is left at once.  At
    the end of the program it is left with `some`, and what was underneath is as it was when the
    instance started.

A step inside a scope that is not its last one moves on as if there were no scope, `leave_on`.

What an active scope remembers has a type that depends on its step.  `Frame.active` is the same
without that: the scope, and what it remembers.
-/
import Piecemeal.Proofs.Flights
import Piecemeal.Proofs.Layers

namespace Piecemeal

variable {κ : Type} [Atom κ]

/-! ## Active scopes -/

namespace Stage

variable {stage : Stage κ}

/-- The scope of a step, and what it remembers while it is active. -/
def active : (stage : Stage κ) → stage.Memory → (scope : Scope κ) × scope.rule.Memory
  | ⟨_, _, _, some scope⟩, memory => ⟨scope, memory⟩
  | ⟨_, _, _, none⟩, memory => nomatch memory

theorem active_injective {m m' : stage.Memory} (h : stage.active m = stage.active m') :
    m = m' := by
  obtain ⟨label, stores, action, scope⟩ := stage
  cases scope with
  | none => nomatch m
  | some scope => exact eq_of_heq (Sigma.mk.inj h).2

variable {m : stage.Memory} {scope : Scope κ} {memory : scope.rule.Memory}

theorem bounds_of_active (h : stage.active m = ⟨scope, memory⟩) :
    stage.bounds m = scope.bounds := by
  obtain ⟨label, stores, action, scope'⟩ := stage
  cases scope' with
  | none => nomatch m
  | some scope' => cases h; rfl

theorem answer_of_active (h : stage.active m = ⟨scope, memory⟩) {i : Nat}
    {values values' : Accumulator κ} {move : Move} {memory' : scope.rule.Memory}
    (hanswer : scope.rule.answer scope.bounds i values memory = .ok ⟨move, memory', values'⟩) :
    ∃ m', stage.active m' = ⟨scope, memory'⟩ ∧
      stage.answer i values m = .ok ⟨move, m', values'⟩ := by
  obtain ⟨label, stores, action, scope'⟩ := stage
  cases scope' with
  | none => nomatch m
  | some scope' => cases h; exact ⟨memory', rfl, hanswer⟩

theorem atEnd_of_active (h : stage.active m = ⟨scope, memory⟩) (values : Accumulator κ) :
    stage.atEnd values m = scope.rule.atEnd values memory := by
  obtain ⟨label, stores, action, scope'⟩ := stage
  cases scope' with
  | none => nomatch m
  | some scope' => cases h; rfl

theorem fresh?_eq_none (h : stage.scope = none) : stage.fresh? = none := by
  obtain ⟨label, stores, action, scope'⟩ := stage
  cases h
  rfl

theorem exists_active (h : stage.scope = some scope) (m : stage.Memory) :
    ∃ memory, stage.active m = ⟨scope, memory⟩ := by
  obtain ⟨label, stores, action, scope'⟩ := stage
  cases h
  exact ⟨m, rfl⟩

theorem exists_fresh (h : stage.scope = some scope) :
    ∃ m, stage.fresh? = some m ∧ stage.active m = ⟨scope, scope.rule.fresh⟩ := by
  obtain ⟨label, stores, action, scope'⟩ := stage
  cases h
  exact ⟨scope.rule.fresh, rfl, rfl⟩

end Stage

variable {whole : ValueType κ} {p : Program κ whole}

namespace Frame

/-- The scope of a frame, and what it remembers. -/
def active (f : Frame p) : (scope : Scope κ) × scope.rule.Memory :=
  (p.stage f.index).active f.memory

/-- The scope has nothing to say when step `i` is complete. -/
def Passes (f : Frame p) (i : Nat) : Prop :=
  ∀ values, (p.stage f.index).answer i values f.memory = .ok ⟨.following, f.memory, values⟩

theorem passes_of_active {f : Frame p} {scope : Scope κ} {memory : scope.rule.Memory}
    (h : f.active = ⟨scope, memory⟩) {i : Nat}
    (hanswer : ∀ values, scope.rule.answer scope.bounds i values memory =
      .ok ⟨.following, memory, values⟩) : f.Passes i := by
  intro values
  obtain ⟨m', hm', hstage⟩ := Stage.answer_of_active h (hanswer values)
  obtain rfl := Stage.active_injective (hm'.trans h.symm)
  exact hstage

end Frame

namespace Machine

variable {f : Frame p} {frames : List (Frame p)} {values values' : Accumulator κ} {i : Nat}

/-- The machine goes on so, without the source. -/
def MovesTo (m next : Machine p) : Prop := ∃ events, m.step = .tick next events

theorem MovesTo.idles {m next : Machine p} (h : m.MovesTo next) : p.decoder.Idles m next := by
  obtain ⟨events, hstep⟩ := h
  exact .single hstep

/-- Where a scope is left that ends with step `last`: the scope around it is asked there in turn, if
there is one. -/
def left (last : Nat) (frames : List (Frame p)) (values : Accumulator κ) : Machine p :=
  ⟨if frames.isEmpty then .arriving (last + 1) else .leaving last, frames, values⟩

/-! ## Arriving -/

theorem exists_frame {index : Fin p.size} {scope : Scope κ}
    (h : (p.stage index).scope = some scope) :
    ∃ f : Frame p, frame? index = some f ∧ f.index = index ∧
      f.active = ⟨scope, scope.rule.fresh⟩ := by
  obtain ⟨memory, hfresh, hactive⟩ := Stage.exists_fresh h
  exact ⟨⟨index, memory⟩, by rw [frame?, hfresh]; rfl, rfl, hactive⟩

theorem frame?_eq_none {index : Fin p.size} (h : (p.stage index).scope = none) :
    frame? index = none := by
  rw [frame?, Stage.fresh?_eq_none h]
  rfl

theorem arrive_step (index : Fin p.size) (frames : List (Frame p)) (values : Accumulator κ) :
    MovesTo ⟨.arriving index, frames, values⟩ ⟨.entering index, frames, values⟩ :=
  ⟨_, dif_pos index.isLt⟩

theorem enter_broken {index : Fin p.size} {misuse : Misuse}
    (h : (p.stage index).action.arrive values = .error misuse) :
    step ⟨.entering index, frames, values⟩ = .broken misuse := by
  simp only [step, enter, h]

section Enter

variable {index : Fin p.size} {flight : (p.stage index).action.Flight}
    (harrive : (p.stage index).action.arrive values = .ok (flight, values'))

include harrive

theorem enter_room (hroom : (p.stage index).scope = none ∨ frames.length < p.maxDepth) :
    MovesTo ⟨.entering index, frames, values⟩
      (working index ((frame? index).toList ++ frames) values' flight) := by
  cases hscope : (p.stage index).scope with
  | none =>
      simp only [MovesTo, step, enter, harrive, frame?_eq_none hscope]
      exact ⟨_, rfl⟩
  | some scope =>
      have hdepth : frames.length < p.maxDepth := by
        rcases hroom with hnone | hdepth
        · cases hnone.symm.trans hscope
        · exact hdepth
      obtain ⟨f, hframe, -, -⟩ := exists_frame hscope
      simp only [MovesTo, step, enter, harrive, hframe, if_pos hdepth]
      exact ⟨_, rfl⟩

theorem enter_tooDeep {scope : Scope κ} (h : (p.stage index).scope = some scope)
    (hdepth : ¬ frames.length < p.maxDepth) :
    MovesTo ⟨.entering index, frames, values⟩
      (rejecting index frames values' (.depthLimit p.maxDepth) flight) := by
  obtain ⟨f, hframe, -, -⟩ := exists_frame h
  simp only [MovesTo, step, enter, harrive, hframe, if_neg hdepth]
  exact ⟨_, rfl⟩

end Enter

/-! ## Leaving a step -/

theorem leave_on (h : ∀ f ∈ frames.head?, f.Passes i) :
    MovesTo ⟨.leaving i, frames, values⟩ ⟨.arriving (i + 1), frames, values⟩ := by
  cases frames with
  | nil => exact ⟨[], rfl⟩
  | cons f frames =>
      have hpasses := h f rfl values
      simp only [MovesTo, step, leave, hpasses]
      exact ⟨_, rfl⟩

section Answer

variable {scope : Scope κ} {memory memory' : scope.rule.Memory} (h : f.active = ⟨scope, memory⟩)

include h

theorem leave_stays {move : Move}
    (hanswer : scope.rule.answer scope.bounds i values memory = .ok ⟨move, memory', values'⟩)
    (hcloses : move.closes = false) :
    ∃ f' : Frame p, f'.index = f.index ∧ f'.active = ⟨scope, memory'⟩ ∧
      MovesTo ⟨.leaving i, f :: frames, values⟩
        ⟨.arriving (move.index scope.bounds i), f' :: frames, values'⟩ := by
  obtain ⟨m', hactive, hstage⟩ := Stage.answer_of_active h hanswer
  refine ⟨⟨f.index, m'⟩, rfl, hactive, ?_⟩
  simp only [MovesTo, step, leave, hstage, hcloses, Stage.bounds_of_active h]
  exact ⟨_, rfl⟩

theorem leave_closes
    (hanswer : scope.rule.answer scope.bounds i values memory =
      .ok ⟨.leave scope.bounds, memory', values'⟩) :
    MovesTo ⟨.leaving i, f :: frames, values⟩ (left scope.bounds.last frames values') := by
  obtain ⟨m', -, hstage⟩ := Stage.answer_of_active h hanswer
  simp only [MovesTo, step, leave, hstage, Stage.bounds_of_active h]
  exact ⟨_, rfl⟩

end Answer

variable {bounds : Bounds} {below : List (Cell κ)} {outer : List Nat} {stack : List (Cell κ)}

/-! ## Options -/

section Optional

variable {type : ValueType κ} {memory : Unit} (h : f.active = ⟨⟨.optional type, bounds⟩, memory⟩)

include h

theorem optional_passes (hhead : bounds.head < i) (hlast : i < bounds.last) : f.Passes i := by
  refine Frame.passes_of_active h ?_
  intro values
  simp only [Rule.answer, if_neg (Nat.ne_of_gt hhead), if_neg (Nat.ne_of_lt hlast)]

theorem optional_set (hvalues : values.Holds below outer (⟨.bool, true⟩ :: stack)) :
    ∃ f' : Frame p, f'.index = f.index ∧ f'.active = ⟨⟨.optional type, bounds⟩, memory⟩ ∧
      ∃ values', values'.Holds below outer stack ∧
        MovesTo ⟨.leaving bounds.head, f :: frames, values⟩
          ⟨.arriving (bounds.head + 1), f' :: frames, values'⟩ := by
  obtain ⟨values', hpop, hvalues'⟩ := hvalues.pop_mk .bool true
  have hanswer : (Rule.optional type).answer bounds bounds.head values memory =
      .ok ⟨.following, memory, values'⟩ := by
    simp only [Rule.answer, if_true, hpop]
  obtain ⟨f', hindex, hactive, hmoves⟩ := leave_stays h hanswer rfl
  exact ⟨f', hindex, hactive, values', hvalues', hmoves⟩

theorem optional_unset (hvalues : values.Holds below outer (⟨.bool, false⟩ :: stack)) :
    ∃ values', values'.Holds below outer (⟨.option type, none⟩ :: stack) ∧
      MovesTo ⟨.leaving bounds.head, f :: frames, values⟩ (left bounds.last frames values') := by
  obtain ⟨values', hpop, hvalues'⟩ := hvalues.pop_mk .bool false
  have hanswer : (Rule.optional type).answer bounds bounds.head values memory =
      .ok ⟨.leave bounds, memory, values'.push (.option type) none⟩ := by
    simp only [Rule.answer, if_true, hpop]
  exact ⟨_, hvalues'.push (.option type) none, leave_closes h hanswer⟩

theorem optional_last (hlt : bounds.head < bounds.last) {value : type.Carrier}
    (hvalues : values.Holds below outer (⟨type, value⟩ :: stack)) :
    ∃ values', values'.Holds below outer (⟨.option type, some value⟩ :: stack) ∧
      MovesTo ⟨.leaving bounds.last, f :: frames, values⟩ (left bounds.last frames values') := by
  obtain ⟨values', hpop, hvalues'⟩ := hvalues.pop_mk type value
  have hanswer : (Rule.optional type).answer bounds bounds.last values memory =
      .ok ⟨.leave bounds, memory, values'.push (.option type) (some value)⟩ := by
    simp only [Rule.answer, if_neg (Nat.ne_of_gt hlt), if_true, hpop]
  exact ⟨_, hvalues'.push (.option type) (some value), leave_closes h hanswer⟩

end Optional

/-! ## Repetitions -/

section Repetition

variable {element result : ValueType κ} {bound : Bound element.Carrier}
    {collector : Collector element.Carrier result.Carrier}
    {memory : Option (Tally collector.Container)}
    (h : f.active = ⟨⟨.repetition element result bound collector, bounds⟩, memory⟩)

include h

theorem repetition_passes (hhead : bounds.head < i) (hlast : i < bounds.last) : f.Passes i := by
  refine Frame.passes_of_active h ?_
  intro values
  simp only [Rule.answer, if_neg (Nat.ne_of_gt hhead), if_neg (Nat.ne_of_lt hlast)]

theorem repetition_none (hcount : Rule.elementCount values bound = (.ok (some 0), values'))
    (hvalues : values'.Holds below outer stack) :
    ∃ values'', values''.Holds below outer
        (⟨result, collector.finish (collector.supply (some 0))⟩ :: stack) ∧
      MovesTo ⟨.leaving bounds.head, f :: frames, values⟩ (left bounds.last frames values'') := by
  have hanswer : (Rule.repetition element result bound collector).answer bounds bounds.head values
      memory = .ok ⟨.leave bounds, none,
        values'.push result (collector.finish (collector.supply (some 0)))⟩ := by
    simp only [Rule.answer, if_true, Rule.begin, hcount]
    rfl
  exact ⟨_, hvalues.push result _, leave_closes h hanswer⟩

theorem repetition_begin {target : Option Nat} (htarget : target ≠ some 0)
    (hcount : Rule.elementCount values bound = (.ok target, values')) :
    ∃ f' : Frame p, f'.index = f.index ∧
      f'.active = ⟨⟨.repetition element result bound collector, bounds⟩,
        some (Tally.start collector target)⟩ ∧
      MovesTo ⟨.leaving bounds.head, f :: frames, values⟩
        ⟨.arriving (bounds.head + 1), f' :: frames, values'⟩ := by
  have hanswer : (Rule.repetition element result bound collector).answer bounds bounds.head values
      memory = .ok ⟨.following, some (Tally.start collector target), values'⟩ := by
    simp only [Rule.answer, if_true, Rule.begin, hcount, if_neg htarget]
  exact leave_stays h hanswer rfl

section Last

variable (hlt : bounds.head < bounds.last) {value : element.Carrier}
    (hvalues : values.Holds below outer (⟨element, value⟩ :: stack))
    {tally : Tally collector.Container} (htally : memory.getD (Tally.start collector none) = tally)

include hlt hvalues htally

theorem repetition_ends (hends : bound.endsAt value = true) :
    ∃ values', values'.Holds below outer (⟨result,
        (if bound.keepsLast then tally.add collector value else tally).finish collector⟩ :: stack) ∧
      MovesTo ⟨.leaving bounds.last, f :: frames, values⟩ (left bounds.last frames values') := by
  obtain ⟨values', hpop, hvalues'⟩ := hvalues.pop_mk element value
  have hanswer : (Rule.repetition element result bound collector).answer bounds bounds.last values
      memory = .ok ⟨.leave bounds, none, values'.push result
        ((if bound.keepsLast then tally.add collector value else tally).finish collector)⟩ := by
    simp only [Rule.answer, if_neg (Nat.ne_of_gt hlt), if_true, Rule.collect, hpop, htally, hends]
    rfl
  exact ⟨_, hvalues'.push result _, leave_closes h hanswer⟩

theorem repetition_full (hends : bound.endsAt value = false)
    (hfull : (tally.add collector value).isFull = true) :
    ∃ values', values'.Holds below outer
        (⟨result, (tally.add collector value).finish collector⟩ :: stack) ∧
      MovesTo ⟨.leaving bounds.last, f :: frames, values⟩ (left bounds.last frames values') := by
  obtain ⟨values', hpop, hvalues'⟩ := hvalues.pop_mk element value
  have hanswer : (Rule.repetition element result bound collector).answer bounds bounds.last values
      memory = .ok ⟨.leave bounds, none,
        values'.push result ((tally.add collector value).finish collector)⟩ := by
    simp only [Rule.answer, if_neg (Nat.ne_of_gt hlt), if_true, Rule.collect, hpop, htally, hends,
      hfull]
    rfl
  exact ⟨_, hvalues'.push result _, leave_closes h hanswer⟩

theorem repetition_again (hends : bound.endsAt value = false)
    (hfull : (tally.add collector value).isFull = false) :
    ∃ f' : Frame p, f'.index = f.index ∧
      f'.active = ⟨⟨.repetition element result bound collector, bounds⟩,
        some (tally.add collector value)⟩ ∧
      ∃ values', values'.Holds below outer stack ∧
        MovesTo ⟨.leaving bounds.last, f :: frames, values⟩
          ⟨.arriving (bounds.head + 1), f' :: frames, values'⟩ := by
  obtain ⟨values', hpop, hvalues'⟩ := hvalues.pop_mk element value
  have hanswer : (Rule.repetition element result bound collector).answer bounds bounds.last values
      memory = .ok ⟨.body, some (tally.add collector value), values'⟩ := by
    simp only [Rule.answer, if_neg (Nat.ne_of_gt hlt), if_true, Rule.collect, hpop, htally, hends,
      hfull]
    rfl
  obtain ⟨f', hindex, hactive, hmoves⟩ := leave_stays h hanswer rfl
  exact ⟨f', hindex, hactive, values', hvalues', hmoves⟩

end Last

end Repetition

/-! ## Recursions -/

section Recursion

variable {type : ValueType κ}

theorem recursion_passes {depth : Nat}
    (h : f.active = ⟨⟨.recursion type, bounds⟩, some depth⟩) (i : Nat) : f.Passes i :=
  Frame.passes_of_active h fun _ => rfl

theorem recursion_unset (h : f.active = ⟨⟨.recursion type, bounds⟩, none⟩)
    (hvalues : values.Holds below outer (⟨.bool, false⟩ :: stack)) :
    ∃ values', values'.Holds below outer (⟨.option type, none⟩ :: stack) ∧
      MovesTo ⟨.leaving i, f :: frames, values⟩ (left bounds.last frames values') := by
  obtain ⟨values', hpop, hvalues'⟩ := hvalues.pop_mk .bool false
  have hanswer : (Rule.recursion type).answer bounds i values none =
      .ok ⟨.leave bounds, none, values'.push (.option type) none⟩ := by
    simp only [Rule.answer, hpop]
  exact ⟨_, hvalues'.push (.option type) none, leave_closes h hanswer⟩

/-- A nested instance starts, with the values so far underneath. -/
theorem recursion_set (h : f.active = ⟨⟨.recursion type, bounds⟩, none⟩) (hne : stack ≠ [])
    (hvalues : values.Holds below outer (⟨.bool, true⟩ :: stack)) :
    ∃ acc : Accumulator κ, acc.Holds below outer stack ∧
      ∃ f' : Frame p, f'.index = f.index ∧
        f'.active = ⟨⟨.recursion type, bounds⟩, some (acc.layers.length + 1)⟩ ∧
        ∃ values', values'.Holds (below ++ stack.reverse) acc.layers [] ∧
          MovesTo ⟨.leaving i, f :: frames, values⟩ ⟨.arriving 0, f' :: frames, values'⟩ := by
  obtain ⟨acc, hpop, hacc⟩ := hvalues.pop_mk .bool true
  obtain ⟨values', hopen, hdepth, hvalues'⟩ := hacc.openLayer hne
  have hanswer : (Rule.recursion type).answer bounds i values none =
      .ok ⟨.step 0, some (acc.layers.length + 1), values'⟩ := by
    simp only [Rule.answer, hpop, hopen, hdepth]
  obtain ⟨f', hindex, hactive, hmoves⟩ := leave_stays h hanswer rfl
  exact ⟨acc, hacc, f', hindex, hactive, values', hvalues', hmoves⟩

/-- A nested instance is at its end.  Its one value is taken over, and what was underneath is as it
was when the instance started. -/
theorem recursion_ends (frames : List (Frame p)) {acc inner : Accumulator κ}
    (hacc : acc.Holds below outer stack)
    (h : f.active = ⟨⟨.recursion type, bounds⟩, some (acc.layers.length + 1)⟩)
    {value : type.Carrier}
    (hinner : inner.Holds (below ++ stack.reverse) acc.layers [⟨type, value⟩])
    (hend : p.size ≤ i) :
    ∃ values', values'.layers = acc.layers ∧
      values'.Holds below outer (⟨.option type, some value⟩ :: stack) ∧
      MovesTo ⟨.arriving i, f :: frames, inner⟩ ⟨.leaving bounds.last, frames, values'⟩ := by
  obtain ⟨after, htake, hlayers, hafter⟩ := hacc.takeOver hinner type
  rw [Cell.read_mk] at htake
  have hstage : (p.stage f.index).atEnd inner f.memory =
      .ok (some (after.push (.option type) (some value))) := by
    rw [Stage.atEnd_of_active h]
    simp only [Rule.atEnd, htake]
  refine ⟨after.push (.option type) (some value), hlayers, hafter.push _ _, ?_⟩
  simp only [MovesTo, step, arrive, dif_neg (Nat.not_lt.2 hend), hstage,
    Stage.bounds_of_active h]
  exact ⟨_, rfl⟩

end Recursion

/-! ## The end -/

theorem arrive_last {value : whole.Carrier} (hvalues : values.Holds below outer [⟨whole, value⟩])
    (hend : p.size ≤ i) :
    ∃ values', MovesTo (⟨.arriving i, [], values⟩ : Machine p)
      ⟨.answering value, [], values'⟩ := by
  obtain ⟨values', hpop, -⟩ := hvalues.pop_mk whole value
  refine ⟨values', ?_⟩
  simp only [MovesTo, step, arrive, dif_neg (Nat.not_lt.2 hend), finish, hpop]
  exact ⟨_, rfl⟩

end Machine

end Piecemeal
