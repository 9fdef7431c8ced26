/-
# How many steps a call takes

A run carries a budget of steps, and a decoder that worked on and on without the source would use
up any.  A prompt decoder does not: wherever it is, within `k` steps it asks for a byte at least,
or answers, `Decoder.AsksWithin`.  So a byte is worth `k + 1` steps, and

    d.Prompt k → (k + 1) * (bytes.length + 1) ≤ budget → d.run budget state bytes ≠ .exhausted

by induction on the budget, with `(k + 1) * bytes.length + k < budget` carried along: the bytes
that a request takes pay for the steps up to the next one, `steps_le_of_taken`.

Adapters are as prompt as their parts: the steps of an inner machine and of what follows its answer
add up, `AsksWithin.graft`.

A program need not be prompt, as it may go round in a repetition whose elements take no bytes.
`Program.Cycle` are programs that cannot: one repetition of elements whose steps all ask for bytes
at once, but for the last, which puts the element together.  With one scope there is little that
the machine can do, and behind a step of each kind the distance to the next request is counted.
The longest way leads from the last step of the body round to the first one, and takes no more than
eight steps besides those of the decoders, `Program.Cycle.promptFrom`.
-/
import Piecemeal.Decoder.ByteString
import Piecemeal.Proofs.Flights
import Piecemeal.Proofs.Histories
import Piecemeal.Proofs.Moves
import Piecemeal.Proofs.Resumption

namespace Piecemeal

namespace Step

variable {σ τ α β : Type}

/-- The step asks for a byte at least. -/
def Asks (step : Step σ α) : Prop := ∃ n resume, step.request? = some (n, resume) ∧ 0 < n

theorem Asks.graft {step : Step σ α} (h : step.Asks) (wrap : σ → τ) (finished : α → σ → Step τ β)
    (rejected : DecodeError → σ → Step τ β) : (step.graft wrap finished rejected).Asks := by
  obtain ⟨n, resume, hreq, hn⟩ := h
  exact ⟨n, _, request?_graft hreq wrap finished rejected, hn⟩

end Step

namespace Decoder

variable {α β : Type}

/-! ## Steps up to a request -/

/-- Within `k` steps behind this one the decoder asks for a byte at least, or answers. -/
inductive AsksWithin (d : Decoder α) : Nat → Step d.State α → Prop
  | asks (k : Nat) {step : Step d.State α} : step.Asks → AsksWithin d k step
  | tick {k : Nat} {next : d.State} {events : List Event} :
      AsksWithin d k (d.step next) → AsksWithin d (k + 1) (.tick next events)
  | done (k : Nat) (value : α) (state : d.State) : AsksWithin d k (.done value state)
  | fail (k : Nat) (error : DecodeError) (state : d.State) : AsksWithin d k (.fail error state)
  | broken (k : Nat) (misuse : Misuse) : AsksWithin d k (.broken misuse)

theorem AsksWithin.mono {d : Decoder α} {j k : Nat} {step : Step d.State α}
    (h : d.AsksWithin j step) (hle : j ≤ k) : d.AsksWithin k step := by
  induction h generalizing k with
  | asks j hasks => exact .asks k hasks
  | tick _ ih =>
      obtain ⟨k, rfl⟩ : ∃ l, k = l + 1 := ⟨k - 1, by omega⟩
      exact .tick (ih (by omega))
  | done j value state => exact .done k value state
  | fail j error state => exact .fail k error state
  | broken j misuse => exact .broken k misuse

/-- The steps of an inner machine and of what follows its answer add up. -/
theorem AsksWithin.graft {outer : Decoder β} {inner : Decoder α} {wrap : inner.State → outer.State}
    {finished : α → inner.State → Step outer.State β}
    {rejected : DecodeError → inner.State → Step outer.State β}
    (hstep : ∀ state, outer.step (wrap state) = (inner.step state).graft wrap finished rejected)
    {k : Nat} (hfinished : ∀ value state, outer.AsksWithin k (finished value state))
    (hrejected : ∀ error state, outer.AsksWithin k (rejected error state)) {j : Nat}
    {step : Step inner.State α} (h : inner.AsksWithin j step) :
    outer.AsksWithin (j + k) (step.graft wrap finished rejected) := by
  induction h with
  | asks j hasks => exact .asks _ (hasks.graft wrap finished rejected)
  | @tick j next events _ ih =>
      rw [Nat.succ_add]
      refine .tick ?_
      rw [hstep]
      exact ih
  | done j value state => exact (hfinished value state).mono (Nat.le_add_left k j)
  | fail j error state => exact (hrejected error state).mono (Nat.le_add_left k j)
  | broken j misuse => exact .broken _ misuse

/-- In every state the decoder asks within `k` steps, or answers. -/
def Prompt (k : Nat) (d : Decoder α) : Prop := ∀ state, d.AsksWithin k (d.step state)

theorem Prompt.mono {d : Decoder α} {j k : Nat} (h : d.Prompt j) (hle : j ≤ k) : d.Prompt k :=
  fun state => (h state).mono hle

/-- The same from this state on: there is an invariant under which it holds. -/
def PromptFrom (d : Decoder α) (k : Nat) (state : d.State) : Prop :=
  ∃ P : d.State → Prop, P state ∧
    ∀ state, P state → d.AsksWithin k (d.step state) ∧ (d.step state).Keeps P fun _ => True

/-! ## Budgets that suffice -/

theorem PromptFrom.ends {d : Decoder α} {k : Nat} {state : d.State} {bytes : Bytes}
    {run : Run d.State Bytes α} (h : d.PromptFrom k state) (hrun : d.Ends state bytes run) :
    run.Keeps (d.PromptFrom k) fun _ => True := by
  obtain ⟨P, hstate, hP⟩ := h
  refine hrun.keeps (fun state hstate => ?_) ⟨P, hstate, hP⟩
  obtain ⟨Q, hstate, hQ⟩ := hstate
  exact (hQ state hstate).2.mono (fun next hnext => ⟨Q, hnext, hQ⟩) fun _ h => h

/-- Bytes that a request takes pay for the steps up to the next one. -/
theorem steps_le_of_taken {k n budget : Nat} {bytes : Bytes} (hn : 0 < n) (hle : n ≤ bytes.length)
    (hbudget : (k + 1) * bytes.length < budget + 1) :
    (k + 1) * (bytes.drop n).length + k < budget := by
  have hdrop : (bytes.drop n).length + 1 ≤ bytes.length := by
    rw [List.length_drop]
    omega
  have hpaid : (k + 1) * ((bytes.drop n).length + 1) ≤ (k + 1) * bytes.length :=
    Nat.mul_le_mul_left (k + 1) hdrop
  rw [Nat.mul_succ] at hpaid
  omega

theorem PromptFrom.run_ne_exhausted {d : Decoder α} {k budget : Nat} {state : d.State}
    {bytes : Bytes} (h : d.PromptFrom k state) (hbudget : (k + 1) * (bytes.length + 1) ≤ budget) :
    d.run budget state bytes ≠ .exhausted := by
  obtain ⟨P, hstate, hP⟩ := h
  -- the steps up to the next request, and those that the bytes are worth
  have hrun : ∀ budget j state (bytes : Bytes), P state → d.AsksWithin j (d.step state) →
      (k + 1) * bytes.length + j < budget → d.run budget state bytes ≠ .exhausted := by
    intro budget
    induction budget with
    | zero => exact fun _ _ _ _ _ h => absurd h (Nat.not_lt_zero _)
    | succ budget ih =>
        intro j state bytes hstate hasks hbudget
        have hkeeps := (hP state hstate).2
        generalize hs : d.step state = step at hasks
        cases hasks with
        | asks j hasks =>
            obtain ⟨n, resume, hreq, hn⟩ := hasks
            subst hs
            rw [run_succ_of_request hreq]
            split
            next => simp
            next hlen =>
              have hle : n ≤ bytes.length := Nat.not_lt.1 hlen
              have hnext : P (resume (bytes.take n)) :=
                hkeeps.of_request hreq (by rw [List.length_take]; omega)
              exact ih k _ _ hnext (hP _ hnext).1 (steps_le_of_taken hn hle (by omega))
        | @tick j next events hasks =>
            rw [hs] at hkeeps
            rw [Decoder.run, hs]
            exact ih j next bytes hkeeps hasks (by omega)
        | done j value next => simp [Decoder.run, hs]
        | fail j error next => simp [Decoder.run, hs]
        | broken j misuse => simp [Decoder.run, hs]
  refine hrun budget k state bytes hstate (hP state hstate).1 ?_
  rw [Nat.mul_succ] at hbudget
  omega

/-! ## Decoders -/

theorem prompt_number (α : Type) [FixedWidth α] (order : ByteOrder) :
    (number α order).Prompt 0 := by
  intro (received : Bytes)
  by_cases h : received.length < FixedWidth.width α
  · exact .asks 0 ⟨_, _, request?_number h, Nat.sub_pos_of_lt h⟩
  · simp only [number, if_neg h]
    exact .done 0 _ _

theorem prompt_bytes (n : Nat) : (bytes n).Prompt 0 := by
  intro (received : Array UInt8)
  by_cases h : received.size < n
  · refine .asks 0 ⟨_, _, request?_bytes h, ?_⟩
    rw [Nat.lt_min]
    exact ⟨Nat.sub_pos_of_lt h, by decide⟩
  · simp only [bytes, if_neg h]
    exact .done 0 _ _

theorem prompt_constant (value : α) : (constant value).Prompt 0 := fun state => .done 0 value state

theorem prompt_skipBytes (n : Nat) : (skipBytes n).Prompt 0 := by
  intro (owed : Nat)
  by_cases h : owed = 0
  · simp only [skipBytes, if_pos h]
    exact .done 0 _ _
  · exact .asks 0 ⟨_, _, request?_skipBytes h, Nat.pos_of_ne_zero h⟩

theorem asksWithin_embed (outer : Decoder β) {d : Decoder α} {j k : Nat} (h : d.Prompt j)
    (wrap spoiled : d.State → outer.State) (finished : α → d.State → Step outer.State β)
    (hstep : ∀ state, outer.step (wrap state) = (d.step state).embed wrap spoiled finished)
    (hfinished : ∀ value state, outer.AsksWithin k (finished value state)) (state : d.State) :
    outer.AsksWithin (j + k) (outer.step (wrap state)) := by
  simp only [Step.embed_eq_graft] at hstep
  rw [hstep]
  exact AsksWithin.graft hstep hfinished (fun _ _ => .fail k _ _) (h state)

theorem Prompt.tryMap {d : Decoder α} {k : Nat} (h : d.Prompt k) (f : α → Except DecodeError β) :
    (d.tryMap f).Prompt k := by
  refine asksWithin_embed (k := 0) (d.tryMap f) h id id _ (fun _ => rfl) ?_
  intro value state
  cases f value with
  | ok result => exact .done 0 _ _
  | error error => exact .fail 0 _ _

theorem Prompt.andThen {d : Decoder α} {f : α → Decoder β} {j k : Nat} (h : d.Prompt j)
    (hf : ∀ value, (f value).Prompt k) : (d.andThen f).Prompt (j + (k + 1)) := by
  have hsecond : ∀ first value (second : (f value).State),
      (d.andThen f).AsksWithin k ((d.andThen f).step ⟨first, some ⟨value, second⟩⟩) := by
    intro first value second
    exact asksWithin_embed (k := 0) (d.andThen f) (hf value)
      (fun second => ⟨first, some ⟨value, second⟩⟩) (fun second => ⟨first, some ⟨value, second⟩⟩)
      _ (fun _ => rfl) (fun _ _ => .done 0 _ _) second
  rintro ⟨first, _ | ⟨value, second⟩⟩
  · exact asksWithin_embed (d.andThen f) h (⟨·, none⟩) (⟨·, none⟩) _ (fun _ => rfl)
      (fun value first => .tick (hsecond first value (f value).start)) first
  · exact (hsecond first value second).mono (by omega)

/-! ## Programs -/

theorem prompt_flight {κ : Type} [Atom κ] {k : Nat} {action : Action κ}
    (h : action.All (Prompt k)) (start : action.Flight) : (action.decoder start).Prompt k :=
  match action, h with
  | .decode type d, h =>
      asksWithin_embed (k := 0) (Action.decoder (.decode type d) start) h
        (fun state : d.State => state) (fun state => state) _ (fun _ => rfl)
        (fun _ _ => .done 0 _ _)
  | .replace source type choose, h => fun ⟨value, state⟩ =>
      asksWithin_embed (k := 0) (Action.decoder (.replace source type choose) start) (h value)
        (⟨value, ·⟩) (⟨value, ·⟩) _ (fun _ => rfl) (fun _ _ => .done 0 _ _) state
  | .follow source type choose, h => fun ⟨value, state⟩ =>
      asksWithin_embed (k := 0) (Action.decoder (.follow source type choose) start) (h value)
        (⟨value, ·⟩) (⟨value, ·⟩) _ (fun _ => rfl) (fun _ _ => .done 0 _ _) state
  | .reduce _ _ _, _ => fun _ => .done k _ _

end Decoder

section Programs

variable {κ : Type} [Atom κ] {whole : ValueType κ} {p : Program κ whole}

theorem Stage.exists_scope {stage : Stage κ} (m : stage.Memory) :
    ∃ scope memory, stage.scope = some scope ∧ stage.active m = ⟨scope, memory⟩ := by
  obtain ⟨label, stores, action, scope⟩ := stage
  cases scope with
  | none => nomatch m
  | some scope => exact ⟨scope, m, rfl, rfl⟩

theorem Stage.exists_of_answer {stage : Stage κ} {i : Nat} {values values' : Accumulator κ}
    {m m' : stage.Memory} {move : Move} (h : stage.answer i values m = .ok ⟨move, m', values'⟩) :
    ∃ scope memory memory', stage.scope = some scope ∧ stage.bounds m = scope.bounds ∧
      scope.rule.answer scope.bounds i values memory = .ok ⟨move, memory', values'⟩ := by
  obtain ⟨label, stores, action, scope⟩ := stage
  cases scope with
  | none => nomatch m
  | some scope => exact ⟨scope, m, m', rfl, rfl, h⟩

theorem Rule.index_of_repetition {element result : ValueType κ} {bound : Bound element.Carrier}
    {collector : Collector element.Carrier result.Carrier} {bounds : Bounds} {i : Nat}
    {values values' : Accumulator κ}
    {memory memory' : (Rule.repetition element result bound collector).Memory} {move : Move}
    (h : (Rule.repetition element result bound collector).answer bounds i values memory =
      .ok ⟨move, memory', values'⟩) :
    move.index bounds i = i + 1 ∨ move.index bounds i = bounds.head + 1 ∨
      move.index bounds i = bounds.last + 1 := by
  simp only [Rule.answer] at h
  split at h
  next =>
    unfold begin at h
    split at h
    next => cases h
    next =>
      split at h
      next => cases h; exact .inr (.inr rfl)
      next => cases h; exact .inl rfl
  next =>
    split at h
    next =>
      unfold collect at h
      split at h
      next => cases h
      next =>
        dsimp only at h
        split at h
        next => cases h; exact .inr (.inr rfl)
        next =>
          split at h
          next => cases h; exact .inr (.inr rfl)
          next => cases h; exact .inr (.inl rfl)
    next => cases h; exact .inl rfl

/-- A program that is one repetition, of elements that some steps decode and one puts together.
Each of the former asks for a byte at once, and no step works for long without the source. -/
structure Program.Cycle (p : Program κ whole) (k : Nat) : Prop where
  /-- There is a step in front of the last one of the body. -/
  size : 2 < p.size
  scope : ∀ index scope, (p.stage index).scope = some scope → index.val = 0 ∧
    ∃ element result bound collector,
      scope = ⟨.repetition element result bound collector, ⟨0, p.size - 1⟩⟩
  asks : ∀ index : Fin p.size, 0 < index.val → index.val + 1 ≠ p.size →
    ∀ values flight values', (p.stage index).action.arrive values = .ok (flight, values') →
      ((p.stage index).action.step flight).Asks
  yields : ∀ index : Fin p.size, index.val + 1 = p.size →
    ∀ flight, ∃ cell next, (p.stage index).action.step flight = .done cell next
  prompt : ∀ index, (p.stage index).action.All (Decoder.Prompt k)

/-- If a step is to be started, it is none but those behind the head. -/
def Phase.BehindHead : Phase p → Prop
  | .arriving i => 0 < i
  | .entering index => 0 < index.val
  | _ => True

namespace Program.Cycle

variable {k : Nat} {f : Frame p}

theorem index_of_answer (hp : p.Cycle k) {i : Nat} {values values' : Accumulator κ} {move : Move}
    {memory : (p.stage f.index).Memory}
    (h : (p.stage f.index).answer i values f.memory = .ok ⟨move, memory, values'⟩) :
    move.index ((p.stage f.index).bounds f.memory) i = i + 1 ∨
      move.index ((p.stage f.index).bounds f.memory) i = 1 ∨
      move.index ((p.stage f.index).bounds f.memory) i = p.size := by
  obtain ⟨scope, memory, memory', hscope, hbounds, hrule⟩ := Stage.exists_of_answer h
  obtain ⟨-, element, result, bound, collector, rfl⟩ := hp.scope f.index scope hscope
  have hindex := Rule.index_of_repetition hrule
  have hlast : p.size - 1 + 1 = p.size := Nat.sub_add_cancel p.stages_nonempty
  rw [hlast] at hindex
  rw [hbounds]
  exact hindex

theorem atEnd_eq_none (hp : p.Cycle k) (values : Accumulator κ) :
    (p.stage f.index).atEnd values f.memory = .ok none := by
  obtain ⟨scope, memory, hscope, hactive⟩ := Stage.exists_scope f.memory
  obtain ⟨-, element, result, bound, collector, rfl⟩ := hp.scope f.index scope hscope
  exact Stage.atEnd_of_active hactive values

theorem frame?_eq_none (hp : p.Cycle k) {index : Fin p.size} (hpos : 0 < index.val) :
    Machine.frame? index = none := by
  refine Machine.frame?_eq_none ?_
  cases hscope : (p.stage index).scope with
  | none => rfl
  | some scope => exact absurd (hp.scope index scope hscope).1 (Nat.ne_of_gt hpos)

end Program.Cycle

namespace Machine

variable {k : Nat} {m : Machine p}

/-! ### What the machine of a cycle can do -/

theorem leave_cases (hp : p.Cycle k) (hframes : m.frames.length ≤ 1) (i : Nat) :
    (∃ misuse, m.leave i = .broken misuse) ∨
      ∃ next frames values events, m.leave i = .tick ⟨.arriving next, frames, values⟩ events ∧
        frames.length ≤ 1 ∧ (next = i + 1 ∨ next = 1 ∨ next = p.size) := by
  have hnil : ∀ {f frames}, m.frames = f :: frames → frames = [] := by
    intro f frames hf
    rw [hf] at hframes
    exact List.eq_nil_of_length_eq_zero (Nat.le_zero.1 (Nat.le_of_succ_le_succ hframes))
  have hleaves := leaves m i
  generalize m.leave i = step at hleaves ⊢
  cases hleaves with
  | unasked events => exact .inr ⟨i + 1, [], m.values, events, rfl, Nat.zero_le _, .inl rfl⟩
  | @closes f frames move memory values events hf hanswer =>
      obtain rfl := hnil hf
      exact .inr ⟨_, [], values, events, rfl, Nat.zero_le _, hp.index_of_answer hanswer⟩
  | @stays f frames move memory values events hf hanswer =>
      obtain rfl := hnil hf
      exact .inr ⟨_, _, values, events, rfl, Nat.le_refl _, hp.index_of_answer hanswer⟩
  | broken misuse => exact .inl ⟨misuse, rfl⟩

theorem arrive_cases (hp : p.Cycle k) (m : Machine p) (i : Nat) :
    (∃ (h : i < p.size) (events : List Event),
      m.arrive i = .tick ⟨.entering ⟨i, h⟩, m.frames, m.values⟩ events) ∨
    Finishes m (m.arrive i) := by
  have harrives := arrives m i
  generalize m.arrive i = step at harrives ⊢
  cases harrives with
  | enters h events => exact .inl ⟨h, events, rfl⟩
  | ends _ hfinishes => exact .inr hfinishes
  | nested events _ hnested =>
      rw [hp.atEnd_eq_none] at hnested
      cases hnested
  | broken misuse => exact .inr (.broken misuse)

theorem enter_cases (hp : p.Cycle k) (m : Machine p) {index : Fin p.size} (hpos : 0 < index.val) :
    (∃ misuse, m.enter index = .broken misuse) ∨
      ∃ flight values events, (p.stage index).action.arrive m.values = .ok (flight, values) ∧
        m.enter index = .tick (working index m.frames values flight) events := by
  have hnone := hp.frame?_eq_none hpos
  have henters := enters m index
  generalize m.enter index = step at henters ⊢
  cases henters with
  | @works flight values events harrive =>
      rw [hnone]
      exact .inr ⟨flight, values, events, harrive, rfl⟩
  | tooDeep _ _ hframe => exact absurd hnone hframe
  | broken misuse => exact .inl ⟨misuse, rfl⟩

/-! ### How long it takes -/

theorem Finishes.asksWithin {step : Step (Machine p) whole.Carrier} (h : Finishes m step) :
    p.decoder.AsksWithin 1 step := by
  cases h with
  | answers value values events => exact .tick (.done 0 value _)
  | broken misuse => exact .broken 1 misuse

theorem asksWithin_leave_of_arrive (hp : p.Cycle k) (hframes : m.frames.length ≤ 1)
    {i j : Nat}
    (hnext : ∀ next frames values, frames.length ≤ 1 → next = i + 1 ∨ next = 1 ∨ next = p.size →
      p.decoder.AsksWithin j (arrive ⟨.arriving next, frames, values⟩ next)) :
    p.decoder.AsksWithin (j + 1) (m.leave i) := by
  rcases leave_cases hp hframes i with
    ⟨misuse, h⟩ | ⟨next, frames, values, events, h, hframes', hcases⟩
  · rw [h]
    exact .broken _ misuse
  · rw [h]
    exact .tick (hnext next frames values hframes' hcases)

theorem asksWithin_enter_front (hp : p.Cycle k) (m : Machine p) {index : Fin p.size}
    (hpos : 0 < index.val) (hlast : index.val + 1 ≠ p.size) :
    p.decoder.AsksWithin 1 (m.enter index) := by
  rcases enter_cases hp m hpos with ⟨misuse, h⟩ | ⟨flight, values, events, harrive, h⟩
  · rw [h]
    exact .broken 1 misuse
  · rw [h]
    refine .tick (.asks 0 ?_)
    show (working index m.frames values flight).step.Asks
    rw [step_working]
    exact (hp.asks index hpos hlast _ _ _ harrive).graft ..

theorem asksWithin_arrive_front (hp : p.Cycle k) (m : Machine p) {i : Nat} (hpos : 0 < i)
    (hlast : i + 1 ≠ p.size) : p.decoder.AsksWithin 2 (m.arrive i) := by
  rcases arrive_cases hp m i with ⟨hi, events, h⟩ | hfinishes
  · rw [h]
    exact .tick (asksWithin_enter_front hp _ hpos hlast)
  · exact hfinishes.asksWithin.mono (by decide)

/-- Behind the last step of the body the repetition goes on at its first step or is complete. -/
theorem asksWithin_leave_last (hp : p.Cycle k) (hframes : m.frames.length ≤ 1)
    {i : Nat} (hi : i + 1 = p.size) : p.decoder.AsksWithin 3 (m.leave i) := by
  refine asksWithin_leave_of_arrive hp hframes fun next frames values _ hnext => ?_
  have := hp.size
  exact asksWithin_arrive_front hp _ (by omega) (by omega)

theorem asksWithin_enter_last (hp : p.Cycle k) (hframes : m.frames.length ≤ 1)
    {index : Fin p.size} (hpos : 0 < index.val) (hlast : index.val + 1 = p.size) :
    p.decoder.AsksWithin 5 (m.enter index) := by
  rcases enter_cases hp m hpos with ⟨misuse, h⟩ | ⟨flight, values, events, harrive, h⟩
  · rw [h]
    exact .broken 5 misuse
  · rw [h]
    refine .tick ?_
    show p.decoder.AsksWithin 4 (working index m.frames values flight).step
    obtain ⟨cell, next, hdone⟩ := hp.yields index hlast flight
    rw [step_working, hdone]
    exact .tick (asksWithin_leave_last hp (m := landed index m.frames values cell) hframes hlast)

theorem asksWithin_enter (hp : p.Cycle k) (hframes : m.frames.length ≤ 1)
    {index : Fin p.size} (hpos : 0 < index.val) : p.decoder.AsksWithin 5 (m.enter index) := by
  by_cases hlast : index.val + 1 = p.size
  · exact asksWithin_enter_last hp hframes hpos hlast
  · exact (asksWithin_enter_front hp m hpos hlast).mono (by decide)

theorem asksWithin_arrive (hp : p.Cycle k) (hframes : m.frames.length ≤ 1) {i : Nat}
    (hpos : 0 < i) : p.decoder.AsksWithin 6 (m.arrive i) := by
  rcases arrive_cases hp m i with ⟨hi, events, h⟩ | hfinishes
  · rw [h]
    exact .tick (asksWithin_enter hp hframes hpos)
  · exact hfinishes.asksWithin.mono (by decide)

theorem asksWithin_leave (hp : p.Cycle k) (hframes : m.frames.length ≤ 1) (i : Nat) :
    p.decoder.AsksWithin 7 (m.leave i) := by
  refine asksWithin_leave_of_arrive hp hframes fun next frames values hframes' hnext => ?_
  have := hp.size
  exact asksWithin_arrive hp hframes' (by omega)

/-- At most the one scope is active, and execution goes on behind its head. -/
structure Turning (m : Machine p) : Prop where
  frames : m.frames.length ≤ 1
  phase : m.phase.BehindHead

theorem Turning.asksWithin (hp : p.Cycle k) (h : m.Turning) :
    p.decoder.AsksWithin (k + 8) m.step := by
  obtain ⟨phase, frames, values⟩ := m
  have hframes : frames.length ≤ 1 := h.frames
  cases phase with
  | decoding index flight =>
      show p.decoder.AsksWithin (k + 8) (working index frames values flight).step
      rw [step_working]
      refine Decoder.AsksWithin.graft (step_working index frames values)
        (fun cell _ => .tick ?_) (fun error flight => .tick ?_)
        (Decoder.prompt_flight (hp.prompt index) flight flight)
      · exact asksWithin_leave hp (m := landed index frames values cell) hframes index
      · exact Decoder.AsksWithin.fail (d := p.decoder) 7 error (working index frames values flight)
  | failing index flight error =>
      exact Decoder.AsksWithin.fail (d := p.decoder) _ error (working index frames values flight)
  | leaving i => exact (asksWithin_leave hp hframes i).mono (by omega)
  | arriving i => exact (asksWithin_arrive hp hframes h.phase).mono (by omega)
  | entering index => exact (asksWithin_enter hp hframes h.phase).mono (by omega)
  | answering value => exact Decoder.AsksWithin.done (d := p.decoder) _ value (Machine.start p)
  | broken misuse => exact .broken _ misuse

/-! ### The cycle is not left -/

theorem Starts.turning (h : Starts m) : m.Turning := by
  refine ⟨h.length_frames_le, ?_⟩
  cases h with
  | works => trivial
  | broken => trivial

theorem Finishes.keeps_turning {step : Step (Machine p) whole.Carrier} (h : Finishes m step)
    (hframes : m.frames.length ≤ 1) : step.Keeps Turning fun _ => True := by
  cases h with
  | answers => exact ⟨hframes, trivial⟩
  | broken misuse => trivial

theorem Turning.keeps (hp : p.Cycle k) (h : m.Turning) :
    m.step.Keeps Turning fun _ => True := by
  obtain ⟨phase, frames, values⟩ := m
  have hframes : frames.length ≤ 1 := h.frames
  cases phase with
  | decoding index flight =>
      show (working index frames values flight).step.Keeps Turning _
      rw [step_working]
      cases (p.stage index).action.step flight with
      | read n resume => exact fun _ _ => ⟨hframes, trivial⟩
      | skip n resume => exact fun _ _ => ⟨hframes, trivial⟩
      | tick next events => exact ⟨hframes, trivial⟩
      | done cell next => exact ⟨hframes, trivial⟩
      | fail error next => exact ⟨hframes, trivial⟩
      | broken misuse => trivial
  | failing index flight error => trivial
  | leaving i =>
      show (leave _ i).Keeps Turning _
      rcases leave_cases hp (m := ⟨.leaving i, frames, values⟩) hframes i with
        ⟨misuse, h⟩ | ⟨next, frames', values', events, h, hframes', hnext⟩
      · rw [h]
        trivial
      · rw [h]
        have := hp.size
        have hpos : 0 < next := by omega
        exact ⟨hframes', hpos⟩
  | arriving i =>
      show (arrive _ i).Keeps Turning _
      rcases arrive_cases hp ⟨.arriving i, frames, values⟩ i with ⟨hi, events, heq⟩ | hfinishes
      · rw [heq]
        exact ⟨hframes, h.phase⟩
      · exact hfinishes.keeps_turning hframes
  | entering index =>
      show (enter _ index).Keeps Turning _
      rcases enter_cases hp ⟨.entering index, frames, values⟩ h.phase with
        ⟨misuse, heq⟩ | ⟨flight, values', events, -, heq⟩
      · rw [heq]
        trivial
      · rw [heq]
        exact ⟨hframes, trivial⟩
  | answering value => exact (starts p).turning
  | broken misuse => trivial

end Machine

/-- A cycle is prompt from its start on. -/
theorem Program.Cycle.promptFrom {k : Nat} (hp : p.Cycle k) :
    p.decoder.PromptFrom (k + 8) (Machine.start p) :=
  ⟨Machine.Turning, (Machine.starts p).turning, fun _ h => ⟨h.asksWithin hp, h.keeps hp⟩⟩

end Programs

end Piecemeal
