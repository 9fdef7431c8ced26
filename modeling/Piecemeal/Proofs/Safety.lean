/-
# Programs of recipes are never wrong

The checks of the builder are enough: if the reductions of a recipe read their values at the types
that are pending, and the decoders that it runs are safe, then its program is safe too.  No history
of calls comes upon a value that is missing or has another type, a layer that cannot be opened or
read back, or a step that is not there.

The values are taken care of by `Machine.Coherent`.  What remains are the decoders in flight, which
are sound from their start on, `Machine.FlightSound`, because a machine starts each of them afresh.
So the invariant of a program is

    Coherent root m ∧ m.FlightSound                                    (`Machine.keeps_sound`)

That the decoders are safe is known of all that can be put together from the library's own:
`Decoder.Checked` are the decoders without parts, what adapters make of checked ones, and the
programs of recipes whose decoders are checked; and

    d.Checked → d.Steady        d.Steady → d.Safe        (`Checked.steady`, `Steady.safe`)

with `Steady` for sound at the start and behind every reset.  Safety is not what adapters hand on, as
an adapter resets each of its parts in whatever state that is.  For standard decoders, whose resets
lead to the start, the two are the same, `Standard.steady_iff`.
-/
import Piecemeal.Proofs.Coherence
import Piecemeal.Proofs.Freshness

namespace Piecemeal

variable {κ : Type} [Atom κ] {whole : ValueType κ} {p : Program κ whole} {root : Recipe κ whole}

/-! ## Actions in flight -/

namespace Action

/-- The decoder in flight is sound. -/
def Sound : (action : Action κ) → action.Flight → Prop
  | decode _ decoder, state => decoder.Sound state
  | replace _ _ choose, ⟨value, state⟩ | follow _ _ choose, ⟨value, state⟩ =>
      (choose value).Sound state
  | reduce .., _ => True

theorem Sound.keeps {action : Action κ} {flight : action.Flight} (h : action.Sound flight) :
    (action.step flight).Keeps action.Sound fun _ => False := by
  cases action with
  | decode type decoder =>
      exact (Decoder.Sound.keeps h).embed (fun _ hstate => hstate) fun _ _ hstate => hstate
  | replace source type choose =>
      obtain ⟨value, state⟩ := flight
      exact (Decoder.Sound.keeps h).embed (fun _ hstate => hstate) fun _ _ hstate => hstate
  | follow source type choose =>
      obtain ⟨value, state⟩ := flight
      exact (Decoder.Sound.keeps h).embed (fun _ hstate => hstate) fun _ _ hstate => hstate
  | reduce arity type reading => trivial

theorem sound_of_arrive {action : Action κ} (h : action.All Decoder.Safe) {acc acc' : Accumulator κ}
    {flight : action.Flight} (harrive : action.arrive acc = .ok (flight, acc')) :
    action.Sound flight := by
  cases action with
  | decode type decoder =>
      cases harrive
      exact Decoder.Safe.sound h
  | replace source type choose =>
      simp only [arrive] at harrive
      split at harrive
      next value _ _ => cases harrive; exact (h value).sound
      next => cases harrive
  | follow source type choose =>
      simp only [arrive] at harrive
      split at harrive
      next value _ => cases harrive; exact (h value).sound
      next => cases harrive
  | reduce arity type reading => trivial

end Action

namespace Machine

/-- If a decoder is in flight it is sound. -/
def FlightSound (m : Machine p) : Prop :=
  ∀ index flight, m.phase = .decoding index flight → (p.stage index).action.Sound flight

theorem flightSound_start (h : ∀ index, (p.stage index).action.All Decoder.Safe) :
    (Machine.start p).FlightSound := by
  intro index flight hphase
  have hstarts := starts p
  generalize Machine.start p = m at hphase hstarts
  cases hstarts with
  | works harrive =>
      cases hphase
      exact Action.sound_of_arrive (h p.first) harrive
  | broken => cases hphase

theorem keeps_working {index : Fin p.size} {flight : (p.stage index).action.Flight}
    (hsound : (p.stage index).action.Sound flight) (frames : List (Frame p))
    (values : Accumulator κ) :
    (working index frames values flight).step.Keeps FlightSound fun _ => True := by
  have hkeeps := hsound.keeps
  rw [step_working]
  cases hs : (p.stage index).action.step flight with
  | read n resume =>
      rw [hs] at hkeeps
      intro bytes hlen index' flight' hphase
      cases hphase
      exact hkeeps bytes hlen
  | skip n resume =>
      rw [hs] at hkeeps
      intro skipped hle index' flight' hphase
      cases hphase
      exact hkeeps skipped hle
  | tick next events =>
      rw [hs] at hkeeps
      intro index' flight' hphase
      cases hphase
      exact hkeeps
  | done cell next => exact fun _ _ hphase => nomatch hphase
  | fail error next => exact fun _ _ hphase => nomatch hphase
  | broken misuse => trivial

theorem FlightSound.keeps (h : ∀ index, (p.stage index).action.All Decoder.Safe) {m : Machine p}
    (hm : m.FlightSound) : m.step.Keeps FlightSound fun _ => True := by
  by_cases hflight : ∃ index flight, m.phase = .decoding index flight
  · obtain ⟨index, flight, hphase⟩ := hflight
    obtain ⟨phase, frames, values⟩ := m
    obtain rfl : phase = .decoding index flight := hphase
    exact keeps_working (hm index flight rfl) frames values
  · have hunaided : Unaided m.step :=
      unaided_step fun index flight hphase => hflight ⟨index, flight, hphase⟩
    generalize m.step = s at hunaided
    cases hunaided with
    | tick harrived =>
        intro index flight hphase
        obtain ⟨values, values', harrive⟩ := harrived index flight hphase
        exact Action.sound_of_arrive (h index) harrive
    | done value => exact flightSound_start h
    | fail error last => trivial
    | broken misuse => trivial

end Machine

/-! ## Steady decoders -/

namespace Decoder

variable {α β ε ρ : Type} {d : Decoder α}

/-- No step is wrong from the start on, nor from a reset on, whenever that comes. -/
structure Steady (d : Decoder α) : Prop where
  start : d.Sound d.start
  reset (state : d.State) : d.Sound (d.reset state)

theorem Steady.safe (h : d.Steady) : d.Safe :=
  safe_of_invariant h.start (fun _ hstate => hstate.keeps) h.reset

theorem Standard.steady_iff (h : d.Standard) : d.Steady ↔ d.Safe := by
  constructor
  · exact Steady.safe
  · intro hsafe
    refine ⟨hsafe.sound, fun state => ?_⟩
    rw [h.reset_eq_start]
    exact hsafe.sound

theorem Plain.steady (h : d.Plain) : d.Steady := by
  have hsound : ∀ state, d.Sound state := by
    intro state
    refine ⟨fun _ => True, trivial, fun state _ => ?_⟩
    exact ((h state).restrict fun _ _ _ => trivial).mono (fun _ h => h) (fun _ _ _ => trivial)
      (fun _ _ h => h) fun _ h => h
  exact ⟨hsound _, fun state => hsound _⟩

/-! ### Adapters -/

theorem Sound.map {state : d.State} (h : d.Sound state) (f : α → β) : (d.map f).Sound state := by
  refine ⟨d.Sound, h, fun state hstate => ?_⟩
  exact hstate.keeps.embed (fun _ h => h) fun _ _ h => h

theorem Sound.tryMap {state : d.State} (h : d.Sound state) (f : α → Except DecodeError β) :
    (d.tryMap f).Sound state := by
  refine ⟨d.Sound, h, fun state hstate => ?_⟩
  refine hstate.keeps.embed (fun _ h => h) ?_
  intro value next hnext
  cases f value with
  | ok result => exact hnext
  | error error => trivial

theorem Sound.andThen {first : d.State} (h : d.Sound first) {f : α → Decoder β}
    (hf : ∀ value, (f value).Sound (f value).start) : (d.andThen f).Sound ⟨first, none⟩ := by
  refine ⟨fun progress => match progress with
    | ⟨first, none⟩ => d.Sound first
    | ⟨first, some ⟨value, second⟩⟩ => d.Sound first ∧ (f value).Sound second, h, ?_⟩
  rintro ⟨first, _ | ⟨value, second⟩⟩ hstate
  · simp only [Decoder.andThen]
    refine Step.Keeps.embed (Sound.keeps hstate) ?_ ?_
    · exact fun state h => h
    · exact fun value next hnext => ⟨hnext, hf value⟩
  · obtain ⟨hfirst, hsecond⟩ := hstate
    simp only [Decoder.andThen]
    refine Step.Keeps.embed hsecond.keeps ?_ ?_
    · exact fun state h => ⟨hfirst, h⟩
    · exact fun result next hnext => hfirst

theorem Sound.both {a : Decoder α} {b : Decoder β} {first : a.State} {second : b.State}
    (ha : a.Sound first) (hb : b.Sound second) : (a.both b).Sound ⟨first, second, none⟩ := by
  refine ⟨fun progress => a.Sound progress.first ∧ b.Sound progress.second, ⟨ha, hb⟩, ?_⟩
  rintro ⟨first, second, _ | left⟩ ⟨hfirst, hsecond⟩
  · simp only [Decoder.both]
    refine Step.Keeps.embed (Sound.keeps hfirst) ?_ ?_
    · exact fun state h => ⟨h, hsecond⟩
    · exact fun left next hnext => ⟨hnext, hsecond⟩
  · simp only [Decoder.both]
    refine Step.Keeps.embed (Sound.keeps hsecond) ?_ ?_
    · exact fun state h => ⟨hfirst, h⟩
    · exact fun right next hnext => ⟨hfirst, hnext⟩

theorem Sound.skipAfter {inner : d.State} (h : d.Sound inner) (n owed : Nat) :
    (d.skipAfter n).Sound ⟨inner, owed, none⟩ := by
  refine ⟨fun progress => d.Sound progress.inner, h, ?_⟩
  rintro ⟨inner, owed, _ | value⟩ hinner
  · simp only [Decoder.skipAfter]
    refine Step.Keeps.embed (Sound.keeps hinner) ?_ ?_
    · exact fun state h => h
    · exact fun value next hnext => hnext
  · simp only [Decoder.skipAfter]
    split
    next => exact hinner
    next => exact fun _ _ => hinner

theorem Sound.repeated {d : Decoder ε} {bound : Bound ε} {target : bound.target.State}
    {element : d.State} (htarget : bound.target.Sound target) (helement : d.Sound element)
    (c : Collector ε ρ) : (d.repeated bound c).Sound ⟨target, element, none⟩ := by
  refine ⟨fun progress => bound.target.Sound progress.target ∧ d.Sound progress.element,
    ⟨htarget, helement⟩, ?_⟩
  rintro ⟨target, element, _ | tally⟩ ⟨htarget, helement⟩
  · simp only [Decoder.repeated]
    refine Step.Keeps.embed (Sound.keeps htarget) ?_ ?_
    · exact fun state h => ⟨h, helement⟩
    · exact fun n next hnext => ⟨hnext, helement⟩
  · simp only [Decoder.repeated]
    split
    next => exact ⟨htarget, helement⟩
    next =>
      refine Step.Keeps.embed (Sound.keeps helement) ?_ ?_
      · exact fun state h => ⟨htarget, h⟩
      · intro value next hnext
        split
        next => exact ⟨htarget, hnext⟩
        next => exact ⟨htarget, hnext⟩

theorem Steady.map (h : d.Steady) (f : α → β) : (d.map f).Steady :=
  ⟨h.start.map f, fun state => (h.reset state).map f⟩

theorem Steady.tryMap (h : d.Steady) (f : α → Except DecodeError β) : (d.tryMap f).Steady :=
  ⟨h.start.tryMap f, fun state => (h.reset state).tryMap f⟩

theorem Steady.andThen (h : d.Steady) {f : α → Decoder β} (hf : ∀ value, (f value).Steady) :
    (d.andThen f).Steady := by
  have hsecond : ∀ value, (f value).Sound (f value).start := fun value => (hf value).start
  exact ⟨h.start.andThen hsecond, fun progress => (h.reset progress.first).andThen hsecond⟩

theorem Steady.both {a : Decoder α} {b : Decoder β} (ha : a.Steady) (hb : b.Steady) :
    (a.both b).Steady :=
  ⟨ha.start.both hb.start, fun progress => (ha.reset progress.first).both (hb.reset progress.second)⟩

theorem Steady.skipAfter (h : d.Steady) (n : Nat) : (d.skipAfter n).Steady :=
  ⟨h.start.skipAfter n n, fun progress => (h.reset progress.inner).skipAfter n n⟩

theorem steady_target {bound : Bound ε} (h : ∀ size, bound = .prefixed size → size.Steady) :
    bound.target.Steady := by
  cases bound with
  | times n => exact (plain_constant _).steady
  | prefixed size => exact (h size rfl).map some
  | whileHolds predicate addLast => exact (plain_constant _).steady

theorem Steady.repeated {d : Decoder ε} (h : d.Steady) {bound : Bound ε}
    (hbound : ∀ size, bound = .prefixed size → size.Steady) (c : Collector ε ρ) :
    (d.repeated bound c).Steady := by
  have htarget := steady_target hbound
  exact ⟨htarget.start.repeated h.start c,
    fun progress => (htarget.reset progress.target).repeated (h.reset progress.element) c⟩

end Decoder

/-! ## The property -/

/-- The invariant of a safe program. -/
theorem Machine.keeps_sound {m : Machine p} (hp : p.OfRecipe root) (hreads : root.ReadsPending)
    (hsafe : ∀ index, (p.stage index).action.All Decoder.Safe)
    (hm : Coherent root m ∧ m.FlightSound) :
    m.step.Keeps (fun m => Coherent root m ∧ m.FlightSound) fun _ => False := by
  obtain ⟨hcoherent, hsound⟩ := hm
  refine ((hcoherent.keeps hp hreads).and (hsound.keeps hsafe)).mono (fun _ h => h) ?_
  intro misuse hbroken
  obtain ⟨⟨index, flight, hphase, hstep⟩, -⟩ := hbroken
  have hkeeps := (hsound index flight hphase).keeps
  rw [hstep] at hkeeps
  exact hkeeps

section Accepted

variable (h : root.Accepted) (hreads : root.ReadsPending)
  (hsafe : ∀ {α : Type} (d : Decoder α), root.Uses d → d.Safe) {maxDepth : Nat}
  (hp : root.assemble maxDepth = .ok p)

include hsafe hp

theorem Recipe.all_safe (index : Fin p.size) : (p.stage index).action.All Decoder.Safe :=
  all_of_uses (fun n => (Decoder.plain_skipBytes n).steady.safe)
    (Decoder.plain_constant ()).steady.safe hsafe 0 _ (stage_mem_stages hp index)

include h hreads

theorem Recipe.Accepted.sound_start :
    Machine.Coherent root (Machine.start p) ∧ (Machine.start p).FlightSound :=
  ⟨Machine.coherent_start (h.ofRecipe hp) hreads, Machine.flightSound_start (Recipe.all_safe hsafe hp)⟩

theorem Recipe.Accepted.keeps_sound {m : Machine p}
    (hm : Machine.Coherent root m ∧ m.FlightSound) :
    m.step.Keeps (fun m => Machine.Coherent root m ∧ m.FlightSound) fun _ => False :=
  Machine.keeps_sound (h.ofRecipe hp) hreads (Recipe.all_safe hsafe hp) hm

/-- A program is safe from every reset on, so it may be a part again. -/
theorem Recipe.Accepted.steady : p.decoder.Steady := by
  have hsound : p.decoder.Sound p.decoder.start :=
    ⟨_, h.sound_start hreads hsafe hp, fun _ hm => h.keeps_sound hreads hsafe hp hm⟩
  exact ⟨hsound, fun _ => hsound⟩

end Accepted

namespace Decoder

/-- The decoders that are made of plain ones, where every composition passes the checks of the builder
and reads at the pending types. -/
inductive Checked : {α : Type} → Decoder α → Prop
  | plain {α : Type} {d : Decoder α} : d.Plain → Checked d
  | map {α β : Type} {d : Decoder α} (f : α → β) : Checked d → Checked (d.map f)
  | tryMap {α β : Type} {d : Decoder α} (f : α → Except DecodeError β) :
      Checked d → Checked (d.tryMap f)
  | andThen {α β : Type} {d : Decoder α} {f : α → Decoder β} :
      Checked d → (∀ value, Checked (f value)) → Checked (d.andThen f)
  | both {α β : Type} {a : Decoder α} {b : Decoder β} :
      Checked a → Checked b → Checked (a.both b)
  | skipAfter {α : Type} {d : Decoder α} (n : Nat) : Checked d → Checked (d.skipAfter n)
  | repeated {ε ρ : Type} {d : Decoder ε} {bound : Bound ε} (c : Collector ε ρ) :
      Checked d → (∀ size, bound = .prefixed size → Checked size) → Checked (d.repeated bound c)
  | composed {κ : Type} [Atom κ] {whole : ValueType κ} {root : Recipe κ whole} {maxDepth : Nat}
      {p : Program κ whole} :
      root.Accepted → root.ReadsPending → root.assemble maxDepth = .ok p →
      (∀ {α : Type} (d : Decoder α), root.Uses d → Checked d) → Checked p.decoder

theorem Checked.steady {α : Type} {d : Decoder α} (h : d.Checked) : d.Steady := by
  induction h with
  | plain h => exact h.steady
  | map f _ ih => exact ih.map f
  | tryMap f _ ih => exact ih.tryMap f
  | andThen _ _ ih ihf => exact ih.andThen ihf
  | both _ _ iha ihb => exact iha.both ihb
  | skipAfter n _ ih => exact ih.skipAfter n
  | repeated c _ _ ih ihbound => exact ih.repeated ihbound c
  | composed h hreads hp _ ih => exact h.steady hreads (fun d hd => (ih d hd).safe) hp

theorem Checked.safe {α : Type} {d : Decoder α} (h : d.Checked) : d.Safe := h.steady.safe

end Decoder

/-- A recipe that passes the checks of the builder, whose reductions read at the pending types and
whose decoders are safe, has a program that can be started and is safe, and that never goes on at an
index beyond its end. -/
theorem Recipe.Accepted.program_safe (h : root.Accepted) (hreads : root.ReadsPending)
    (hsafe : ∀ {α : Type} (d : Decoder α), root.Uses d → d.Safe) {maxDepth : Nat}
    (hp : root.assemble maxDepth = .ok p) :
    p.misuse? = none ∧ p.decoder.Safe ∧
    ∀ state bytes m rest, p.decoder.Ready state → p.decoder.Visits state bytes m rest →
      m.phase.index ≤ p.size := by
  have hof := h.ofRecipe hp
  refine ⟨?_, (h.steady hreads hsafe hp).safe, ?_⟩
  · have hkeeps := h.keeps_sound hreads hsafe hp (h.sound_start hreads hsafe hp)
    unfold Program.misuse?
    split
    next misuse hbroken => rw [hbroken] at hkeeps; exact hkeeps.elim
    next => rfl
  · intro state bytes m rest hready hvisits
    exact (Machine.coherent_of_visits hof hreads hready hvisits).index_le hof

/-- So has the recipe that counts the nodes of a tree. -/
theorem nodeCount_safe :
    ∃ p, Recipe.nodeCount.assemble 8 = .ok p ∧ p.misuse? = none ∧ p.decoder.Safe := by
  obtain ⟨p, hp⟩ : ∃ p, Recipe.nodeCount.assemble 8 = .ok p := ⟨_, rfl⟩
  have hsafe : ∀ {α : Type} (d : Decoder α), Recipe.nodeCount.Uses d → d.Safe := by
    intro α d hd
    cases hd with
    | beforeAct hd =>
      cases hd with
      | recur => exact (Decoder.Checked.plain Decoder.plain_bool).safe
      | beforeRecur hd =>
        cases hd with
        | recur => exact (Decoder.Checked.plain Decoder.plain_bool).safe
        | beforeRecur hd =>
          cases hd with
          | first => exact (Decoder.Checked.plain (Decoder.plain_number UInt8 .big)).safe
  obtain ⟨hmisuse, hdecoder, -⟩ :=
    Recipe.nodeCount_accepted.program_safe Recipe.nodeCount_readsPending hsafe hp
  exact ⟨p, hp, hmisuse, hdecoder⟩

end Piecemeal
