/-
# Bounds on the state of a program

Hostile data cannot make a program hold more than its author allows.  With at most `m` active
scopes there are at most `m + 1` instances, each holds no more values than the builder had recorded
as pending somewhere, `Recipe.widest`, and an open layer belongs to an instance that is nested.  So
a machine is `Confined`:

    m.frames.length ≤ p.maxDepth
    m.values.layers.length ≤ p.maxDepth
    m.values.size ≤ (p.maxDepth + 1) * root.widest

Between the calls of a history an action is in flight, and there the shape of a coherent machine
says all this, `Coherent.confined`.  The number of scopes is an invariant of its own, `Follows`: a
scope becomes active only where the limit is checked, or at the start, where there is always room
for one.

A call that rejects its data leaves a state behind as well, which may be looked at until the
decoder is reset.  Coherence says nothing of it, so the bounds are carried along from where a
machine gives up, `Machine.Rejects`, to its answer.  `Contained` is the invariant with that, and
every state that can be `Observed` is confined.
-/
import Piecemeal.Proofs.Isolation

namespace Piecemeal

variable {κ : Type} [Atom κ] {whole : ValueType κ} {p : Program κ whole}
  {root r : Recipe κ whole} {start : Nat} {scopes : List Nat}

/-! ## Values of an instance -/

theorem Action.length_leaves_le {τ : Type} (action : Action κ) (values : List τ) :
    (action.leaves values).length ≤ values.length := by
  cases action with
  | decode => exact Nat.le_refl _
  | replace =>
      rw [leaves, List.length_tail]
      exact Nat.sub_le ..
  | follow => exact Nat.le_refl _
  | reduce =>
      rw [leaves, List.length_drop]
      exact Nat.sub_le ..

namespace Recipe

/-- The largest number of pending values that the builder has recorded after any part. -/
def widest : Recipe κ whole → Nat
  | r@(first ..) => r.pending.length
  | r@(act before _) | r@(skip before _) | r@(recur before _) =>
      max before.widest r.pending.length
  | r@(optional body ..) | r@(repetition body ..) => max body.widest r.pending.length

theorem length_pending_le (r : Recipe κ whole) : r.pending.length ≤ r.widest := by
  cases r with
  | first => exact Nat.le_refl _
  | act => exact Nat.le_max_right ..
  | skip => exact Nat.le_max_right ..
  | recur => exact Nat.le_max_right ..
  | optional => exact Nat.le_max_right ..
  | repetition => exact Nat.le_max_right ..

theorem length_slotsBefore_le (r : Recipe κ whole) (i : Nat) :
    (r.slotsBefore i).length ≤ r.widest := by
  -- what a part that follows others adds to the bound does not matter in front of it
  have follows {before : Recipe κ whole} {w : Nat}
      (ih : ∀ i, (before.slotsBefore i).length ≤ before.widest) (i : Nat) :
      (if i < before.size then before.slotsBefore i else before.pending).length ≤
        max before.widest w := by
    refine Nat.le_trans ?_ (Nat.le_max_left ..)
    split
    next => exact ih i
    next => exact before.length_pending_le
  induction r generalizing i with
  | first => exact Nat.zero_le _
  | act before action ih => exact follows ih i
  | skip before n ih => exact follows ih i
  | recur before flag ih => exact follows ih i
  | optional body type flag ih =>
      cases i with
      | zero => exact Nat.zero_le _
      | succ i => exact Nat.le_trans (ih i) (Nat.le_max_left ..)
  | repetition body element result bound collector ih =>
      cases i with
      | zero => exact Nat.zero_le _
      | succ i => exact Nat.le_trans (ih i) (Nat.le_max_left ..)

theorem length_slotsBelow_le (root : Recipe κ whole) (homes : List Nat) :
    (root.slotsBelow homes).length ≤ homes.length * root.widest := by
  induction homes with
  | nil => exact Nat.zero_le _
  | cons home homes ih =>
      rw [slotsBelow, List.length_append, List.length_reverse, List.length_cons, Nat.succ_mul]
      exact Nat.add_le_add ih (root.length_slotsBefore_le home)

theorem length_bottoms (root : Recipe κ whole) (homes : List Nat) :
    (root.bottoms homes).length = homes.length := by
  induction homes with
  | nil => rfl
  | cons home homes ih => exact congrArg Nat.succ ih

end Recipe

/-! ## Confined machines -/

namespace Machine

theorem length_homes_le (frames : List (Frame p)) : (homes frames).length ≤ frames.length := by
  rw [homes, List.length_map]
  exact List.length_filter_le ..

/-- The machine is no larger than the scopes that may be active allow. -/
structure Confined (root : Recipe κ whole) (m : Machine p) : Prop where
  frames : m.frames.length ≤ p.maxDepth
  layers : m.values.layers.length ≤ p.maxDepth
  values : m.values.size ≤ (p.maxDepth + 1) * root.widest

theorem Confined.of_shape {m : Machine p} {types : List (ValueType κ)}
    (hdepth : m.frames.length ≤ p.maxDepth) (htypes : types.length ≤ root.widest)
    (hcells : m.values.cells.toList.map Cell.type = root.slotsBelow (homes m.frames) ++
      types.reverse)
    (hlayers : m.values.layers.Sublist (root.bottoms (homes m.frames))) : m.Confined root := by
  have hhomes : (homes m.frames).length ≤ p.maxDepth :=
    Nat.le_trans (length_homes_le m.frames) hdepth
  refine ⟨hdepth, ?_, ?_⟩
  · have hle := hlayers.length_le
    rw [root.length_bottoms] at hle
    exact Nat.le_trans hle hhomes
  · have hsize : m.values.size = (root.slotsBelow (homes m.frames)).length + types.length := by
      rw [Accumulator.size, ← Array.length_toList, ← List.length_map Cell.type, hcells,
        List.length_append, List.length_reverse]
    calc m.values.size
        ≤ (homes m.frames).length * root.widest + root.widest := by
          rw [hsize]
          exact Nat.add_le_add (root.length_slotsBelow_le _) htypes
      _ ≤ p.maxDepth * root.widest + root.widest :=
          Nat.add_le_add_right (Nat.mul_le_mul_right _ hhomes) _
      _ = (p.maxDepth + 1) * root.widest := (Nat.succ_mul ..).symm

theorem Confined.congr {m m' : Machine p} (h : m.Confined root) (hframes : m'.frames = m.frames)
    (hvalues : m'.values = m.values) : m'.Confined root := by
  obtain ⟨hdepth, hlayers, hsize⟩ := h
  exact ⟨by rwa [hframes], by rwa [hvalues], by rwa [hvalues]⟩

theorem Coherent.confined (hp : p.OfRecipe root) {m : Machine p} (h : Coherent root m)
    (hdepth : m.frames.length ≤ p.maxDepth) {index : Fin p.size}
    {flight : (p.stage index).action.Flight} (hphase : m.phase = .decoding index flight) :
    m.Confined root := by
  obtain ⟨hcells, -, hlayers⟩ := h.shape hp hphase
  refine .of_shape hdepth ?_ hcells hlayers
  exact Nat.le_trans (Action.length_leaves_le ..) (root.length_slotsBefore_le index)

/-! ## One step -/

/-- The machine `m` gives up in the state `next`: its action in flight has failed, or there is no
room for the scope of the step that it was to enter. -/
def Rejects (m next : Machine p) : Prop :=
  next.frames = m.frames ∧
    ((∃ index flight, m.phase = .decoding index flight ∧ next.values = m.values) ∨
      ∃ index flight, m.phase = .entering index ∧
        (p.stage index).action.arrive m.values = .ok (flight, next.values))

/-- One step leads from `m` to `next`, as far as scopes and rejections go. -/
structure Follows (m next : Machine p) : Prop where
  depth : m.frames.length ≤ p.maxDepth → next.frames.length ≤ p.maxDepth
  rejects : ∀ index flight error, next.phase = .failing index flight error → m.Rejects next

/-- Such a step of `m`.  A machine that fails leaves its scopes and values as they are. -/
inductive Advances (m : Machine p) : Step (Machine p) whole.Carrier → Prop
  | request {step : Step (Machine p) whole.Carrier} {n : Nat} {resume : Bytes → Machine p} :
      step.request? = some (n, resume) → (∀ bytes, m.Follows (resume bytes)) → Advances m step
  | tick {next : Machine p} {events : List Event} :
      m.Follows next → Advances m (.tick next events)
  | done (value : whole.Carrier) : Advances m (.done value (Machine.start p))
  | fail {next : Machine p} {index : Fin p.size} {flight : (p.stage index).action.Flight}
      {error : DecodeError} :
      m.phase = .failing index flight error → next.frames = m.frames → next.values = m.values →
      Advances m (.fail error next)
  | broken (misuse : Misuse) : Advances m (.broken misuse)

theorem advances_decode {m : Machine p} {index : Fin p.size}
    {flight : (p.stage index).action.Flight} (hphase : m.phase = .decoding index flight) :
    Advances m (m.decode index flight) := by
  unfold decode
  split
  next => exact .request rfl fun _ => ⟨id, fun _ _ _ h => nomatch h⟩
  next => exact .request rfl fun _ => ⟨id, fun _ _ _ h => nomatch h⟩
  next => exact .tick ⟨id, fun _ _ _ h => nomatch h⟩
  next => exact .tick ⟨id, fun _ _ _ h => nomatch h⟩
  next => exact .tick ⟨id, fun _ _ _ _ => ⟨rfl, .inl ⟨index, flight, hphase, rfl⟩⟩⟩
  next => exact .broken _

theorem Finishes.advances {m : Machine p} {step : Step (Machine p) whole.Carrier}
    (h : Finishes m step) : Advances m step := by
  cases h with
  | answers => exact .tick ⟨id, fun _ _ _ h => nomatch h⟩
  | broken misuse => exact .broken misuse

theorem Leaves.advances {m : Machine p} {i : Nat} {step : Step (Machine p) whole.Carrier}
    (h : Leaves m i step) : Advances m step := by
  cases h with
  | unasked => exact .tick ⟨fun _ => Nat.zero_le _, fun _ _ _ h => nomatch h⟩
  | @closes f frames _ _ _ _ hframes =>
      refine .tick ⟨fun h => ?_, ?_⟩
      · rw [hframes] at h
        exact Nat.le_of_succ_le h
      · cases frames with
        | nil => exact fun _ _ _ h => nomatch h
        | cons f' frames => exact fun _ _ _ h => nomatch h
  | stays _ hframes => exact .tick ⟨fun h => by rwa [hframes] at h, fun _ _ _ h => nomatch h⟩
  | broken misuse => exact .broken misuse

theorem Arrives.advances {m : Machine p} {i : Nat} {step : Step (Machine p) whole.Carrier}
    (h : Arrives m i step) : Advances m step := by
  cases h with
  | enters => exact .tick ⟨id, fun _ _ _ h => nomatch h⟩
  | ends _ hfinishes => exact hfinishes.advances
  | nested _ hframes =>
      refine .tick ⟨fun h => ?_, fun _ _ _ h => nomatch h⟩
      rw [hframes] at h
      exact Nat.le_of_succ_le h
  | broken misuse => exact .broken misuse

/-- This is where the limit is checked. -/
theorem Enters.advances {m : Machine p} {index : Fin p.size} {step : Step (Machine p) whole.Carrier}
    (h : Enters m index step) (hphase : m.phase = .entering index) : Advances m step := by
  cases h with
  | @works flight values _ _ hroom =>
      refine .tick ⟨fun h => ?_, fun _ _ _ h => nomatch h⟩
      show ((frame? index).toList ++ m.frames).length ≤ p.maxDepth
      cases hframe : (frame? index : Option (Frame p)) with
      | none => exact h
      | some f => exact hroom.resolve_left (by rw [hframe]; exact Option.some_ne_none f)
  | @tooDeep flight values _ harrive =>
      exact .tick ⟨id, fun _ _ _ _ => ⟨rfl, .inr ⟨index, flight, hphase, harrive⟩⟩⟩
  | broken misuse => exact .broken misuse

theorem advances_step (m : Machine p) : Advances m m.step := by
  obtain ⟨phase, frames, values⟩ := m
  cases phase with
  | decoding index flight => exact advances_decode rfl
  | failing index flight error => exact .fail rfl rfl rfl
  | leaving i => exact (leaves _ i).advances
  | arriving i => exact (arrives _ i).advances
  | entering index => exact (enters _ index).advances rfl
  | answering value => exact .done value
  | broken misuse => exact .broken misuse

/-- The scope of the first step becomes active unchecked, but there is always room for one. -/
theorem follows_start (m : Machine p) : m.Follows (Machine.start p) := by
  have hstarts := starts p
  refine ⟨fun _ => Nat.le_trans hstarts.length_frames_le p.maxDepth_pos, ?_⟩
  generalize Machine.start p = next at hstarts ⊢
  cases hstarts with
  | works => exact fun _ _ _ h => nomatch h
  | broken => exact fun _ _ _ h => nomatch h

theorem Advances.keeps {m : Machine p} {step : Step (Machine p) whole.Carrier}
    (h : Advances m step) : step.Keeps m.Follows fun _ => True := by
  cases h with
  | request hreq hnext => exact Step.leads_of_request hreq fun bytes _ => hnext bytes
  | tick hnext => exact hnext
  | done value => exact follows_start m
  | fail => trivial
  | broken misuse => trivial

/-- Where a coherent machine gives up, it is confined by its scopes. -/
theorem Rejects.confined (hp : p.OfRecipe root) (hreads : root.ReadsPending) {m next : Machine p}
    (h : m.Rejects next) (hcoherent : Coherent root m) (hdepth : m.frames.length ≤ p.maxDepth) :
    next.Confined root := by
  obtain ⟨hframes, ⟨index, flight, hphase, hvalues⟩ | ⟨index, flight, hphase, harrive⟩⟩ := h
  · exact (hcoherent.confined hp hdepth hphase).congr hframes hvalues
  · cases hcoherent with
    | @entering r start scopes index' frames values hpart hindex hrun =>
        cases hphase
        have hstage := hp.stage_eq hpart hindex
        obtain ⟨flight', values', harrive', hrun'⟩ :=
          hrun.exists_arrive (p.stage index).action
            (by rw [hstage]; exact (hpart.fits hp.fits).own start)
            (by rw [hstage]; exact (hpart.readsPending hreads).own start)
        cases harrive.symm.trans harrive'
        replace hframes : next.frames = frames := hframes
        rw [← hframes] at hrun'
        obtain ⟨hcells, -, hlayers⟩ := hrun'.shape hp hpart
        have hwaiting : r.waiting.length ≤ root.widest := by
          rw [← hpart.slotsBefore_own]
          exact root.length_slotsBefore_le _
        exact .of_shape (by rw [hframes]; exact hdepth)
          (Nat.le_trans (Action.length_leaves_le ..) hwaiting) hcells hlayers
    | decoding => cases hphase
    | headed => cases hphase
    | left => cases hphase
    | arriving => cases hphase
    | ended => cases hphase
    | failing => cases hphase
    | answering => cases hphase

/-! ## Runs -/

/-- The invariant: a coherent machine, with room for its scopes, that is confined where it fails. -/
structure Contained (root : Recipe κ whole) (m : Machine p) : Prop where
  coherent : Coherent root m
  depth : m.frames.length ≤ p.maxDepth
  failing : ∀ index flight error, m.phase = .failing index flight error → m.Confined root

theorem Contained.keeps (hp : p.OfRecipe root) (hreads : root.ReadsPending) {m : Machine p}
    (h : m.Contained root) : m.step.Keeps (Contained root) fun _ => True := by
  refine ((h.coherent.keeps hp hreads).and (advances_step m).keeps).mono ?_ fun _ _ => trivial
  rintro next ⟨hcoherent, hfollows⟩
  refine ⟨hcoherent, hfollows.depth h.depth, fun index flight error hphase => ?_⟩
  exact (hfollows.rejects index flight error hphase).confined hp hreads h.coherent h.depth

theorem confined_start (hp : p.OfRecipe root) (hreads : root.ReadsPending) :
    (Machine.start p).Confined root := by
  have hcoherent := coherent_start hp hreads
  have hdepth := (follows_start (p := p) ⟨.arriving 0, [], .empty⟩).depth (Nat.zero_le _)
  have hstarts := starts p
  generalize Machine.start p = m at hcoherent hdepth hstarts ⊢
  cases hstarts with
  | works => exact hcoherent.confined hp hdepth rfl
  | broken => nomatch hcoherent

end Machine

/-! ## What is left behind by calls -/

namespace Decoder

variable {α : Type} {d : Decoder α}

/-- The states that may be looked at after each call of a history: those in which the next call may
be made, and those in which a call has rejected its data. -/
inductive Observed (d : Decoder α) : d.State → Prop
  | ready {state : d.State} : d.Ready state → Observed d state
  | called {state next : d.State} {bytes rest : Bytes} {outcome : Outcome α} :
      d.Ready state → d.Ends state bytes (.reached outcome next rest) → Observed d next

/-- A rejection is left behind by a step that every invariant reaches. -/
theorem Ends.exists_fail {P : d.State → Prop} {Q : Misuse → Prop}
    (hstep : ∀ state, P state → (d.step state).Keeps P Q) {state next : d.State}
    {bytes rest : Bytes} {error : DecodeError}
    (h : d.Ends state bytes (.reached (.failed error) next rest)) (hstate : P state) :
    ∃ last, P last ∧ d.step last = .fail error next := by
  generalize hr : Run.reached (.failed error) next rest = r at h
  induction h using Ends.induct with
  | short => cases hr
  | request state n resume bytes r hreq hle _ ih =>
      exact ih ((hstep _ hstate).of_request hreq (by rw [List.length_take]; omega)) hr
  | tick state next' events bytes r hs _ ih =>
      have hkeeps := hstep _ hstate
      rw [hs] at hkeeps
      exact ih hkeeps hr
  | done => cases hr
  | fail state error' next' bytes hs => cases hr; exact ⟨state, hstate, hs⟩
  | broken => cases hr

end Decoder

namespace Machine

section

variable (hp : p.OfRecipe root) (hreads : root.ReadsPending)

include hp hreads

theorem contained_start : (Machine.start p).Contained root := by
  refine ⟨coherent_start hp hreads, (confined_start hp hreads).frames, fun _ _ _ _ => ?_⟩
  exact confined_start hp hreads

theorem contained_of_ready {m : Machine p} (h : p.decoder.Ready m) : m.Contained root :=
  h.keeps (fun _ hm => hm.keeps hp hreads) (contained_start hp hreads)
    fun _ => contained_start hp hreads

theorem confined_of_ends {m next : Machine p} {bytes rest : Bytes} {outcome : Outcome whole.Carrier}
    (h : p.decoder.Ready m) (hends : p.decoder.Ends m bytes (.reached outcome next rest)) :
    next.Confined root := by
  have hcontained := contained_of_ready hp hreads h
  have hstep (m : Machine p) (hm : m.Contained root) :
      m.step.Keeps (Contained root) fun _ => True := hm.keeps hp hreads
  cases outcome with
  | pending =>
      obtain ⟨index, flight, -, hphase, -⟩ := exists_decoding_of_pending hends
      have hkeeps := hends.keeps hstep hcontained
      have hnext : next.Contained root := hkeeps
      exact hnext.coherent.confined hp hnext.depth hphase
  | done value =>
      obtain ⟨last, hdone⟩ := hends.exists_done
      have hadvances : Advances last (.done value next) := hdone ▸ advances_step last
      cases hadvances with
      | done => exact confined_start hp hreads
      | request hreq => cases hreq
  | failed error =>
      obtain ⟨last, hlast, hfail⟩ := hends.exists_fail (P := Contained root) hstep hcontained
      have hadvances : Advances last (.fail error next) := hfail ▸ advances_step last
      cases hadvances with
      | fail hphase hframes hvalues =>
          exact (hlast.failing _ _ _ hphase).congr hframes hvalues
      | request hreq => cases hreq

theorem confined_of_observed {m : p.decoder.State} (h : p.decoder.Observed m) :
    Machine.Confined root m := by
  cases h with
  | called hready hends => exact confined_of_ends hp hreads hready hends
  | ready hready =>
      cases hready with
      | fresh => exact confined_start hp hreads
      | decoded hready hends => exact confined_of_ends hp hreads hready hends
      | rejected => exact confined_start hp hreads
      | reset => exact confined_start hp hreads

end

end Machine

/-! ## The property -/

/-- Whatever a program of an accepted recipe has been fed, in whatever pieces and with whatever
resets, after each call at most `maxDepth` scopes are active in it, at most `maxDepth` layers open,
and it holds at most `maxDepth + 1` times as many values as the builder had recorded as pending
after any part of the recipe.  This is so after a call that has rejected its data, too. -/
theorem Recipe.Accepted.state_bounded (h : root.Accepted) (hreads : root.ReadsPending)
    {maxDepth : Nat} (hpos : 1 ≤ maxDepth) (hp : root.assemble maxDepth = .ok p) {m : Machine p}
    (hm : p.decoder.Observed m) :
    m.frames.length ≤ maxDepth ∧ m.values.layers.length ≤ maxDepth ∧
      m.values.size ≤ (maxDepth + 1) * root.widest := by
  have hconfined := Machine.confined_of_observed (h.ofRecipe hp) hreads hm
  obtain ⟨hsingle, rfl⟩ := Recipe.exists_eq_program hp
  have hmax : max maxDepth 1 = maxDepth := Nat.max_eq_left hpos
  obtain ⟨hframes, hlayers, hvalues⟩ := hconfined
  simp only [Recipe.program, hmax] at hframes hlayers hvalues
  exact ⟨hframes, hlayers, hvalues⟩

/-- Left branches only, one more than fit: the data is rejected with two scopes active, and with six
values at most. -/
theorem nodeCount_bounded :
    ∃ (p : Program Empty .size) (m : Machine p), Recipe.nodeCount.assemble 2 = .ok p ∧
      p.decoder.Ends p.decoder.start ([7, 1, 8, 1, 9] : Bytes)
        (.reached (.failed (.depthLimit 2)) m []) ∧
      m.frames.length ≤ 2 ∧ m.values.layers.length ≤ 2 ∧ m.values.size ≤ (2 + 1) * 3 := by
  obtain ⟨p, hp, m, hm⟩ : ∃ p, Recipe.nodeCount.assemble 2 = .ok p ∧
      ∃ m, p.decoder.Ends p.decoder.start ([7, 1, 8, 1, 9] : Bytes)
        (.reached (.failed (.depthLimit 2)) m []) :=
    ⟨_, rfl, _, ⟨by simp, 40, rfl⟩⟩
  exact ⟨p, m, hp, hm, Recipe.nodeCount_accepted.state_bounded Recipe.nodeCount_readsPending
    (by decide) hp (.called .fresh hm)⟩

end Piecemeal
