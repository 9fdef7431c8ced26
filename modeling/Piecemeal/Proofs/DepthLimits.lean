/-
# Limits of the depth

A program has a limit of how many scopes may be active at once, and nothing else depends on it.  So
two programs of the same steps go the same way, and part only where a scope would become active
that the lower limit has no room for: there the program with the lower limit rejects the data, and
the other one goes on, from the same bytes.

`Program.withMaxDepth` is the program with another limit, and `Machine.under` the machine of it
that stands where this one does.  In related states both machines take the same step, or the one
with the lower limit gives up, `sameStep_or_givesUp`: that is settled phase by phase, and only on
entering a step is there anything to compare.  So the relation is a bisimulation up to one error,

    BisimulationUnless (· = .depthLimit p.maxDepth) (fun _ => False)
      p.decoder (p.withMaxDepth maxDepth h).decoder fun m m' => m' = m.under h

from the lower limit to the higher one, with no error on the other side: a higher limit never gives
up first.  What calls show of the two is then a matter of `Piecemeal.Proofs.Bisimulation`.
-/
import Piecemeal.Proofs.Bisimulation

namespace Piecemeal

variable {κ : Type} [Atom κ] {result : ValueType κ}

/-- The same steps with another limit. -/
abbrev Program.withMaxDepth (p : Program κ result) (maxDepth : Nat) (h : 0 < maxDepth) :
    Program κ result :=
  { p with maxDepth := maxDepth, maxDepth_pos := h }

variable {p : Program κ result} {maxDepth : Nat} (h : 0 < maxDepth)

def Frame.under (f : Frame p) : Frame (p.withMaxDepth maxDepth h) := ⟨f.index, f.memory⟩

def Phase.under : Phase p → Phase (p.withMaxDepth maxDepth h)
  | decoding index flight => .decoding index flight
  | failing index flight error => .failing index flight error
  | leaving i => .leaving i
  | arriving i => .arriving i
  | entering index => .entering index
  | answering value => .answering value
  | broken misuse => .broken misuse

namespace Machine

/-- The machine that stands at the same place under another limit. -/
def under (m : Machine p) : Machine (p.withMaxDepth maxDepth h) :=
  ⟨m.phase.under h, m.frames.map (Frame.under h), m.values⟩

/-- Both machines take the same step. -/
def SameStep (step : Step (Machine p) result.Carrier)
    (step' : Step (Machine (p.withMaxDepth maxDepth h)) result.Carrier) : Prop :=
  step.Agrees Eq (fun m m' => m' = m.under h) (fun m m' => m' = m.under h) step'

theorem map_frame? (index : Fin p.size) :
    (frame? index : Option (Frame p)).map (Frame.under h) =
      frame? (p := p.withMaxDepth maxDepth h) index := by
  unfold frame?
  rw [Option.map_map]
  rfl

theorem map_toList_frame? (index : Fin p.size) :
    (frame? index : Option (Frame p)).toList.map (Frame.under h) =
      (frame? (p := p.withMaxDepth maxDepth h) index).toList :=
  Option.toList_map.symm.trans (congrArg Option.toList (map_frame? h index))

theorem start_under : (start p).under h = start (p.withMaxDepth maxDepth h) := by
  cases harrive : (p.stage p.first).action.arrive .empty with
  | ok arrived =>
      have harrive' : ((p.withMaxDepth maxDepth h).stage
        (p.withMaxDepth maxDepth h).first).action.arrive .empty = .ok arrived := harrive
      simp only [start, harrive, harrive', under, Phase.under, map_toList_frame?]
      rfl
  | error misuse =>
      have harrive' : ((p.withMaxDepth maxDepth h).stage
        (p.withMaxDepth maxDepth h).first).action.arrive .empty = .error misuse := harrive
      simp only [start, harrive, harrive', under, Phase.under, List.map_nil]

theorem sameStep_working (frames : List (Frame p)) (values : Accumulator κ) (index : Fin p.size)
    (flight : (p.stage index).action.Flight) :
    SameStep h (working index frames values flight).step
      ((working index frames values flight).under h).step := by
  have hstep := step_working index frames values flight
  have hstep' := step_working (p := p.withMaxDepth maxDepth h) index (frames.map (Frame.under h))
    values flight
  show SameStep h _ (working (p := p.withMaxDepth maxDepth h) index (frames.map (Frame.under h))
    values flight).step
  rw [hstep, hstep']
  show SameStep h _ (((p.stage index).action.step flight).graft _ _ _)
  cases (p.stage index).action.step flight with
  | read n resume => exact .request rfl rfl fun _ _ => rfl
  | skip n resume => exact .request rfl rfl fun _ _ => rfl
  | tick flight events => exact .tick _ _ rfl
  | done cell _ => exact .tick _ _ rfl
  | fail error flight => exact .tick _ _ rfl
  | broken misuse => exact .broken misuse

theorem sameStep_finish (m : Machine p) : SameStep h m.finish (m.under h).finish := by
  rcases hpop : m.values.pop result with ⟨_ | value, values⟩
  · simp only [finish, under, hpop]
    exact .broken _
  · simp only [finish, under, hpop]
    exact .tick _ _ rfl

theorem sameStep_leave (m : Machine p) (i : Nat) :
    SameStep h (m.leave i) ((m.under h).leave i) := by
  obtain ⟨phase, frames, values⟩ := m
  cases frames with
  | nil => exact .tick _ _ rfl
  | cons f frames =>
      cases hanswer : (p.stage f.index).answer i values f.memory with
      | error misuse =>
          have hanswer' : ((p.withMaxDepth maxDepth h).stage f.index).answer i values f.memory =
            .error misuse := hanswer
          simp only [leave, under, List.map_cons, Frame.under, hanswer, hanswer']
          exact .broken misuse
      | ok answer =>
          obtain ⟨move, memory, values'⟩ := answer
          have hanswer' : ((p.withMaxDepth maxDepth h).stage f.index).answer i values f.memory =
            .ok ⟨move, memory, values'⟩ := hanswer
          simp only [leave, under, List.map_cons, Frame.under, hanswer, hanswer']
          cases move.closes with
          | true =>
              refine .tick _ _ ?_
              cases frames <;> rfl
          | false => exact .tick _ _ rfl

theorem sameStep_arrive (m : Machine p) (i : Nat) :
    SameStep h (m.arrive i) ((m.under h).arrive i) := by
  by_cases hlt : i < p.size
  · simp only [arrive, dif_pos hlt]
    exact .tick _ _ rfl
  · obtain ⟨phase, frames, values⟩ := m
    cases frames with
    | nil =>
        have hfinish := sameStep_finish h (⟨phase, [], values⟩ : Machine p)
        simp only [arrive, dif_neg hlt]
        exact hfinish
    | cons f frames =>
        have hfinish := sameStep_finish h (⟨phase, f :: frames, values⟩ : Machine p)
        cases hend : (p.stage f.index).atEnd values f.memory with
        | error misuse =>
            have hend' : ((p.withMaxDepth maxDepth h).stage f.index).atEnd values f.memory =
              .error misuse := hend
            simp only [arrive, dif_neg hlt, under, List.map_cons, Frame.under, hend, hend']
            exact .broken misuse
        | ok taken =>
            have hend' : ((p.withMaxDepth maxDepth h).stage f.index).atEnd values f.memory =
              .ok taken := hend
            cases taken with
            | none =>
                simp only [arrive, dif_neg hlt, under, List.map_cons, Frame.under, hend, hend']
                exact hfinish
            | some values' =>
                simp only [arrive, dif_neg hlt, under, List.map_cons, Frame.under, hend, hend']
                exact .tick _ _ rfl

/-- A step is entered alike, or its scope is one too many for the lower limit. -/
theorem sameStep_enter (hle : p.maxDepth ≤ maxDepth) (m : Machine p) (index : Fin p.size) :
    SameStep h (m.enter index) ((m.under h).enter index) ∨
      ∃ flight values events, m.enter index =
        .tick (rejecting index m.frames values (.depthLimit p.maxDepth) flight) events := by
  cases harrive : (p.stage index).action.arrive m.values with
  | error misuse =>
      have harrive' : ((p.withMaxDepth maxDepth h).stage index).action.arrive m.values =
        .error misuse := harrive
      refine .inl ?_
      simp only [enter, under, harrive, harrive']
      exact .broken misuse
  | ok arrived =>
      obtain ⟨flight, values⟩ := arrived
      have harrive' : ((p.withMaxDepth maxDepth h).stage index).action.arrive m.values =
        .ok (flight, values) := harrive
      have hframe' := map_frame? h index
      cases hframe : (frame? index : Option (Frame p)) with
      | none =>
          rw [hframe] at hframe'
          refine .inl ?_
          simp only [enter, under, harrive, harrive', hframe, ← hframe', Option.map_none]
          exact .tick _ _ rfl
      | some f =>
          rw [hframe] at hframe'
          by_cases hroom : m.frames.length < p.maxDepth
          · have hroom' : m.frames.length < maxDepth := Nat.lt_of_lt_of_le hroom hle
            refine .inl ?_
            simp only [enter, under, harrive, harrive', hframe, ← hframe', Option.map_some,
              List.length_map, if_pos hroom, if_pos hroom']
            exact .tick _ _ rfl
          · refine .inr ⟨flight, values, (p.stage index).action.arriveEvents flight ++
              [.tooDeep p.maxDepth index], ?_⟩
            simp only [enter, harrive, hframe, if_neg hroom, rejecting]

theorem sameStep_or_givesUp (hle : p.maxDepth ≤ maxDepth) (m : Machine p) :
    SameStep h m.step (m.under h).step ∨
      p.decoder.GivesUp (· = .depthLimit p.maxDepth) m := by
  obtain ⟨phase, frames, values⟩ := m
  cases phase with
  | decoding index flight => exact .inl (sameStep_working h frames values index flight)
  | failing index flight error => exact .inl (.fail error _ _)
  | leaving i => exact .inl (sameStep_leave h _ i)
  | arriving i => exact .inl (sameStep_arrive h _ i)
  | answering value => exact .inl (.done rfl (start_under h).symm)
  | broken misuse => exact .inl (.broken misuse)
  | entering index =>
      rcases sameStep_enter h hle ⟨.entering index, frames, values⟩ index with
        hsame | ⟨flight, values', events, hstep⟩
      · exact .inl hsame
      · exact .inr ⟨_, _, _, .single hstep, rfl, rfl⟩

end Machine

theorem Program.bisimulation_withMaxDepth (hle : p.maxDepth ≤ maxDepth) :
    Decoder.BisimulationUnless (· = .depthLimit p.maxDepth) (fun _ => False) p.decoder
      (p.withMaxDepth maxDepth h).decoder (fun m m' => m' = m.under h) := by
  rintro m _ rfl
  rcases Machine.sameStep_or_givesUp h hle m with hsame | hup
  · exact .inl (.now (.here m) (.here _) hsame)
  · exact .inr (.inl hup)

/-! ## The property -/

/-- A higher limit of the depth changes nothing but that data is not rejected for its depth.  On the
same slices the program with the higher limit shows the same, if the one with the lower limit does
not reject them for their depth.  If that does, the other one shows the same in the calls before, and
takes no less of the slice.  And where the program with the higher limit comes to an end, so does the
other one. -/
theorem Recipe.agrees_until_depthLimit {whole : ValueType κ} {root : Recipe κ whole}
    {lower higher : Nat} (hpos : 1 ≤ lower) (hle : lower ≤ higher) {p p' : Program κ whole}
    (hp : root.assemble lower = .ok p) (hp' : root.assemble higher = .ok p')
    (slices : List Bytes) :
    (∀ ends, p.decoder.Shows p.decoder.start slices ends →
      (∀ rest, .reached (.failed (.depthLimit lower)) () rest ∉ ends) →
      p'.decoder.Shows p'.decoder.start slices ends) ∧
    (∀ front rest, p.decoder.Shows p.decoder.start slices
        (front ++ [.reached (.failed (.depthLimit lower)) () rest]) →
      ∃ seen slice unseen state last, slices = seen ++ slice :: unseen ∧
        p'.decoder.Shows p'.decoder.start seen front ∧
        p'.decoder.Reaches p'.decoder.start seen state ∧
        p'.decoder.Visits state slice last rest ∧
        ∀ outcome next rest', p'.decoder.Ends state slice (.reached outcome next rest') →
          rest' <:+ rest) ∧
    ∀ ends', p'.decoder.Shows p'.decoder.start slices ends' →
      ∃ ends, p.decoder.Shows p.decoder.start slices ends := by
  obtain ⟨hsingle, rfl⟩ := exists_eq_program hp
  obtain ⟨-, rfl⟩ := exists_eq_program hp'
  have hmax : (root.program hsingle lower).maxDepth = lower := Nat.max_eq_left hpos
  have hmore : 0 < max higher 1 := by omega
  have hbisim := Program.bisimulation_withMaxDepth (p := root.program hsingle lower) hmore
    (by rw [hmax]; omega)
  rw [hmax] at hbisim
  have hstart := (Machine.start_under (p := root.program hsingle lower) hmore).symm
  refine ⟨?_, ?_, ?_⟩
  · intro ends hshows hspared
    have hE : Decoder.Spared (· = .depthLimit lower) ends := by
      rintro _ rest hmem rfl
      exact hspared rest hmem
    obtain ⟨ends', hshows'⟩ := hbisim.exists_shows hstart hshows hE
    obtain rfl := (hbisim.sameUntil hstart hshows hshows').eq hE fun _ _ _ hnever => hnever
    exact hshows'
  · intro front rest hshows
    obtain ⟨seen, slice, unseen, state, last, hslices, hseen, hreaches, hlast⟩ :=
      hbisim.comes_to hstart hshows
    refine ⟨seen, slice, unseen, state, last, hslices, hseen, hreaches, hlast, ?_⟩
    intro outcome next rest' hrun
    exact (hlast.ends hrun).suffix
  · intro ends' hshows'
    exact hbisim.symm.exists_shows hstart hshows' fun _ _ _ hnever => hnever

/-- A tree without subtrees and one with a subtree, which is too deep for the lower limit. -/
theorem nodeCount_under_limits :
    ∃ p p', Recipe.nodeCount.assemble 1 = .ok p ∧ Recipe.nodeCount.assemble 2 = .ok p' ∧
      p.decoder.Shows p.decoder.start [[7, 0, 0], [7, 1, 8, 0, 0, 0]]
        [.reached (.done (1 : Nat)) () [], .reached (.failed (.depthLimit 1)) () [0, 0, 0]] ∧
      (∃ state last, p'.decoder.Reaches p'.decoder.start [[7, 0, 0]] state ∧
        p'.decoder.Visits state [7, 1, 8, 0, 0, 0] last [0, 0, 0]) ∧
      p'.decoder.Shows p'.decoder.start [[7, 0, 0]] [.reached (.done (1 : Nat)) () []] := by
  obtain ⟨p, p', hp, hp', state, rejected, hleaf, htree⟩ :
      ∃ p p', Recipe.nodeCount.assemble 1 = .ok p ∧ Recipe.nodeCount.assemble 2 = .ok p' ∧
        ∃ state rejected,
          p.decoder.run 30 p.decoder.start ([7, 0, 0] : Bytes) =
            .reached (.done (1 : Nat)) state [] ∧
          p.decoder.run 30 state ([7, 1, 8, 0, 0, 0] : Bytes) =
            .reached (.failed (.depthLimit 1)) rejected [0, 0, 0] :=
    ⟨_, _, rfl, rfl, _, _, rfl, rfl⟩
  have hshows : p.decoder.Shows p.decoder.start [[7, 0, 0], [7, 1, 8, 0, 0, 0]]
      [.reached (.done (1 : Nat)) () [], .reached (.failed (.depthLimit 1)) () [0, 0, 0]] :=
    .answered ⟨by simp, 30, hleaf⟩ (by simp) (.rejected ⟨by simp, 30, htree⟩)
  obtain ⟨hsame, -, -⟩ := Recipe.agrees_until_depthLimit (by decide) (by decide) hp hp' [[7, 0, 0]]
  obtain ⟨-, hdeep, -⟩ := Recipe.agrees_until_depthLimit (by decide) (by decide) hp hp'
    [[7, 0, 0], [7, 1, 8, 0, 0, 0]]
  obtain ⟨seen, slice, unseen, last, place, hslices, hseen, hreaches, hplace, -⟩ :=
    hdeep [.reached (.done (1 : Nat)) () []] [0, 0, 0] hshows
  have hleaves : p'.decoder.Shows p'.decoder.start [[7, 0, 0]]
      [.reached (.done (1 : Nat)) () []] :=
    hsame _ (.answered ⟨by simp, 30, hleaf⟩ (by simp) (.nothing _)) (by simp)
  -- the call that is rejected is the second
  cases hseen with
  | answered _ _ hrest =>
      cases hrest with
      | nothing =>
          cases hslices
          exact ⟨p, p', hp, hp', hshows, ⟨last, place, hreaches, hplace⟩, hleaves⟩

end Piecemeal
