/-
# Where bytes come from does not matter

A decoder is called again and again on a source while it answers pending, `CallsEnd`.  Whatever the
source is, as long as it delivers its bytes in order, the calls come to the end that one call comes
to on a slice of all these bytes: to the same value or rejection, in the same state, with the same
bytes left.  In both directions that is `DecodesAs`, with `patience + 1` calls at most.

The invariant is that a decoder with a source stands where it stands on the slice of all that the
source has still to deliver,

    d.Ends (resume bytes) (unread rest) run ↔ d.Ends state (unread source) run

by `ends_iff_of_handsOut`.  A request that is answered in full keeps it by the way runs go, and a
short one because decoders split.  A call that ends is reflected by the slice, `Reflects`: by the same end,
or, if it ends pending, by a state from which the slice has the same ends.

That the calls come to an end is the ledger's.  A call that is cut short uses up patience, or
nothing is owed any more, and then the slice is used up too, so it would have ended pending there.
-/
import Piecemeal.Proofs.Deliveries
import Piecemeal.Proofs.Resumption

namespace Piecemeal

/-- The same end with another view of the source. -/
def Run.withSource {σ ι κ α : Type} (view : ι → κ) : Run σ ι α → Run σ κ α
  | .reached outcome state source => .reached outcome state (view source)
  | .broken misuse => .broken misuse
  | .exhausted => .exhausted

namespace Decoder

variable {α ι : Type}

/-! ## One call -/

theorem run_succ_of_handsOut [ByteSource ι] (D : Delivery ι) {d : Decoder α} {state : d.State}
    {n : Nat} {resume : Bytes → d.State} (h : (d.step state).request? = some (n, resume)) {source : ι}
    (hsource : D.InOrder source) :
    ∃ bytes rest, D.HandsOut source n bytes rest ∧ ∀ budget,
      d.run (budget + 1) state source =
        if bytes.length < n then .reached .pending (resume bytes) rest
        else d.run budget (resume bytes) rest := by
  cases hs : d.step state with
  | read k resume' =>
      rw [hs] at h; cases h
      refine ⟨_, _, D.handsOut_read source n hsource, fun budget => ?_⟩
      rw [Decoder.run, hs]
  | skip k resume' =>
      rw [hs] at h; cases h
      obtain ⟨bytes, hcount, hbytes⟩ := D.handsOut_skip source n hsource
      refine ⟨bytes, _, hbytes, fun budget => ?_⟩
      rw [Decoder.run, hs]
      simp only [hcount]
  | tick => rw [hs] at h; cases h
  | done => rw [hs] at h; cases h
  | fail => rw [hs] at h; cases h
  | broken => rw [hs] at h; cases h

/-- Whether a request is answered in full or not, the decoder stands where it stood. -/
theorem Splits.ends_iff_of_handsOut {d : Decoder α} (hd : d.Splits) {ledger : Ledger ι}
    {state : d.State} {n : Nat} {resume : Bytes → d.State}
    (h : (d.step state).request? = some (n, resume)) {source rest : ι} {bytes : Bytes}
    (hbytes : ledger.HandsOut source n bytes rest) {run : Run d.State Bytes α} :
    d.Ends (resume bytes) (ledger.unread rest) run ↔ d.Ends state (ledger.unread source) run := by
  rw [hbytes.unread_eq]
  by_cases hshort : bytes.length < n
  · exact hd state n resume h bytes (ledger.unread rest) hshort run
  · obtain rfl : n = bytes.length := Nat.le_antisymm (Nat.not_lt.1 hshort) hbytes.length_le
    rw [ends_of_request h, if_neg (by rw [List.length_append]; omega), List.take_left,
      List.drop_left]

/-- What a call on a source says of the slice of all its bytes.  A pending decoder stands where it
stood; and it is pending on the slice too, or the source has used up patience. -/
def Reflects (d : Decoder α) (ledger : Ledger ι) (state : d.State) (source : ι) :
    Run d.State ι α → Prop
  | .reached .pending next rest =>
      ledger.InOrder rest ∧
      (∀ run, d.Ends next (ledger.unread rest) run ↔ d.Ends state (ledger.unread source) run) ∧
      (d.Ends state (ledger.unread source) (.reached .pending next []) ∨
        ledger.patience (ledger.between rest) < ledger.patience source)
  | run => d.Ends state (ledger.unread source) (run.withSource ledger.unread)

/-- What a call says from a later state on it says from the beginning, if the decoder stands there
where it stood. -/
theorem Reflects.of_stands {d : Decoder α} {ledger : Ledger ι} {state next : d.State}
    {source rest : ι} {run : Run d.State ι α} (hrun : d.Reflects ledger next rest run)
    (hstands : ∀ run,
      d.Ends next (ledger.unread rest) run ↔ d.Ends state (ledger.unread source) run)
    (hpatience : ledger.patience rest ≤ ledger.patience source) :
    d.Reflects ledger state source run := by
  match run, hrun with
  | .reached .pending last end', ⟨hlast, hsame, hends⟩ =>
      refine ⟨hlast, fun run => (hsame run).trans (hstands run), ?_⟩
      rcases hends with hends | hless
      · exact .inl ((hstands _).1 hends)
      · exact .inr (Nat.lt_of_lt_of_le hless hpatience)
  | .reached (.done value) last end', hrun => exact (hstands _).1 hrun
  | .reached (.failed error) last end', hrun => exact (hstands _).1 hrun
  | .broken misuse, hrun => exact (hstands _).1 hrun
  | .exhausted, hrun => exact (hstands _).1 hrun

theorem Reflects.ends {d : Decoder α} {ledger : Ledger ι} {state : d.State} {source : ι}
    {run : Run d.State ι α} (hrun : d.Reflects ledger state source run)
    (hlast : ∀ next rest, run ≠ .reached .pending next rest) :
    d.Ends state (ledger.unread source) (run.withSource ledger.unread) := by
  match run, hrun, hlast with
  | .reached .pending next rest, _, hlast => exact absurd rfl (hlast next rest)
  | .reached (.done value) next rest, hrun, _ => exact hrun
  | .reached (.failed error) next rest, hrun, _ => exact hrun
  | .broken misuse, hrun, _ => exact hrun
  | .exhausted, hrun, _ => exact hrun

theorem Splits.reflects [ByteSource ι] {d : Decoder α} (hd : d.Splits) (D : Delivery ι)
    {state : d.State} {source : ι} {run : Run d.State ι α} (hsource : D.InOrder source)
    (h : d.Ends state source run) : d.Reflects D.toLedger state source run := by
  obtain ⟨hne, budget, hrun⟩ := h
  induction budget generalizing state source with
  | zero => exact absurd hrun.symm hne
  | succ budget ih =>
      cases hs : d.step state using Step.casesRequest with
      | request step n resume hr =>
          subst hs
          obtain ⟨bytes, rest, hbytes, hrun'⟩ := run_succ_of_handsOut D hr hsource
          rw [hrun'] at hrun
          have hstands : ∀ run, d.Ends (resume bytes) (D.unread rest) run ↔
              d.Ends state (D.unread source) run := by
            intro run
            exact hd.ends_iff_of_handsOut hr hbytes
          split at hrun
          next hshort =>
            subst hrun
            refine ⟨hbytes.inOrder, hstands, ?_⟩
            by_cases hnil : D.unread rest = []
            · -- nothing is owed any more, so the slice ends inside the request too
              left
              rw [ends_of_request hr, hbytes.unread_eq, hnil, List.append_nil, if_pos hshort]
            · exact .inr (hbytes.patience_lt hshort hnil)
          next => exact (ih hbytes.inOrder hrun).of_stands hstands hbytes.patience_le
      | tick next events =>
          rw [Decoder.run, hs] at hrun
          exact (ih hsource hrun).of_stands (fun _ => (ends_of_tick hs).symm) (Nat.le_refl _)
      | done value next =>
          rw [Decoder.run, hs] at hrun
          subst hrun
          exact (ends_of_done hs).2 rfl
      | fail error next =>
          rw [Decoder.run, hs] at hrun
          subst hrun
          exact (ends_of_fail hs).2 rfl
      | broken misuse =>
          rw [Decoder.run, hs] at hrun
          subst hrun
          exact (ends_of_broken hs).2 rfl

/-- If the slice of all bytes is decoded to some end, every call on the source ends. -/
theorem exists_ends_of_unread [ByteSource ι] {d : Decoder α} (D : Delivery ι) {state : d.State}
    {source : ι} {run : Run d.State Bytes α} (hsource : D.InOrder source)
    (h : d.Ends state (D.unread source) run) : ∃ r, d.Ends state source r := by
  generalize hb : D.unread source = bytes at h
  induction h using Ends.induct generalizing source with
  | short state n resume bytes hreq hlt =>
      obtain ⟨given, rest, hgiven, hrun⟩ := run_succ_of_handsOut D hreq hsource
      have hshort : given.length < n := by
        rw [← hb, hgiven.unread_eq, List.length_append] at hlt
        omega
      exact ⟨.reached .pending (resume given) rest, by simp, 1, by rw [hrun, if_pos hshort]⟩
  | request state n resume bytes run hreq hle _ ih =>
      obtain ⟨given, rest, hgiven, hrun⟩ := run_succ_of_handsOut D hreq hsource
      by_cases hshort : given.length < n
      · exact ⟨.reached .pending (resume given) rest, by simp, 1, by rw [hrun, if_pos hshort]⟩
      · obtain rfl : n = given.length := Nat.le_antisymm (Nat.not_lt.1 hshort) hgiven.length_le
        have hunread := hb
        rw [hgiven.unread_eq] at hunread
        subst hunread
        rw [List.take_left, List.drop_left] at ih
        obtain ⟨r, hne, budget, hr⟩ := ih hgiven.inOrder rfl
        exact ⟨r, hne, budget + 1, by rw [hrun, if_neg hshort, hr]⟩
  | tick state next events bytes run hs _ ih =>
      obtain ⟨r, hne, budget, hr⟩ := ih hsource hb
      exact ⟨r, hne, budget + 1, by rw [Decoder.run, hs]; exact hr⟩
  | done state value next bytes hs =>
      exact ⟨.reached (.done value) next source, by simp, 1, by rw [Decoder.run, hs]⟩
  | fail state error next bytes hs =>
      exact ⟨.reached (.failed error) next source, by simp, 1, by rw [Decoder.run, hs]⟩
  | broken state misuse bytes hs => exact ⟨.broken misuse, by simp, 1, by rw [Decoder.run, hs]⟩

/-! ## Calls -/

/-- `CallsEnd between n state source run`: called while it answers pending, the decoder comes to
this end in the `n`-th call. -/
inductive CallsEnd [ByteSource ι] (d : Decoder α) (between : ι → ι) :
    Nat → d.State → ι → Run d.State ι α → Prop
  | last {state : d.State} {source : ι} {run : Run d.State ι α} :
      d.Ends state source run → (∀ next rest, run ≠ .reached .pending next rest) →
      CallsEnd d between 1 state source run
  | again {n : Nat} {state next : d.State} {source rest : ι} {run : Run d.State ι α} :
      d.Ends state source (.reached .pending next rest) →
      CallsEnd d between n next (between rest) run → CallsEnd d between (n + 1) state source run

variable [ByteSource ι] {d : Decoder α}

/-- The calls on this source decode as one call on the slice: they come to no other end, and to that
of the slice at the latest when the source has used up its patience. -/
structure DecodesAs (d : Decoder α) (D : Delivery ι) (source : ι) (bytes : Bytes) : Prop where
  ends_of_calls : ∀ n run, d.CallsEnd D.between n d.start source run →
    d.Ends d.start bytes (run.withSource D.unread)
  calls_of_ends : ∀ run, d.Ends d.start bytes run → run.isPending = false →
    ∃ n last, n ≤ D.patience source + 1 ∧ d.CallsEnd D.between n d.start source last ∧
      last.withSource D.unread = run

theorem Splits.ends_of_callsEnd (hd : d.Splits) (D : Delivery ι) {n : Nat} {state : d.State}
    {source : ι} {run : Run d.State ι α} (h : d.CallsEnd D.between n state source run)
    (hsource : D.InOrder source) :
    d.Ends state (D.unread source) (run.withSource D.unread) := by
  induction h with
  | last hrun hlast => exact (hd.reflects D hsource hrun).ends hlast
  | @again n state next source rest run hrun _ ih =>
      obtain ⟨hrest, hsame, _⟩ := hd.reflects D hsource hrun
      have hnext := ih (D.inOrder_between rest hrest)
      rw [D.unread_between rest hrest] at hnext
      exact (hsame _).1 hnext

theorem Splits.exists_callsEnd (hd : d.Splits) (D : Delivery ι) {patience : Nat} {state : d.State}
    {source : ι} {run : Run d.State Bytes α} (hsource : D.InOrder source)
    (hpatience : D.patience source ≤ patience)
    (h : d.Ends state (D.unread source) run) (hrun : run.isPending = false) :
    ∃ n last, n ≤ patience + 1 ∧ d.CallsEnd D.between n state source last ∧
      last.withSource D.unread = run := by
  -- on the patience of the source, which every call that is cut short takes from
  induction patience using Nat.strongRecOn generalizing state source with
  | ind patience ih =>
      obtain ⟨r, hr⟩ := exists_ends_of_unread D hsource h
      have hreflects := hd.reflects D hsource hr
      by_cases hpending : ∃ next rest, r = .reached .pending next rest
      · obtain ⟨next, rest, rfl⟩ := hpending
        obtain ⟨hrest, hsame, hends⟩ := hreflects
        rcases hends with hends | hless
        · -- the slice would be pending as well
          obtain rfl := hends.unique h
          cases hrun
        · have hnext : d.Ends next (D.unread (D.between rest)) run := by
            rw [D.unread_between rest hrest]
            exact (hsame run).2 h
          obtain ⟨n, last, hn, hcalls, hlast⟩ := ih (D.patience (D.between rest)) (by omega)
            (D.inOrder_between rest hrest) (Nat.le_refl _) hnext
          exact ⟨n + 1, last, by omega, .again hr hcalls, hlast⟩
      · have hlast : ∀ next rest, r ≠ .reached .pending next rest :=
          fun next rest heq => hpending ⟨next, rest, heq⟩
        exact ⟨1, r, by omega, .last hr hlast, (hreflects.ends hlast).unique h⟩

theorem Splits.decodesAs (hd : d.Splits) (D : Delivery ι) {source : ι}
    (hsource : D.InOrder source) : d.DecodesAs D source (D.unread source) where
  ends_of_calls _ _ h := hd.ends_of_callsEnd D h hsource
  calls_of_ends _ h hrun := hd.exists_callsEnd D hsource (Nat.le_refl _) h hrun

/-! ## The property -/

/-- Decoders do not see where their bytes come from: a buffer that grows between the calls in
whatever pieces, a source with whatever cap on single reads, and a stream with whatever stalls,
interruptions, ends and failures between and behind its data are decoded as the slice of all their
bytes. -/
theorem Standard.source_independent {d : Decoder α} (h : d.Standard) :
    (∀ bytes later, d.DecodesAs Growing.delivery ⟨⟨bytes⟩, later⟩ (bytes ++ later.flatten)) ∧
    (∀ portion bytes, 1 ≤ portion → d.DecodesAs Capped.delivery ⟨portion, bytes⟩ bytes) ∧
    (∀ script, d.DecodesAs Reader.delivery (.ofScript script)
      (script.flatMap StreamEvent.bytes)) ∧
    ∀ {ι : Type} [ByteSource ι] (D : Delivery ι) (source : ι), D.InOrder source →
      d.DecodesAs D source (D.unread source) := by
  refine ⟨?_, ?_, ?_, ?_⟩
  · intro bytes later
    exact h.splits.decodesAs Growing.delivery trivial
  · intro portion bytes hportion
    exact h.splits.decodesAs Capped.delivery hportion
  · intro script
    exact h.splits.decodesAs Reader.delivery trivial
  · intro ι _ D source hsource
    exact h.splits.decodesAs D hsource

/-- A byte string behind its length, from a source that gives one byte at a time and from a stream
that stalls, fails and seems to end inside of it. -/
theorem source_independent_of_length :
    let d := (number UInt16 .big).andThen fun n => bytes n.toNat
    let stream : Reader := .ofScript
      [.data [0], .stalled, .data [2, 7], .ended, .interrupted, .failed "reset", .data [8, 9]]
    d.Ends d.start ([0, 2, 7, 8, 9] : Bytes) (.reached (.done [7, 8]) d.start [9]) ∧
    (∃ n last, n ≤ 6 ∧ d.CallsEnd Capped.delivery.between n d.start ⟨1, [0, 2, 7, 8, 9]⟩ last ∧
      last.withSource Capped.delivery.unread = .reached (.done [7, 8]) d.start [9]) ∧
    ∃ n last, n ≤ 8 ∧ d.CallsEnd Reader.delivery.between n d.start stream last ∧
      last.withSource Reader.delivery.unread = .reached (.done [7, 8]) d.start [9] := by
  intro d stream
  have hd : d.Standard := .andThen (.number UInt16 .big) fun n => .bytes n.toNat
  have hslice : d.Ends d.start ([0, 2, 7, 8, 9] : Bytes) (.reached (.done [7, 8]) d.start [9]) :=
    ⟨by simp, 6, rfl⟩
  obtain ⟨-, hcapped, -, hall⟩ := hd.source_independent
  exact ⟨hslice, (hcapped 1 _ (by decide)).calls_of_ends _ hslice rfl,
    (hall Reader.delivery stream trivial).calls_of_ends _ hslice rfl⟩

end Decoder

end Piecemeal
