/-
# Where a stream is cut does not matter

A decoder that has answered pending stands where it would stand in the middle of a longer slice.
So decoding on is the same as decoding the slices joined, and the cuts of a stream show neither in
the outcome nor in what is left of the bytes.

All of it comes from one property of single requests, `Decoder.Splits`: a request for `n` bytes may
be answered in two parts.

    xs.length < n → (d.Ends (resume xs) ys run ↔ d.Ends state (xs ++ ys) run)

  * Decoders whose request shrinks by the bytes that have come have it at once, `splitsAt_of_rest`,
    and a request for one byte cannot be cut, `splitsAt_of_single`.
  * A machine around another has it from the inner one, `splitsAt_graft`: adapters, and programs.
  * Only `bytes` is different: it asks in blocks, and a cut moves the ends of all later blocks.
    There the property is read off the closed form of the whole run, `ends_bytes`.

From requests it goes to slices, `Splits.ends_of_pending`, and from two slices to any list of them,
by induction on the chunks:

    d.Fed state (chunk :: chunks) run ↔ d.Ends state (chunk ++ chunks.flatten) run
-/
import Piecemeal.Proofs.Flights
import Piecemeal.Proofs.Standard

namespace Piecemeal

namespace Run

variable {σ α : Type}

def isPending : Run σ Bytes α → Bool
  | .reached outcome _ _ => outcome.isPending
  | _ => false

/-- The same end with more bytes behind. -/
def behind (bytes : Bytes) : Run σ Bytes α → Run σ Bytes α
  | .reached outcome state rest => .reached outcome state (rest ++ bytes)
  | .broken misuse => .broken misuse
  | .exhausted => .exhausted

theorem behind_nil (run : Run σ Bytes α) : run.behind [] = run := by
  cases run <;> simp [behind]

theorem exists_of_isPending {run : Run σ Bytes α} (h : run.isPending = true) :
    ∃ state rest, run = .reached .pending state rest := by
  match run, h with
  | .reached .pending state rest, _ => exact ⟨state, rest, rfl⟩

end Run

namespace Decoder

variable {α β : Type}

/-! ## Requests in two parts -/

/-- What this state asks for may be given in two parts. -/
def SplitsAt (d : Decoder α) (state : d.State) : Prop :=
  ∀ n resume, (d.step state).request? = some (n, resume) →
    ∀ xs ys, xs.length < n →
      ∀ run, d.Ends (resume xs) ys run ↔ d.Ends state (xs ++ ys) run

/-- Whatever the decoder asks for may be given in two parts. -/
def Splits (d : Decoder α) : Prop := ∀ state, d.SplitsAt state

theorem Ends.rest_eq_nil {d : Decoder α} {state next : d.State} {xs rest : Bytes}
    (h : d.Ends state xs (.reached .pending next rest)) : rest = [] := by
  generalize hr : Run.reached .pending next rest = r at h
  induction h using Ends.induct with
  | short => cases hr; rfl
  | request state n resume xs r hreq hle _ ih => exact ih hr
  | tick state next' events xs r hs _ ih => exact ih hr
  | done => cases hr
  | fail => cases hr
  | broken => cases hr

theorem Ends.append {d : Decoder α} {state : d.State} {xs : Bytes} {run : Run d.State Bytes α}
    (h : d.Ends state xs run) (hrun : run.isPending = false) (ys : Bytes) :
    d.Ends state (xs ++ ys) (run.behind ys) := by
  induction h using Ends.induct with
  | short => cases hrun
  | request state n resume xs run hreq hle _ ih =>
      rw [ends_of_request hreq, if_neg (by rw [List.length_append]; omega),
        List.take_append_of_le_length hle, List.drop_append_of_le_length hle]
      exact ih hrun
  | tick state next events xs run hs _ ih => exact (ends_of_tick hs).2 (ih hrun)
  | done state value next xs hs => exact (ends_of_done hs).2 rfl
  | fail state error next xs hs => exact (ends_of_fail hs).2 rfl
  | broken state misuse xs hs => exact (ends_of_broken hs).2 rfl

/-- A pending decoder stands where it would stand inside a longer slice. -/
theorem Splits.ends_of_pending {d : Decoder α} (hd : d.Splits) {state next : d.State}
    {xs rest : Bytes} (h : d.Ends state xs (.reached .pending next rest)) (ys : Bytes)
    (run : Run d.State Bytes α) : d.Ends next ys run ↔ d.Ends state (xs ++ ys) run := by
  generalize hr : Run.reached .pending next rest = r at h
  induction h using Ends.induct with
  | short state n resume xs hreq hlt =>
      cases hr
      exact hd state n resume hreq xs ys hlt run
  | request state n resume xs r hreq hle _ ih =>
      rw [ih hr, ends_of_request hreq, if_neg (by rw [List.length_append]; omega),
        List.take_append_of_le_length hle, List.drop_append_of_le_length hle]
  | tick state next' events xs r hs _ ih =>
      rw [ih hr, ends_of_tick hs]
  | done => cases hr
  | fail => cases hr
  | broken => cases hr

theorem splitsAt_of_rest {d : Decoder α} {state : d.State} {n : Nat} {resume : Bytes → d.State}
    (h : (d.step state).request? = some (n, resume))
    (hrest : ∀ xs, xs.length < n →
      (d.step (resume xs)).request? = some (n - xs.length, fun ys => resume (xs ++ ys))) :
    d.SplitsAt state := by
  intro n' resume' h' xs ys hlt run
  rw [h] at h'
  cases h'
  rw [ends_of_request (hrest xs hlt), ends_of_request h]
  have hsum : (xs ++ ys).length < n ↔ ys.length < n - xs.length := by
    rw [List.length_append]; omega
  by_cases hys : ys.length < n - xs.length
  · rw [if_pos hys, if_pos (hsum.2 hys)]
  · have hle : xs.length ≤ n := by omega
    rw [if_neg hys, if_neg (mt hsum.1 hys), List.take_append, List.drop_append,
      List.take_of_length_le hle, List.drop_of_length_le hle, List.nil_append]

theorem splitsAt_of_no_request {d : Decoder α} {state : d.State}
    (h : (d.step state).request? = none) : d.SplitsAt state := by
  intro n resume h'
  rw [h] at h'
  cases h'

theorem splitsAt_graft (outer : Decoder β) {inner : Decoder α} (hinner : inner.Splits)
    (wrap : inner.State → outer.State) (finished : α → inner.State → Step outer.State β)
    (rejected : DecodeError → inner.State → Step outer.State β)
    (hstep : ∀ state, outer.step (wrap state) = (inner.step state).graft wrap finished rejected)
    (hfinished : ∀ value state, (finished value state).request? = none)
    (hrejected : ∀ error state, (rejected error state).request? = none) (state : inner.State) :
    outer.SplitsAt (wrap state) := by
  intro n resume h xs ys hlt run
  rw [hstep] at h
  cases hs : inner.step state using Step.casesRequest with
  | request step k resume' hr =>
      subst hs
      rw [Step.request?_graft hr] at h
      cases h
      rw [ends_graft outer inner wrap finished rejected hstep,
        ends_graft outer inner wrap finished rejected hstep]
      exact exists_congr fun r => and_congr_left fun _ => hinner state n resume' hr xs ys hlt r
  | tick next events => rw [hs] at h; cases h
  | done value next => rw [hs] at h; cases (hfinished value next).symm.trans h
  | fail error next => rw [hs] at h; cases (hrejected error next).symm.trans h
  | broken misuse => rw [hs] at h; cases h

theorem splitsAt_embed (outer : Decoder β) {inner : Decoder α} (hinner : inner.Splits)
    (wrap spoiled : inner.State → outer.State) (finished : α → inner.State → Step outer.State β)
    (hstep : ∀ state, outer.step (wrap state) = (inner.step state).embed wrap spoiled finished)
    (hfinished : ∀ value state, (finished value state).request? = none) (state : inner.State) :
    outer.SplitsAt (wrap state) :=
  splitsAt_graft outer hinner wrap finished (fun error state => .fail error (spoiled state))
    (fun state => (hstep state).trans (Step.embed_eq_graft ..)) hfinished (fun _ _ => rfl) state

/-! ## Primitive decoders -/

theorem request?_number {α : Type} [FixedWidth α] {order : ByteOrder} {received : Bytes}
    (h : received.length < FixedWidth.width α) :
    ((number α order).step received).request? =
      some (FixedWidth.width α - received.length, fun bytes => received ++ bytes) := by
  simp only [number, if_pos h, Step.request?]

theorem splits_number (α : Type) [FixedWidth α] (order : ByteOrder) : (number α order).Splits := by
  intro (received : Bytes)
  by_cases h : received.length < FixedWidth.width α
  · refine splitsAt_of_rest (request?_number h) ?_
    intro xs hxs
    have hlen : (received ++ xs).length < FixedWidth.width α := by
      rw [List.length_append]; omega
    rw [request?_number hlen]
    simp only [List.length_append, Nat.sub_add_eq, List.append_assoc]
    rfl
  · exact splitsAt_of_no_request (by simp only [number, if_neg h, Step.request?])

/-- A request for one byte cannot be cut, but it can be answered with none. -/
theorem splitsAt_of_single {d : Decoder α} {state : d.State} {resume : Bytes → d.State}
    (h : (d.step state).request? = some (1, resume)) (hnil : resume [] = state) :
    d.SplitsAt state := by
  refine splitsAt_of_rest h ?_
  intro xs hxs
  obtain rfl : xs = [] := List.eq_nil_of_length_eq_zero (by omega)
  rw [hnil, h]
  rfl

theorem request?_bool_some (b : UInt8) : (bool.step (some b)).request? = none := by
  simp only [bool]
  split
  next h => cases h
  next => rfl
  next => rfl
  next => rfl

theorem splits_bool : bool.Splits
  | none => splitsAt_of_single rfl rfl
  | some b => splitsAt_of_no_request (request?_bool_some b)

theorem request?_terminated {marker received : Bytes}
    (h : ¬ marker.reverse.isPrefixOf received) :
    ((terminated marker).step received).request? = some (1, fun bytes => bytes ++ received) := by
  simp only [terminated, if_neg h, Step.request?]

theorem splits_terminated (marker : Bytes) : (terminated marker).Splits := by
  intro (received : Bytes)
  by_cases h : marker.reverse.isPrefixOf received
  · exact splitsAt_of_no_request (by simp only [terminated, if_pos h, Step.request?])
  · exact splitsAt_of_single (request?_terminated h) rfl

theorem splits_skipBytes (n : Nat) : (skipBytes n).Splits := by
  intro (owed : Nat)
  by_cases h : owed = 0
  · exact splitsAt_of_no_request (by simp only [skipBytes, if_pos h, Step.request?])
  · refine splitsAt_of_rest (request?_skipBytes h) ?_
    intro xs hxs
    rw [request?_skipBytes (by omega)]
    simp only [List.length_append, Nat.sub_add_eq]
    rfl

/-- The end of the run of `bytes`: its blocks do not show. -/
def bytesEnd (n : Nat) (received : Array UInt8) (bs : Bytes) : Run (Array UInt8) Bytes Bytes :=
  if bs.length < n - received.size then .reached .pending (received ++ bs) []
  else
    .reached (.done (received.toList ++ bs.take (n - received.size))) #[]
      (bs.drop (n - received.size))

theorem request?_bytes {n : Nat} {received : Array UInt8} (h : received.size < n) :
    ((bytes n).step received).request? =
      some (min (n - received.size) fillBlock, fun bs : Bytes => received ++ bs) := by
  simp only [bytes, if_pos h, Step.request?]

theorem size_append_take (received : Array UInt8) {k : Nat} {bs : Bytes} (h : k ≤ bs.length) :
    (received ++ bs.take k).size = received.size + k := by
  rw [← Array.length_toList, Array.toList_appendList, List.length_append, Array.length_toList,
    List.length_take, Nat.min_eq_left h]

/-- Taking a block first changes nothing in the end. -/
theorem bytesEnd_block {n k : Nat} (received : Array UInt8) (bs : Bytes)
    (hk : k ≤ n - received.size) (hbs : k ≤ bs.length) :
    bytesEnd n (received ++ bs.take k) (bs.drop k) = bytesEnd n received bs := by
  have hsize := size_append_take received hbs
  have hlt : (bs.drop k).length < n - (received ++ bs.take k).size ↔
      bs.length < n - received.size := by
    rw [hsize, List.length_drop]; omega
  by_cases h : bs.length < n - received.size
  · rw [bytesEnd, bytesEnd, if_pos (hlt.2 h), if_pos h]
    congr 1
    exact Array.ext' (by simp)
  · have htake : bs.take (n - received.size) =
        bs.take k ++ (bs.drop k).take (n - received.size - k) := by
      rw [← List.take_add, Nat.add_sub_cancel' hk]
    rw [bytesEnd, bytesEnd, if_neg (mt hlt.1 h), if_neg h, hsize, Nat.sub_add_eq, htake,
      List.drop_drop, Nat.add_sub_cancel' hk, Array.toList_appendList, List.append_assoc]

theorem ends_bytes {n : Nat} {received : Array UInt8} {bs : Bytes}
    {run : Run (Array UInt8) Bytes Bytes} :
    (bytes n).Ends received bs run ↔ run = bytesEnd n received bs := by
  generalize hm : n - received.size = m
  induction m using Nat.strongRecOn generalizing received bs with
  | ind m ih =>
      by_cases h : received.size < n
      · have hpos : 0 < min (n - received.size) fillBlock := by
          rw [Nat.lt_min]; exact ⟨by omega, by decide⟩
        have hle : min (n - received.size) fillBlock ≤ n - received.size := Nat.min_le_left ..
        refine (ends_of_request (request?_bytes h)).trans ?_
        generalize min (n - received.size) fillBlock = k at hpos hle
        by_cases hbs : bs.length < k
        · rw [if_pos hbs, bytesEnd, if_pos (by omega)]
          exact Iff.rfl
        · have hsize := size_append_take received (Nat.not_lt.1 hbs)
          rw [if_neg hbs, ← bytesEnd_block received bs hle (Nat.not_lt.1 hbs)]
          exact ih _ (by omega) rfl
      · have hzero : n - received.size = 0 := by omega
        have hdone : (bytes n).step received = .done received.toList (#[] : Array UInt8) := by
          simp only [bytes, if_neg h]
        refine (ends_of_done hdone).trans ?_
        rw [bytesEnd, hzero, if_neg (Nat.not_lt_zero _), List.take_zero, List.append_nil,
          List.drop_zero]
        exact Iff.rfl

theorem splits_bytes (n : Nat) : (bytes n).Splits := by
  intro (received : Array UInt8)
  by_cases h : received.size < n
  · intro k resume hreq xs ys hlt run
    rw [request?_bytes h] at hreq
    cases hreq
    have hxs : xs.length < n - received.size := by omega
    have hblock : bytesEnd n (received ++ xs) ys = bytesEnd n received (xs ++ ys) := by
      have h := bytesEnd_block received (xs ++ ys) (Nat.le_of_lt hxs)
        (by rw [List.length_append]; omega)
      rwa [List.take_left, List.drop_left] at h
    refine ends_bytes.trans (Iff.trans ?_ ends_bytes.symm)
    rw [← hblock]
  · exact splitsAt_of_no_request (by simp only [bytes, if_neg h, Step.request?])

/-! ## Adapters -/

theorem Splits.map {d : Decoder α} (hd : d.Splits) (f : α → β) : (d.map f).Splits :=
  splitsAt_embed (d.map f) hd id id _ (fun _ => rfl) (fun _ _ => rfl)

theorem Splits.tryMap {d : Decoder α} (hd : d.Splits) (f : α → Except DecodeError β) :
    (d.tryMap f).Splits := by
  refine splitsAt_embed (d.tryMap f) hd id id _ (fun _ => rfl) ?_
  intro value _
  cases f value <;> rfl

theorem Splits.andThen {d : Decoder α} {f : α → Decoder β} (hd : d.Splits)
    (hf : ∀ value, (f value).Splits) : (d.andThen f).Splits
  | ⟨first, none⟩ =>
      splitsAt_embed (d.andThen f) hd (⟨·, none⟩) (⟨·, none⟩) _ (fun _ => rfl) (fun _ _ => rfl)
        first
  | ⟨first, some ⟨value, second⟩⟩ =>
      splitsAt_embed (d.andThen f) (hf value) (fun second => ⟨first, some ⟨value, second⟩⟩)
        (fun second => ⟨first, some ⟨value, second⟩⟩) _ (fun _ => rfl) (fun _ _ => rfl) second

theorem Splits.both {a : Decoder α} {b : Decoder β} (ha : a.Splits) (hb : b.Splits) :
    (a.both b).Splits
  | ⟨first, second, none⟩ =>
      splitsAt_embed (a.both b) ha (⟨·, second, none⟩) (⟨·, second, none⟩) _ (fun _ => rfl)
        (fun _ _ => rfl) first
  | ⟨first, second, some left⟩ =>
      splitsAt_embed (a.both b) hb (⟨first, ·, some left⟩) (⟨first, ·, none⟩) _ (fun _ => rfl)
        (fun _ _ => rfl) second

theorem request?_skipAfter {d : Decoder α} {n owed : Nat} {inner : d.State} {value : α}
    (h : owed ≠ 0) :
    ((d.skipAfter n).step ⟨inner, owed, some value⟩).request? =
      some (owed, fun bytes => ⟨inner, owed - bytes.length, some value⟩) := by
  simp only [skipAfter, if_neg h, Step.request?]

theorem Splits.skipAfter {d : Decoder α} (hd : d.Splits) (n : Nat) : (d.skipAfter n).Splits
  | ⟨inner, owed, none⟩ =>
      splitsAt_embed (d.skipAfter n) hd (⟨·, owed, none⟩) (⟨·, owed, none⟩) _ (fun _ => rfl)
        (fun _ _ => rfl) inner
  | ⟨inner, owed, some value⟩ => by
      by_cases h : owed = 0
      · exact splitsAt_of_no_request (by simp only [Decoder.skipAfter, if_pos h, Step.request?])
      · refine splitsAt_of_rest (request?_skipAfter h) ?_
        intro xs hxs
        rw [request?_skipAfter (by omega)]
        simp only [List.length_append, Nat.sub_add_eq]

theorem splits_target {ε : Type} {bound : Bound ε}
    (h : ∀ size, bound = .prefixed size → size.Splits) : bound.target.Splits := by
  cases bound with
  | times n => exact fun _ => splitsAt_of_no_request rfl
  | prefixed size => exact (h size rfl).map some
  | whileHolds predicate addLast => exact fun _ => splitsAt_of_no_request rfl

theorem Splits.repeated {ε ρ : Type} {d : Decoder ε} {bound : Bound ε} (hd : d.Splits)
    (hbound : ∀ size, bound = .prefixed size → size.Splits) (c : Collector ε ρ) :
    (d.repeated bound c).Splits
  | ⟨target, element, none⟩ =>
      splitsAt_embed (d.repeated bound c) (splits_target hbound) (⟨·, element, none⟩)
        (⟨·, element, none⟩) _ (fun _ => rfl) (fun _ _ => rfl) target
  | ⟨target, element, some tally⟩ => by
      by_cases hfull : tally.isFull
      · exact splitsAt_of_no_request (by simp only [Decoder.repeated, if_pos hfull, Step.request?])
      · refine splitsAt_embed (d.repeated bound c) hd (⟨target, ·, some tally⟩)
          (⟨target, ·, some tally⟩) _ (fun _ => if_neg hfull) (fun value _ => ?_) element
        split <;> rfl

/-! ## Programs -/

theorem splits_flight {κ : Type} [Atom κ] {action : Action κ} (h : action.All Splits)
    (start : action.Flight) : (action.decoder start).Splits :=
  match action, h with
  | .decode type d, h =>
      splitsAt_embed (Action.decoder (.decode type d) start) h (fun state : d.State => state)
        (fun state => state) _ (fun _ => rfl) (fun _ _ => rfl)
  | .replace source type choose, h => fun ⟨value, state⟩ =>
      splitsAt_embed (Action.decoder (.replace source type choose) start) (h value) (⟨value, ·⟩)
        (⟨value, ·⟩) _ (fun _ => rfl) (fun _ _ => rfl) state
  | .follow source type choose, h => fun ⟨value, state⟩ =>
      splitsAt_embed (Action.decoder (.follow source type choose) start) (h value) (⟨value, ·⟩)
        (⟨value, ·⟩) _ (fun _ => rfl) (fun _ _ => rfl) state
  | .reduce _ _ _, _ => fun _ => splitsAt_of_no_request rfl

theorem splits_program {κ : Type} [Atom κ] {result : ValueType κ} {p : Program κ result}
    (h : ∀ index, (p.stage index).action.All Splits) : p.decoder.Splits := by
  intro m
  cases hreq : (p.decoder.step m).request? with
  | none => exact splitsAt_of_no_request hreq
  | some request =>
      obtain ⟨phase, frames, values⟩ := m
      obtain ⟨index, flight, hphase⟩ := Machine.exists_decoding_of_request hreq
      obtain rfl : phase = .decoding index flight := hphase
      exact splitsAt_graft p.decoder (splits_flight (h index) flight)
        (Machine.working index frames values)
        (fun cell _ => .tick (Machine.landed index frames values cell) [])
        (fun error flight =>
          .tick (Machine.rejecting index frames values error flight) [.failed index error])
        (Machine.step_working index frames values) (fun _ _ => rfl) (fun _ _ => rfl) flight

theorem Standard.splits {d : Decoder α} (h : d.Standard) : d.Splits := by
  induction h with
  | number α order => exact splits_number α order
  | bool => exact splits_bool
  | constant value => exact fun _ => splitsAt_of_no_request rfl
  | reject error => exact fun _ => splitsAt_of_no_request rfl
  | bytes n => exact splits_bytes n
  | @terminated marker d h =>
      unfold terminated? at h
      split at h
      next => cases h
      next => cases h; exact splits_terminated marker
  | skipBytes n => exact splits_skipBytes n
  | map f _ ih => exact ih.map f
  | tryMap f _ ih => exact ih.tryMap f
  | andThen _ _ ih ihf => exact ih.andThen ihf
  | both _ _ iha ihb => exact iha.both ihb
  | skipAfter n _ ih => exact ih.skipAfter n
  | repeated c _ _ ih ihbound => exact ih.repeated ihbound c
  | composed haccepted hp huses ih =>
      refine splits_program ?_
      intro index
      exact Recipe.all_of_uses splits_skipBytes (fun _ => splitsAt_of_no_request rfl) ih 0 _
        (Recipe.stage_mem_stages hp index)

/-! ## Chunks -/

/-- Feeding the chunks of a stream to a decoder, one call for each as long as it answers pending,
ends so.  The rest of the stream is what it has left of the last chunk it was given, and the chunks
that it was not given. -/
inductive Fed (d : Decoder α) : d.State → List Bytes → Run d.State Bytes α → Prop
  /-- There is no further chunk. -/
  | dry (state : d.State) : Fed d state [] (.reached .pending state [])
  /-- The decoder needs more than this chunk. -/
  | more {state next : d.State} {chunk : Bytes} {chunks : List Bytes} {run : Run d.State Bytes α} :
      d.Ends state chunk (.reached .pending next []) → Fed d next chunks run →
      Fed d state (chunk :: chunks) run
  /-- The decoder is done with this chunk. -/
  | last {state : d.State} {chunk : Bytes} {chunks : List Bytes} {run : Run d.State Bytes α} :
      d.Ends state chunk run → run.isPending = false →
      Fed d state (chunk :: chunks) (run.behind chunks.flatten)

theorem Ends.exists_of_append {d : Decoder α} {state : d.State} {xs ys : Bytes}
    {run : Run d.State Bytes α} (h : d.Ends state (xs ++ ys) run) : ∃ r, d.Ends state xs r := by
  generalize hzs : xs ++ ys = zs at h
  induction h using Ends.induct generalizing xs with
  | short state n resume zs hreq hlt =>
      subst hzs
      rw [List.length_append] at hlt
      exact ⟨_, (ends_of_request hreq).2 (by rw [if_pos (by omega)])⟩
  | request state n resume zs run hreq hle _ ih =>
      subst hzs
      by_cases hxs : xs.length < n
      · exact ⟨_, (ends_of_request hreq).2 (by rw [if_pos hxs])⟩
      · have hle' : n ≤ xs.length := by omega
        obtain ⟨r, hr⟩ := ih (List.drop_append_of_le_length hle').symm
        rw [List.take_append_of_le_length hle'] at hr
        exact ⟨r, (ends_of_request hreq).2 (by rw [if_neg hxs]; exact hr)⟩
  | tick state next events zs run hs _ ih =>
      obtain ⟨r, hr⟩ := ih hzs
      exact ⟨r, (ends_of_tick hs).2 hr⟩
  | done state value next zs hs => exact ⟨_, (ends_of_done hs).2 rfl⟩
  | fail state error next zs hs => exact ⟨_, (ends_of_fail hs).2 rfl⟩
  | broken state misuse zs hs => exact ⟨_, (ends_of_broken hs).2 rfl⟩

/-- Chunks are decoded as the stream that they make. -/
theorem Splits.fed_iff {d : Decoder α} (hd : d.Splits) {state : d.State} {chunk : Bytes}
    {chunks : List Bytes} {run : Run d.State Bytes α} :
    d.Fed state (chunk :: chunks) run ↔ d.Ends state (chunk ++ chunks.flatten) run := by
  induction chunks generalizing state chunk run with
  | nil =>
      rw [List.flatten_nil, List.append_nil]
      constructor
      · intro h
        cases h with
        | more hchunk hrest => cases hrest with | dry => exact hchunk
        | last hchunk hrun => rw [List.flatten_nil, Run.behind_nil]; exact hchunk
      · intro h
        cases hrun : run.isPending with
        | true =>
            obtain ⟨next, rest, rfl⟩ := Run.exists_of_isPending hrun
            obtain rfl := h.rest_eq_nil
            exact .more h (.dry next)
        | false =>
            have hlast : d.Fed state [chunk] (run.behind [].flatten) := .last h hrun
            rwa [List.flatten_nil, Run.behind_nil] at hlast
  | cons second chunks ih =>
      rw [List.flatten_cons]
      constructor
      · intro h
        cases h with
        | more hchunk hrest => exact (hd.ends_of_pending hchunk _ run).1 (ih.1 hrest)
        | last hchunk hrun => exact hchunk.append hrun _
      · intro h
        obtain ⟨r, hr⟩ := h.exists_of_append
        cases hrun : r.isPending with
        | true =>
            obtain ⟨next, rest, rfl⟩ := Run.exists_of_isPending hrun
            obtain rfl := hr.rest_eq_nil
            exact .more hr (ih.2 ((hd.ends_of_pending hr _ run).2 h))
        | false =>
            obtain rfl := h.unique (hr.append hrun _)
            exact .last hr hrun

/-! ## The property -/

/-- Cutting a stream changes nothing.  A decoder that has answered pending has read everything, and
decodes on as it would have on the joined slices, to the same state with the same bytes left;
behind a value or a rejection more bytes are left alone; and so a stream fed in chunks, empty ones
included, is decoded as the stream in one piece. -/
theorem Standard.resumes {d : Decoder α} (h : d.Standard) (state : d.State) (b₁ b₂ : Bytes) :
    (∀ next rest, d.Ends state b₁ (.reached .pending next rest) →
      rest = [] ∧ ∀ run, d.Ends next b₂ run ↔ d.Ends state (b₁ ++ b₂) run) ∧
    (∀ outcome next rest, outcome ≠ .pending → d.Ends state b₁ (.reached outcome next rest) →
      d.Ends state (b₁ ++ b₂) (.reached outcome next (rest ++ b₂))) ∧
    ∀ chunks run, d.Fed state (b₁ :: chunks) run ↔ d.Ends state (b₁ ++ chunks.flatten) run := by
  refine ⟨fun next rest hrun => ⟨hrun.rest_eq_nil, h.splits.ends_of_pending hrun b₂⟩, ?_,
    fun chunks run => h.splits.fed_iff⟩
  intro outcome next rest houtcome hrun
  refine hrun.append ?_ b₂
  cases outcome with
  | done value => rfl
  | pending => exact absurd rfl houtcome
  | failed error => rfl

/-- A byte string behind its length, cut inside the length. -/
theorem resumes_inside_length :
    let d := (number UInt16 .big).andThen fun n => bytes n.toNat
    let b₁ : Bytes := [0]
    let b₂ : Bytes := [2, 7, 8, 9]
    d.Ends d.start (b₁ ++ b₂) (.reached (.done [7, 8]) d.start [9]) ∧
    ∃ next, d.Ends d.start b₁ (.reached .pending next []) ∧
      d.Ends next b₂ (.reached (.done [7, 8]) d.start [9]) := by
  intro d b₁ b₂
  have hd : d.Standard := .andThen (.number UInt16 .big) fun n => .bytes n.toNat
  have hwhole : d.Ends d.start (b₁ ++ b₂) (.reached (.done [7, 8]) d.start [9]) :=
    ⟨by simp, 6, rfl⟩
  have hfirst : d.Ends d.start b₁ (.reached .pending ⟨b₁, none⟩ []) := ⟨by simp, 1, rfl⟩
  have hnext := ((hd.resumes d.start b₁ b₂).1 _ _ hfirst).2
  exact ⟨hwhole, _, hfirst, (hnext _).2 hwhole⟩

end Decoder

end Piecemeal
