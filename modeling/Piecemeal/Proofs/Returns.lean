/-
# Calls that return

A decoder returns if every decode call on a slice does, with an outcome, wherever the calls before
have left it, `Decoder.Returns`:

    d.Reachable state → ∃ outcome next rest, d.Ends state bytes (.reached outcome next rest)

The calls before may have been made on any source that gives no more than it is asked for, and the
decoder may have been reset and copied in between, `Decoder.Reachable`.  That takes it no further
than slices do: a call on a source leaves the decoder as the call on a slice of what it was given
does, `Decoder.Ends.exists_on_slice`.

Adapters of decoders that return do so as well, and the argument is the same for all of them.
Between calls the parts of an adapter may be called, and during a call they are called one after
another: `ReturnsWith.embed`.  A part that is chosen for a value, or called behind one, matters
only if there is such a value, so what is said of the parts in front is `ReturnsWith Q`: they
return, and their values have the property `Q`.

A repetition calls one part again and again, so for it something has to get less.

  * With a known number of elements that is how many are missing, `goesWell_counted`.
  * Otherwise it is the bytes that are left: every element behind the first has to take one at
    least, `ConsumesEach`, and the induction is on these bytes, `goesWell_uncounted`.

The elements need not return if none is wanted, as when the number that is read is zero.
-/
import Piecemeal.Proofs.Deliveries
import Piecemeal.Proofs.Enactments
import Piecemeal.Proofs.Promptness

namespace Piecemeal

/-! ## Sources -/

/-- Sources of this kind never give more than they are asked for. -/
structure ByteSource.Bounded (ι : Type) [ByteSource ι] : Prop where
  length_read_le (source : ι) (n : Nat) : (ByteSource.read source n).1.length ≤ n
  skip_le (source : ι) (n : Nat) : (ByteSource.skip source n).1 ≤ n

theorem bounded_slice : ByteSource.Bounded Bytes where
  length_read_le bytes n := List.length_take_le n bytes
  skip_le bytes n := List.length_take_le n bytes

theorem Delivery.bounded {ι : Type} [ByteSource ι] (D : Delivery ι)
    (h : ∀ source, D.InOrder source) : ByteSource.Bounded ι where
  length_read_le source n := (D.handsOut_read source n (h source)).length_le
  skip_le source n := by
    obtain ⟨bytes, hlen, hbytes⟩ := D.handsOut_skip source n (h source)
    exact hlen ▸ hbytes.length_le

namespace Decoder

variable {α β : Type}

/-! ## Histories on any source -/

/-- The states that a decoder comes to between calls: it is called on any bounded sources, and reset
and copied at any time, but it has to be reset when data was rejected. -/
inductive Reachable (d : Decoder α) : d.State → Prop
  | fresh : Reachable d d.start
  | decoded {ι : Type} [ByteSource ι] {state next : d.State} {source rest : ι}
      {outcome : Outcome α} :
      ByteSource.Bounded ι → Reachable d state →
      d.Ends state source (.reached outcome next rest) → (∀ error, outcome ≠ .failed error) →
      Reachable d next
  | rejected {ι : Type} [ByteSource ι] {state next : d.State} {source rest : ι}
      {error : DecodeError} :
      ByteSource.Bounded ι → Reachable d state →
      d.Ends state source (.reached (.failed error) next rest) → Reachable d (d.reset next)
  | reset {state : d.State} : Reachable d state → Reachable d (d.reset state)
  | copied {state : d.State} : Reachable d state → Reachable d (d.copy state)

theorem run_succ_of_bounded {ι : Type} [ByteSource ι] (hι : ByteSource.Bounded ι) {d : Decoder α}
    {state : d.State} {n : Nat} {resume : Bytes → d.State}
    (h : (d.step state).request? = some (n, resume)) (source : ι) :
    ∃ (bytes : Bytes) (rest : ι), bytes.length ≤ n ∧ ∀ budget,
      d.run (budget + 1) state source =
        if bytes.length < n then .reached .pending (resume bytes) rest
        else d.run budget (resume bytes) rest := by
  cases hs : d.step state with
  | read k resume' =>
      rw [hs] at h; cases h
      refine ⟨_, (ByteSource.read source n).2, hι.length_read_le source n, fun budget => ?_⟩
      rw [Decoder.run, hs]
  | skip k resume' =>
      rw [hs] at h; cases h
      -- of the bytes that are dropped only the number is known
      have hlen : (List.replicate (ByteSource.skip source n).1 (0 : UInt8)).length =
          (ByteSource.skip source n).1 := List.length_replicate
      refine ⟨_, (ByteSource.skip source n).2,
        Nat.le_trans (Nat.le_of_eq hlen) (hι.skip_le source n), fun budget => ?_⟩
      rw [Decoder.run, hs]
      simp only [hlen]
  | tick => rw [hs] at h; cases h
  | done => rw [hs] at h; cases h
  | fail => rw [hs] at h; cases h
  | broken => rw [hs] at h; cases h

/-- A call on a source leaves the decoder as the call on a slice of what it was given does. -/
theorem Ends.exists_on_slice {ι : Type} [ByteSource ι] {d : Decoder α} {state next : d.State}
    {source rest : ι} {outcome : Outcome α}
    (h : d.Ends state source (.reached outcome next rest)) (hι : ByteSource.Bounded ι) :
    ∃ bytes left : Bytes, d.Ends state bytes (.reached outcome next left) := by
  obtain ⟨-, budget, hrun⟩ := h
  induction budget generalizing state source with
  | zero => cases hrun
  | succ budget ih =>
      cases hs : d.step state using Step.casesRequest with
      | request step n resume hreq =>
          subst hs
          obtain ⟨given, rest', hle, hsucc⟩ := run_succ_of_bounded hι hreq source
          rw [hsucc] at hrun
          split at hrun
          next hshort =>
            cases hrun
            exact ⟨given, [], (ends_of_request hreq).2 (by rw [if_pos hshort])⟩
          next hfull =>
            obtain ⟨more, left, hends⟩ := ih hrun
            obtain rfl : n = given.length := Nat.le_antisymm (Nat.not_lt.1 hfull) hle
            refine ⟨given ++ more, left, ?_⟩
            rw [ends_of_request hreq, if_neg (by rw [List.length_append]; omega), List.take_left,
              List.drop_left]
            exact hends
      | tick state' events =>
          rw [Decoder.run, hs] at hrun
          obtain ⟨bytes, left, hends⟩ := ih hrun
          exact ⟨bytes, left, (ends_of_tick hs).2 hends⟩
      | done value state' =>
          rw [Decoder.run, hs] at hrun
          cases hrun
          exact ⟨[], [], (ends_of_done hs).2 rfl⟩
      | fail error state' =>
          rw [Decoder.run, hs] at hrun
          cases hrun
          exact ⟨[], [], (ends_of_fail hs).2 rfl⟩
      | broken misuse =>
          rw [Decoder.run, hs] at hrun
          cases hrun

/-! ## Decoders that return -/

/-- Every call returns with an outcome, whatever came before. -/
def Returns (d : Decoder α) : Prop :=
  ∀ state, d.Reachable state → ∀ bytes : Bytes,
    ∃ outcome next rest, d.Ends state bytes (.reached outcome next rest)

/-- So it does, and all values have the property `Q`. -/
def ReturnsWith (d : Decoder α) (Q : α → Prop) : Prop :=
  ∀ state, d.Reachable state → ∀ bytes : Bytes, ∃ outcome next rest,
    d.Ends state bytes (.reached outcome next rest) ∧ ∀ value, outcome = .done value → Q value

/-- Some call answers the value. -/
def Yields (d : Decoder α) (value : α) : Prop :=
  ∃ state, ∃ bytes : Bytes, ∃ next rest,
    d.Reachable state ∧ d.Ends state bytes (.reached (.done value) next rest)

theorem ReturnsWith.returns {d : Decoder α} {Q : α → Prop} (h : d.ReturnsWith Q) : d.Returns := by
  intro state hstate bytes
  obtain ⟨outcome, next, rest, hrun, -⟩ := h state hstate bytes
  exact ⟨outcome, next, rest, hrun⟩

theorem ReturnsWith.yields {d : Decoder α} {Q : α → Prop} (h : d.ReturnsWith Q) :
    d.ReturnsWith fun value => Q value ∧ d.Yields value := by
  intro state hstate bytes
  obtain ⟨outcome, next, rest, hrun, hQ⟩ := h state hstate bytes
  refine ⟨outcome, next, rest, hrun, ?_⟩
  rintro value rfl
  exact ⟨hQ value rfl, state, bytes, next, rest, hstate, hrun⟩

theorem ReturnsWith.mono {d : Decoder α} {Q Q' : α → Prop} (h : d.ReturnsWith Q)
    (hQ : ∀ value, Q value → Q' value) : d.ReturnsWith Q' := by
  intro state hstate bytes
  obtain ⟨outcome, next, rest, hrun, hvalue⟩ := h state hstate bytes
  exact ⟨outcome, next, rest, hrun, fun value houtcome => hQ value (hvalue value houtcome)⟩

theorem Returns.anything {d : Decoder α} (h : d.Returns) : d.ReturnsWith fun _ => True := by
  intro state hstate bytes
  obtain ⟨outcome, next, rest, hrun⟩ := h state hstate bytes
  exact ⟨outcome, next, rest, hrun, fun _ _ => trivial⟩

theorem Returns.yields {d : Decoder α} (h : d.Returns) : d.ReturnsWith d.Yields :=
  h.anything.yields.mono fun _ hvalue => hvalue.2

/-! ### One call -/

section Calls

/-- What a call leaves: a value has the property `Q`, and the decoder the property `C`, after a reset
if data was rejected. -/
def Leaves (d : Decoder α) (C : d.State → Prop) (Q : α → Prop) : Outcome α → d.State → Prop
  | .done value, next => Q value ∧ C next
  | .pending, next => C next
  | .failed _, next => C (d.reset next)

/-- The call that takes this step returns, and leaves things so. -/
def ReturnsBy (d : Decoder α) (C : d.State → Prop) (Q : α → Prop) (step : Step d.State α)
    (bytes : Bytes) : Prop :=
  ∃ outcome next rest, d.EndsBy step bytes (.reached outcome next rest) ∧ d.Leaves C Q outcome next

/-- The same of a call in this state. -/
def ReturnsIn (d : Decoder α) (C : d.State → Prop) (Q : α → Prop) (state : d.State)
    (bytes : Bytes) : Prop :=
  d.ReturnsBy C Q (d.step state) bytes

variable {d : Decoder α} {C : d.State → Prop} {Q : α → Prop}

theorem returnsIn_iff {state : d.State} {bytes : Bytes} :
    d.ReturnsIn C Q state bytes ↔
      ∃ outcome next rest, d.Ends state bytes (.reached outcome next rest) ∧
        d.Leaves C Q outcome next := by
  simp only [ReturnsIn, ReturnsBy, ends_iff]

theorem returnsBy_done {value : α} {next : d.State} (hvalue : Q value) (h : C next)
    (bytes : Bytes) : d.ReturnsBy C Q (.done value next) bytes := ⟨_, _, _, rfl, hvalue, h⟩

theorem returnsBy_fail {error : DecodeError} {next : d.State} (h : C (d.reset next))
    (bytes : Bytes) : d.ReturnsBy C Q (.fail error next) bytes := ⟨_, _, _, rfl, h⟩

theorem ReturnsIn.tick {next : d.State} {bytes : Bytes} (h : d.ReturnsIn C Q next bytes)
    (events : List Event) : d.ReturnsBy C Q (.tick next events) bytes := by
  obtain ⟨outcome, last, rest, hrun, hleaves⟩ := returnsIn_iff.1 h
  exact ⟨outcome, last, rest, hrun, hleaves⟩

theorem returnsIn_of_request {state : d.State} {n : Nat} {resume : Bytes → d.State}
    (hreq : (d.step state).request? = some (n, resume)) {bytes : Bytes}
    (hshort : bytes.length < n → C (resume bytes))
    (hnext : n ≤ bytes.length → d.ReturnsIn C Q (resume (bytes.take n)) (bytes.drop n)) :
    d.ReturnsIn C Q state bytes := by
  rw [returnsIn_iff]
  by_cases hlt : bytes.length < n
  · refine ⟨.pending, resume bytes, [], ?_, hshort hlt⟩
    rw [ends_of_request hreq, if_pos hlt]
  · obtain ⟨outcome, next, rest, hrun, hleaves⟩ := returnsIn_iff.1 (hnext (Nat.not_lt.1 hlt))
    refine ⟨outcome, next, rest, ?_, hleaves⟩
    rw [ends_of_request hreq, if_neg hlt]
    exact hrun

theorem returnsWith_of_calls (hstart : C d.start) (hreset : ∀ state, C state → C (d.reset state))
    (hcopy : ∀ state, C state → C (d.copy state))
    (hcall : ∀ state, C state → ∀ bytes, d.ReturnsIn C Q state bytes) : d.ReturnsWith Q := by
  have hleaves : ∀ {state next} {bytes rest : Bytes} {outcome}, C state →
      d.Ends state bytes (.reached outcome next rest) → d.Leaves C Q outcome next := by
    intro state next bytes rest outcome hstate hrun
    obtain ⟨_, _, _, hrun', hleaves⟩ := returnsIn_iff.1 (hcall state hstate bytes)
    cases hrun'.unique hrun
    exact hleaves
  have hreachable : ∀ state, d.Reachable state → C state := by
    intro state hstate
    induction hstate with
    | fresh => exact hstart
    | @decoded ι _ state next source rest outcome hι _ hrun hok ih =>
        obtain ⟨bytes, left, hslice⟩ := hrun.exists_on_slice hι
        have hnext := hleaves ih hslice
        cases outcome with
        | done value => exact hnext.2
        | pending => exact hnext
        | failed error => exact absurd rfl (hok error)
    | rejected hι _ hrun ih =>
        obtain ⟨bytes, left, hslice⟩ := hrun.exists_on_slice hι
        exact hleaves ih hslice
    | reset _ ih => exact hreset _ ih
    | copied _ ih => exact hcopy _ ih
  intro state hstate bytes
  obtain ⟨outcome, next, rest, hrun, hleft⟩ :=
    returnsIn_iff.1 (hcall state (hreachable state hstate) bytes)
  refine ⟨outcome, next, rest, hrun, ?_⟩
  rintro value rfl
  exact hleft.1

theorem Reachable.answered {state next : d.State} {bytes rest : Bytes} {value : α}
    (h : d.Reachable state) (hrun : d.Ends state bytes (.reached (.done value) next rest)) :
    d.Reachable next :=
  .decoded bounded_slice h hrun (by simp)

/-- A decoder around one that returns does so, if it does where that one has answered. -/
theorem ReturnsWith.embed (h : d.ReturnsWith Q) (outer : Decoder β) {D : outer.State → Prop}
    {R : β → Prop} (wrap spoiled : d.State → outer.State)
    {finished : α → d.State → Step outer.State β}
    (hstep : ∀ state, outer.step (wrap state) = (d.step state).embed wrap spoiled finished)
    (hpending : ∀ state, d.Reachable state → D (wrap state))
    (hfail : ∀ state, d.Reachable (d.reset state) → D (outer.reset (spoiled state)))
    {state : d.State} (hstate : d.Reachable state) {bytes : Bytes}
    (hdone : ∀ value next rest, d.Ends state bytes (.reached (.done value) next rest) → Q value →
      d.Reachable next → outer.ReturnsBy D R (finished value next) rest) :
    outer.ReturnsIn D R (wrap state) bytes := by
  have hends : ∀ {run}, outer.Ends (wrap state) bytes run ↔ ∃ r, d.Ends state bytes r ∧
      outer.GoesOn wrap finished (fun error state => .fail error (spoiled state)) run r :=
    ends_embed outer d wrap spoiled finished hstep
  rw [returnsIn_iff]
  obtain ⟨outcome, next, rest, hrun, hvalue⟩ := h state hstate bytes
  cases outcome with
  | done value =>
      obtain ⟨outcome, last, left, hby, hleaves⟩ :=
        hdone value next rest hrun (hvalue value rfl) (hstate.answered hrun)
      exact ⟨outcome, last, left, hends.2 ⟨_, hrun, hby⟩, hleaves⟩
  | pending =>
      have hnext : d.Reachable next := .decoded bounded_slice hstate hrun (by simp)
      exact ⟨_, _, _, hends.2 ⟨_, hrun, rfl⟩, hpending next hnext⟩
  | failed error =>
      have hnext : d.Reachable (d.reset next) := .rejected bounded_slice hstate hrun
      exact ⟨_, _, _, hends.2 ⟨_, hrun, rfl⟩, hfail next hnext⟩

end Calls

/-! ## Decoders that ask for their bytes at once -/

/-- A prompt decoder of which no step is wrong returns. -/
theorem Prompt.returns {d : Decoder α} {k : Nat} (h : d.Prompt k)
    (hsound : ∀ state misuse, d.step state ≠ .broken misuse) : d.Returns := by
  have hkeeps : ∀ state, (d.step state).Keeps (fun _ => True) fun _ => False := by
    intro state
    cases hs : d.step state with
    | read n resume => exact fun _ _ => trivial
    | skip n resume => exact fun _ _ => trivial
    | tick => trivial
    | done => trivial
    | fail => trivial
    | broken misuse => exact absurd hs (hsound state misuse)
  intro state _ bytes
  have hfrom : d.PromptFrom k state :=
    ⟨fun _ => True, trivial, fun state _ =>
      ⟨h state, (hkeeps state).mono (fun _ h => h) fun _ h => h.elim⟩⟩
  have hne := hfrom.run_ne_exhausted (Nat.le_refl ((k + 1) * (bytes.length + 1)))
  generalize hrun : d.run ((k + 1) * (bytes.length + 1)) state bytes = run at hne
  have hends : d.Ends state bytes run := ⟨hne, _, hrun⟩
  have hreached := hends.keeps (fun state _ => hkeeps state) trivial
  cases run with
  | reached outcome next rest => exact ⟨outcome, next, rest, hends⟩
  | broken misuse => exact hreached.elim
  | exhausted => exact absurd rfl hne

theorem returns_number (α : Type) [FixedWidth α] (order : ByteOrder) : (number α order).Returns := by
  refine (prompt_number α order).returns ?_
  intro (received : Bytes) misuse
  simp only [number]
  split <;> simp

theorem returns_bool : bool.Returns := by
  have hprompt : bool.Prompt 0 := by
    intro (state : Option UInt8)
    simp only [bool]
    split
    · exact .asks 0 ⟨1, _, rfl, Nat.one_pos⟩
    · exact .done 0 _ _
    · exact .done 0 _ _
    · exact .fail 0 _ _
  refine hprompt.returns ?_
  intro (state : Option UInt8) misuse
  simp only [bool]
  split <;> simp

theorem returns_bytes (n : Nat) : (bytes n).Returns := by
  refine (prompt_bytes n).returns ?_
  intro (received : Array UInt8) misuse
  simp only [bytes]
  split <;> simp

theorem returns_terminated (marker : Bytes) : (terminated marker).Returns := by
  have hprompt : (terminated marker).Prompt 0 := by
    intro (received : Bytes)
    by_cases h : marker.reverse.isPrefixOf received
    · simp only [terminated, if_pos h]
      exact .done 0 _ _
    · simp only [terminated, if_neg h]
      exact .asks 0 ⟨1, _, rfl, Nat.one_pos⟩
  refine hprompt.returns ?_
  intro (received : Bytes) misuse
  simp only [terminated]
  split <;> simp

theorem returns_skipBytes (n : Nat) : (skipBytes n).Returns := by
  refine (prompt_skipBytes n).returns ?_
  intro (owed : Nat) misuse
  simp only [skipBytes]
  split <;> simp

theorem returns_reject (error : DecodeError) : (reject error : Decoder α).Returns := by
  intro state _ bytes
  exact ⟨_, _, _, (ends_of_fail rfl).2 rfl⟩

theorem returnsWith_constant {Q : α → Prop} {value : α} (h : Q value) :
    (constant value).ReturnsWith Q := by
  intro state _ bytes
  refine ⟨.done value, (), bytes, (ends_of_done rfl).2 rfl, ?_⟩
  rintro _ ⟨⟩
  exact h

/-! ## Adapters -/

section Adapters

variable {d : Decoder α} {Q : α → Prop} {R : β → Prop}

theorem ReturnsWith.map (h : d.ReturnsWith Q) (f : α → β) (hf : ∀ value, Q value → R (f value)) :
    (d.map f).ReturnsWith R := by
  refine returnsWith_of_calls (d := d.map f) (C := d.Reachable) .fresh (fun _ h => h.reset)
    (fun _ h => h.copied) ?_
  intro state hstate bytes
  refine h.embed (d.map f) id id (fun _ => rfl) (fun _ h => h) (fun _ h => h) hstate ?_
  intro value next rest _ hvalue hnext
  exact returnsBy_done (d := d.map f) (hf value hvalue) hnext rest

theorem Returns.map (h : d.Returns) (f : α → β) : (d.map f).Returns :=
  (h.anything.map (R := fun _ => True) f fun _ h => h).returns

theorem Returns.tryMap (h : d.Returns) (f : α → Except DecodeError β) : (d.tryMap f).Returns := by
  refine (returnsWith_of_calls (d := d.tryMap f) (C := d.Reachable) (Q := fun _ => True) .fresh
    (fun _ h => h.reset) (fun _ h => h.copied) ?_).returns
  intro state hstate bytes
  refine h.anything.embed (d.tryMap f) id id (fun _ => rfl) (fun _ h => h) (fun _ h => h) hstate ?_
  intro value next rest _ _ hnext
  cases f value with
  | ok result => exact returnsBy_done (d := d.tryMap f) trivial hnext rest
  | error error => exact returnsBy_fail (d := d.tryMap f) hnext.reset rest

theorem ReturnsWith.andThen {f : α → Decoder β} (h : d.ReturnsWith Q)
    (hf : ∀ value, Q value → (f value).ReturnsWith R) : (d.andThen f).ReturnsWith R := by
  let C (state : (d.andThen f).State) : Prop :=
    d.Reachable state.first ∧ ∀ value second, state.second = some ⟨value, second⟩ →
      Q value ∧ (f value).Reachable second
  have hnone : ∀ first, d.Reachable first → C ⟨first, none⟩ := fun _ hfirst => ⟨hfirst, nofun⟩
  have hsome : ∀ first value (second : (f value).State), d.Reachable first → Q value →
      (f value).Reachable second → C ⟨first, some ⟨value, second⟩⟩ := by
    intro first value second hfirst hvalue hsecond
    refine ⟨hfirst, ?_⟩
    rintro _ _ ⟨⟩
    exact ⟨hvalue, hsecond⟩
  have hsecond : ∀ first value (second : (f value).State), d.Reachable first → Q value →
      (f value).Reachable second → ∀ bytes,
      (d.andThen f).ReturnsIn C R ⟨first, some ⟨value, second⟩⟩ bytes := by
    intro first value second hfirst hvalue hstate bytes
    refine (hf value hvalue).embed (d.andThen f) (fun second => ⟨first, some ⟨value, second⟩⟩)
      (fun second => ⟨first, some ⟨value, second⟩⟩) (fun _ => rfl)
      (fun second => hsome first value second hfirst hvalue) ?_ hstate ?_
    · exact fun _ _ => hnone _ hfirst.reset
    · intro result _ rest _ hresult _
      exact returnsBy_done (d := d.andThen f) (C := C) hresult (hnone _ hfirst) rest
  refine returnsWith_of_calls (C := C) (hnone _ .fresh) (fun _ hC => hnone _ hC.1.reset) ?_ ?_
  · rintro ⟨first, _ | ⟨value, second⟩⟩ hC
    · exact hnone _ hC.1.copied
    · obtain ⟨hvalue, hsecond⟩ := hC.2 value second rfl
      exact hsome _ value _ hC.1.copied hvalue hsecond.copied
  · rintro ⟨first, _ | ⟨value, second⟩⟩ hC bytes
    · refine h.embed (d.andThen f) (D := C) (⟨·, none⟩) (⟨·, none⟩) (fun _ => rfl)
        hnone (fun _ hreset => hnone _ hreset) hC.1 ?_
      intro value next rest _ hvalue hnext
      exact (hsecond next value _ hnext hvalue .fresh rest).tick _
    · obtain ⟨hvalue, hstate⟩ := hC.2 value second rfl
      exact hsecond first value second hC.1 hvalue hstate bytes

theorem Returns.andThen {f : α → Decoder β} (h : d.Returns)
    (hf : ∀ value, d.Yields value → (f value).Returns) : (d.andThen f).Returns :=
  (h.yields.andThen fun value hvalue => (hf value hvalue).anything).returns

theorem Returns.both {b : Decoder β} (h : d.Returns) (hb : ∀ left, d.Yields left → b.Returns) :
    (d.both b).Returns := by
  let C (state : (d.both b).State) : Prop :=
    d.Reachable state.first ∧ b.Reachable state.second ∧
      ∀ left, state.left = some left → d.Yields left
  have hnone : ∀ first second, d.Reachable first → b.Reachable second → C ⟨first, second, none⟩ :=
    fun _ _ hfirst hsecond => ⟨hfirst, hsecond, nofun⟩
  have hsome : ∀ first second left, d.Reachable first → b.Reachable second → d.Yields left →
      C ⟨first, second, some left⟩ := by
    intro first second left hfirst hsecond hleft
    refine ⟨hfirst, hsecond, ?_⟩
    rintro _ ⟨⟩
    exact hleft
  have hright : ∀ first second left, d.Reachable first → b.Reachable second → d.Yields left →
      ∀ bytes, (d.both b).ReturnsIn C (fun _ => True) ⟨first, second, some left⟩ bytes := by
    intro first second left hfirst hsecond hleft bytes
    refine (hb left hleft).anything.embed (d.both b) (D := C) (⟨first, ·, some left⟩)
      (⟨first, ·, none⟩) (fun _ => rfl)
      (fun second hsecond => hsome first second left hfirst hsecond hleft)
      (fun _ hreset => hnone _ _ hfirst.reset hreset) hsecond ?_
    intro right next rest _ _ hnext
    exact returnsBy_done (d := d.both b) (C := C) trivial (hnone _ _ hfirst hnext) rest
  refine (returnsWith_of_calls (C := C) (Q := fun _ => True) (hnone _ _ .fresh .fresh)
    (fun _ hC => hnone _ _ hC.1.reset hC.2.1.reset)
    (fun _ hC => ⟨hC.1.copied, hC.2.1.copied, hC.2.2⟩) ?_).returns
  rintro ⟨first, second, _ | left⟩ ⟨hfirst, hsecond, hleft⟩ bytes
  · refine h.yields.embed (d.both b) (D := C) (⟨·, second, none⟩) (⟨·, second, none⟩) (fun _ => rfl)
      (fun _ hfirst => hnone _ _ hfirst hsecond)
      (fun _ hreset => hnone _ _ hreset hsecond.reset) hfirst ?_
    intro left next rest _ hleft hnext
    exact (hright next second left hnext hsecond hleft rest).tick _
  · exact hright first second left hfirst hsecond (hleft left rfl) bytes

theorem Returns.skipAfter (h : d.Returns) (n : Nat) : (d.skipAfter n).Returns := by
  let C (state : (d.skipAfter n).State) : Prop := d.Reachable state.inner
  have howed : ∀ inner owed value, d.Reachable inner → ∀ bytes,
      (d.skipAfter n).ReturnsIn C (fun _ => True) ⟨inner, owed, some value⟩ bytes := by
    intro inner owed value hinner bytes
    have hzero : ∀ owed bytes, owed = 0 →
        (d.skipAfter n).ReturnsIn C (fun _ => True) ⟨inner, owed, some value⟩ bytes := by
      rintro _ bytes rfl
      exact returnsBy_done (d := d.skipAfter n) (C := C) trivial hinner bytes
    by_cases howed : owed = 0
    · exact hzero owed bytes howed
    · have hreq : ((d.skipAfter n).step ⟨inner, owed, some value⟩).request? =
          some (owed, fun bytes => ⟨inner, owed - bytes.length, some value⟩) := by
        simp only [Decoder.skipAfter, if_neg howed, Step.request?]
      refine returnsIn_of_request hreq (fun _ => hinner) fun hle => hzero _ _ ?_
      rw [List.length_take, Nat.min_eq_left hle, Nat.sub_self]
  refine (returnsWith_of_calls (C := C) (Q := fun _ => True) .fresh (fun _ hC => hC.reset)
    (fun _ hC => hC.copied) ?_).returns
  rintro ⟨inner, owed, _ | value⟩ hC bytes
  · refine h.anything.embed (d.skipAfter n) (D := C) (⟨·, owed, none⟩) (⟨·, owed, none⟩)
      (fun _ => rfl) (fun _ hinner => hinner) (fun _ hreset => hreset) hC ?_
    intro value next rest _ _ hnext
    exact (howed next owed value hnext rest).tick _
  · exact howed inner owed value hC bytes

end Adapters

/-! ## Repetitions -/

/-- Every value behind another takes a byte at least. -/
def ConsumesEach (d : Decoder α) : Prop :=
  ∀ state, d.Reachable state → ∀ (bytes : Bytes) value next rest,
    d.Ends state bytes (.reached (.done value) next rest) →
    ∀ value' next' rest', d.Ends next rest (.reached (.done value') next' rest') →
      rest'.length < rest.length

theorem exists_of_yields_none {bound : Bound α} (h : bound.target.Yields none) :
    ∃ predicate addLast, bound = .whileHolds predicate addLast := by
  obtain ⟨state, bytes, next, rest, -, hrun⟩ := h
  obtain ⟨last, hlast⟩ := hrun.exists_done
  cases bound with
  | times n => cases hlast
  | prefixed size =>
      obtain ⟨value, last, -, hvalue⟩ := Step.exists_of_embed_eq_done hlast
      cases hvalue
  | whileHolds predicate addLast => exact ⟨predicate, addLast, rfl⟩

theorem returns_target {bound : Bound α} (h : ∀ size, bound = .prefixed size → size.Returns) :
    bound.target.Returns := by
  cases bound with
  | times n => exact (returnsWith_constant (Q := fun _ => True) trivial).returns
  | prefixed size => exact (h size rfl).map some
  | whileHolds predicate addLast =>
      exact (returnsWith_constant (Q := fun _ => True) trivial).returns

section Repeated

variable {d : Decoder α} {bound : Bound α} {c : Collector α β}

/-- The number of elements is one that was answered, and there are not more of them. -/
def Counts (bound : Bound α) {γ : Type} (tally : Tally γ) : Prop :=
  bound.target.Yields tally.target ∧ ∀ n, tally.target = some n → tally.produced ≤ n

/-- Between calls both parts of a repetition may be called. -/
structure Going (d : Decoder α) (bound : Bound α) (c : Collector α β)
    (state : (d.repeated bound c).State) : Prop where
  target : bound.target.Reachable state.target
  element : d.Reachable state.element
  counts : ∀ tally, state.tally = some tally → Counts bound tally

variable {target : bound.target.State} {element : d.State} {tally : Tally c.Container}
  (htarget : bound.target.Reachable target)

include htarget

theorem going_none (helement : d.Reachable element) : Going d bound c ⟨target, element, none⟩ :=
  ⟨htarget, helement, nofun⟩

theorem going_some (helement : d.Reachable element) (hcounts : Counts bound tally) :
    Going d bound c ⟨target, element, some tally⟩ := by
  refine ⟨htarget, helement, ?_⟩
  rintro _ ⟨⟩
  exact hcounts

/-- The call returns, and leaves both parts so that they may be called. -/
def GoesWell (d : Decoder α) (bound : Bound α) (c : Collector α β) (target : bound.target.State)
    (element : d.State) (tally : Tally c.Container) (bytes : Bytes) : Prop :=
  (d.repeated bound c).ReturnsIn (Going d bound c) (fun _ => True) ⟨target, element, some tally⟩
    bytes

theorem goesWell_full (hfull : tally.isFull = true) (helement : d.Reachable element)
    (bytes : Bytes) : GoesWell d bound c target element tally bytes := by
  show (d.repeated bound c).ReturnsBy _ _ ((d.repeated bound c).step _) bytes
  rw [step_full target element hfull]
  exact returnsBy_done trivial (going_none htarget helement) bytes

theorem goesWell_element (h : d.Returns) (hroom : tally.isFull = false)
    (hcounts : Counts bound tally) (helement : d.Reachable element) {bytes : Bytes}
    (hnext : ∀ value next rest, d.Ends element bytes (.reached (.done value) next rest) →
      d.Reachable next → GoesWell d bound c target next (tally.add c value) rest) :
    GoesWell d bound c target element tally bytes := by
  refine h.anything.embed (d.repeated bound c) (⟨target, ·, some tally⟩) (⟨target, ·, some tally⟩)
    (step_missing d bound c target hroom) (fun _ hstate => going_some htarget hstate hcounts)
    (fun _ hreset => going_none htarget.reset hreset) helement ?_
  intro value next rest hrun _ hready
  cases hends : bound.endsAt value with
  | true =>
      rw [if_pos rfl]
      exact returnsBy_done trivial (going_none htarget hready) rest
  | false =>
      rw [if_neg Bool.false_ne_true]
      exact (hnext value next rest hrun hready).tick []

theorem goesWell_counted (h : d.Returns) (missing : Nat) (hcounts : Counts bound tally) {n : Nat}
    (hn : tally.target = some n) (hmissing : tally.produced + missing = n)
    (helement : d.Reachable element) (bytes : Bytes) :
    GoesWell d bound c target element tally bytes := by
  induction missing generalizing tally element bytes with
  | zero =>
      have hfull : tally.isFull = true := by
        rw [Tally.isFull, hn, ← hmissing]
        simp
      exact goesWell_full htarget hfull helement bytes
  | succ missing ih =>
      have hroom : tally.isFull = false := by
        rw [Tally.isFull, hn]
        simp
        omega
      refine goesWell_element htarget h hroom hcounts helement ?_
      intro value next rest _ hnext
      have hsum : (tally.add c value).produced + missing = n := by
        show tally.produced + 1 + missing = n
        omega
      have hcounts' : Counts bound (tally.add c value) := by
        refine ⟨hcounts.1, fun n' hn' => ?_⟩
        cases hn.symm.trans hn'
        omega
      exact ih hcounts' hn hsum hnext rest

/-- With an unknown number of elements, each of which takes a byte behind the first. -/
theorem goesWell_uncounted (h : d.Returns) (hconsumes : d.ConsumesEach)
    (hcounts : Counts bound tally) (hn : tally.target = none) (helement : d.Reachable element)
    (bytes : Bytes) : GoesWell d bound c target element tally bytes := by
  have hroom : ∀ {tally : Tally c.Container}, tally.target = none → tally.isFull = false := by
    intro tally hn
    rw [Tally.isFull, hn]
    rfl
  have hadd : ∀ {tally : Tally c.Container} {value}, Counts bound tally → tally.target = none →
      Counts bound (tally.add c value) := by
    intro tally value hcounts hn
    refine ⟨hcounts.1, fun n hn' => ?_⟩
    cases hn.symm.trans hn'
  have hbehind : ∀ (k : Nat) (bytes : Bytes), bytes.length = k → ∀ (tally : Tally c.Container)
      element first before value, Counts bound tally → tally.target = none → d.Reachable first →
      d.Ends first before (.reached (.done value) element bytes) →
      GoesWell d bound c target element tally bytes := by
    intro k
    induction k using Nat.strongRecOn with
    | ind k ih =>
        rintro bytes rfl tally element first before value hcounts hn hfirst hrun
        have helement := hfirst.answered hrun
        refine goesWell_element htarget h (hroom hn) hcounts helement ?_
        intro value' next rest hrun' _
        have hlt := hconsumes first hfirst before value element bytes hrun value' next rest hrun'
        exact ih rest.length hlt rest rfl (tally.add c value') next element bytes value'
          (hadd hcounts hn) hn helement hrun'
  refine goesWell_element htarget h (hroom hn) hcounts helement ?_
  intro value next rest hrun _
  exact hbehind rest.length rest rfl (tally.add c value) next element bytes value
    (hadd hcounts hn) hn helement hrun

end Repeated

theorem Returns.repeated {d : Decoder α} {bound : Bound α} (hbound : bound.target.Returns)
    (h : ∀ n, bound.target.Yields n → n ≠ some 0 → d.Returns)
    (hwhile : ∀ predicate addLast, bound = .whileHolds predicate addLast → d.ConsumesEach)
    (c : Collector α β) : (d.repeated bound c).Returns := by
  have hgoes : ∀ target element (tally : Tally c.Container), bound.target.Reachable target →
      d.Reachable element → Counts bound tally → ∀ bytes,
      GoesWell d bound c target element tally bytes := by
    intro target element tally htarget helement hcounts bytes
    obtain ⟨hyields, hle⟩ := hcounts
    by_cases hfull : tally.isFull = true
    · exact goesWell_full htarget hfull helement bytes
    · have hreturns : d.Returns := by
        refine h tally.target hyields fun hzero => hfull ?_
        have hproduced := hle 0 hzero
        rw [Tally.isFull, hzero, Nat.le_zero.1 hproduced]
        rfl
      cases hn : tally.target with
      | some n =>
          have hsum : tally.produced + (n - tally.produced) = n := by
            have := hle n hn
            omega
          exact goesWell_counted htarget hreturns (n - tally.produced) ⟨hyields, hle⟩ hn hsum
            helement bytes
      | none =>
          obtain ⟨predicate, addLast, hbound⟩ := exists_of_yields_none (hn ▸ hyields)
          exact goesWell_uncounted htarget hreturns (hwhile predicate addLast hbound)
            ⟨hyields, hle⟩ hn helement bytes
  refine (returnsWith_of_calls (C := Going d bound c) (Q := fun _ => True) (going_none .fresh .fresh)
    (fun _ hgoing => going_none hgoing.target.reset hgoing.element.reset)
    (fun _ hgoing => ⟨hgoing.target.copied, hgoing.element.copied, hgoing.counts⟩) ?_).returns
  rintro ⟨target, element, _ | tally⟩ ⟨htarget, helement, hcounts⟩ bytes
  · refine hbound.yields.embed (d.repeated bound c) (⟨·, element, none⟩) (⟨·, element, none⟩)
      (fun _ => rfl) (fun _ htarget => going_none htarget helement)
      (fun _ hreset => going_none hreset helement.reset) htarget ?_
    intro n next rest _ hyields hnext
    refine ReturnsIn.tick (hgoes next element (.start c n) hnext helement ⟨hyields, ?_⟩ rest) []
    exact fun n _ => Nat.zero_le n
  · exact hgoes target element tally htarget helement (hcounts tally rfl) bytes

end Decoder

end Piecemeal
