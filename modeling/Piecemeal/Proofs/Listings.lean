/-
# Messages listed from pieces

A byte string begins with some messages, as many as there are, and what is left then is empty, the
beginning of a further message, or malformed.  `Lists bytes listing` says so along the messages,
with nothing about pieces in it:

    Tail bytes ending                                     → Lists bytes (.ends ending)
    decoder.Answers bytes (.done records) rest → Lists rest listing
                                                          → Lists bytes (listing.cons records)

However the string is cut into pieces, this is what is listed, `lists_ofPieces`:

    1 ≤ n → Lists bytes (.ofPieces n bytes)

Between two pieces the decoder stands behind the bytes of the message that it is in, `Stands`: a
call on the next piece answers what a new decoder answers to these bytes and the piece.
`Stands.call` is the step, for one call, and `Stands.lists_feed` the run, by induction on the
calls.  Two things have to be known for it.  A call ends within the budget, because the decoder is
prompt; and there are calls enough, because each message takes some bytes, and completes behind the
bytes of the calls before, `length_lt_of_answers`.

At last the listing is the only one there is: messages tell where they end, `encode_append_inj`, so
a byte string parts into messages and a rest in one way, `Parts.unique`.
-/
import Piecemeal.Proofs.Freshness
import Piecemeal.Proofs.Promptness
import Piecemeal.Proofs.RecordLists
import Piecemeal.Records.CommandLine

namespace Piecemeal

theorem Decoder.Answers.append {α : Type} {d : Decoder α} {bytes rest : Bytes} {outcome : Outcome α}
    (h : d.Answers bytes outcome rest) (houtcome : outcome.isPending = false) (more : Bytes) :
    d.Answers (bytes ++ more) outcome (rest ++ more) := by
  obtain ⟨last, hlast⟩ := h
  exact ⟨last, hlast.append houtcome more⟩

namespace Records

/-! ## The decoder -/

theorem of_uses {P : ∀ {α : Type}, Decoder α → Prop} (hname : P name)
    (hbyte : P (Decoder.number UInt8 .big))
    (hcount : P ((Decoder.number UInt32 .big).tryMap toLength)) {α : Type} {d : Decoder α}
    (h : recipe.Uses d) : P d := by
  cases h with
  | repetition => exact hcount
  | inRepetition h =>
    cases h with
    | beforeAct h =>
      cases h with
      | decode => exact hbyte
      | beforeAct h =>
        cases h with
        | decode => exact hbyte
        | beforeAct h =>
          cases h with
          | decode => exact hname
          | beforeAct h =>
            cases h with
            | first => exact hname

theorem standard : decoder.Standard :=
  .composed recipe_accepted rfl fun _ => of_uses
    (.utf8 (.prefixed (.number UInt8 .big) none)) (.number UInt8 .big)
    (.tryMap toLength (.number UInt32 .big))

theorem prompt_name : name.Prompt 1 :=
  (((Decoder.prompt_number UInt8 .big).tryMap _).andThen Decoder.prompt_bytes).tryMap _

theorem cycle : program.Cycle 1 where
  size := by decide
  scope := by
    rintro ⟨_ | _ | _ | _ | _ | _ | i, hi⟩ scope h
    · cases h
      exact ⟨rfl, _, _, _, _, rfl⟩
    · cases h
    · cases h
    · cases h
    · cases h
    · cases h
    · exact absurd hi (Nat.not_lt.2 (Nat.le_add_left 6 i))
  asks := by
    rintro ⟨_ | _ | _ | _ | _ | _ | i, hi⟩ hpos hlast values flight values' h
    · exact absurd hpos (Nat.lt_irrefl 0)
    · cases h
      exact ⟨1, _, rfl, Nat.one_pos⟩
    · cases h
      exact ⟨1, _, rfl, Nat.one_pos⟩
    · cases h
      exact ⟨1, _, rfl, Nat.one_pos⟩
    · cases h
      exact ⟨1, _, rfl, Nat.one_pos⟩
    · exact absurd rfl hlast
    · exact absurd hi (Nat.not_lt.2 (Nat.le_add_left 6 i))
  yields := by
    rintro ⟨i, hi⟩ hlast flight
    obtain rfl : i = 5 := Nat.succ.inj hlast
    exact ⟨_, _, rfl⟩
  prompt index := by
    have hskip : ∀ n, (Decoder.skipBytes n).Prompt 1 :=
      fun n => (Decoder.prompt_skipBytes n).mono (Nat.zero_le 1)
    have hunit : (Decoder.constant ()).Prompt 1 :=
      (Decoder.prompt_constant ()).mono (Nat.zero_le 1)
    have hbyte : (Decoder.number UInt8 .big).Prompt 1 :=
      (Decoder.prompt_number UInt8 .big).mono (Nat.zero_le 1)
    have hcount : ((Decoder.number UInt32 .big).tryMap toLength).Prompt 1 :=
      ((Decoder.prompt_number UInt32 .big).mono (Nat.zero_le 1)).tryMap toLength
    refine Recipe.all_of_uses hskip hunit (fun d => ?_) 0 _
      (Recipe.stage_mem_stages (r := recipe) rfl index)
    exact of_uses (P := Decoder.Prompt 1) prompt_name hbyte hcount

theorem promptFrom_start : decoder.PromptFrom 9 decoder.start := cycle.promptFrom

/-! ## Answers -/

theorem exists_answers (bytes : Bytes) : ∃ outcome rest, decoder.Answers bytes outcome rest := by
  rcases encoded_or_cut_or_faulty bytes with ⟨records, rest, h, rfl⟩ | hcut | ⟨name, rest, hfaulty⟩
  · exact ⟨_, _, answers_encode h rest⟩
  · exact ⟨_, _, hcut.answers⟩
  · exact ⟨_, _, hfaulty.answers⟩

theorem eq_encode_of_answers {bytes rest : Bytes} {records : List Record}
    (h : decoder.Answers bytes (.done records) rest) :
    Bounded (records.map RawRecord.ofRecord) ∧ bytes = encode records ++ rest := by
  rcases encoded_or_cut_or_faulty bytes with
    ⟨records', rest', h', rfl⟩ | hcut | ⟨name, rest', hfaulty⟩
  · obtain ⟨houtcome, rfl⟩ := h.unique (answers_encode h' rest')
    cases houtcome
    exact ⟨h', rfl⟩
  · cases (h.unique hcut.answers).1
  · cases (h.unique hfaulty.answers).1

theorem four_le_length_encode (records : List Record) : 4 ≤ (encode records).length := by
  rw [encode, List.length_append, Bytes.length_ofNat]
  exact Nat.le_add_right ..

theorem answers_nil : decoder.Answers [] .pending [] := ⟨_, by simp, 1, rfl⟩

/-- The message that a call completes ends behind the bytes of the calls before. -/
theorem length_lt_of_answers {before piece rest : Bytes} {records : List Record}
    (hbefore : decoder.Answers before .pending [])
    (h : decoder.Answers (before ++ piece) (.done records) rest) : rest.length < piece.length := by
  obtain ⟨hbounded, hbytes⟩ := eq_encode_of_answers h
  rw [← Nat.not_le]
  intro hle
  have hpre : encode records <+: before := by
    refine List.prefix_of_prefix_length_le (List.prefix_append _ rest)
      (hbytes ▸ List.prefix_append before piece) ?_
    have hlength := congrArg List.length hbytes
    rw [List.length_append, List.length_append] at hlength
    omega
  obtain ⟨more, rfl⟩ := hpre
  cases (hbefore.unique (answers_encode hbounded more)).1

/-! ## One call -/

/-- The decoder has been given these bytes and stands inside a message, or in front of one. -/
structure Stands (bytes : Bytes) (state : decoder.State) : Prop where
  pending : decoder.Answers bytes .pending []
  ends_iff : ∀ more run,
    decoder.Ends state more run ↔ decoder.Ends decoder.start (bytes ++ more) run
  midway : decoder.Midway state
  prompt : decoder.PromptFrom 9 state

theorem stands_start : Stands [] decoder.start where
  pending := answers_nil
  ends_iff _ _ := Iff.rfl
  midway := standard.renews
  prompt := promptFrom_start

/-- How a call on a piece ends behind these bytes: it answers as a new decoder does to both. -/
inductive Call (bytes piece : Bytes) : Run decoder.State Bytes (List Record) → Prop
  | done {records : List Record} {rest : Bytes} :
      decoder.Answers (bytes ++ piece) (.done records) rest →
      Call bytes piece (.reached (.done records) decoder.start rest)
  | pending {next : decoder.State} :
      Stands (bytes ++ piece) next → Call bytes piece (.reached .pending next [])
  | failed {error : DecodeError} {next : decoder.State} {rest : Bytes} :
      decoder.Answers (bytes ++ piece) (.failed error) rest →
      Call bytes piece (.reached (.failed error) next rest)

theorem Stands.call {bytes piece : Bytes} {state : decoder.State} (h : Stands bytes state)
    {budget : Nat} (hbudget : 10 * (piece.length + 1) ≤ budget) :
    Call bytes piece (decoder.run budget state piece) := by
  have hends : decoder.Ends state piece (decoder.run budget state piece) :=
    ⟨h.prompt.run_ne_exhausted hbudget, budget, rfl⟩
  have hrenews := h.midway.run budget piece
  have hprompt := h.prompt.ends hends
  obtain ⟨outcome, rest, last, hlast⟩ := exists_answers (bytes ++ piece)
  have hrun := ((h.ends_iff piece _).1 hends).unique hlast
  rw [hrun] at hends hrenews hprompt ⊢
  cases outcome with
  | done records =>
      obtain rfl : last = decoder.start := hrenews
      exact .done ⟨_, hlast⟩
  | pending =>
      obtain rfl := hlast.rest_eq_nil
      exact .pending ⟨⟨_, hlast⟩, standard.splits.ends_of_pending hlast, hrenews, hprompt⟩
  | failed error => exact .failed ⟨_, hlast⟩

/-! ## What is listed -/

/-- What is left when no message is complete any more, and how a stream ends with it. -/
inductive Tail : Bytes → Ending → Prop
  | complete : Tail [] .complete
  | truncated {bytes : Bytes} :
      bytes ≠ [] → decoder.Answers bytes .pending [] → Tail bytes .truncated
  | malformed {bytes rest : Bytes} {error : DecodeError} :
      decoder.Answers bytes (.failed error) rest → Tail bytes (.malformed error)

/-- The listing of a byte string: its messages, and what is left. -/
inductive Lists : Bytes → Listing → Prop
  | tail {bytes : Bytes} {ending : Ending} : Tail bytes ending → Lists bytes (.ends ending)
  | message {bytes rest : Bytes} {records : List Record} {listing : Listing} :
      decoder.Answers bytes (.done records) rest → Lists rest listing →
      Lists bytes (listing.cons records)

theorem tail_of_pending {bytes : Bytes} (h : decoder.Answers bytes .pending []) :
    Tail bytes (if !bytes.isEmpty then .truncated else .complete) := by
  cases bytes with
  | nil => exact .complete
  | cons b bytes => exact .truncated (List.cons_ne_nil b bytes) h

/-- The pieces behind a message: what is left of the one in which it ends comes first. -/
theorem flatten_left (rest : Bytes) (pieces : List Bytes) :
    (if rest.isEmpty then pieces else rest :: pieces).flatten = rest ++ pieces.flatten := by
  cases rest <;> rfl

theorem ne_nil_left {rest : Bytes} {pieces : List Bytes} (h : ∀ piece ∈ pieces, piece ≠ []) :
    ∀ piece ∈ (if rest.isEmpty then pieces else rest :: pieces), piece ≠ [] := by
  cases rest with
  | nil => exact h
  | cons b rest => exact List.forall_mem_cons.2 ⟨List.cons_ne_nil b rest, h⟩

/-- What is listed from pieces is the listing of all bytes, wherever the decoder stands. -/
theorem Stands.lists_feed {before : Bytes} {state : decoder.State} (h : Stands before state)
    {budget calls : Nat} {inside : Bool} {pieces : List Bytes} (hinside : inside = !before.isEmpty)
    (hpieces : ∀ piece ∈ pieces, piece ≠ []) (hcalls : pieces.flatten.length ≤ calls)
    (hbudget : 10 * (pieces.flatten.length + 1) ≤ budget) :
    Lists (before ++ pieces.flatten) (.feed budget state inside pieces calls) := by
  -- the steps that all bytes are worth are enough for the first piece
  have hcall : ∀ {before state piece run} {pieces : List Bytes}, Stands before state →
      10 * ((piece :: pieces).flatten.length + 1) ≤ budget →
      decoder.run budget state piece = run → Call before piece run := by
    rintro before state piece run pieces h hbudget rfl
    refine h.call (Nat.le_trans (Nat.mul_le_mul_left 10 ?_) hbudget)
    rw [List.flatten_cons, List.length_append]
    omega
  fun_induction Listing.feed budget state inside pieces calls generalizing before with
  | case1 calls state inside =>
      rw [List.flatten_nil, List.append_nil, hinside]
      exact .tail (tail_of_pending h.pending)
  | case2 state inside piece pieces =>
      have hpiece := hpieces piece List.mem_cons_self
      rw [List.flatten_cons, List.length_append] at hcalls
      exact absurd (List.eq_nil_of_length_eq_zero (by omega)) hpiece
  | @case3 state inside piece pieces calls records next rest hrun left ih =>
      cases hcall h hbudget hrun with
      | done hanswers =>
          have hflatten : left.flatten = rest ++ pieces.flatten := flatten_left rest pieces
          have hlt := length_lt_of_answers h.pending hanswers
          rw [List.flatten_cons, List.length_append] at hcalls hbudget
          have hrest := ih stands_start rfl (ne_nil_left (List.forall_mem_cons.1 hpieces).2)
            (by rw [hflatten, List.length_append]; omega)
            (by rw [hflatten, List.length_append]; omega)
          rw [List.nil_append, hflatten] at hrest
          rw [List.flatten_cons, ← List.append_assoc]
          exact .message (hanswers.append rfl pieces.flatten) hrest
  | case4 state inside piece pieces calls next rest hrun ih =>
      cases hcall h hbudget hrun with
      | pending hnext =>
          obtain ⟨hpiece, hpieces⟩ := List.forall_mem_cons.1 hpieces
          have hlength : 0 < piece.length := List.length_pos_iff.2 hpiece
          rw [List.flatten_cons, List.length_append] at hcalls hbudget
          have hinside' : true = !(before ++ piece).isEmpty := by simp [hpiece]
          have hrest := ih hnext hinside' hpieces (by omega) (by omega)
          rwa [List.append_assoc] at hrest
  | case5 state inside piece pieces calls error next rest hrun =>
      cases hcall h hbudget hrun with
      | failed hanswers =>
          rw [List.flatten_cons, ← List.append_assoc]
          exact .tail (.malformed (hanswers.append rfl pieces.flatten))
  | case6 state inside piece pieces calls misuse hrun => cases hcall h hbudget hrun
  | case7 state inside piece pieces calls hrun => cases hcall h hbudget hrun

theorem flatten_pieces {n : Nat} (hn : 1 ≤ n) (bytes : Bytes) :
    (Listing.pieces n bytes).flatten = bytes := by
  fun_induction Listing.pieces n bytes with
  | case1 bytes h => exact (h.resolve_left (by omega)).symm
  | case2 bytes h ih => rw [List.flatten_cons, ih, List.take_append_drop]

theorem ne_nil_of_mem_pieces {n : Nat} {bytes piece : Bytes} (h : piece ∈ Listing.pieces n bytes) :
    piece ≠ [] := by
  fun_induction Listing.pieces n bytes with
  | case1 => cases h
  | case2 bytes hcut ih =>
      rcases List.mem_cons.1 h with rfl | h
      · simpa [List.take_eq_nil_iff] using hcut
      · exact ih h

theorem lists_ofPieces {n : Nat} (hn : 1 ≤ n) (bytes : Bytes) :
    Lists bytes (.ofPieces n bytes) := by
  have hflatten := flatten_pieces hn bytes
  have hlists : Lists ([] ++ (Listing.pieces n bytes).flatten) (.ofPieces n bytes) :=
    stands_start.lists_feed rfl (fun _ => ne_nil_of_mem_pieces) (by rw [hflatten]; omega)
      (by rw [hflatten, budget]; omega)
  rwa [List.nil_append, hflatten] at hlists

/-! ## Messages and rest -/

/-- The bytes are these messages one after another, and a rest that begins with no message. -/
structure Parts (bytes : Bytes) (messages : List (List Record)) (rest : Bytes) : Prop where
  eq : bytes = messages.flatMap encode ++ rest
  bounded : ∀ records ∈ messages, Bounded (records.map RawRecord.ofRecord)
  maximal : ∀ records, Bounded (records.map RawRecord.ofRecord) → ¬encode records <+: rest

theorem encode_append_inj {records records' : List Record} {rest rest' : Bytes}
    (h : Bounded (records.map RawRecord.ofRecord)) (h' : Bounded (records'.map RawRecord.ofRecord))
    (heq : encode records ++ rest = encode records' ++ rest') :
    records = records' ∧ rest = rest' := by
  have hanswers := answers_encode h rest
  rw [heq] at hanswers
  obtain ⟨houtcome, rfl⟩ := hanswers.unique (answers_encode h' rest')
  cases houtcome
  exact ⟨rfl, rfl⟩

theorem Parts.tail {records : List Record} {messages : List (List Record)} {bytes rest : Bytes}
    (h : Parts bytes (records :: messages) rest) :
    Bounded (records.map RawRecord.ofRecord) ∧
      ∃ bytes', bytes = encode records ++ bytes' ∧ Parts bytes' messages rest := by
  obtain ⟨hrecords, hall⟩ := List.forall_mem_cons.1 h.bounded
  refine ⟨hrecords, messages.flatMap encode ++ rest, ?_, rfl, hall, h.maximal⟩
  rw [h.eq, List.flatMap_cons, List.append_assoc]

theorem Parts.unique {bytes rest rest' : Bytes} {messages messages' : List (List Record)}
    (h : Parts bytes messages rest) (h' : Parts bytes messages' rest') :
    messages = messages' ∧ rest = rest' := by
  induction messages generalizing bytes messages' with
  | nil =>
      obtain rfl : bytes = rest := h.eq
      cases messages' with
      | nil => exact ⟨rfl, h'.eq⟩
      | cons records' messages' =>
          obtain ⟨hrecords', bytes', rfl, -⟩ := h'.tail
          exact absurd (List.prefix_append _ bytes') (h.maximal records' hrecords')
  | cons records messages ih =>
      obtain ⟨hrecords, bytes₁, rfl, htail⟩ := h.tail
      cases messages' with
      | nil =>
          obtain rfl : encode records ++ bytes₁ = rest' := h'.eq
          exact absurd (List.prefix_append _ bytes₁) (h'.maximal records hrecords)
      | cons records' messages' =>
          obtain ⟨hrecords', bytes₂, heq, htail'⟩ := h'.tail
          obtain ⟨rfl, rfl⟩ := encode_append_inj hrecords hrecords' heq
          obtain ⟨rfl, rfl⟩ := ih htail htail'
          exact ⟨rfl, rfl⟩

theorem Tail.not_prefix {bytes : Bytes} {ending : Ending} (h : Tail bytes ending)
    {records : List Record} (hrecords : Bounded (records.map RawRecord.ofRecord)) :
    ¬encode records <+: bytes := by
  rintro ⟨rest, rfl⟩
  have hanswers := answers_encode hrecords rest
  generalize hbytes : encode records ++ rest = bytes at h hanswers
  cases h with
  | complete =>
      have hlength := four_le_length_encode records
      rw [(List.append_eq_nil_iff.1 hbytes).1] at hlength
      exact absurd hlength (by decide)
  | truncated hne hpending => cases (hanswers.unique hpending).1
  | malformed hfailed => cases (hanswers.unique hfailed).1

theorem Lists.exists_parts {bytes : Bytes} {listing : Listing} (h : Lists bytes listing) :
    ∃ rest, Parts bytes listing.messages rest ∧ Tail rest listing.ending := by
  induction h with
  | @tail bytes ending htail =>
      exact ⟨bytes, ⟨rfl, fun _ h => (nomatch h), fun _ h => htail.not_prefix h⟩, htail⟩
  | @message bytes rest records listing hanswers _ ih =>
      obtain ⟨hrecords, rfl⟩ := eq_encode_of_answers hanswers
      obtain ⟨last, ⟨heq, hall, hmaximal⟩, htail⟩ := ih
      refine ⟨last, ⟨?_, List.forall_mem_cons.2 ⟨hrecords, hall⟩, hmaximal⟩, htail⟩
      rw [heq, Listing.cons, List.flatMap_cons, List.append_assoc]

theorem Tail.unique {bytes : Bytes} {ending ending' : Ending} (h : Tail bytes ending)
    (h' : Tail bytes ending') : ending = ending' := by
  cases h with
  | complete =>
      cases h' with
      | complete => rfl
      | truncated hne _ => exact absurd rfl hne
      | malformed hfailed => cases (answers_nil.unique hfailed).1
  | truncated hne hpending =>
      cases h' with
      | complete => exact absurd rfl hne
      | truncated => rfl
      | malformed hfailed => cases (hpending.unique hfailed).1
  | malformed hfailed =>
      cases h' with
      | complete => cases (answers_nil.unique hfailed).1
      | truncated _ hpending => cases (hpending.unique hfailed).1
      | malformed hfailed' => cases (hfailed.unique hfailed').1; rfl

theorem Report.ofListing_of_ending {listing : Listing} {ending : Ending}
    (h : listing.ending = ending) : ofListing listing = ofListing ⟨listing.messages, ending⟩ := by
  subst h
  rfl

/-! ## The property -/

/-- Fed so many bytes at a time, the tool lists as many messages as the bytes begin with, in order,
and counts them if nothing is left.  Otherwise it says what is wrong with the rest: the error that a
new decoder answers to it, or that it ends inside a message.  How many bytes it is fed at a time
does not matter. -/
theorem listed_in_pieces (bytes : Bytes) :
    ∃ messages rest, Parts bytes messages rest ∧
      (∀ messages' rest', Parts bytes messages' rest' → messages' = messages ∧ rest' = rest) ∧
      (rest = [] ∨ (∃ error left, decoder.Answers rest (.failed error) left) ∨
        rest ≠ [] ∧ decoder.Answers rest .pending []) ∧
      ∀ n, 1 ≤ n → ∀ file,
        let report := report ⟨some n, false, file⟩ ⟨bytes, none⟩
        let output :=
          String.join (messages.zipIdx.map fun (records, index) => message index records)
        let k := messages.length
        (rest = [] → report = ⟨output, s!"decoded {k} message(s)\n", true⟩) ∧
        (∀ error left, decoder.Answers rest (.failed error) left →
          report = ⟨output, "Error: " ++ s!"message {k}: {error.message}" ++ "\n", false⟩) ∧
        (rest ≠ [] → decoder.Answers rest .pending [] →
          report = ⟨output, "Error: " ++ s!"input ends inside message {k}" ++ "\n", false⟩) := by
  obtain ⟨rest, hparts, htail⟩ := (lists_ofPieces (Nat.le_refl 1) bytes).exists_parts
  refine ⟨_, rest, hparts, fun _ _ h => h.unique hparts, ?_, ?_⟩
  · generalize (Listing.ofPieces 1 bytes).ending = ending at htail
    cases htail with
    | complete => exact .inl rfl
    | malformed h => exact .inr (.inl ⟨_, _, h⟩)
    | truncated hne h => exact .inr (.inr ⟨hne, h⟩)
  · intro n hn file
    obtain ⟨rest', hparts', htail'⟩ := (lists_ofPieces hn bytes).exists_parts
    obtain ⟨hmessages, rfl⟩ := hparts'.unique hparts
    rw [← hmessages]
    refine ⟨?_, ?_, ?_⟩
    · rintro rfl
      exact Report.ofListing_of_ending (htail'.unique .complete)
    · intro error left h
      exact Report.ofListing_of_ending (htail'.unique (.malformed h))
    · intro hne h
      exact Report.ofListing_of_ending (htail'.unique (.truncated hne h))

/-- A message of one record, an empty one and the first byte of a third, three bytes at a time. -/
theorem listed_in_pieces_of_three :
    decoder.Answers [0] .pending [] ∧
      report ⟨some 3, false, none⟩ ⟨[0, 0, 0, 1, 1, 65, 0, 30, 180, 0, 0, 0, 0, 0], none⟩ =
        ⟨"message 0 (1 records)\n  A , age 30, height 180\nmessage 1 (0 records)\n",
          "Error: input ends inside message 2\n", false⟩ := by
  obtain ⟨messages, rest, -, hunique, -, hreport⟩ :=
    listed_in_pieces [0, 0, 0, 1, 1, 65, 0, 30, 180, 0, 0, 0, 0, 0]
  have hparts : Parts [0, 0, 0, 1, 1, 65, 0, 30, 180, 0, 0, 0, 0, 0] [[⟨"A", "", 30, 180⟩], []]
      [0] := by
    refine ⟨rfl, ?_, ?_⟩
    · simp only [List.forall_mem_cons, Bounded, List.map_cons, List.map_nil, List.not_mem_nil,
        false_implies, implies_true, and_true]
      exact ⟨⟨by decide, by decide, by decide⟩, by decide⟩
    · intro records _ hpre
      exact absurd (Nat.le_trans (four_le_length_encode records) hpre.length_le) (by decide)
  obtain ⟨rfl, rfl⟩ := hunique _ _ hparts
  have hpending : decoder.Answers [0] .pending [] := ⟨_, by simp, 1, rfl⟩
  exact ⟨hpending, (hreport 3 (by decide) none).2.2 (by decide) hpending⟩

end Records

end Piecemeal
