/-
# Messages listed from a stream

A source that never cuts a call short is decoded step for step as the slice of all its bytes,
`Delivery.run_withSource`: with no patience there is nothing that the decoder could be suspended by
but the end.  A reader over a file is such a source, `Reader.fileDelivery`.

So what is listed from a file as it is read is what is listed from its pieces, but for one thing.
A reader that is at its end looks like one that waits, and a file that ends inside a message is
taken for one that ends in front of it:

    1 ≤ n → Listing.ofStream bytes none = (Listing.ofPieces n bytes).unnoticed

where `unnoticed` makes an end inside a message a complete one and changes nothing else.
-/
import Piecemeal.Proofs.Listings
import Piecemeal.Proofs.SourceIndependence

namespace Piecemeal

/-! ## Sources that never cut a call short -/

/-- The run leaves the source in such a state. -/
def Run.Leaves {σ ι α : Type} (P : ι → Prop) : Run σ ι α → Prop
  | .reached _ _ source => P source
  | .broken _ | .exhausted => True

theorem Ledger.HandsOut.eq_take {ι : Type} {ledger : Ledger ι} {source rest : ι} {n : Nat}
    {bytes : Bytes} (h : ledger.HandsOut source n bytes rest)
    (hpatience : ledger.patience source = 0) :
    bytes = (ledger.unread source).take n ∧ ledger.unread rest = (ledger.unread source).drop n := by
  have hle := h.length_le
  rw [h.unread_eq]
  by_cases hlt : bytes.length < n
  · have hnil : ledger.unread rest = [] := by
      by_contra hne
      have hless := h.patience_lt hlt hne
      rw [hpatience] at hless
      exact Nat.not_lt_zero _ hless
    rw [hnil, List.append_nil, List.take_of_length_le hle, List.drop_of_length_le hle]
    exact ⟨rfl, rfl⟩
  · obtain rfl : n = bytes.length := Nat.le_antisymm (Nat.not_lt.1 hlt) hle
    rw [List.take_left, List.drop_left]
    exact ⟨rfl, rfl⟩

variable {ι α : Type} [ByteSource ι]

/-- A delivery that never cuts a call short is decoded step for step as the slice of its bytes. -/
theorem Delivery.run_withSource (D : Delivery ι) (hpatience : ∀ source, D.patience source = 0)
    (d : Decoder α) (budget : Nat) (state : d.State) {source : ι} (hsource : D.InOrder source) :
    (d.run budget state source).withSource D.unread = d.run budget state (D.unread source) ∧
      (d.run budget state source).Leaves D.InOrder := by
  induction budget generalizing state source with
  | zero => exact ⟨rfl, trivial⟩
  | succ budget ih =>
      cases hs : d.step state using Step.casesRequest with
      | request step n resume hr =>
          subst hs
          obtain ⟨bytes, rest, hbytes, hrun⟩ := d.run_succ_of_handsOut D hr hsource
          obtain ⟨htake, hdrop⟩ := hbytes.eq_take (hpatience source)
          have hshort : bytes.length < n ↔ (D.unread source).length < n := by
            rw [htake, List.length_take]
            omega
          rw [hrun, Decoder.run_succ_of_request hr]
          by_cases hlt : bytes.length < n
          · have hall : D.unread source = bytes := by
              rw [htake, List.take_of_length_le (Nat.le_of_lt (hshort.1 hlt))]
            have hrest : D.unread rest = [] := by
              rw [hdrop, List.drop_of_length_le (Nat.le_of_lt (hshort.1 hlt))]
            rw [if_pos hlt, if_pos (hshort.1 hlt), hall, ← hrest]
            exact ⟨rfl, hbytes.inOrder⟩
          · rw [if_neg hlt, if_neg (mt hshort.2 hlt), ← htake, ← hdrop]
            exact ih (resume bytes) hbytes.inOrder
      | tick next events =>
          rw [Decoder.run, Decoder.run, hs]
          exact ih next hsource
      | done value next =>
          rw [Decoder.run, Decoder.run, hs]
          exact ⟨rfl, hsource⟩
      | fail error next =>
          rw [Decoder.run, Decoder.run, hs]
          exact ⟨rfl, hsource⟩
      | broken misuse =>
          rw [Decoder.run, Decoder.run, hs]
          exact ⟨rfl, trivial⟩

/-! ## Readers over a file -/

namespace Reader

/-- A reader that has still these bytes to deliver, at one call and then no more. -/
def holding (bytes : Bytes) (hasEnded : Bool) : Reader :=
  ⟨if bytes.isEmpty then [] else [.data bytes], hasEnded, none⟩

theorem content_holding (bytes : Bytes) (hasEnded : Bool) :
    content (holding bytes hasEnded).script = bytes := by
  cases bytes with
  | nil => rfl
  | cons b bytes => exact List.append_nil _

theorem fill_nil (hasEnded : Bool) (n : Nat) :
    ∃ hasEnded', fill hasEnded none [] n = ([], holding [] hasEnded') := by
  cases n with
  | zero => exact ⟨hasEnded, by rw [fill]; rfl⟩
  | succ n => exact ⟨true, rfl⟩

theorem read_holding (bytes : Bytes) (hasEnded : Bool) (n : Nat) :
    ∃ hasEnded', (holding bytes hasEnded).read n =
      (bytes.take n, holding (bytes.drop n) hasEnded') := by
  cases n with
  | zero => exact ⟨hasEnded, by rw [read, fill]; rfl⟩
  | succ n =>
      cases bytes with
      | nil => exact ⟨true, rfl⟩
      | cons b bytes =>
          show ∃ hasEnded', fill hasEnded none [.data (b :: bytes)] (n + 1) =
            (b :: bytes.take n, holding (bytes.drop n) hasEnded')
          rw [fill]
          split
          next hdrop =>
            have hle : bytes.length ≤ n := List.drop_eq_nil_iff.1 hdrop
            obtain ⟨hasEnded', hfill⟩ := fill_nil hasEnded (n - bytes.length)
            rw [hfill, List.take_of_length_le hle, hdrop]
            exact ⟨hasEnded', congrArg (·, holding [] hasEnded') (List.append_nil (b :: bytes))⟩
          next hdrop =>
            refine ⟨hasEnded, ?_⟩
            rw [holding, if_neg (by simpa using hdrop)]

/-- What the script brings comes at once. -/
def fileLedger : Ledger Reader where
  InOrder reader := ∃ bytes hasEnded, reader = holding bytes hasEnded
  unread reader := content reader.script
  between reader := reader
  patience _ := 0

theorem handsOut_holding (source : Reader) (n : Nat) (h : fileLedger.InOrder source) :
    fileLedger.HandsOut source n (source.read n).1 (source.read n).2 := by
  obtain ⟨bytes, hasEnded, rfl⟩ := h
  obtain ⟨hasEnded', hread⟩ := read_holding bytes hasEnded n
  rw [hread]
  refine ⟨⟨_, _, rfl⟩, ?_, ?_, Nat.le_refl _, ?_⟩
  · show content _ = bytes.take n ++ content _
    rw [content_holding, content_holding, List.take_append_drop]
  · exact List.length_take_le n bytes
  · intro hshort hne
    refine absurd ?_ hne
    show content _ = []
    rw [content_holding, List.drop_eq_nil_iff]
    rw [List.length_take] at hshort
    omega

def fileDelivery : Delivery Reader where
  toLedger := fileLedger
  handsOut_read := handsOut_holding
  handsOut_skip _ n h := Ledger.handsOut_skipByReading handsOut_holding h n
  inOrder_between _ h := h
  unread_between _ _ := rfl

end Reader

/-! ## Listings of a file as it is read -/

namespace Records

/-- The listing of a reader, which does not notice that the bytes end inside a message. -/
def Listing.unnoticed (listing : Listing) : Listing :=
  { listing with ending := if listing.ending = .truncated then .complete else listing.ending }

theorem exists_run_file {bytes rest : Bytes} {outcome : Outcome (List Record)}
    (h : decoder.Answers bytes outcome rest) {budget : Nat}
    (hbudget : 10 * (bytes.length + 1) ≤ budget) {reader : Reader}
    (hreader : Reader.fileLedger.InOrder reader)
    (hunread : Reader.fileLedger.unread reader = bytes) :
    ∃ next source, decoder.run budget decoder.start reader = .reached outcome next source ∧
      Reader.fileLedger.InOrder source ∧ Reader.fileLedger.unread source = rest := by
  obtain ⟨last, hlast⟩ := h
  have hends : decoder.Ends decoder.start bytes (decoder.run budget decoder.start bytes) :=
    ⟨promptFrom_start.run_ne_exhausted hbudget, budget, rfl⟩
  obtain ⟨hsame, hleaves⟩ := Reader.fileDelivery.run_withSource (fun _ => rfl) decoder budget
    decoder.start hreader
  have hslice : (decoder.run budget decoder.start reader).withSource Reader.fileLedger.unread =
      .reached outcome last rest := by
    rw [← hends.unique hlast, ← hunread]
    exact hsame
  generalize decoder.run budget decoder.start reader = run at hslice hleaves
  cases run with
  | reached _ _ source =>
      cases hslice
      exact ⟨_, source, rfl, hleaves, rfl⟩
  | broken misuse => cases hslice
  | exhausted => cases hslice

theorem failure_eq_none {reader : Reader} (h : Reader.fileLedger.InOrder reader) :
    reader.failure = none := by
  obtain ⟨bytes, hasEnded, rfl⟩ := h
  rfl

theorem read_of_pending {bytes : Bytes} (h : decoder.Answers bytes .pending []) {budget : Nat}
    (hbudget : 10 * (bytes.length + 1) ≤ budget) {reader : Reader}
    (hreader : Reader.fileLedger.InOrder reader) (hunread : Reader.fileLedger.unread reader = bytes)
    (calls : Nat) : .read budget decoder.start reader (calls + 1) = Listing.ends .complete := by
  obtain ⟨next, source, hrun, hsource, -⟩ := exists_run_file h hbudget hreader hunread
  rw [Listing.read, hrun]
  dsimp only
  rw [failure_eq_none hsource]

/-- A file is listed as it is read as from its bytes, but for an end inside a message. -/
theorem Lists.read_eq {bytes : Bytes} {listing : Listing} (h : Lists bytes listing)
    {budget calls : Nat} {reader : Reader} (hreader : Reader.fileLedger.InOrder reader)
    (hunread : Reader.fileLedger.unread reader = bytes) (hcalls : bytes.length < calls)
    (hbudget : 10 * (bytes.length + 1) ≤ budget) :
    .read budget decoder.start reader calls = listing.unnoticed := by
  induction h generalizing calls reader with
  | tail htail =>
      obtain ⟨calls, rfl⟩ : ∃ k, calls = k + 1 := ⟨calls - 1, by omega⟩
      cases htail with
      | complete => exact read_of_pending answers_nil hbudget hreader hunread calls
      | truncated _ hpending => exact read_of_pending hpending hbudget hreader hunread calls
      | malformed hfailed =>
          obtain ⟨next, source, hrun, -⟩ := exists_run_file hfailed hbudget hreader hunread
          rw [Listing.read, hrun]
          rfl
  | @message bytes rest records listing hanswers _ ih =>
      obtain ⟨calls, rfl⟩ : ∃ k, calls = k + 1 := ⟨calls - 1, by omega⟩
      obtain ⟨next, source, hrun, hsource, hrest⟩ :=
        exists_run_file hanswers hbudget hreader hunread
      have hrenews := standard.renews.run budget reader
      rw [hrun] at hrenews
      obtain rfl : next = decoder.start := hrenews
      have hlt : rest.length < bytes.length := length_lt_of_answers answers_nil hanswers
      rw [Listing.read, hrun]
      exact congrArg (Listing.cons records) (ih hsource hrest (by omega) (by omega))

theorem ofStream_eq {n : Nat} (hn : 1 ≤ n) (bytes : Bytes) :
    Listing.ofStream bytes none = (Listing.ofPieces n bytes).unnoticed := by
  have hreader : Listing.ofStream bytes none =
      .read (budget bytes.length) decoder.start (.holding bytes false) (bytes.length + 1) := by
    simp [Listing.ofStream, Reader.ofScript, Reader.holding]
  rw [hreader]
  exact (lists_ofPieces hn bytes).read_eq ⟨bytes, false, rfl⟩ (Reader.content_holding bytes false)
    (Nat.lt_succ_self _) (by rw [budget]; omega)

/-! ## The property -/

/-- As a file is read, the tool lists the same messages as from pieces, and fails with the same
words if the rest is malformed.  But a file that ends inside a message it takes for one that ends in
front of it, and succeeds, where it fails on pieces. -/
theorem listed_from_stream {bytes rest : Bytes} {messages : List (List Record)}
    (h : Parts bytes messages rest) {n : Nat} (hn : 1 ≤ n) (file file' : Option String) :
    let streamed := report ⟨none, false, file⟩ ⟨bytes, none⟩
    let fed := report ⟨some n, false, file'⟩ ⟨bytes, none⟩
    let k := messages.length
    streamed.output = fed.output ∧
      (streamed = fed ↔ ¬(rest ≠ [] ∧ decoder.Answers rest .pending [])) ∧
      (rest ≠ [] ∧ decoder.Answers rest .pending [] →
        streamed = { fed with notice := s!"decoded {k} message(s)\n", succeeded := true } ∧
        fed.notice = "Error: " ++ s!"input ends inside message {k}" ++ "\n" ∧
        fed.succeeded = false) := by
  intro streamed fed k
  have hstreamed : streamed = .ofListing (.unnoticed (.ofPieces n bytes)) :=
    congrArg Report.ofListing (ofStream_eq hn bytes)
  have hfed : fed = .ofListing (.ofPieces n bytes) := rfl
  obtain ⟨rest', hparts, htail⟩ := (lists_ofPieces hn bytes).exists_parts
  obtain ⟨hmessages, rfl⟩ := hparts.unique h
  clear_value streamed fed
  generalize Listing.ofPieces n bytes = listing at hstreamed hfed htail hmessages
  obtain ⟨messages, ending⟩ := listing
  subst hstreamed hfed hmessages
  cases htail with
  | complete => exact ⟨rfl, iff_of_true rfl fun h => h.1 rfl, fun h => absurd rfl h.1⟩
  | truncated hne hpending =>
      refine ⟨rfl, iff_of_false ?_ (not_not_intro ⟨hne, hpending⟩), fun _ => ⟨rfl, rfl, rfl⟩⟩
      intro heq
      cases congrArg Report.succeeded heq
  | malformed hfailed =>
      have hcut : ¬(rest' ≠ [] ∧ decoder.Answers rest' .pending []) := by
        rintro ⟨-, hpending⟩
        cases (hfailed.unique hpending).1
      exact ⟨rfl, iff_of_true rfl hcut, fun h => absurd h hcut⟩

/-- A message without records, and one that is cut off in its count. -/
theorem listed_from_stream_cut :
    Parts [0, 0, 0, 0, 0, 0] [[]] [0, 0] ∧ decoder.Answers [0, 0] .pending [] ∧
      report ⟨none, false, none⟩ ⟨[0, 0, 0, 0, 0, 0], none⟩ =
        ⟨"message 0 (0 records)\n", "decoded 1 message(s)\n", true⟩ ∧
      (report ⟨some 2, false, none⟩ ⟨[0, 0, 0, 0, 0, 0], none⟩).notice =
        "Error: input ends inside message 1\n" := by
  have hparts : Parts [0, 0, 0, 0, 0, 0] [[]] [0, 0] := by
    refine ⟨rfl, ?_, ?_⟩
    · intro records hrecords
      obtain rfl := List.mem_singleton.1 hrecords
      exact ⟨by decide, fun _ h => nomatch h⟩
    · intro records _ hpre
      exact absurd (Nat.le_trans (four_le_length_encode records) hpre.length_le) (by decide)
  have hpending : decoder.Answers [0, 0] .pending [] := ⟨_, by simp, 1, rfl⟩
  obtain ⟨-, -, hcut⟩ := listed_from_stream hparts (by decide : 1 ≤ 2) none none
  obtain ⟨-, hnotice, -⟩ := hcut ⟨by decide, hpending⟩
  exact ⟨hparts, hpending, rfl, hnotice⟩

/-- So the two ways do not always agree: the file of one byte ends inside a message. -/
theorem stream_succeeds_inside_message :
    ¬∀ (bytes : Bytes) (n : Nat), 1 ≤ n → ∀ file,
      let streamed := report ⟨none, false, file⟩ ⟨bytes, none⟩
      let fed := report ⟨some n, false, file⟩ ⟨bytes, none⟩
      streamed.output = fed.output ∧ streamed.succeeded = fed.succeeded := by
  intro h
  have hfed : Listing.ofPieces 1 [0] = .ends .truncated := by
    have hpieces : Listing.pieces 1 [0] = [[0]] := by simp [Listing.pieces]
    rw [Listing.ofPieces, hpieces]
    rfl
  have hsame : true = (Report.ofListing (.ofPieces 1 [0])).succeeded :=
    (h [0] 1 (Nat.le_refl 1) none).2
  rw [hfed] at hsame
  cases hsame

end Records

end Piecemeal
