/-
# Sources as deliveries

A source gives fewer bytes than it is asked for when it has no more of them at hand.  It may still
have more to come: pieces that have not arrived, bytes behind a cap, events further on in the
script of a stream.

A `Ledger` keeps account of that.  It says which bytes a source has still to deliver, `unread`,
what happens to it `between` two calls of a decoder, and how often it may still cut a call short,
its `patience`.  A `Delivery` is a source whose ledger is a true one: a request of `n` bytes that
is given `bytes` and leads from `source` to `rest` has

    unread source = bytes ++ unread rest
    bytes.length ≤ n
    bytes.length < n → unread rest ≠ [] → patience (between rest) < patience source

and a skip is a request whose bytes are not seen, `HandsOut`.  So a decoder that is called again
and again is called with less patience each time, and in the end it is given all it asks for, or
all there is.

The sources of the library are deliveries:

  * `Growing.delivery`, a buffer that more pieces are appended to: patience is the pieces to come;
  * `Capped.delivery`, any source of which only so many bytes are given at once: a read that is cut
    short has taken a whole portion, so patience is used up with the unread bytes;
  * `Reader.delivery`, a reader with a script of events: patience is the events to come, and what
    stops a read is one of them, `Reads.length_rest_lt`.
-/
import Piecemeal.Proofs.StreamCalls

namespace Piecemeal

/-- What is to be said of sources beyond the bytes of one read. -/
structure Ledger (ι : Type) where
  /-- The sources that the ledger speaks of. -/
  InOrder : ι → Prop
  /-- The bytes that have still to be delivered. -/
  unread : ι → Bytes
  /-- What happens to a source between two calls. -/
  between : ι → ι
  /-- How many more calls the source may cut short. -/
  patience : ι → Nat

/-- The source is asked for `n` bytes, hands out these and becomes `rest`. -/
structure Ledger.HandsOut {ι : Type} (ledger : Ledger ι) (source : ι) (n : Nat) (bytes : Bytes)
    (rest : ι) : Prop where
  inOrder : ledger.InOrder rest
  unread_eq : ledger.unread source = bytes ++ ledger.unread rest
  length_le : bytes.length ≤ n
  patience_le : ledger.patience rest ≤ ledger.patience source
  patience_lt : bytes.length < n → ledger.unread rest ≠ [] →
    ledger.patience (ledger.between rest) < ledger.patience source

/-- A ledger that is true to its sources. -/
structure Delivery (ι : Type) [ByteSource ι] extends Ledger ι where
  handsOut_read : ∀ source n, InOrder source →
    toLedger.HandsOut source n (ByteSource.read source n).1 (ByteSource.read source n).2
  handsOut_skip : ∀ source n, InOrder source →
    ∃ bytes, bytes.length = (ByteSource.skip source n).1 ∧
      toLedger.HandsOut source n bytes (ByteSource.skip source n).2
  inOrder_between : ∀ source, InOrder source → InOrder (between source)
  unread_between : ∀ source, InOrder source → unread (between source) = unread source

namespace Ledger

variable {ι : Type} {ledger : Ledger ι}

theorem handsOut_none {source : ι} (h : ledger.InOrder source) :
    ledger.HandsOut source 0 [] source where
  inOrder := h
  unread_eq := rfl
  length_le := Nat.le_refl 0
  patience_le := Nat.le_refl _
  patience_lt hlt _ := absurd hlt (Nat.lt_irrefl 0)

/-- One request is made in two, the second for what the first has left open. -/
theorem HandsOut.trans {source middle rest : ι} {k n : Nat} {xs ys : Bytes}
    (h : ledger.HandsOut source k xs middle) (hle : xs.length ≤ n)
    (h' : ledger.HandsOut middle (n - xs.length) ys rest) :
    ledger.HandsOut source n (xs ++ ys) rest where
  inOrder := h'.inOrder
  unread_eq := by rw [h.unread_eq, h'.unread_eq, List.append_assoc]
  length_le := by
    have := h'.length_le
    rw [List.length_append]; omega
  patience_le := Nat.le_trans h'.patience_le h.patience_le
  patience_lt hlt hne := by
    rw [List.length_append] at hlt
    exact Nat.lt_of_lt_of_le (h'.patience_lt (by omega) hne) h.patience_le

theorem handsOut_skipByReading {read : ι → Nat → Bytes × ι}
    (hread : ∀ source n, ledger.InOrder source →
      ledger.HandsOut source n (read source n).1 (read source n).2)
    {source : ι} (h : ledger.InOrder source) (n : Nat) :
    ∃ bytes, bytes.length = (ByteSource.skipByReading read source n).1 ∧
      ledger.HandsOut source n bytes (ByteSource.skipByReading read source n).2 := by
  refine ByteSource.skipByReading_induct (motive := fun source n result =>
    ledger.InOrder source → ∃ bytes, bytes.length = result.1 ∧
      ledger.HandsOut source n bytes result.2) ?enough ?nothing ?block source n h
  case enough => exact fun source h => ⟨[], rfl, handsOut_none h⟩
  case nothing =>
    -- a block that is empty is short, however many bytes were asked for in it
    intro source n rest hpos hs h
    have hblock := hread source (min n ByteSource.skipBlock) h
    rw [hs] at hblock
    exact ⟨[], rfl, hblock.inOrder, hblock.unread_eq, Nat.zero_le _, hblock.patience_le,
      fun _ hne => hblock.patience_lt hpos hne⟩
  case block =>
    intro source n b bytes middle result _ hs ih h
    have hblock := hread source (min n ByteSource.skipBlock) h
    rw [hs] at hblock
    have hle : (b :: bytes).length ≤ n := Nat.le_trans hblock.length_le (Nat.min_le_left ..)
    obtain ⟨more, hmore, hrest⟩ := ih hblock.inOrder
    refine ⟨b :: bytes ++ more, ?_, hblock.trans hle hrest⟩
    rw [List.length_append, hmore, List.length_cons]

end Ledger

/-! ## Growing buffers -/

/-- A buffer and the pieces that are still to arrive in it. -/
structure Growing where
  buffer : Buffer
  /-- The pieces that arrive, one between two calls. -/
  later : List Bytes

namespace Growing

instance : ByteSource Growing where
  read source n :=
    let (bytes, buffer) := ByteSource.read source.buffer n
    (bytes, { source with buffer })
  skip source n :=
    let (skipped, buffer) := ByteSource.skip source.buffer n
    (skipped, { source with buffer })

/-- The next piece arrives, if there is one. -/
def arrive : Growing → Growing
  | ⟨buffer, []⟩ => ⟨buffer, []⟩
  | ⟨buffer, piece :: later⟩ => ⟨buffer.push piece, later⟩

def ledger : Ledger Growing where
  InOrder _ := True
  unread source := source.buffer.bytes ++ source.later.flatten
  between := arrive
  patience source := source.later.length

theorem handsOut (source : Growing) (n : Nat) :
    ledger.HandsOut source n (source.buffer.bytes.take n)
      { source with buffer := ⟨source.buffer.bytes.drop n⟩ } where
  inOrder := trivial
  unread_eq := by
    simp only [ledger]
    rw [← List.append_assoc, List.take_append_drop]
  length_le := by rw [List.length_take]; exact Nat.min_le_left ..
  patience_le := Nat.le_refl _
  patience_lt hlt hne := by
    obtain ⟨⟨bytes⟩, later⟩ := source
    simp only [List.length_take] at hlt
    simp only [ledger, List.drop_of_length_le (show bytes.length ≤ n by omega)] at hne ⊢
    cases later with
    | nil => exact absurd rfl hne
    | cons piece later => exact Nat.lt_succ_self _

theorem unread_arrive (source : Growing) :
    ledger.unread source.arrive = ledger.unread source := by
  obtain ⟨⟨bytes⟩, _ | ⟨piece, later⟩⟩ := source
  · rfl
  · simp only [arrive, ledger, Buffer.push, List.flatten_cons, List.append_assoc]

def delivery : Delivery Growing where
  toLedger := ledger
  handsOut_read source n _ := handsOut source n
  handsOut_skip source n _ := ⟨source.buffer.bytes.take n, rfl, handsOut source n⟩
  inOrder_between _ _ := trivial
  unread_between source _ := unread_arrive source

end Growing

/-! ## Capped sources -/

namespace Capped

def ledger : Ledger Capped where
  InOrder source := 1 ≤ source.portion
  unread := bytes
  between source := source
  patience source := source.bytes.length

theorem handsOut {source : Capped} (h : 1 ≤ source.portion) (n : Nat) :
    ledger.HandsOut source n (source.read n).1 (source.read n).2 where
  inOrder := h
  unread_eq := (List.take_append_drop ..).symm
  length_le := by simp only [read, List.length_take]; omega
  patience_le := by simp only [ledger, read, List.length_drop]; omega
  patience_lt hlt hne := by
    simp only [read, List.length_take] at hlt
    simp only [ledger, read, ne_eq, List.drop_eq_nil_iff, List.length_drop] at hne ⊢
    omega

def delivery : Delivery Capped where
  toLedger := ledger
  handsOut_read _ n h := handsOut h n
  handsOut_skip _ n h := Ledger.handsOut_skipByReading (fun _ k h => handsOut h k) h n
  inOrder_between _ h := h
  unread_between _ _ := rfl

end Capped

/-! ## Readers -/

namespace Reader

def ledger : Ledger Reader where
  InOrder _ := True
  unread reader := content reader.script
  between reader := reader
  patience reader := reader.script.length

theorem handsOut_read (reader : Reader) (n : Nat) :
    ledger.HandsOut reader n (reader.read n).1 (reader.read n).2 := by
  obtain ⟨met, hreads, hcontent, -⟩ := reader.exists_reads_read n
  have hdrawn := hreads.drawn
  rw [hcontent]
  refine ⟨trivial, hdrawn.content_eq, hdrawn.length_le, hreads.length_rest_le, ?_⟩
  intro hshort hunread
  rcases hreads.length_rest_lt (hdrawn.stops hshort) with hnil | hlt
  · refine absurd ?_ hunread
    show content _ = []
    rw [hnil]
    rfl
  · exact hlt

def delivery : Delivery Reader where
  toLedger := ledger
  handsOut_read reader n _ := handsOut_read reader n
  handsOut_skip _ n _ :=
    Ledger.handsOut_skipByReading (fun source k _ => handsOut_read source k) trivial n
  inOrder_between _ _ := trivial
  unread_between _ _ := rfl

end Reader

end Piecemeal
