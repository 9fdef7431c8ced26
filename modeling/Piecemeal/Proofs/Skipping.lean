/-
# Skipping

Sources that can only read skip by reading, block after block, until enough bytes are gone or a
read gives nothing.  How a source cuts its bytes into portions makes no difference to that, as long
as a read gives at least one byte while there is one:

    inOrder source → 0 < n → unread source ≠ [] → (read source n).1 ≠ []              (`Portions`)

Then what is skipped is what a slice would skip at once, `Portions.skipByReading`, by induction on
the bytes that are still to be skipped: as many bytes as are asked for and there, with the others
left.

Slices, buffers and lent slices have a way to skip of their own.  They are asked side by side for
reads, skips and single bytes in any order.  If a `view` of one source is another one, and keeps to
it through each read and each skip, `Mirrors view`, then both give the same answers and have the
same bytes left after each of them, `Mirrors.transcript_eq`.
-/
import Piecemeal.Source

namespace Piecemeal

namespace ByteSource

variable {ι κ : Type}

/-! ## Blocks -/

/-- Reads hand out what is unread in order, and at least one byte while there is one. -/
structure Portions (InOrder : ι → Prop) (unread : ι → Bytes) (read : ι → Nat → Bytes × ι) :
    Prop where
  inOrder {source : ι} (n : Nat) : InOrder source → InOrder (read source n).2
  unread_eq {source : ι} (n : Nat) : InOrder source →
    unread source = (read source n).1 ++ unread (read source n).2
  length_le {source : ι} (n : Nat) : InOrder source → (read source n).1.length ≤ n
  ne_nil {source : ι} {n : Nat} : InOrder source → 0 < n → unread source ≠ [] →
    (read source n).1 ≠ []

/-- The source has skipped as many bytes as there are, up to `n`, and no others. -/
def Skipped (InOrder : ι → Prop) (unread : ι → Bytes) (source : ι) (n : Nat) (result : Nat × ι) :
    Prop :=
  result.1 = min n (unread source).length ∧ unread result.2 = (unread source).drop n ∧
    InOrder result.2

theorem Portions.skipByReading {InOrder : ι → Prop} {unread : ι → Bytes}
    {read : ι → Nat → Bytes × ι} (h : Portions InOrder unread read) {source : ι}
    (hsource : InOrder source) (n : Nat) :
    Skipped InOrder unread source n (ByteSource.skipByReading read source n) := by
  refine ByteSource.skipByReading_induct (motive := fun source n result =>
    InOrder source → Skipped InOrder unread source n result) ?enough ?nothing ?block source n hsource
  case enough => exact fun source hsource => ⟨(Nat.zero_min _).symm, rfl, hsource⟩
  case nothing =>
    -- an empty block is the end of the source
    intro source n rest hpos hs hsource
    have hunread := h.unread_eq (min n skipBlock) hsource
    have hrest := h.inOrder (min n skipBlock) hsource
    have hne := h.ne_nil hsource hpos
    rw [hs] at hunread hrest hne
    have hnil : unread source = [] := Classical.not_not.1 fun h => hne h rfl
    have hleft : unread rest = [] := hunread.symm.trans hnil
    refine ⟨?_, ?_, hrest⟩
    · rw [hnil]
      exact (Nat.min_zero n).symm
    · rw [hnil, List.drop_nil]
      exact hleft
  case block =>
    intro source n b bytes middle result _ hs ih hsource
    have hunread := h.unread_eq (min n skipBlock) hsource
    have hrest := h.inOrder (min n skipBlock) hsource
    have hlen := h.length_le (min n skipBlock) hsource
    rw [hs] at hunread hrest hlen
    have hblock : bytes.length + 1 ≤ n := Nat.le_trans hlen (Nat.min_le_left ..)
    obtain ⟨hcount, hleft, hlast⟩ := ih hrest
    refine ⟨?_, ?_, hlast⟩
    · show bytes.length + 1 + result.1 = _
      rw [hcount, hunread, List.length_append, List.length_cons]
      show _ = min n (bytes.length + 1 + (unread middle).length)
      omega
    · have hgone : (b :: bytes).drop n = [] := List.drop_of_length_le hblock
      have hdrop : (unread source).drop n = (unread middle).drop (n - (bytes.length + 1)) := by
        rw [hunread, List.drop_append, hgone, List.nil_append, List.length_cons]
      exact hleft.trans hdrop.symm

theorem portions_capped {portion : Nat} (h : 1 ≤ portion) :
    Portions (fun source : Capped => source.portion = portion) Capped.bytes Capped.read where
  inOrder _ hsource := hsource
  unread_eq _ _ := (List.take_append_drop ..).symm
  length_le n _ := by simp only [Capped.read, List.length_take]; omega
  ne_nil {source n} hsource hn hne := by
    have hlen := List.length_pos_iff.2 hne
    refine List.ne_nil_of_length_pos ?_
    simp only [Capped.read, List.length_take]
    omega

theorem skip_capped {portion : Nat} (h : 1 ≤ portion) (bytes : Bytes) (n : Nat) :
    skip (⟨portion, bytes⟩ : Capped) n = (min n bytes.length, ⟨portion, bytes.drop n⟩) := by
  have hskip : Skipped _ Capped.bytes ⟨portion, bytes⟩ n (skip (⟨portion, bytes⟩ : Capped) n) :=
    (portions_capped h).skipByReading rfl n
  generalize skip (⟨portion, bytes⟩ : Capped) n = result at hskip
  obtain ⟨count, ⟨portion', bytes'⟩⟩ := result
  obtain ⟨rfl, rfl, rfl⟩ : count = _ ∧ bytes' = _ ∧ portion' = portion := hskip
  rfl

/-! ## Sources side by side -/

/-- What can be asked of every source. -/
inductive Request where
  | read (n : Nat)
  | skip (n : Nat)
  | readByte
deriving DecidableEq, Repr

/-- What a source answers. -/
inductive Answer where
  | given (bytes : Bytes)
  | skipped (count : Nat)
  | byte (b : Option UInt8)
deriving DecidableEq, Repr

/-- The answer to a request, and the source afterwards. -/
def answer [ByteSource ι] (source : ι) : Request → Answer × ι
  | .read n => (.given (read source n).1, (read source n).2)
  | .skip n => (.skipped (skip source n).1, (skip source n).2)
  | .readByte => (.byte (readByte source).1, (readByte source).2)

/-- The answers to requests made in turn, each with what is seen of the source after it. -/
def transcript [ByteSource ι] (view : ι → κ) (source : ι) : List Request → List (Answer × κ)
  | [] => []
  | request :: requests =>
      ((answer source request).1, view (answer source request).2) ::
        transcript view (answer source request).2 requests

/-- The one source, seen so, does what the other does. -/
structure Mirrors [ByteSource ι] [ByteSource κ] (view : ι → κ) : Prop where
  read (source : ι) (n : Nat) :
    (read source n).1 = (ByteSource.read (view source) n).1 ∧
      view (ByteSource.read source n).2 = (ByteSource.read (view source) n).2
  skip (source : ι) (n : Nat) :
    (skip source n).1 = (ByteSource.skip (view source) n).1 ∧
      view (ByteSource.skip source n).2 = (ByteSource.skip (view source) n).2

section Mirrors

variable [ByteSource ι] [ByteSource κ] {view : ι → κ} (h : Mirrors view)

include h

theorem Mirrors.readByte (source : ι) :
    (readByte source).1 = (ByteSource.readByte (view source)).1 ∧
      view (ByteSource.readByte source).2 = (ByteSource.readByte (view source)).2 := by
  obtain ⟨hbytes, hrest⟩ := h.read source 1
  unfold ByteSource.readByte
  generalize ByteSource.read source 1 = r, ByteSource.read (view source) 1 = r' at hbytes hrest
  obtain ⟨bytes, rest⟩ := r
  obtain ⟨bytes', rest'⟩ := r'
  cases hbytes
  cases hrest
  match bytes with
  | [] => exact ⟨rfl, rfl⟩
  | [b] => exact ⟨rfl, rfl⟩
  | _ :: _ :: _ => exact ⟨rfl, rfl⟩

theorem Mirrors.answer (source : ι) (request : Request) :
    ByteSource.answer (view source) request =
      ((ByteSource.answer source request).1, view (ByteSource.answer source request).2) := by
  cases request with
  | read n => rw [ByteSource.answer, ← (h.read source n).1, ← (h.read source n).2]; rfl
  | skip n => rw [ByteSource.answer, ← (h.skip source n).1, ← (h.skip source n).2]; rfl
  | readByte => rw [ByteSource.answer, ← (h.readByte source).1, ← (h.readByte source).2]; rfl

theorem Mirrors.transcript_eq (source : ι) (requests : List Request) :
    transcript view source requests = transcript id (view source) requests := by
  induction requests generalizing source with
  | nil => rfl
  | cons request requests ih =>
      rw [transcript, transcript, h.answer source request, ih]
      rfl

end Mirrors

theorem mirrors_buffer : Mirrors Buffer.bytes where
  read _ _ := ⟨rfl, rfl⟩
  skip _ _ := ⟨rfl, rfl⟩

theorem mirrors_lent [ByteSource ι] : Mirrors (Lent.inner : Lent ι → ι) where
  read _ _ := ⟨rfl, rfl⟩
  skip _ _ := ⟨rfl, rfl⟩

/-! ## The property -/

/-- Skipping by reading is skipping.  Whatever portions a source gives its bytes in, as many bytes
are skipped as are asked for and there, and the others are left; so a slice, a buffer and a source
with a cap of at least one byte per read skip alike.  Reads, skips and single bytes in any order are
answered by a slice, a buffer with the same bytes and a handle on the slice alike, with the same
bytes left after each of them; and a handle on any other source answers as the source. -/
theorem skips_alike :
    (∀ {ι : Type} {InOrder : ι → Prop} {unread : ι → Bytes} {read : ι → Nat → Bytes × ι},
      Portions InOrder unread read → ∀ source, InOrder source → ∀ n,
        Skipped InOrder unread source n (skipByReading read source n)) ∧
    (∀ (portion : Nat) (bytes : Bytes) (n : Nat), 1 ≤ portion →
      skip (⟨portion, bytes⟩ : Capped) n = (min n bytes.length, ⟨portion, (skip bytes n).2⟩) ∧
      skip bytes n = (min n bytes.length, bytes.drop n) ∧
      skip (⟨bytes⟩ : Buffer) n = (min n bytes.length, ⟨(skip bytes n).2⟩)) ∧
    (∀ (bytes : Bytes) (requests : List Request),
      transcript Buffer.bytes ⟨bytes⟩ requests = transcript id bytes requests) ∧
    ∀ {ι : Type} [ByteSource ι] (source : ι) (requests : List Request),
      transcript Lent.inner ⟨source⟩ requests = transcript id source requests := by
  refine ⟨fun h source hsource n => h.skipByReading hsource n, ?_,
    fun bytes => mirrors_buffer.transcript_eq ⟨bytes⟩,
    fun source => mirrors_lent.transcript_eq ⟨source⟩⟩
  intro portion bytes n hportion
  have hlen : (bytes.take n).length = min n bytes.length := List.length_take
  exact ⟨skip_capped hportion bytes n, congrArg (·, bytes.drop n) hlen,
    congrArg (·, (⟨bytes.drop n⟩ : Buffer)) hlen⟩

/-- Of five bytes that come one by one seven are to be skipped, and of three hundred that come by the
hundred all but one; the requests to the slice end with two that go past its end. -/
theorem skips_alike_past_end :
    (1 ≤ 1 ∧ skip (⟨1, [1, 2, 3, 4, 5]⟩ : Capped) 7 = (5, ⟨1, []⟩)) ∧
    (Portions (fun source : Capped => source.portion = 100) Capped.bytes Capped.read ∧
      (⟨100, List.replicate 300 7⟩ : Capped).portion = 100 ∧
      (skip (⟨100, List.replicate 300 7⟩ : Capped) 299).1 = 299 ∧
      (skip (⟨100, List.replicate 300 7⟩ : Capped) 299).2.bytes = [7]) ∧
    transcript Buffer.bytes ⟨[1, 2, 3, 4, 5]⟩ [.read 2, .readByte, .skip 7, .readByte] =
      [(.given [1, 2], [3, 4, 5]), (.byte (some 3), [4, 5]), (.skipped 2, []), (.byte none, [])] ∧
    transcript Lent.inner ⟨([1, 2, 3, 4, 5] : Bytes)⟩ [.read 2, .readByte, .skip 7, .readByte] =
      [(.given [1, 2], [3, 4, 5]), (.byte (some 3), [4, 5]), (.skipped 2, []), (.byte none, [])] := by
  have hportions := portions_capped (show 1 ≤ 100 by decide)
  obtain ⟨hcount, hleft, -⟩ := skips_alike.1 hportions ⟨100, List.replicate 300 7⟩ rfl 299
  refine ⟨⟨Nat.le_refl 1, (skips_alike.2.1 1 [1, 2, 3, 4, 5] 7 (Nat.le_refl 1)).1⟩,
    ⟨hportions, rfl, hcount.trans ?_, hleft.trans ?_⟩, skips_alike.2.2.1 _ _, skips_alike.2.2.2 _ _⟩
  · rw [List.length_replicate]
    rfl
  · rw [List.drop_replicate]
    rfl

end ByteSource

end Piecemeal
