/-
# Byte sources

A byte source hands out bytes when asked and says how many it had: fewer than asked means that it
is dry for now, not that something is wrong.  Decoders know their source through this interface
only.

A slice is the plainest source.  A buffer is a slice that grows at the back, a lent source is used
through a handle, and a capped source gives at most so many bytes per read, as a socket may.
-/
import Piecemeal.Bytes

namespace Piecemeal

/-- Types that hand out bytes in order. -/
class ByteSource (ι : Type) where
  /-- Takes up to so many bytes. -/
  read : ι → Nat → Bytes × ι
  /-- Drops up to so many bytes and counts them. -/
  skip : ι → Nat → Nat × ι

namespace ByteSource

variable {ι : Type}

/-- The most bytes that one read of `skipByReading` takes. -/
def skipBlock : Nat := 256

/-- Skipping for sources that can only read: blocks are read and dropped until enough bytes are gone
or a read gives nothing. -/
def skipByReading (read : ι → Nat → Bytes × ι) (source : ι) (n : Nat) : Nat × ι :=
  if n = 0 then (0, source)
  else
    match read source (min n skipBlock) with
    | ([], source) => (0, source)
    | (_ :: bytes, source) =>
        let (skipped, source) := skipByReading read source (n - (bytes.length + 1))
        (bytes.length + 1 + skipped, source)
termination_by n

/-- Skipping block after block: there is enough, a block is empty, or it goes on behind one. -/
@[elab_as_elim]
theorem skipByReading_induct {read : ι → Nat → Bytes × ι} {motive : ι → Nat → Nat × ι → Prop}
    (enough : ∀ source, motive source 0 (0, source))
    (nothing : ∀ source n rest, 0 < min n skipBlock →
      read source (min n skipBlock) = ([], rest) → motive source n (0, rest))
    (block : ∀ source n b bytes middle result, 0 < min n skipBlock →
      read source (min n skipBlock) = (b :: bytes, middle) →
      motive middle (n - (bytes.length + 1)) result →
      motive source n (bytes.length + 1 + result.1, result.2))
    (source : ι) (n : Nat) : motive source n (skipByReading read source n) := by
  induction n using Nat.strongRecOn generalizing source with
  | ind n ih =>
      unfold skipByReading
      by_cases hn : n = 0
      · subst hn
        exact enough source
      · have hpos : 0 < min n skipBlock := Nat.lt_min.2 ⟨Nat.pos_of_ne_zero hn, by decide⟩
        rw [if_neg hn]
        split
        next rest hread => exact nothing source n rest hpos hread
        next b bytes middle hread =>
          exact block source n b bytes middle _ hpos hread (ih _ (by omega) middle)

/-- The next byte, if there is one. -/
def readByte [ByteSource ι] (source : ι) : Option UInt8 × ι :=
  match read source 1 with
  | ([b], source) => (some b, source)
  | (_, source) => (none, source)

end ByteSource

/-! ## Slices -/

instance : ByteSource Bytes where
  read bytes n := (bytes.take n, bytes.drop n)
  skip bytes n := ((bytes.take n).length, bytes.drop n)

/-! ## Growing buffers -/

/-- Bytes that are read at the front while more arrive at the back. -/
structure Buffer where
  /-- The bytes that are not read yet. -/
  bytes : Bytes

namespace Buffer

def empty : Buffer := ⟨[]⟩

def push (buffer : Buffer) (bytes : Bytes) : Buffer := ⟨buffer.bytes ++ bytes⟩

instance : ByteSource Buffer where
  read buffer n := (buffer.bytes.take n, ⟨buffer.bytes.drop n⟩)
  skip buffer n := ((buffer.bytes.take n).length, ⟨buffer.bytes.drop n⟩)

end Buffer

/-! ## Lent sources -/

/-- A source that is used through a handle and given back afterwards. -/
structure Lent (ι : Type) where
  /-- The source itself. -/
  inner : ι

instance {ι : Type} [ByteSource ι] : ByteSource (Lent ι) where
  read source n := ((ByteSource.read source.inner n).1, ⟨(ByteSource.read source.inner n).2⟩)
  skip source n := ((ByteSource.skip source.inner n).1, ⟨(ByteSource.skip source.inner n).2⟩)

/-! ## Capped sources -/

/-- Bytes that are handed out in portions. -/
structure Capped where
  /-- The most bytes that one read gives. -/
  portion : Nat
  /-- The bytes that are not read yet. -/
  bytes : Bytes

namespace Capped

def read (source : Capped) (n : Nat) : Bytes × Capped :=
  let n := min n source.portion
  (source.bytes.take n, { source with bytes := source.bytes.drop n })

instance : ByteSource Capped where
  read := read
  skip := ByteSource.skipByReading read

end Capped

end Piecemeal
