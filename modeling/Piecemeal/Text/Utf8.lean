/-
# UTF-8 text

`Utf8.decode` turns a byte string into text, or says where the bytes stop being well-formed.  Which
byte strings are text is core's notion (`ByteArray.IsValidUTF8`: the encodings of lists of
characters), so acceptance needs no table of its own; `Utf8.locate` only finds the place of the
first fault, by stepping over whole characters.
-/
import Piecemeal.Bytes

namespace Piecemeal.Utf8

/-- Where and how a byte string stops being well-formed UTF-8. -/
structure Fault where
  /-- The number of bytes before the first one that starts no character. -/
  validUpTo : Nat
  /-- How many bytes can be part of no character at all, or `none` if the bytes end inside one. -/
  badLength : Option Nat
deriving DecidableEq, Repr

def Fault.message (fault : Fault) : String :=
  match fault.badLength with
  | some n => s!"invalid utf-8 sequence of {n} bytes from index {fault.validUpTo}"
  | none => s!"incomplete utf-8 byte sequence from index {fault.validUpTo}"

/-- What stands at the front of a byte string. -/
inductive Front where
  /-- A whole character of this many bytes. -/
  | whole (size : Nat)
  /-- The beginning of a character, cut off by the end of the bytes. -/
  | cut
  /-- This many bytes that belong to no character. -/
  | bad (length : Nat)
deriving DecidableEq, Repr

/-- Continuation bytes: `seen` bytes of the character are read and `owed` are still due, the next
of them between `low` and `high` and all later ones between `0x80` and `0xBF`. -/
def Front.continued (seen : Nat) (low high : Nat) : (owed : Nat) → Bytes → Front
  | 0, _ => .whole seen
  | _ + 1, [] => .cut
  | owed + 1, b :: rest =>
      if low ≤ b.toNat ∧ b.toNat ≤ high then Front.continued (seen + 1) 0x80 0xBF owed rest
      else .bad seen

/-- The front of a byte string that starts with `b`.  The first byte fixes how many follow; four
first bytes narrow the range of the second, which keeps out overlong forms, surrogates and numbers
above the last character. -/
def Front.of (b : UInt8) (rest : Bytes) : Front :=
  let n := b.toNat
  if n < 0x80 then .whole 1
  else if n < 0xC2 then .bad 1
  else if n < 0xE0 then .continued 1 0x80 0xBF 1 rest
  else if n = 0xE0 then .continued 1 0xA0 0xBF 2 rest
  else if n = 0xED then .continued 1 0x80 0x9F 2 rest
  else if n < 0xF0 then .continued 1 0x80 0xBF 2 rest
  else if n = 0xF0 then .continued 1 0x90 0xBF 3 rest
  else if n < 0xF4 then .continued 1 0x80 0xBF 3 rest
  else if n = 0xF4 then .continued 1 0x80 0x8F 3 rest
  else .bad 1

/-- The first fault, where `before` bytes were well-formed already.  Of a well-formed string it is
the place of its end. -/
def locate (before : Nat) (bytes : Bytes) : Fault :=
  match bytes with
  | [] => ⟨before, none⟩
  | b :: rest =>
      match Front.of b rest with
      | .whole size => locate (before + size) (rest.drop (size - 1))
      | .cut => ⟨before, none⟩
      | .bad length => ⟨before, some length⟩
termination_by bytes.length
decreasing_by simp only [List.length_drop, List.length_cons]; omega

/-- The text that the bytes encode, or the first fault. -/
def decode (bytes : Bytes) : Except Fault String :=
  if h : (ByteArray.mk bytes.toArray).validateUTF8 then
    .ok (String.fromUTF8 (ByteArray.mk bytes.toArray) (ByteArray.validateUTF8_eq_true_iff.1 h))
  else .error (locate 0 bytes)

/-- The bytes that encode a text. -/
def encode (text : String) : Bytes := text.toUTF8.data.toList

theorem decode_encode (text : String) : decode (encode text) = .ok text := by
  have h : (ByteArray.mk (encode text).toArray) = text.toUTF8 := by simp [encode]
  unfold decode
  rw [dif_pos (by rw [h]; exact ByteArray.validateUTF8_eq_true_iff.2 text.isValidUTF8)]
  congr 1

theorem eq_encode_of_decode {bytes : Bytes} {text : String} (h : decode bytes = .ok text) :
    bytes = encode text := by
  unfold decode at h
  split at h
  · cases h
    show bytes = (ByteArray.mk bytes.toArray).data.toList
    simp
  · cases h

/-- Text is accepted exactly in its encoding. -/
theorem decode_eq_ok_iff {bytes : Bytes} {text : String} :
    decode bytes = .ok text ↔ bytes = encode text :=
  ⟨eq_encode_of_decode, fun h => h ▸ decode_encode text⟩

/-! ## Characters and their bytes -/

/-- A text is encoded character by character. -/
theorem encode_eq_flatMap (text : String) :
    encode text = text.toList.flatMap String.utf8EncodeChar := by
  rw [encode, String.toUTF8_eq_toByteArray, ← String.utf8Encode_toList, List.utf8Encode,
    List.toList_data_toByteArray]

theorem utf8EncodeChar_of_lt {c : Char} (h : c.toNat < 128) :
    String.utf8EncodeChar c = [c.toUInt8] := by
  have hsize : c.utf8Size = 1 := by
    rw [Char.utf8Size_eq_one_iff, UInt32.le_iff_toNat_le]
    exact Nat.le_of_lt_succ h
  rw [String.utf8EncodeChar_eq_singleton hsize, Char.toUInt8_val]

theorem toNat_toUInt8 {c : Char} (h : c.toNat < 128) : c.toUInt8.toNat = c.toNat := by
  show c.val.toUInt8.toNat = c.toNat
  rw [UInt32.toNat_toUInt8, Char.toNat_val]
  omega

/-- The bytes of a character outside ASCII are all outside ASCII. -/
theorem le_of_mem_utf8EncodeChar {c : Char} {b : UInt8} (h : 128 ≤ c.toNat)
    (hb : b ∈ String.utf8EncodeChar c) : 128 ≤ b.toNat := by
  have hval : ¬c.val.toNat ≤ 127 := by
    rw [Char.toNat_val]
    omega
  rw [String.utf8EncodeChar] at hb
  rw [if_neg hval] at hb
  have hcases (n : Nat) (hn : 128 ≤ n % 256) : 128 ≤ (UInt8.ofNat n).toNat := by
    rw [UInt8.toNat_ofNat']
    exact hn
  split at hb
  next =>
    simp only [List.mem_cons, List.not_mem_nil, or_false] at hb
    rcases hb with rfl | rfl <;> exact hcases _ (by omega)
  next =>
    split at hb
    next =>
      simp only [List.mem_cons, List.not_mem_nil, or_false] at hb
      rcases hb with rfl | rfl | rfl <;> exact hcases _ (by omega)
    next =>
      simp only [List.mem_cons, List.not_mem_nil, or_false] at hb
      rcases hb with rfl | rfl | rfl | rfl <;> exact hcases _ (by omega)

theorem flatMap_utf8EncodeChar {cs : List Char} (h : ∀ c ∈ cs, c.toNat < 128) :
    cs.flatMap String.utf8EncodeChar = cs.map Char.toUInt8 := by
  induction cs with
  | nil => rfl
  | cons c cs ih =>
      obtain ⟨hc, hcs⟩ := List.forall_mem_cons.1 h
      rw [List.flatMap_cons, utf8EncodeChar_of_lt hc, ih hcs, List.map_cons, List.singleton_append]

/-- Bytes of ASCII are text. -/
theorem exists_decode {bytes : Bytes} (h : ∀ b ∈ bytes, b.toNat < 128) :
    ∃ text, decode bytes = .ok text := by
  have hnat (b : UInt8) (hb : b ∈ bytes) : (Char.ofNat b.toNat).toNat = b.toNat := by
    have := h b hb
    rw [Char.ofNat, dif_pos (.inl (by omega))]
    rfl
  refine ⟨String.ofList (bytes.map fun b => Char.ofNat b.toNat), ?_⟩
  rw [decode_eq_ok_iff, encode_eq_flatMap, String.toList_ofList, flatMap_utf8EncodeChar]
  · rw [List.map_map]
    refine (List.map_id' bytes).symm.trans (List.map_congr_left fun b hb => ?_)
    have hlt : (Char.ofNat b.toNat).toNat < 128 := by
      rw [hnat b hb]
      exact h b hb
    exact UInt8.toNat_inj.1 (by rw [Function.comp, toNat_toUInt8 hlt, hnat b hb])
  · intro c hc
    obtain ⟨b, hb, rfl⟩ := List.mem_map.1 hc
    rw [hnat b hb]
    exact h b hb

end Piecemeal.Utf8
