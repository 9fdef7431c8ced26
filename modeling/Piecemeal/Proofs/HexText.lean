/-
# The hexadecimal texts that are accepted

`Hex.parse` cuts a text into pairs of bytes, while what it should accept is a matter of characters:
blanks apart, two digits for each byte,

    Spells cs bytes ↔ cs.map Char.toLower = (render bytes).toList.

What it does accept is `Denotes`, which is wider: a pair may also be a plus sign and one digit,
since the numerals that a pair goes through may carry a sign.  So

    parse text = .ok bytes ↔ Denotes (symbols text) bytes
    Spells (symbols text) bytes ↔ parse text = .ok bytes ∧ '+' ∉ symbols text

where `symbols` are the characters of a text without the blanks.

No byte of a character outside ASCII is a digit, a sign or a blank.  So the blanks may be dropped
from the text or from its bytes, `filter_encode`; an accepted text is ASCII, `codes_lt_of_pairs`;
and then each of its characters is one byte, and the pairs of bytes are pairs of characters,
`denotes_of_pairs_codes` and `pairs_codes_of_denotes`.
-/
import Piecemeal.Text.Hex

namespace Piecemeal.Hex

/-! ## What a text denotes -/

/-- The characters that are passed over. -/
def isSpace (c : Char) : Bool :=
  c = ' ' || c = '\t' || c = '\n' || c = '\x0C' || c = '\r'

/-- The characters of a text that count. -/
def symbols (text : String) : List Char := text.toList.filter fun c => !isSpace c

/-- The character stands for the number below sixteen, in either case. -/
def Digit (c : Char) (v : Nat) : Prop := v < 16 ∧ c.toLower = Nat.digitChar v

/-- The character is a hexadecimal digit. -/
def IsDigit (c : Char) : Prop := ∃ v, Digit c v

/-- The characters are the digits of the byte string, each in either case. -/
def Spells (cs : List Char) (bytes : Bytes) : Prop :=
  cs.map Char.toLower = (render bytes).toList

/-- The byte string that the characters denote, two of them for each byte: two digits, or a sign
and one digit. -/
inductive Denotes : List Char → Bytes → Prop where
  | nil : Denotes [] []
  | digits {high low : Char} {h l : Nat} {cs : List Char} {bytes : Bytes}
      (hhigh : Digit high h) (hlow : Digit low l) (rest : Denotes cs bytes) :
      Denotes (high :: low :: cs) (UInt8.ofNat (16 * h + l) :: bytes)
  | signed {low : Char} {l : Nat} {cs : List Char} {bytes : Bytes}
      (hlow : Digit low l) (rest : Denotes cs bytes) :
      Denotes ('+' :: low :: cs) (UInt8.ofNat l :: bytes)

/-! ## Digits -/

theorem toNat_digitChar {v : Nat} (hv : v < 16) :
    (Nat.digitChar v).toNat = if v < 10 then 48 + v else 87 + v := by
  have h : ∀ v < 16, (Nat.digitChar v).toNat = if v < 10 then 48 + v else 87 + v := by decide
  exact h v hv

theorem toNat_toLower (c : Char) :
    c.toLower.toNat = if 65 ≤ c.toNat ∧ c.toNat ≤ 90 then c.toNat + 32 else c.toNat := by
  have hupper : (c.val ≥ 'A'.val ∧ c.val ≤ 'Z'.val) ↔ 65 ≤ c.toNat ∧ c.toNat ≤ 90 := by
    rw [ge_iff_le, UInt32.le_iff_toNat_le, UInt32.le_iff_toNat_le]
    rfl
  unfold Char.toLower
  split
  next h =>
    have h' := hupper.1 h
    rw [if_pos h']
    show (c.val + ('a'.val - 'A'.val)).toNat = c.val.toNat + 32
    rw [UInt32.toNat_add]
    have hsmall : c.val.toNat ≤ 90 := h'.2
    show (c.val.toNat + 32) % 2 ^ 32 = c.val.toNat + 32
    omega
  next h => rw [if_neg (mt hupper.2 h)]

/-- The code of a digit, in either case, and its value. -/
def DigitCode (n v : Nat) : Prop :=
  48 ≤ n ∧ n ≤ 57 ∧ v = n - 48 ∨ 65 ≤ n ∧ n ≤ 70 ∧ v = n - 55 ∨ 97 ≤ n ∧ n ≤ 102 ∧ v = n - 87

theorem DigitCode.code_lt {n v : Nat} (h : DigitCode n v) : n < 128 := by
  unfold DigitCode at h
  omega

theorem DigitCode.value_lt {n v : Nat} (h : DigitCode n v) : v < 16 := by
  unfold DigitCode at h
  omega

theorem digit_iff {c : Char} {v : Nat} : Digit c v ↔ DigitCode c.toNat v := by
  have hlower := toNat_toLower c
  unfold DigitCode
  constructor
  · rintro ⟨hv, heq⟩
    have hchar := toNat_digitChar hv
    rw [← heq, hlower] at hchar
    split at hchar <;> split at hchar <;> omega
  · intro h
    have hv : v < 16 := by omega
    refine ⟨hv, Char.toNat_inj.1 ?_⟩
    rw [hlower, toNat_digitChar hv]
    split <;> split <;> omega

theorem digit?_eq_some_iff {b : UInt8} {v : Nat} :
    Numeral.digit? 16 b = some v ↔ DigitCode b.toNat v := by
  rw [Numeral.digit?, Option.filter_eq_some_iff, DigitCode]
  split
  next h => simp only [Option.some.injEq, decide_eq_true_eq]; omega
  next h =>
    split
    next h' => simp only [Option.some.injEq, decide_eq_true_eq]; omega
    next h' =>
      split
      next h'' => simp only [Option.some.injEq, decide_eq_true_eq]; omega
      next h'' => simp only [reduceCtorEq, false_and, false_iff]; omega

theorem not_digitCode_plus (v : Nat) : ¬DigitCode 43 v := by
  unfold DigitCode
  omega

theorem not_isDigit_plus : ¬IsDigit '+' := fun ⟨v, h⟩ => not_digitCode_plus v (digit_iff.1 h)

/-! ## Pairs of bytes -/

theorem digits_cons_eq_ok_iff {value n : Nat} {b : UInt8} {rest : Bytes} :
    Numeral.digits 16 256 value (b :: rest) = .ok n ↔
      ∃ d, DigitCode b.toNat d ∧ value * 16 + d < 256 ∧
        Numeral.digits 16 256 (value * 16 + d) rest = .ok n := by
  rw [Numeral.digits]
  simp only [← digit?_eq_some_iff]
  cases Numeral.digit? 16 b with
  | none => simp
  | some d => by_cases hd : value * 16 + d < 256 <;> simp [hd]

theorem one_digit_eq_ok_iff {low : UInt8} {n : Nat} :
    Numeral.digits 16 256 0 [low] = .ok n ↔ DigitCode low.toNat n := by
  rw [digits_cons_eq_ok_iff]
  constructor
  · rintro ⟨l, hl, -, heq⟩
    rw [Numeral.digits, Except.ok.injEq, Nat.zero_mul, Nat.zero_add] at heq
    exact heq ▸ hl
  · intro hl
    have := hl.value_lt
    refine ⟨n, hl, by omega, ?_⟩
    rw [Numeral.digits, Nat.zero_mul, Nat.zero_add]

theorem two_digits_eq_ok_iff {high low : UInt8} {n : Nat} :
    Numeral.digits 16 256 0 [high, low] = .ok n ↔
      ∃ h l, DigitCode high.toNat h ∧ DigitCode low.toNat l ∧ n = 16 * h + l := by
  rw [digits_cons_eq_ok_iff]
  constructor
  · rintro ⟨h, hh, -, hrest⟩
    obtain ⟨l, hl, -, heq⟩ := digits_cons_eq_ok_iff.1 hrest
    rw [Numeral.digits, Except.ok.injEq] at heq
    exact ⟨h, l, hh, hl, by omega⟩
  · rintro ⟨h, l, hh, hl, rfl⟩
    have := hh.value_lt
    have := hl.value_lt
    refine ⟨h, hh, by omega, digits_cons_eq_ok_iff.2 ⟨l, hl, by omega, ?_⟩⟩
    rw [Numeral.digits, Except.ok.injEq]
    omega

/-- A numeral of two bytes is two digits, or a sign and one digit. -/
theorem numeral_eq_ok_iff {high low : UInt8} {n : Nat} :
    Numeral.parse 16 256 [high, low] = .ok n ↔
      (∃ h l, DigitCode high.toNat h ∧ DigitCode low.toNat l ∧ n = 16 * h + l) ∨
      (high = 0x2B ∧ DigitCode low.toNat n) := by
  by_cases hplus : high = 0x2B
  · subst hplus
    rw [Numeral.parse, one_digit_eq_ok_iff]
    constructor
    · exact fun hl => .inr ⟨rfl, hl⟩
    · rintro (⟨h, l, hh, -⟩ | ⟨-, hl⟩)
      · exact absurd hh (not_digitCode_plus h)
      · exact hl
  · have hparse : Numeral.parse 16 256 [high, low] = Numeral.digits 16 256 0 [high, low] := by
      rw [Numeral.parse]
      · rintro rfl
        contradiction
      · rintro b rest rfl
        contradiction
    rw [hparse, two_digits_eq_ok_iff]
    constructor
    · exact .inl
    · rintro (h | ⟨heq, -⟩)
      · exact h
      · exact absurd heq hplus

theorem codes_lt_of_numeral {high low : UInt8} {n : Nat}
    (h : Numeral.parse 16 256 [high, low] = .ok n) : high.toNat < 128 ∧ low.toNat < 128 := by
  obtain ⟨h, l, hh, hl, -⟩ | ⟨rfl, hl⟩ := numeral_eq_ok_iff.1 h
  · exact ⟨hh.code_lt, hl.code_lt⟩
  · exact ⟨by decide, hl.code_lt⟩

theorem pair_eq_ok_iff {high low b : UInt8} :
    pair high low = .ok b ↔
      ∃ n, Numeral.parse 16 256 [high, low] = .ok n ∧ b = UInt8.ofNat n := by
  unfold pair
  cases hnumeral : Numeral.parse 16 256 [high, low] with
  | error fault =>
      constructor
      · cases Utf8.decode [high, low] <;> rintro ⟨⟩
      · rintro ⟨n, ⟨⟩, -⟩
  | ok n =>
      obtain ⟨hhigh, hlow⟩ := codes_lt_of_numeral hnumeral
      obtain ⟨text, htext⟩ := Utf8.exists_decode (List.forall_mem_cons.2
        ⟨hhigh, List.forall_mem_singleton.2 hlow⟩)
      rw [htext]
      show Except.ok (UInt8.ofNat n) = .ok b ↔ _
      constructor
      · rintro ⟨⟩
        exact ⟨n, rfl, rfl⟩
      · rintro ⟨m, ⟨⟩, rfl⟩
        rfl

theorem pairs_cons_cons_eq_ok_iff {high low : UInt8} {rest bytes : Bytes} :
    pairs (high :: low :: rest) = .ok bytes ↔
      ∃ b bs, pair high low = .ok b ∧ pairs rest = .ok bs ∧ bytes = b :: bs := by
  rw [pairs]
  cases pair high low with
  | error fault => simp [bind, Except.bind]
  | ok b =>
      cases pairs rest with
      | error fault => simp [bind, Except.bind]
      | ok bs => simp [bind, Except.bind, pure, Except.pure, eq_comm]

theorem length_cons_cons_mod_two {α : Type} (a b : α) (rest : List α) :
    (a :: b :: rest).length % 2 = rest.length % 2 := by
  rw [List.length_cons, List.length_cons, Nat.add_assoc, Nat.add_mod_right]

/-- Bytes that are cut into pairs and denote something are all of ASCII. -/
theorem codes_lt_of_pairs {digits bytes : Bytes} (heven : digits.length % 2 = 0)
    (h : pairs digits = .ok bytes) : ∀ b ∈ digits, b.toNat < 128 := by
  fun_induction pairs digits generalizing bytes with
  | case1 high low rest ih =>
      obtain ⟨b, bs, hpair, hrest, rfl⟩ := pairs_cons_cons_eq_ok_iff.1 h
      obtain ⟨n, hnumeral, -⟩ := pair_eq_ok_iff.1 hpair
      obtain ⟨hhigh, hlow⟩ := codes_lt_of_numeral hnumeral
      rw [length_cons_cons_mod_two] at heven
      exact List.forall_mem_cons.2 ⟨hhigh, List.forall_mem_cons.2 ⟨hlow, ih heven hrest⟩⟩
  | case2 digits hshort =>
      match digits, hshort, heven with
      | [], _, _ => exact fun b hb => absurd hb List.not_mem_nil
      | high :: low :: rest, hshort, _ => exact absurd rfl (hshort high low rest)

/-! ## Characters as bytes -/

theorem numeral_codes_eq_ok_iff {high low : Char} (hhigh : high.toNat < 128)
    (hlow : low.toNat < 128) {n : Nat} :
    Numeral.parse 16 256 [high.toUInt8, low.toUInt8] = .ok n ↔
      (∃ h l, Digit high h ∧ Digit low l ∧ n = 16 * h + l) ∨ (high = '+' ∧ Digit low n) := by
  rw [numeral_eq_ok_iff, Utf8.toNat_toUInt8 hhigh, Utf8.toNat_toUInt8 hlow]
  have hplus : high.toUInt8 = 0x2B ↔ high = '+' := by
    rw [← UInt8.toNat_inj, Utf8.toNat_toUInt8 hhigh, ← Char.toNat_inj]
    rfl
  simp only [digit_iff, hplus]

theorem Denotes.codes_lt {cs : List Char} {bytes : Bytes} (h : Denotes cs bytes) :
    ∀ c ∈ cs, c.toNat < 128 := by
  induction h with
  | nil => exact fun c hc => absurd hc List.not_mem_nil
  | digits hhigh hlow _ ih =>
      exact List.forall_mem_cons.2 ⟨(digit_iff.1 hhigh).code_lt,
        List.forall_mem_cons.2 ⟨(digit_iff.1 hlow).code_lt, ih⟩⟩
  | signed hlow _ ih =>
      exact List.forall_mem_cons.2 ⟨by decide,
        List.forall_mem_cons.2 ⟨(digit_iff.1 hlow).code_lt, ih⟩⟩

theorem Denotes.even {cs : List Char} {bytes : Bytes} (h : Denotes cs bytes) :
    cs.length % 2 = 0 := by
  induction h with
  | nil => rfl
  | digits _ _ _ ih => rwa [length_cons_cons_mod_two]
  | signed _ _ ih => rwa [length_cons_cons_mod_two]

theorem pairs_codes_of_denotes {cs : List Char} {bytes : Bytes} (h : Denotes cs bytes) :
    pairs (cs.map Char.toUInt8) = .ok bytes := by
  induction h with
  | nil => rfl
  | digits hhigh hlow _ ih =>
      refine pairs_cons_cons_eq_ok_iff.2 ⟨_, _, pair_eq_ok_iff.2 ⟨_, ?_, rfl⟩, ih, rfl⟩
      exact (numeral_codes_eq_ok_iff (digit_iff.1 hhigh).code_lt (digit_iff.1 hlow).code_lt).2
        (.inl ⟨_, _, hhigh, hlow, rfl⟩)
  | signed hlow _ ih =>
      refine pairs_cons_cons_eq_ok_iff.2 ⟨_, _, pair_eq_ok_iff.2 ⟨_, ?_, rfl⟩, ih, rfl⟩
      exact (numeral_codes_eq_ok_iff (by decide) (digit_iff.1 hlow).code_lt).2 (.inr ⟨rfl, hlow⟩)

theorem denotes_of_pairs_codes : ∀ {cs : List Char} {bytes : Bytes},
    (∀ c ∈ cs, c.toNat < 128) → cs.length % 2 = 0 → pairs (cs.map Char.toUInt8) = .ok bytes →
      Denotes cs bytes
  | [], bytes, _, _, h => by
      cases h
      exact .nil
  | [c], bytes, _, heven, _ => absurd heven (by simp)
  | high :: low :: cs, bytes, hascii, heven, h => by
      obtain ⟨hhigh, hascii⟩ := List.forall_mem_cons.1 hascii
      obtain ⟨hlow, hascii⟩ := List.forall_mem_cons.1 hascii
      rw [length_cons_cons_mod_two] at heven
      obtain ⟨b, bs, hpair, hrest, rfl⟩ := pairs_cons_cons_eq_ok_iff.1 h
      have rest := denotes_of_pairs_codes hascii heven hrest
      obtain ⟨n, hnumeral, rfl⟩ := pair_eq_ok_iff.1 hpair
      obtain ⟨h, l, hh, hl, rfl⟩ | ⟨rfl, hl⟩ := (numeral_codes_eq_ok_iff hhigh hlow).1 hnumeral
      · exact .digits hh hl rest
      · exact .signed hl rest

/-! ## Blanks -/

theorem code_lt_of_isSpace {c : Char} (h : isSpace c = true) : c.toNat < 128 := by
  simp only [isSpace, Bool.or_eq_true, decide_eq_true_eq] at h
  rcases h with (((rfl | rfl) | rfl) | rfl) | rfl <;> decide

theorem code_lt_of_isBlank {b : UInt8} (h : isBlank b = true) : b.toNat < 128 := by
  simp only [isBlank, Bool.or_eq_true, decide_eq_true_eq] at h
  rcases h with (((rfl | rfl) | rfl) | rfl) | rfl <;> decide

theorem filter_utf8EncodeChar (c : Char) :
    (String.utf8EncodeChar c).filter (fun b => !isBlank b) =
      if isSpace c then [] else String.utf8EncodeChar c := by
  by_cases hascii : c.toNat < 128
  · have hblank : isBlank c.toUInt8 = isSpace c := by
      simp only [isBlank, isSpace, ← UInt8.toNat_inj, ← Char.toNat_inj,
        Utf8.toNat_toUInt8 hascii]
      rfl
    rw [Utf8.utf8EncodeChar_of_lt hascii]
    cases hspace : isSpace c <;> simp [hblank, hspace]
  · rw [if_neg (mt code_lt_of_isSpace hascii)]
    refine List.filter_eq_self.2 fun b hb => ?_
    have hle := Utf8.le_of_mem_utf8EncodeChar (Nat.le_of_not_lt hascii) hb
    rw [Bool.not_eq_true', ← Bool.not_eq_true]
    exact fun hblank => Nat.not_lt.2 hle (code_lt_of_isBlank hblank)

/-- Blanks may be dropped from the text or from its bytes. -/
theorem filter_encode (text : String) :
    (Utf8.encode text).filter (fun b => !isBlank b) =
      (symbols text).flatMap String.utf8EncodeChar := by
  rw [Utf8.encode_eq_flatMap, symbols]
  induction text.toList with
  | nil => rfl
  | cons c cs ih =>
      rw [List.flatMap_cons, List.filter_append, filter_utf8EncodeChar, ih]
      cases hspace : isSpace c <;> simp [hspace]

theorem parse_eq_ok_iff {text : String} {bytes : Bytes} :
    parse text = .ok bytes ↔ Denotes (symbols text) bytes := by
  unfold parse
  simp only [filter_encode]
  constructor
  · intro h
    split at h
    next heven =>
      -- the bytes of a character outside ASCII would be in some pair
      have hascii : ∀ c ∈ symbols text, c.toNat < 128 := by
        intro c hc
        refine Nat.lt_of_not_le fun hle => ?_
        obtain ⟨b, hb⟩ := List.exists_mem_of_ne_nil _ (String.utf8EncodeChar_ne_nil (c := c))
        have hlt := codes_lt_of_pairs heven h b (List.mem_flatMap.2 ⟨c, hc, hb⟩)
        exact Nat.not_lt.2 (Utf8.le_of_mem_utf8EncodeChar hle hb) hlt
      rw [Utf8.flatMap_utf8EncodeChar hascii] at heven h
      exact denotes_of_pairs_codes hascii (by rwa [List.length_map] at heven) h
    next => cases h
  · intro h
    rw [Utf8.flatMap_utf8EncodeChar h.codes_lt, List.length_map, if_pos h.even]
    exact pairs_codes_of_denotes h

/-! ## Texts without a sign -/

theorem digits_ofNat {h l : Nat} (hh : h < 16) (hl : l < 16) :
    digits (UInt8.ofNat (16 * h + l)) = [Nat.digitChar h, Nat.digitChar l] := by
  have hn : (UInt8.ofNat (16 * h + l)).toNat = 16 * h + l := by
    rw [UInt8.toNat_ofNat']
    omega
  have hhigh : (16 * h + l) / 16 = h := by omega
  have hlow : (16 * h + l) % 16 = l := by omega
  rw [digits, hn, hhigh, hlow]

theorem toList_render_cons (b : UInt8) (bytes : Bytes) :
    (render (b :: bytes)).toList = digits b ++ (render bytes).toList := by
  rw [render, String.toList_ofList, List.flatMap_cons, render, String.toList_ofList]

theorem Denotes.spells {cs : List Char} {bytes : Bytes} (h : Denotes cs bytes)
    (hplus : '+' ∉ cs) : Spells cs bytes := by
  induction h with
  | nil => rfl
  | digits hhigh hlow _ ih =>
      rw [Spells, toList_render_cons, digits_ofNat hhigh.1 hlow.1, List.map_cons, List.map_cons,
        hhigh.2, hlow.2, ih fun hmem => hplus (.tail _ (.tail _ hmem))]
      rfl
  | signed => exact absurd List.mem_cons_self hplus

theorem denotes_of_spells {cs : List Char} {bytes : Bytes} (h : Spells cs bytes) :
    Denotes cs bytes := by
  induction bytes generalizing cs with
  | nil =>
      cases List.map_eq_nil_iff.1 h
      exact .nil
  | cons b bytes ih =>
      rw [Spells, toList_render_cons, digits] at h
      obtain ⟨high, cs, rfl, hhigh, h⟩ := List.map_eq_cons_iff.1 h
      obtain ⟨low, cs, rfl, hlow, h⟩ := List.map_eq_cons_iff.1 h
      have hb : 16 * (b.toNat / 16) + b.toNat % 16 = b.toNat := Nat.div_add_mod ..
      have hlt := b.toNat_lt
      have hdenotes : Denotes (high :: low :: cs)
          (UInt8.ofNat (16 * (b.toNat / 16) + b.toNat % 16) :: bytes) :=
        .digits ⟨Nat.div_lt_of_lt_mul hlt, hhigh⟩ ⟨Nat.mod_lt _ (by decide), hlow⟩ (ih h)
      rw [hb, UInt8.ofNat_toNat] at hdenotes
      exact hdenotes

theorem Spells.isDigit {cs : List Char} {bytes : Bytes} (h : Spells cs bytes) :
    ∀ c ∈ cs, IsDigit c := by
  intro c hc
  have hmem : c.toLower ∈ (render bytes).toList := h ▸ List.mem_map_of_mem hc
  rw [render, String.toList_ofList] at hmem
  obtain ⟨b, -, hb⟩ := List.mem_flatMap.1 hmem
  rw [digits, List.mem_cons, List.mem_singleton] at hb
  obtain heq | heq := hb
  · exact ⟨b.toNat / 16, Nat.div_lt_of_lt_mul b.toNat_lt, heq⟩
  · exact ⟨b.toNat % 16, Nat.mod_lt _ (by decide), heq⟩

theorem exists_denotes : ∀ {cs : List Char}, cs.length % 2 = 0 → (∀ c ∈ cs, IsDigit c) →
    ∃ bytes, Denotes cs bytes
  | [], _, _ => ⟨[], .nil⟩
  | [c], heven, _ => absurd heven (by simp)
  | high :: low :: cs, heven, hdigits => by
      obtain ⟨⟨h, hhigh⟩, hdigits⟩ := List.forall_mem_cons.1 hdigits
      obtain ⟨⟨l, hlow⟩, hdigits⟩ := List.forall_mem_cons.1 hdigits
      rw [length_cons_cons_mod_two] at heven
      obtain ⟨bytes, rest⟩ := exists_denotes heven hdigits
      exact ⟨_, .digits hhigh hlow rest⟩

/-! ## The accepted texts -/

/-- A text is accepted if its characters other than blanks denote a byte string, which is the
answer.  The texts among these that hold no plus sign are those that spell a byte string, and they
are the texts of an even number of hexadecimal digits. -/
theorem parse_accepts (text : String) :
    (∀ bytes, parse text = .ok bytes ↔ Denotes (symbols text) bytes) ∧
    (∀ bytes, Spells (symbols text) bytes ↔ parse text = .ok bytes ∧ '+' ∉ symbols text) ∧
    (((∃ bytes, parse text = .ok bytes) ∧ '+' ∉ symbols text) ↔
      (symbols text).length % 2 = 0 ∧ ∀ c ∈ symbols text, IsDigit c) := by
  refine ⟨fun bytes => parse_eq_ok_iff, fun bytes => ⟨fun h => ?_, fun ⟨h, hplus⟩ => ?_⟩,
    fun ⟨⟨bytes, h⟩, hplus⟩ => ?_, fun ⟨heven, hdigits⟩ => ?_⟩
  · exact ⟨parse_eq_ok_iff.2 (denotes_of_spells h),
      fun hmem => not_isDigit_plus (h.isDigit _ hmem)⟩
  · exact (parse_eq_ok_iff.1 h).spells hplus
  · have hdenotes := parse_eq_ok_iff.1 h
    exact ⟨hdenotes.even, (hdenotes.spells hplus).isDigit⟩
  · obtain ⟨bytes, h⟩ := exists_denotes heven hdigits
    exact ⟨⟨bytes, parse_eq_ok_iff.2 h⟩, fun hmem => not_isDigit_plus (hdigits _ hmem)⟩

example : parse "0 0\taF" = .ok [0x00, 0xAF] := by cbv

/-- Four signs and four zeros are taken for four bytes, though a sign is no digit. -/
theorem signs_accepted :
    parse "+0+0+0+0" = .ok [0, 0, 0, 0] ∧
      ¬∀ c ∈ symbols "+0+0+0+0", IsDigit c := by
  have hzero : Digit '0' 0 := ⟨by decide, by decide⟩
  refine ⟨parse_eq_ok_iff.2 ?_, fun h => not_isDigit_plus (h '+' (by decide))⟩
  exact .signed hzero (.signed hzero (.signed hzero (.signed hzero .nil)))

end Piecemeal.Hex
