/-
# Byte strings of a known length

A byte string whose length is known is read in blocks, and one whose length stands in front of it
is read in blocks behind a check of the length.  Neither the blocks nor the chunks of the stream
show: the byte string is answered as soon as its bytes are there, nothing behind it is read, and a
length that is out of range or too large is rejected in front of the first byte.

Two relations say what is answered and what is left.

  * `Delivers n bytes outcome rest`, if the length is known: the first `n` bytes with the others
    left, or nothing yet if there are fewer.  By `ends_bytes_iff` this is what `Decoder.bytes n`
    answers.
  * `Admits max n payload outcome rest`, if a prefix announces the length `n`: a rejection that
    leaves all of `payload` if `n` is negative, not below the limit of lengths, or above `max`, and
    otherwise what `Delivers` says.  By `ends_prefixed_iff` this is what a byte string behind its
    length answers, once the decoder of the length has.

Both determine the outcome and the rest, and for all bytes there are such, so an answer is exactly
what they say.  For chunks there is no new argument: the decoders go on where they stopped,
`Splits.fed_iff`.
-/
import Piecemeal.Proofs.Resumption

namespace Piecemeal

variable {α : Type}

/-! ## Lengths -/

section

variable [CountPrefix α] {value : α}

theorem toLength_eq_ok_iff {n : Nat} :
    toLength value = .ok n ↔ CountPrefix.toInt value = n ∧ n < lengthLimit := by
  constructor
  · intro h
    rw [toLength] at h
    split at h
    next hrange =>
      cases h
      exact ⟨by omega, by omega⟩
    next => cases h
  · rintro ⟨hvalue, hrange⟩
    rw [toLength, hvalue, if_pos ⟨by omega, by omega⟩]
    rfl

theorem toLength_of_outOfRange
    (h : CountPrefix.toInt value < 0 ∨ lengthLimit ≤ CountPrefix.toInt value) :
    toLength value =
      .error (.invalidLength s!"length prefix {CountPrefix.toInt value} is out of range") := by
  rw [toLength, if_neg (by omega)]

end

namespace Decoder

/-! ## What is answered -/

/-- What is answered to the bytes, and what is left of them, if `n` are awaited. -/
inductive Delivers (n : Nat) : Bytes → Outcome Bytes → Bytes → Prop
  | whole (value rest : Bytes) : value.length = n → Delivers n (value ++ rest) (.done value) rest
  | short {bytes : Bytes} : bytes.length < n → Delivers n bytes .pending []

/-- What is answered to the bytes behind a prefix, and what is left of them, if the prefix announces
`n` and at most `max` are allowed. -/
inductive Admits (max : Option Nat) (n : Int) (payload : Bytes) : Outcome Bytes → Bytes → Prop
  | outOfRange : n < 0 ∨ lengthLimit ≤ n →
      Admits max n payload (.failed (.invalidLength s!"length prefix {n} is out of range")) payload
  | tooLong (length limit : Nat) : n = length → length < lengthLimit → max = some limit →
      limit < length →
      Admits max n payload (.failed (.invalidLength s!"length {length} exceeds maximum {limit}"))
        payload
  | admitted (length : Nat) {outcome : Outcome Bytes} {rest : Bytes} : n = length →
      length < lengthLimit → (∀ limit, max = some limit → length ≤ limit) →
      Delivers length payload outcome rest → Admits max n payload outcome rest

theorem Delivers.unique {n : Nat} {bytes rest rest' : Bytes} {outcome outcome' : Outcome Bytes}
    (h : Delivers n bytes outcome rest) (h' : Delivers n bytes outcome' rest') :
    outcome = outcome' ∧ rest = rest' := by
  cases h with
  | whole value rest hlength =>
      generalize hbytes : value ++ rest = bytes at h'
      cases h' with
      | whole _ _ hlength' =>
          obtain ⟨rfl, rfl⟩ := List.append_inj hbytes (hlength.trans hlength'.symm)
          exact ⟨rfl, rfl⟩
      | short hshort =>
          subst hbytes
          rw [List.length_append] at hshort
          omega
  | short hshort =>
      cases h' with
      | whole _ _ hlength =>
          rw [List.length_append] at hshort
          omega
      | short => exact ⟨rfl, rfl⟩

theorem Admits.unique {max : Option Nat} {n : Int} {payload rest rest' : Bytes}
    {outcome outcome' : Outcome Bytes} (h : Admits max n payload outcome rest)
    (h' : Admits max n payload outcome' rest') : outcome = outcome' ∧ rest = rest' := by
  cases h with
  | outOfRange hrange =>
      cases h' with
      | outOfRange => exact ⟨rfl, rfl⟩
      | tooLong _ _ hn hlimit => omega
      | admitted _ hn hlimit => omega
  | tooLong _ _ hn hlimit hmax hlt =>
      cases h' with
      | outOfRange hrange => omega
      | tooLong _ _ hn' _ hmax' =>
          obtain rfl := Int.ofNat_inj.1 (hn.symm.trans hn')
          cases hmax.symm.trans hmax'
          exact ⟨rfl, rfl⟩
      | admitted _ hn' _ hle =>
          have := hle _ hmax
          omega
  | admitted _ hn hlimit hle hdelivers =>
      cases h' with
      | outOfRange hrange => omega
      | tooLong _ _ hn' _ hmax =>
          have := hle _ hmax
          omega
      | admitted _ hn' _ _ hdelivers' =>
          obtain rfl := Int.ofNat_inj.1 (hn.symm.trans hn')
          exact hdelivers.unique hdelivers'

/-! ## Numbers -/

section

variable [FixedWidth α] (order : ByteOrder) {bytes : Bytes}

theorem step_number {received : Bytes} (h : ¬received.length < FixedWidth.width α) :
    (number α order).step received =
      .done (FixedWidth.ofBytes order received) (number α order).start := by
  simp only [number, if_neg h]

theorem request?_number_start (h : 0 < FixedWidth.width α) :
    ((number α order).step (number α order).start).request? =
      some (FixedWidth.width α, fun bytes => bytes) :=
  request?_number h

/-- A number is read off as many bytes as its type is wide. -/
theorem ends_number (h : FixedWidth.width α ≤ bytes.length) :
    (number α order).Ends (number α order).start bytes
      (.reached (.done (FixedWidth.ofBytes order (bytes.take (FixedWidth.width α))))
        (number α order).start (bytes.drop (FixedWidth.width α))) := by
  have hfull : ¬(bytes.take (FixedWidth.width α)).length < FixedWidth.width α := by
    rw [List.length_take]
    omega
  by_cases hzero : FixedWidth.width α = 0
  · rw [hzero, List.take_zero] at hfull ⊢
    exact (ends_of_done (step_number order (by rw [hzero]; exact hfull))).2 rfl
  · refine (ends_of_request (request?_number_start order (Nat.pos_of_ne_zero hzero))).2 ?_
    rw [if_neg (Nat.not_lt.2 h)]
    exact (ends_of_done (step_number order hfull)).2 rfl

theorem ends_number_short (h : bytes.length < FixedWidth.width α) :
    ∃ next, (number α order).Ends (number α order).start bytes (.reached .pending next []) := by
  have hrequest := request?_number_start (α := α) order (Nat.zero_lt_of_lt h)
  exact ⟨bytes, (ends_of_request hrequest).2 (by rw [if_pos h])⟩

end

/-! ## Byte strings -/

theorem exists_delivers (n : Nat) (bytes : Bytes) : ∃ outcome rest last,
    Delivers n bytes outcome rest ∧
      (Decoder.bytes n).Ends (Decoder.bytes n).start bytes (.reached outcome last rest) := by
  by_cases h : bytes.length < n
  · exact ⟨_, _, _, .short h, ends_bytes.2 (if_pos h).symm⟩
  · have hlength : (bytes.take n).length = n := by
      rw [List.length_take]
      omega
    have hdelivers := Delivers.whole (bytes.take n) (bytes.drop n) hlength
    rw [List.take_append_drop] at hdelivers
    exact ⟨_, _, _, hdelivers, ends_bytes.2 (if_neg h).symm⟩

theorem ends_bytes_iff {n : Nat} {bytes rest : Bytes} {outcome : Outcome Bytes} :
    (∃ last, (Decoder.bytes n).Ends (Decoder.bytes n).start bytes (.reached outcome last rest)) ↔
      Delivers n bytes outcome rest := by
  -- both sides determine the outcome, so one that is on both will do
  obtain ⟨outcome', rest', last', hdelivers, hends⟩ := exists_delivers n bytes
  constructor
  · rintro ⟨last, h⟩
    cases hends.unique h
    exact hdelivers
  · intro h
    obtain ⟨rfl, rfl⟩ := hdelivers.unique h
    exact ⟨last', hends⟩

/-! ## Byte strings behind their length -/

section

variable [CountPrefix α] {length : Decoder α} {max : Option Nat} {value : α}

theorem boundedLength_of_outOfRange
    (h : CountPrefix.toInt value < 0 ∨ lengthLimit ≤ CountPrefix.toInt value) :
    boundedLength max value =
      .error (.invalidLength s!"length prefix {CountPrefix.toInt value} is out of range") := by
  rw [boundedLength, toLength_of_outOfRange h]
  rfl

theorem boundedLength_of_tooLong {n limit : Nat} (hn : CountPrefix.toInt value = n)
    (hrange : n < lengthLimit) (hlimit : limit < n) :
    boundedLength (some limit) value =
      .error (.invalidLength s!"length {n} exceeds maximum {limit}") := by
  rw [boundedLength, toLength_eq_ok_iff.2 ⟨hn, hrange⟩]
  exact if_pos hlimit

theorem boundedLength_of_le {n : Nat} (hn : CountPrefix.toInt value = n)
    (hrange : n < lengthLimit) (hle : ∀ limit, max = some limit → n ≤ limit) :
    boundedLength max value = .ok n := by
  rw [boundedLength, toLength_eq_ok_iff.2 ⟨hn, hrange⟩]
  cases max with
  | none => rfl
  | some limit => exact if_neg (Nat.not_lt.2 (hle limit rfl))

variable {state next : length.State} {bytes payload : Bytes}

theorem ends_prefixed_of_pending (max : Option Nat)
    (h : length.Ends state bytes (.reached .pending next [])) :
    ∃ last, (length.prefixed max).Ends ⟨state, none⟩ bytes (.reached .pending last []) := by
  have hlength := ends_embed_of_pending (length.tryMap (boundedLength max)) length
    (fun state => state) (fun state => state) _ (fun _ => rfl) h
  exact ⟨_, ends_embed_of_pending (length.prefixed max) _ (⟨·, none⟩) (⟨·, none⟩) _ (fun _ => rfl)
    hlength⟩

theorem ends_prefixed_of_error {error : DecodeError}
    (h : length.Ends state bytes (.reached (.done value) next payload))
    (herror : boundedLength max value = .error error) :
    (length.prefixed max).Ends ⟨state, none⟩ bytes
      (.reached (.failed error) ⟨next, none⟩ payload) := by
  have hlength := (ends_tryMap_of_done h (boundedLength max)).2 rfl
  rw [herror] at hlength
  exact ends_embed_of_failed (length.prefixed max) _ (⟨·, none⟩) (⟨·, none⟩) _ (fun _ => rfl)
    hlength

theorem ends_prefixed_of_ok {n : Nat} {outcome : Outcome Bytes} {rest : Bytes}
    (h : length.Ends state bytes (.reached (.done value) next payload))
    (hok : boundedLength max value = .ok n) (hdelivers : Delivers n payload outcome rest) :
    ∃ last, (length.prefixed max).Ends ⟨state, none⟩ bytes (.reached outcome last rest) := by
  have hlength := (ends_tryMap_of_done h (boundedLength max)).2 rfl
  rw [hok] at hlength
  obtain ⟨last, hbytes⟩ := ends_bytes_iff.2 hdelivers
  obtain ⟨last', hpayload⟩ := exists_ends_andThen (d := length.tryMap (boundedLength max)) next
    hbytes
  exact ⟨last', (ends_andThen_of_done hlength Decoder.bytes).2 hpayload⟩

theorem exists_admits (max : Option Nat)
    (h : length.Ends state bytes (.reached (.done value) next payload)) :
    ∃ outcome rest last, Admits max (CountPrefix.toInt value) payload outcome rest ∧
      (length.prefixed max).Ends ⟨state, none⟩ bytes (.reached outcome last rest) := by
  by_cases hrange : CountPrefix.toInt value < 0 ∨ lengthLimit ≤ CountPrefix.toInt value
  · exact ⟨_, _, _, .outOfRange hrange,
      ends_prefixed_of_error h (boundedLength_of_outOfRange hrange)⟩
  · obtain ⟨n, hn⟩ := Int.eq_ofNat_of_zero_le (show 0 ≤ CountPrefix.toInt value by omega)
    have hrange : n < lengthLimit := by omega
    by_cases hmax : ∃ limit, max = some limit ∧ limit < n
    · obtain ⟨limit, rfl, hlimit⟩ := hmax
      exact ⟨_, _, _, .tooLong n limit hn hrange rfl hlimit,
        ends_prefixed_of_error h (boundedLength_of_tooLong hn hrange hlimit)⟩
    · have hle : ∀ limit, max = some limit → n ≤ limit := by
        intro limit hlimit
        exact Nat.not_lt.1 fun hlt => hmax ⟨limit, hlimit, hlt⟩
      obtain ⟨outcome, rest, -, hdelivers, -⟩ := exists_delivers n payload
      obtain ⟨last, hends⟩ := ends_prefixed_of_ok h (boundedLength_of_le hn hrange hle) hdelivers
      exact ⟨outcome, rest, last, .admitted n hn hrange hle hdelivers, hends⟩

/-- Behind the prefix everything is as the prefix says. -/
theorem ends_prefixed_iff (h : length.Ends state bytes (.reached (.done value) next payload))
    {outcome : Outcome Bytes} {rest : Bytes} :
    (∃ last, (length.prefixed max).Ends ⟨state, none⟩ bytes (.reached outcome last rest)) ↔
      Admits max (CountPrefix.toInt value) payload outcome rest := by
  obtain ⟨outcome', rest', last', hadmits, hends⟩ := exists_admits max h
  constructor
  · rintro ⟨last, hlast⟩
    cases hends.unique hlast
    exact hadmits
  · intro hadmits'
    obtain ⟨rfl, rfl⟩ := hadmits.unique hadmits'
    exact ⟨last', hends⟩

end

/-! ## Chunks -/

section

variable [CountPrefix α] {length : Decoder α} (max : Option Nat) {state next : length.State}
  {chunk payload : Bytes} {chunks : List Bytes} {value : α}

theorem splits_prefixed (hlength : length.Splits) : (length.prefixed max).Splits :=
  (hlength.tryMap (boundedLength max)).andThen splits_bytes

theorem fed_prefixed_of_pending (hlength : length.Splits)
    (h : length.Ends state (chunk ++ chunks.flatten) (.reached .pending next [])) :
    ∃ last, (length.prefixed max).Fed ⟨state, none⟩ (chunk :: chunks)
      (.reached .pending last []) := by
  obtain ⟨last, hends⟩ := ends_prefixed_of_pending max h
  exact ⟨last, (splits_prefixed max hlength).fed_iff.2 hends⟩

theorem fed_prefixed_iff (hlength : length.Splits)
    (h : length.Ends state (chunk ++ chunks.flatten) (.reached (.done value) next payload))
    (outcome : Outcome Bytes) (rest : Bytes) :
    (∃ last, (length.prefixed max).Fed ⟨state, none⟩ (chunk :: chunks)
        (.reached outcome last rest)) ↔
      Admits max (CountPrefix.toInt value) payload outcome rest :=
  (exists_congr fun _ => (splits_prefixed max hlength).fed_iff).trans (ends_prefixed_iff h)

end

/-! ## The property -/

/-- Byte strings are as long as they are said to be, however the stream is cut.  One of `n` bytes is
answered when they are there, and nothing behind it is read.  One behind a prefix is rejected, with
nothing behind the prefix read, exactly if the announced length is negative, not below the limit of
all lengths, or more than the maximum; otherwise it is as one of the announced length.  The prefix
may be what any decoder answers that goes on where it stopped.  If it is a number, of any type and
order, it is read off as many bytes as its type is wide. -/
theorem payload_exact (chunk : Bytes) (chunks : List Bytes) :
    let stream := chunk ++ chunks.flatten
    (∀ n outcome rest, (∃ last, (bytes n).Fed (bytes n).start (chunk :: chunks)
        (.reached outcome last rest)) ↔ Delivers n stream outcome rest) ∧
    (∀ {α : Type} [CountPrefix α] (length : Decoder α) (max : Option Nat) (state : length.State),
      length.Splits →
      (∀ next, length.Ends state stream (.reached .pending next []) →
        ∃ last, (length.prefixed max).Fed ⟨state, none⟩ (chunk :: chunks)
          (.reached .pending last [])) ∧
      ∀ value next payload, length.Ends state stream (.reached (.done value) next payload) →
        ∀ outcome rest, (∃ last, (length.prefixed max).Fed ⟨state, none⟩ (chunk :: chunks)
          (.reached outcome last rest)) ↔
            Admits max (CountPrefix.toInt value) payload outcome rest) ∧
    ∀ {α : Type} [FixedWidth α] [CountPrefix α] (order : ByteOrder) (max : Option Nat),
      let d := (number α order).prefixed max
      let width := FixedWidth.width α
      (stream.length < width →
        ∃ last, d.Fed d.start (chunk :: chunks) (.reached .pending last [])) ∧
      (width ≤ stream.length → ∀ outcome rest,
        (∃ last, d.Fed d.start (chunk :: chunks) (.reached outcome last rest)) ↔
          Admits max (CountPrefix.toInt (FixedWidth.ofBytes (α := α) order (stream.take width)))
            (stream.drop width) outcome rest) := by
  intro stream
  refine ⟨?_, ?_, ?_⟩
  · intro n outcome rest
    exact (exists_congr fun _ => (splits_bytes n).fed_iff).trans ends_bytes_iff
  · intro α _ length max state hlength
    refine ⟨?_, ?_⟩
    · intro next hpending
      exact fed_prefixed_of_pending max hlength hpending
    · intro value next payload hdone
      exact fed_prefixed_iff max hlength hdone
  · intro α _ _ order max d width
    have hnumber := splits_number α order
    refine ⟨?_, ?_⟩
    · intro hshort
      obtain ⟨next, hpending⟩ := ends_number_short order hshort
      exact fed_prefixed_of_pending max hnumber hpending
    · intro hwidth
      exact fed_prefixed_iff max hnumber (ends_number order hwidth)

/-- Two bytes, cut; two bytes behind their length, cut in the length and behind it; a negative length;
and a length above the maximum. -/
theorem payload_exact_cut :
    (∃ last, (bytes 2).Fed (bytes 2).start [[7], [8, 9]] (.reached (.done [7, 8]) last [9])) ∧
    (let d := (number Int16 .big).prefixed (some 2)
      ∃ last, d.Fed d.start [[0], [2, 7], [8, 9]] (.reached (.done [7, 8]) last [9])) ∧
    (let d := (number Int8 .big).prefixed none
      ∃ last, d.Fed d.start [[255, 7]]
        (.reached (.failed (.invalidLength "length prefix -1 is out of range")) last [7])) ∧
    (let d := (number UInt8 .big).prefixed (some 1)
      ∃ last, d.Fed d.start [[2], [7]]
        (.reached (.failed (.invalidLength "length 2 exceeds maximum 1")) last [7])) := by
  refine ⟨?_, ?_, ?_, ?_⟩
  · obtain ⟨hbytes, -⟩ := payload_exact [7] [[8, 9]]
    exact (hbytes 2 _ _).2 (.whole [7, 8] [9] rfl)
  · obtain ⟨-, -, hnumber⟩ := payload_exact [0] [[2, 7], [8, 9]]
    refine ((hnumber (α := Int16) .big (some 2)).2 (by decide) _ _).2 ?_
    refine .admitted 2 (by decide) (by decide) ?_ (.whole [7, 8] [9] rfl)
    rintro _ ⟨⟩
    exact Nat.le_refl 2
  · obtain ⟨-, -, hnumber⟩ := payload_exact [255, 7] []
    exact ((hnumber (α := Int8) .big none).2 (by decide) _ _).2 (.outOfRange (.inl (by decide)))
  · obtain ⟨-, hlength, -⟩ := payload_exact [2] [[7]]
    have hprefix : (number UInt8 .big).Ends (number UInt8 .big).start ([2, 7] : Bytes)
        (.reached (.done 2) (number UInt8 .big).start [7]) := by
      have hwidth : FixedWidth.width UInt8 ≤ ([2, 7] : Bytes).length := by decide
      exact ends_number .big hwidth
    refine ((hlength (number UInt8 .big) (some 1) _ (splits_number UInt8 .big)).2 2 _ [7] hprefix
      _ _).2 ?_
    exact .tooLong 2 1 (by decide) (by decide) rfl (by decide)

end Decoder

end Piecemeal
