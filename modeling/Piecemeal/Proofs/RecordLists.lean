/-
# Record lists come back from their encodings

The decoder of record lists is settled on every byte string.

  * It answers a list exactly to the encoding of the list, with anything behind it.
  * It is pending exactly on what is cut off from the encoding of a list, where no name that is
    complete is anything but text, `Cut`.
  * All other bytes are rejected, for the first name that is complete and no text, and what follows
    this name is left, `Faulty`.

Encodings are taken of raw records here, whose names may be any bytes.  Each byte string goes along
with the encoding of some list of these,

    ∃ raws, Bounded raws ∧ Along bytes (encodeAll (segments raws))               (`exists_along`)

that is, one of the two begins with the other.  On such bytes the evaluation of the recipe follows
the scan of the encoding, `reads_value`, so what the decoder answers is what the scan says, with
the list in the place of its value, `answers_iff_scan`.  From there on it is a matter of scans,
which are complete, cut off or at fault.  A list of records is a list of raw records whose names
are text.
-/
import Mathlib.Algebra.Group.Nat.Defs
import Mathlib.Data.List.Basic
import Mathlib.Data.List.Induction
import Piecemeal.Proofs.Payloads
import Piecemeal.Proofs.Segments
import Piecemeal.Records

namespace Piecemeal

/-! ## Counts and lengths -/

theorem Bytes.toNat_append_singleton (bytes : Bytes) (b : UInt8) :
    Bytes.toNat (bytes ++ [b]) = Bytes.toNat bytes * 256 + b.toNat := by
  simp [Bytes.toNat]

theorem Bytes.toNat_ofNat {width n : Nat} (h : n < 256 ^ width) :
    Bytes.toNat (Bytes.ofNat width n) = n := by
  induction width generalizing n with
  | zero =>
      obtain rfl : n = 0 := by simpa using h
      rfl
  | succ width ih =>
      have hdiv : n / 256 < 256 ^ width := by
        rw [Nat.pow_succ] at h
        omega
      rw [Bytes.ofNat, toNat_append_singleton, ih hdiv, UInt8.toNat_ofNat']
      omega

theorem Bytes.ofNat_toNat (bytes : Bytes) :
    Bytes.ofNat bytes.length (Bytes.toNat bytes) = bytes := by
  induction bytes using List.reverseRecOn with
  | nil => rfl
  | append_singleton bytes b ih =>
      have hdiv : (Bytes.toNat bytes * 256 + b.toNat) / 256 = Bytes.toNat bytes := by
        have := b.toNat_lt
        omega
      have hlast : UInt8.ofNat (Bytes.toNat bytes * 256 + b.toNat) = b := by
        apply UInt8.toNat_inj.1
        have := b.toNat_lt
        rw [UInt8.toNat_ofNat']
        omega
      rw [List.length_append, List.length_singleton, Bytes.ofNat, toNat_append_singleton, hdiv, ih,
        hlast]

theorem Bytes.toNat_lt (bytes : Bytes) : Bytes.toNat bytes < 256 ^ bytes.length := by
  induction bytes using List.reverseRecOn with
  | nil => exact Nat.one_pos
  | append_singleton bytes b ih =>
      have := b.toNat_lt
      rw [toNat_append_singleton, List.length_append, List.length_singleton, Nat.pow_succ]
      omega

theorem Collector.collect_toList {ε : Type} (target : Option Nat) (elements : List ε) :
    toList.collect target elements = elements := by
  have hfold : ∀ first collected, (elements.zipIdx first).foldl
      (fun collected e => e.1 :: collected) collected = elements.reverse ++ collected := by
    induction elements with
    | nil =>
        intro first collected
        rfl
    | cons element elements ih =>
        intro first collected
        rw [List.zipIdx_cons, List.foldl_cons, ih]
        simp
  exact (congrArg List.reverse (hfold 0 [])).trans (by simp)

namespace Records

open Segment (encodeAll)

/-! ## Raw records -/

/-- A record whose names may be any bytes. -/
structure RawRecord where
  firstName : Bytes
  lastName : Bytes
  age : UInt8
  height : UInt8

/-- The text that the bytes encode, if they do. -/
def textOf (bytes : Bytes) : String :=
  match Utf8.decode bytes with
  | .ok text => text
  | .error _ => ""

theorem textOf_encode (text : String) : textOf (Utf8.encode text) = text := by
  rw [textOf, Utf8.decode_encode]

namespace RawRecord

def segments (raw : RawRecord) : List Segment :=
  [.name raw.firstName, .name raw.lastName, .plain [raw.age], .plain [raw.height]]

/-- The record, if its names are text. -/
def record (raw : RawRecord) : Record :=
  ⟨textOf raw.firstName, textOf raw.lastName, raw.age, raw.height⟩

/-- The lengths of the names fit in a byte. -/
def Bounded (raw : RawRecord) : Prop :=
  raw.firstName.length ≤ 255 ∧ raw.lastName.length ≤ 255

end RawRecord

def RawRecord.ofRecord (record : Record) : RawRecord :=
  ⟨Utf8.encode record.firstName, Utf8.encode record.lastName, record.age, record.height⟩

/-- The message of these records, piece by piece. -/
def segments (raws : List RawRecord) : List Segment :=
  .plain (Bytes.ofNat 4 raws.length) :: raws.flatMap RawRecord.segments

/-- The count fits in four bytes, and the lengths of the names in one. -/
def Bounded (raws : List RawRecord) : Prop :=
  raws.length < 4294967296 ∧ ∀ raw ∈ raws, raw.Bounded

/-! ## Evaluating the recipe -/

section Evaluation

variable {fuel : Nat}

theorem reads_byte (hfuel : 2 ≤ fuel) (b : UInt8) :
    Reads ((Decoder.number UInt8 .big).evaluate fuel) [.plain [b]] b := by
  obtain ⟨fuel, rfl⟩ : ∃ k, fuel = k + 2 := ⟨fuel - 2, by omega⟩
  refine .of_segment ?_ fun rest => Decoder.evaluate_byte fuel b rest
  intro bytes _ hlt
  obtain rfl : bytes = [] := List.eq_nil_of_length_eq_zero (Nat.lt_one_iff.1 hlt)
  rfl

theorem reads_count (hfuel : 2 ≤ fuel) {n : Nat} (hn : n < 4294967296) :
    Reads (((Decoder.number UInt32 .big).tryMap toLength).evaluate fuel)
      [.plain (Bytes.ofNat 4 n)] n := by
  have hnumber : ∀ bytes, (Decoder.number UInt32 .big).evaluate 2 bytes =
      if bytes.length < 4 then .reached .pending () []
      else .answer (UInt32.ofNat (Bytes.toNat (bytes.take 4))) (bytes.drop 4) :=
    Decoder.evaluate_number .big (by decide) 0
  have hevaluate : ∀ bytes, ((Decoder.number UInt32 .big).tryMap toLength).evaluate fuel bytes =
      ((Decoder.number UInt32 .big).evaluate 2 bytes).bind fun value rest =>
        .reached (.ofExcept (toLength value)) () rest := by
    intro bytes
    refine Decoder.evaluate_tryMap toLength ?_ hfuel
    rw [hnumber]
    split <;> exact Run.reached_ne_exhausted
  have hlength : toLength (UInt32.ofNat n) = .ok n :=
    toLength_eq_ok_iff.2 ⟨by simp [CountPrefix.toInt, Nat.mod_eq_of_lt hn],
      Nat.lt_trans hn (by decide)⟩
  have hlen : (Segment.plain (Bytes.ofNat 4 n)).encode.length = 4 := Bytes.length_ofNat 4 n
  refine .of_segment ?_ ?_
  · intro bytes _ hlt
    rw [hevaluate, hnumber, if_pos (by omega)]
    rfl
  · intro rest
    rw [hevaluate, hnumber, if_neg (by rw [List.length_append]; omega), List.take_left' hlen,
      List.drop_left' hlen, Segment.encode, Bytes.toNat_ofNat (by omega), Run.answer_bind, hlength]
    rfl

theorem evaluate_prefixed (hfuel : 4 ≤ fuel) (length : UInt8) (bytes : Bytes) :
    ((Decoder.number UInt8 .big).prefixed none).evaluate fuel (length :: bytes) =
      if bytes.length < length.toNat then .reached .pending () []
      else .answer (bytes.take length.toNat) (bytes.drop length.toNat) := by
  have hbounded : Decoder.boundedLength none length = .ok length.toNat := by
    rw [Decoder.boundedLength, toLength_eq_ok_iff.2
      ⟨rfl, Nat.lt_trans length.toNat_lt (by decide)⟩]
    rfl
  have hlength : ((Decoder.number UInt8 .big).tryMap (Decoder.boundedLength none)).evaluate 2
      (length :: bytes) = .answer length.toNat bytes := by
    have hbyte := Decoder.evaluate_byte 0 length bytes
    have hne : (Decoder.number UInt8 .big).evaluate 2 (length :: bytes) ≠ .exhausted := by
      rw [hbyte]
      intro h
      cases h
    rw [Decoder.evaluate_tryMap _ hne (Nat.le_refl 2), hbyte, Run.answer_bind, hbounded]
    rfl
  have hblock : length.toNat ≤ Decoder.fillBlock :=
    Nat.le_trans (Nat.le_of_lt length.toNat_lt) (by decide)
  have hchain : ((Decoder.number UInt8 .big).prefixed none).evaluate fuel (length :: bytes) =
      (((Decoder.number UInt8 .big).tryMap (Decoder.boundedLength none)).evaluate 2
        (length :: bytes)).bind fun n rest =>
          if rest.length < n then .reached .pending () []
          else .answer (rest.take n) (rest.drop n) := by
    refine Decoder.evaluate_andThen ?_ ?_ (show 2 + 2 ≤ fuel from hfuel)
    · rw [hlength]
      intro h
      cases h
    · intro n rest hn steps hsteps
      rw [hlength] at hn
      obtain ⟨rfl, rfl⟩ := Run.answer_inj.1 hn
      obtain ⟨steps, rfl⟩ : ∃ k, steps = k + 2 := ⟨steps - 2, by omega⟩
      exact Decoder.evaluate_bytes hblock steps bytes
  rw [hchain, hlength]
  rfl

theorem reads_name (hfuel : 4 ≤ fuel) {bytes : Bytes} (h : bytes.length ≤ 255) :
    Reads (name.evaluate fuel) [.name bytes] (textOf bytes) := by
  have hnil : ((Decoder.number UInt8 .big).prefixed none).evaluate 4 [] =
      .reached .pending () [] := rfl
  have hevaluate : ∀ bytes, name.evaluate fuel bytes =
      (((Decoder.number UInt8 .big).prefixed none).evaluate 4 bytes).bind fun value rest =>
        .reached (.ofExcept ((Utf8.decode value).mapError .invalidUtf8)) () rest := by
    intro bytes
    refine Decoder.evaluate_tryMap _ ?_ hfuel
    cases bytes with
    | nil =>
        rw [hnil]
        exact Run.reached_ne_exhausted
    | cons length bytes =>
        rw [evaluate_prefixed (Nat.le_refl 4)]
        split <;> exact Run.reached_ne_exhausted
  have hlength : (UInt8.ofNat bytes.length).toNat = bytes.length := by
    rw [UInt8.toNat_ofNat']
    omega
  refine .of_segment ?_ ?_
  · intro bytes' hpre hlt
    rw [hevaluate]
    cases bytes' with
    | nil => rw [hnil]; rfl
    | cons length bytes' =>
        obtain rfl := (List.cons_prefix_cons.1 hpre).1
        have hshort : bytes'.length < bytes.length := Nat.lt_of_succ_lt_succ hlt
        rw [evaluate_prefixed (Nat.le_refl 4), hlength, if_pos hshort]
        rfl
  · intro rest
    rw [hevaluate, Segment.encode, List.cons_append, evaluate_prefixed (Nat.le_refl 4), hlength,
      if_neg (by rw [List.length_append]; omega), List.take_left, List.drop_left, Run.answer_bind,
      Segment.check, textOf]
    cases Utf8.decode bytes <;> rfl

theorem reads_record (hfuel : 4 ≤ fuel) {raw : RawRecord} (h : raw.Bounded) (limit active : Nat)
    (nested : Nat → Bytes → Run Unit Bytes (ValueType.list record).Carrier) :
    Reads (fun bytes => (recordRecipe.evaluate limit fuel nested active bytes).bind (latest record))
      raw.segments raw.record := by
  have hfirst : Reads ((Recipe.first .text name).evaluate limit fuel nested active)
      [.name raw.firstName] [⟨.text, textOf raw.firstName⟩] := (reads_name hfuel h.1).map _
  have hlast := hfirst.act (.decode .text name) ((reads_name hfuel h.2).map _)
  have hage := hlast.act (.decode .uint8 (.number UInt8 .big))
    ((reads_byte (by omega) raw.age).map _)
  have hheight := hage.act (.decode .uint8 (.number UInt8 .big))
    ((reads_byte (by omega) raw.height).map _)
  have hrecord : Reads (recordRecipe.evaluate limit fuel nested active) raw.segments
      [⟨record, raw.record⟩] := hheight.act _ fun _ _ => rfl
  exact hrecord.latest

theorem reads_elements (size : Decoder Nat) {body : Bytes → Run Unit Bytes Record}
    {raws : List RawRecord} (hbody : ∀ raw ∈ raws, Reads body raw.segments raw.record)
    (hfuel : raws.length < fuel) :
    Reads ((Bound.prefixed size).elements body fuel (some raws.length))
      (raws.flatMap RawRecord.segments) (raws.map RawRecord.record) := by
  induction raws generalizing fuel with
  | nil =>
      obtain ⟨fuel, rfl⟩ : ∃ k, fuel = k + 1 := ⟨fuel - 1, by omega⟩
      intro bytes _
      rfl
  | cons raw raws ih =>
      obtain ⟨fuel, rfl⟩ : ∃ k, fuel = k + 1 := ⟨fuel - 1, by omega⟩
      obtain ⟨hraw, hraws⟩ := List.forall_mem_cons.1 hbody
      have hrest := ih hraws (by simpa using hfuel)
      intro bytes h
      rw [Bound.elements, if_neg (by simp)]
      exact hraw.bind (fun value rest =>
        ((Bound.prefixed size).elements body fuel (some raws.length) rest).map (value :: ·))
        (hrest.map (raw.record :: ·)) bytes h

theorem reads_value {raws : List RawRecord} (h : Bounded raws) (hfuel : raws.length + 4 ≤ fuel)
    {limit : Nat} (hlimit : 0 < limit) :
    Reads (recipe.value limit (fuel + 1) 0) (segments raws) (raws.map RawRecord.record) := by
  have hcount := (reads_count (by omega : 2 ≤ fuel) h.1).map some
  have hbody : ∀ raw ∈ raws, Reads (fun bytes =>
      (recordRecipe.evaluate limit fuel (recipe.value limit fuel) 1 bytes).bind (latest record))
        raw.segments raw.record :=
    fun raw hraw => reads_record (by omega) (h.2 raw hraw) limit 1 _
  have helements := reads_elements ((Decoder.number UInt32 .big).tryMap toLength) hbody
    (by omega : raws.length < fuel)
  have hall := hcount.bind (fun target rest => (Bound.elements _ _ fuel target rest).map
    fun elements => ([⟨.list record, Collector.toList.collect target elements⟩] : List (Cell Kind)))
    (helements.map _)
  have hcollect : (⟨.list record, Collector.toList.collect (some raws.length)
      (raws.map RawRecord.record)⟩ : Cell Kind) = ⟨.list record, raws.map RawRecord.record⟩ :=
    congrArg (Cell.mk (.list record)) (Collector.collect_toList ..)
  have hrecipe : Reads (recipe.evaluate limit fuel (recipe.value limit fuel) 0) (segments raws)
      [⟨.list record, raws.map RawRecord.record⟩] := by
    intro bytes hbytes
    show Run.within limit 0 bytes _ = _
    rw [Run.within, if_pos hlimit]
    exact (hall bytes hbytes).trans
      (congrArg (fun cell => (scan (segments raws) bytes).map fun _ => [cell]) hcollect)
  exact hrecipe.latest

end Evaluation

/-! ## Every byte string goes along with a message -/

theorem exists_along_length (n : Nat) (bytes : Bytes) :
    ∃ given : Bytes, given.length = n ∧ Along bytes given := by
  by_cases h : bytes.length ≤ n
  · refine ⟨bytes ++ List.replicate (n - bytes.length) 0, ?_, .inl (List.prefix_append ..)⟩
    rw [List.length_append, List.length_replicate]
    omega
  · refine ⟨bytes.take n, ?_, .inr (List.take_prefix n bytes)⟩
    rw [List.length_take]
    omega

theorem exists_along_name (bytes : Bytes) :
    ∃ name : Bytes, name.length ≤ 255 ∧ Along bytes (Segment.encode (.name name)) := by
  cases bytes with
  | nil => exact ⟨[], Nat.zero_le _, .inl List.nil_prefix⟩
  | cons length bytes =>
      obtain ⟨name, hlength, halong⟩ := exists_along_length length.toNat bytes
      have hbyte := length.toNat_lt
      refine ⟨name, by omega, ?_⟩
      rw [Segment.encode, hlength, UInt8.ofNat_toNat]
      exact halong.imp (fun h => List.cons_prefix_cons.2 ⟨rfl, h⟩)
        fun h => List.cons_prefix_cons.2 ⟨rfl, h⟩

/-- What goes along with one part of a message goes along with it and one more. -/
theorem exists_along_append {α β : Type} {P : α → Prop} {Q : β → Prop} {f : α → Bytes}
    {g : β → Bytes} (hf : ∀ bytes, ∃ x, P x ∧ Along bytes (f x))
    (hg : ∀ bytes, ∃ y, Q y ∧ Along bytes (g y)) (bytes : Bytes) :
    ∃ z : α × β, (P z.1 ∧ Q z.2) ∧ Along bytes (f z.1 ++ g z.2) := by
  obtain ⟨x, hx, halong⟩ := hf bytes
  rcases halong with hpre | ⟨rest, rfl⟩
  · obtain ⟨y, hy, -⟩ := hg []
    exact ⟨(x, y), ⟨hx, hy⟩, .inl (hpre.trans (List.prefix_append ..))⟩
  · obtain ⟨y, hy, hrest⟩ := hg rest
    exact ⟨(x, y), ⟨hx, hy⟩, hrest.append_left (f x)⟩

theorem exists_along_record (bytes : Bytes) :
    ∃ raw : RawRecord, raw.Bounded ∧ Along bytes (encodeAll raw.segments) := by
  obtain ⟨⟨firstName, lastName, given⟩, ⟨hfirst, hlast, hgiven⟩, halong⟩ :=
    exists_along_append exists_along_name
      (exists_along_append exists_along_name (exists_along_length 2)) bytes
  obtain ⟨age, height, rfl⟩ := List.length_eq_two.1 hgiven
  exact ⟨⟨firstName, lastName, age, height⟩, ⟨hfirst, hlast⟩, halong⟩

theorem exists_along_records (n : Nat) (bytes : Bytes) :
    ∃ raws : List RawRecord, (raws.length = n ∧ ∀ raw ∈ raws, raw.Bounded) ∧
      Along bytes (encodeAll (raws.flatMap RawRecord.segments)) := by
  induction n generalizing bytes with
  | zero => exact ⟨[], ⟨rfl, fun _ h => nomatch h⟩, .inr List.nil_prefix⟩
  | succ n ih =>
      obtain ⟨⟨raw, raws⟩, ⟨hraw, hlength, hraws⟩, halong⟩ :=
        exists_along_append exists_along_record ih bytes
      refine ⟨raw :: raws, ⟨congrArg Nat.succ hlength, List.forall_mem_cons.2 ⟨hraw, hraws⟩⟩, ?_⟩
      rw [List.flatMap_cons, Segment.encodeAll_append]
      exact halong

/-- Whatever the bytes are, there is a message that they begin or that they begin with. -/
theorem exists_along (bytes : Bytes) :
    ∃ raws, Bounded raws ∧ Along bytes (encodeAll (segments raws)) := by
  obtain ⟨count, hcount, halong⟩ := exists_along_length 4 bytes
  have hlt := Bytes.toNat_lt count
  rw [hcount] at hlt
  -- the first four bytes say how many records there have to be
  have hsegments : ∀ raws : List RawRecord, raws.length = Bytes.toNat count →
      encodeAll (segments raws) = count ++ encodeAll (raws.flatMap RawRecord.segments) := by
    intro raws hlength
    rw [segments, Segment.encodeAll_cons, Segment.encode, hlength, ← hcount, Bytes.ofNat_toNat]
  rcases halong with hpre | ⟨rest, rfl⟩
  · obtain ⟨raws, ⟨hlength, hraws⟩, -⟩ := exists_along_records (Bytes.toNat count) []
    refine ⟨raws, ⟨by omega, hraws⟩, ?_⟩
    rw [hsegments raws hlength]
    exact .inl (hpre.trans (List.prefix_append ..))
  · obtain ⟨raws, ⟨hlength, hraws⟩, hrest⟩ := exists_along_records (Bytes.toNat count) rest
    refine ⟨raws, ⟨by omega, hraws⟩, ?_⟩
    rw [hsegments raws hlength]
    exact hrest.append_left count

/-! ## The property -/

theorem recipe_accepted : recipe.Accepted := by
  have hrecord : recordRecipe.Accepted :=
    .reduceRow [.text, .text, .uint8, .uint8] record _
      (.decode .uint8 (.number UInt8 .big) (.decode .uint8 (.number UInt8 .big)
        (.decode .text name (.first .text name)))) rfl
  exact .repeated record (.list record) _ _ hrecord rfl

theorem ofRecipe : program.OfRecipe recipe := recipe_accepted.ofRecipe rfl

/-- On bytes that go along with a message the decoder answers what the scan of the message says. -/
theorem answers_iff_scan {raws : List RawRecord} (h : Bounded raws) {bytes : Bytes}
    (halong : Along bytes (encodeAll (segments raws))) {outcome : Outcome (List Record)}
    {rest : Bytes} :
    decoder.Answers bytes outcome rest ↔
      (scan (segments raws) bytes).map (fun _ => raws.map RawRecord.record) =
        .reached outcome () rest := by
  have hvalue := reads_value h (Nat.le_refl _) program.maxDepth_pos bytes halong
  have hfinite : recipe.value program.maxDepth (raws.length + 4 + 1) 0 bytes ≠ .exhausted := by
    have hscanned := scanned_scan halong
    rw [hvalue]
    generalize scan (segments raws) bytes = run at hscanned
    cases hscanned <;> exact Run.reached_ne_exhausted
  exact (Machine.answers_iff ofRecipe hfinite).trans (by rw [hvalue]; rfl)

/-- Bytes that are cut off from the message of some records.  Their names need not be text where
they are not complete. -/
def Cut (bytes : Bytes) : Prop :=
  ∃ raws, Bounded raws ∧ bytes <+: encodeAll (segments raws) ∧ bytes ≠ encodeAll (segments raws) ∧
    ∀ before name rest, Complete (segments raws) before name bytes rest → Utf8.WellFormed name

/-- Of the names in a message that are complete this one is the first that is no text, and `rest`
follows it. -/
def Faulty (bytes name rest : Bytes) : Prop :=
  ∃ raws before, Bounded raws ∧ Along bytes (encodeAll (segments raws)) ∧
    Complete (segments raws) before name bytes rest ∧ (∀ segment ∈ before, segment.Sound) ∧
    ¬Utf8.WellFormed name

/-! ### Records as raw records -/

theorem record_ofRecord (record : Record) : (RawRecord.ofRecord record).record = record := by
  rw [RawRecord.ofRecord, RawRecord.record, textOf_encode, textOf_encode]

theorem map_record_ofRecord (records : List Record) :
    (records.map RawRecord.ofRecord).map RawRecord.record = records := by
  rw [List.map_map]
  exact (List.map_congr_left fun record _ => record_ofRecord record).trans (List.map_id records)

theorem encodeAll_ofRecord (record : Record) :
    encodeAll (RawRecord.ofRecord record).segments = encodeRecord record := by
  simp [RawRecord.ofRecord, RawRecord.segments, Segment.encode, encodeRecord, encodeName]

theorem encodeAll_segments (records : List Record) :
    encodeAll (segments (records.map RawRecord.ofRecord)) = encode records := by
  rw [segments, Segment.encodeAll_cons, List.length_map, List.flatMap_map, encodeAll,
    List.flatMap_assoc]
  exact congrArg (Bytes.ofNat 4 records.length ++ records.flatMap ·) (funext encodeAll_ofRecord)

theorem sound_segments (records : List Record) :
    ∀ segment ∈ segments (records.map RawRecord.ofRecord), segment.Sound := by
  intro segment hsegment
  rcases List.mem_cons.1 hsegment with rfl | hsegment
  · trivial
  · rw [List.flatMap_map] at hsegment
    obtain ⟨record, -, hsegment⟩ := List.mem_flatMap.1 hsegment
    simp only [RawRecord.segments, RawRecord.ofRecord, List.mem_cons, List.not_mem_nil,
      or_false] at hsegment
    rcases hsegment with rfl | rfl | rfl | rfl
    · exact ⟨record.firstName, rfl⟩
    · exact ⟨record.lastName, rfl⟩
    · trivial
    · trivial

theorem ofRecord_record {raw : RawRecord} (h : ∀ segment ∈ raw.segments, segment.Sound) :
    RawRecord.ofRecord raw.record = raw := by
  obtain ⟨firstName, lastName, age, height⟩ := raw
  obtain ⟨first, rfl⟩ : Utf8.WellFormed firstName :=
    h (.name firstName) (by simp [RawRecord.segments])
  obtain ⟨last, rfl⟩ : Utf8.WellFormed lastName :=
    h (.name lastName) (by simp [RawRecord.segments])
  rw [RawRecord.record, textOf_encode, textOf_encode, RawRecord.ofRecord]

theorem map_ofRecord_record {raws : List RawRecord}
    (h : ∀ segment ∈ segments raws, segment.Sound) :
    (raws.map RawRecord.record).map RawRecord.ofRecord = raws := by
  rw [List.map_map]
  refine (List.map_congr_left fun raw hraw => ofRecord_record ?_).trans (List.map_id raws)
  intro segment hsegment
  exact h segment (List.mem_cons_of_mem _ (List.mem_flatMap.2 ⟨raw, hraw, hsegment⟩))

/-! ### The three cases -/

theorem answers_encode {records : List Record} (h : Bounded (records.map RawRecord.ofRecord))
    (rest : Bytes) : decoder.Answers (encode records ++ rest) (.done records) rest := by
  have hscan := scan_encodeAll (sound_segments records) rest
  rw [encodeAll_segments] at hscan
  rw [answers_iff_scan h (.inr (by rw [encodeAll_segments]; exact List.prefix_append ..)), hscan,
    Run.answer_map, map_record_ofRecord]
  rfl

theorem Cut.answers {bytes : Bytes} (h : Cut bytes) : decoder.Answers bytes .pending [] := by
  obtain ⟨raws, hraws, hpre, hne, hcomplete⟩ := h
  have hscanned := scanned_scan (.inl hpre)
  rw [answers_iff_scan hraws (.inl hpre)]
  generalize scan (segments raws) bytes = run at hscanned
  cases hscanned with
  | whole rest hbytes _ =>
      have hrest : rest = [] := by
        have hlength := hpre.length_le
        rw [hbytes, List.length_append] at hlength
        exact List.eq_nil_of_length_eq_zero (by omega)
      rw [hrest, List.append_nil] at hbytes
      exact absurd hbytes hne
  | cut => rfl
  | fault h _ hname => exact absurd (hcomplete _ _ _ h) hname

theorem Faulty.answers {bytes name rest : Bytes} (h : Faulty bytes name rest) :
    decoder.Answers bytes (.failed (.invalidUtf8 (Utf8.locate 0 name))) rest := by
  obtain ⟨raws, before, hraws, halong, hcomplete, hbefore, hname⟩ := h
  rw [answers_iff_scan hraws halong, hcomplete.scan_eq hbefore hname]
  rfl

theorem encoded_or_cut_or_faulty (bytes : Bytes) :
    (∃ records rest, Bounded (records.map RawRecord.ofRecord) ∧ bytes = encode records ++ rest) ∨
      Cut bytes ∨ ∃ name rest, Faulty bytes name rest := by
  obtain ⟨raws, hraws, halong⟩ := exists_along bytes
  have hscanned := scanned_scan halong
  generalize scan (segments raws) bytes = run at hscanned
  cases hscanned with
  | whole rest hbytes hsound =>
      have hrecords := map_ofRecord_record hsound
      refine .inl ⟨raws.map RawRecord.record, rest, ?_, ?_⟩
      · rw [hrecords]
        exact hraws
      · rw [← encodeAll_segments, hrecords]
        exact hbytes
  | cut hpre hne hcomplete => exact .inr (.inl ⟨raws, hraws, hpre, hne, hcomplete⟩)
  | @fault before name rest hcomplete hbefore hname =>
      exact .inr (.inr ⟨name, rest, raws, before, hraws, halong, hcomplete, hbefore, hname⟩)

/-- What the decoder of record lists answers to any byte string: to the encoding of a list with
anything behind it, the list; to what is cut off from a message, that it needs more; and in the one
case that is left, that a name is no text, and it leaves what follows the name. -/
theorem answers_classified (bytes : Bytes) :
    (∀ records rest, decoder.Answers bytes (.done records) rest ↔
      Bounded (records.map RawRecord.ofRecord) ∧ bytes = encode records ++ rest) ∧
    (∀ rest, decoder.Answers bytes .pending rest ↔ Cut bytes ∧ rest = []) ∧
    (∀ name rest, Faulty bytes name rest →
      decoder.Answers bytes (.failed (.invalidUtf8 (Utf8.locate 0 name))) rest) ∧
    ((∃ records rest, Bounded (records.map RawRecord.ofRecord) ∧ bytes = encode records ++ rest) ∨
      Cut bytes ∨ ∃ name rest, Faulty bytes name rest) := by
  have hcases := encoded_or_cut_or_faulty bytes
  refine ⟨?_, ?_, fun name rest h => h.answers, hcases⟩
  · intro records rest
    constructor
    · intro h
      rcases hcases with ⟨records', rest', hbounded, hbytes⟩ | hcut | ⟨name, rest', hfaulty⟩
      · have hencoded := answers_encode hbounded rest'
        rw [← hbytes] at hencoded
        obtain ⟨houtcome, rfl⟩ := h.unique hencoded
        cases houtcome
        exact ⟨hbounded, hbytes⟩
      · cases (h.unique hcut.answers).1
      · cases (h.unique hfaulty.answers).1
    · rintro ⟨hbounded, rfl⟩
      exact answers_encode hbounded rest
  · intro rest
    constructor
    · intro h
      rcases hcases with ⟨records, rest', hbounded, rfl⟩ | hcut | ⟨name, rest', hfaulty⟩
      · cases (h.unique (answers_encode hbounded rest')).1
      · exact ⟨hcut, (h.unique hcut.answers).2⟩
      · cases (h.unique hfaulty.answers).1
    · rintro ⟨hcut, rfl⟩
      exact hcut.answers

/-- One record with a byte behind it, and one whose first name is no text. -/
theorem answers_one_record :
    decoder.Answers [0, 0, 0, 1, 1, 65, 0, 30, 180, 9] (.done [⟨"A", "", 30, 180⟩]) [9] ∧
      decoder.Answers [0, 0, 0, 1, 1, 255, 7] (.failed (.invalidUtf8 ⟨0, some 1⟩)) [7] := by
  have hfault : Utf8.locate 0 [255] = ⟨0, some 1⟩ := by
    rw [Utf8.locate]
    rfl
  have hname : ¬Utf8.WellFormed [255] := by
    have hinvalid : (ByteArray.mk #[255]).validateUTF8 = false := by decide
    rintro ⟨text, htext⟩
    have hdecode := Utf8.decode_encode text
    rw [← htext, Utf8.decode, dif_neg (by rw [hinvalid]; decide)] at hdecode
    cases hdecode
  have hfaulty : Faulty [0, 0, 0, 1, 1, 255, 7] [255] [7] := by
    refine ⟨[⟨[255], [0, 0, 0, 0, 0, 0, 0], 0, 0⟩], [.plain [0, 0, 0, 1]], ⟨by decide, ?_⟩, .inl ?_,
      ⟨⟨_, rfl⟩, rfl⟩, ?_, hname⟩
    · simp [RawRecord.Bounded]
    · exact ⟨[0, 0, 0, 0, 0, 0, 0, 0, 0], rfl⟩
    · simp [Segment.Sound]
  have hbounded : Bounded ([⟨"A", "", 30, 180⟩].map RawRecord.ofRecord) := by
    constructor
    · decide
    · simp only [List.map_cons, List.map_nil, List.mem_singleton, forall_eq]
      exact ⟨by decide, by decide⟩
  constructor
  · exact ((answers_classified _).1 [⟨"A", "", 30, 180⟩] [9]).2 ⟨hbounded, rfl⟩
  · exact hfault ▸ (answers_classified _).2.2.1 [255] [7] hfaulty

end Records

end Piecemeal
