/-
# Encodings in segments

A message is written as one segment behind another: bytes that may be anything, and names, which
stand behind their length and have to be text.  Whatever its bytes are, a stretch of data is the
beginning of some message or begins with one, `Along`, and how far a decoder comes with it depends
on two things only: whether the message is there as a whole, and which is the first name that is
complete and no text.  `scan` is the decoder that just finds this out, and `Scanned` are its three
ends:

    whole   bytes = encodeAll segments ++ rest, and all names are text
    cut     bytes <+: encodeAll segments, but not equal, and the names that are complete are text
    fault   a name is complete and no text, and those before it are text

`Reads run segments value` says that an evaluation follows the scan,

    Along bytes (encodeAll segments) → run bytes = (scan segments bytes).map fun _ => value

and it is put together from the segments as the message is: `of_segment` for one segment, where it
is enough to look at what is cut off inside of it and at the whole of it, and `bind` for one
evaluation behind another.
-/
import Piecemeal.Proofs.Answers

namespace Piecemeal

/-- Bytes that encode a text. -/
def Utf8.WellFormed (bytes : Bytes) : Prop := ∃ text, bytes = Utf8.encode text

/-- One of two byte strings is a beginning of the other. -/
def Along (xs ys : Bytes) : Prop := xs <+: ys ∨ ys <+: xs

theorem Along.of_append {xs ys zs : Bytes} (h : Along xs (ys ++ zs)) : Along xs ys := by
  rcases h with h | h
  · exact List.prefix_or_prefix_of_prefix h (List.prefix_append ys zs)
  · exact .inr ((List.prefix_append ys zs).trans h)

theorem Along.append_left {ys zs : Bytes} (h : Along ys zs) (xs : Bytes) :
    Along (xs ++ ys) (xs ++ zs) :=
  h.imp (List.prefix_append_right_inj xs).2 (List.prefix_append_right_inj xs).2

theorem Along.of_append_left {xs ys zs : Bytes} (h : Along (xs ++ ys) (xs ++ zs)) : Along ys zs :=
  h.imp (List.prefix_append_right_inj xs).1 (List.prefix_append_right_inj xs).1

/-- Either the first part is not there as a whole, or what is behind it goes along with the rest. -/
theorem Along.cases_append {xs ys zs : Bytes} (h : Along xs (ys ++ zs)) :
    (xs.length < ys.length ∧ xs <+: ys) ∨ ∃ rest, xs = ys ++ rest ∧ Along rest zs := by
  by_cases hlt : xs.length < ys.length
  · left
    refine ⟨hlt, h.of_append.resolve_right ?_⟩
    intro hpre
    exact absurd hpre.length_le (by omega)
  · right
    rcases h with h | h
    · obtain ⟨rest, rfl⟩ := List.prefix_of_prefix_length_le (List.prefix_append ys zs) h (by omega)
      exact ⟨rest, rfl, .inl ((List.prefix_append_right_inj ys).1 h)⟩
    · obtain ⟨rest, rfl⟩ := h
      rw [List.append_assoc]
      exact ⟨zs ++ rest, rfl, .inr (List.prefix_append zs rest)⟩

/-- One piece of a message. -/
inductive Segment where
  /-- Bytes that may be anything. -/
  | plain (bytes : Bytes)
  /-- Bytes that have to be text, behind their number. -/
  | name (bytes : Bytes)

namespace Segment

def encode : Segment → Bytes
  | plain bytes => bytes
  | name bytes => UInt8.ofNat bytes.length :: bytes

def encodeAll (segments : List Segment) : Bytes := segments.flatMap encode

@[simp] theorem encodeAll_nil : encodeAll [] = [] := rfl

@[simp] theorem encodeAll_cons (segment : Segment) (segments : List Segment) :
    encodeAll (segment :: segments) = segment.encode ++ encodeAll segments := rfl

@[simp] theorem encodeAll_append (segments more : List Segment) :
    encodeAll (segments ++ more) = encodeAll segments ++ encodeAll more :=
  List.flatMap_append

/-- The names among the segments are text. -/
def Sound : Segment → Prop
  | plain _ => True
  | name bytes => Utf8.WellFormed bytes

/-- What is wrong with the segment. -/
def check : Segment → Except DecodeError Unit
  | plain _ => .ok ()
  | name bytes => ((Utf8.decode bytes).map fun _ => ()).mapError .invalidUtf8

end Segment

open Segment (encodeAll)

/-- Reads one segment after another, and stops at the end of the bytes or at a name that is no text.
-/
def scan : List Segment → Bytes → Run Unit Bytes Unit
  | [], bytes => .answer () bytes
  | segment :: segments, bytes =>
      if bytes.length < segment.encode.length then .reached .pending () []
      else
        (Run.reached (.ofExcept segment.check) () (bytes.drop segment.encode.length)).bind
          fun _ rest => scan segments rest

theorem scan_append (segments more : List Segment) (bytes : Bytes) :
    scan (segments ++ more) bytes = (scan segments bytes).bind fun _ rest => scan more rest := by
  induction segments generalizing bytes with
  | nil => rfl
  | cons segment segments ih =>
      rw [List.cons_append, scan, scan]
      split
      next => rfl
      next =>
        rw [Run.bind_assoc]
        congr 1
        funext _ rest
        exact ih rest

/-! ## Names that are complete -/

/-- Among the segments this name comes behind those `before` it, the bytes begin with all of these,
and `rest` follows. -/
structure Complete (segments before : List Segment) (name bytes rest : Bytes) : Prop where
  among : before ++ [.name name] <+: segments
  bytes_eq : bytes = encodeAll (before ++ [.name name]) ++ rest

/-- What a scan comes to, by what the bytes are. -/
inductive Scanned (segments : List Segment) (bytes : Bytes) : Run Unit Bytes Unit → Prop
  /-- All segments are there, and all names are text. -/
  | whole (rest : Bytes) :
      bytes = encodeAll segments ++ rest → (∀ segment ∈ segments, segment.Sound) →
      Scanned segments bytes (.answer () rest)
  /-- The bytes end before the segments do, and the names that are complete are text. -/
  | cut :
      bytes <+: encodeAll segments → bytes ≠ encodeAll segments →
      (∀ before name rest, Complete segments before name bytes rest → Utf8.WellFormed name) →
      Scanned segments bytes (.reached .pending () [])
  /-- A name is complete and no text, and those before it are text. -/
  | fault {before : List Segment} {name rest : Bytes} :
      Complete segments before name bytes rest → (∀ segment ∈ before, segment.Sound) →
      ¬Utf8.WellFormed name →
      Scanned segments bytes (.reached (.failed (.invalidUtf8 (Utf8.locate 0 name))) () rest)

theorem Utf8.decode_of_not_wellFormed {bytes : Bytes} (h : ¬Utf8.WellFormed bytes) :
    Utf8.decode bytes = .error (Utf8.locate 0 bytes) := by
  cases hdecode : Utf8.decode bytes with
  | ok text => exact absurd ⟨text, Utf8.eq_encode_of_decode hdecode⟩ h
  | error fault =>
      unfold Utf8.decode at hdecode
      split at hdecode
      next => cases hdecode
      next => rw [Except.error.inj hdecode]

theorem Segment.check_of_sound {segment : Segment} (h : segment.Sound) :
    segment.check = .ok () := by
  cases segment with
  | plain bytes => rfl
  | name bytes =>
      obtain ⟨text, rfl⟩ := h
      rw [check, Utf8.decode_encode]
      rfl

namespace Complete

variable {segment : Segment} {segments before : List Segment} {name bytes rest : Bytes}

theorem exists_eq_append (h : Complete (segment :: segments) before name bytes rest) :
    ∃ behind, bytes = segment.encode ++ behind := by
  obtain ⟨hamong, rfl⟩ := h
  cases before with
  | nil =>
      obtain rfl := (List.cons_prefix_cons.1 hamong).1
      exact ⟨rest, by simp⟩
  | cons first before =>
      obtain rfl := (List.cons_prefix_cons.1 hamong).1
      exact ⟨encodeAll (before ++ [.name name]) ++ rest, by simp⟩

/-- A complete name is the first segment or complete behind it. -/
theorem cases_cons
    (h : Complete (segment :: segments) before name (segment.encode ++ bytes) rest) :
    segment = .name name ∨ ∃ before', Complete segments before' name bytes rest := by
  obtain ⟨hamong, hbytes⟩ := h
  cases before with
  | nil => exact .inl (List.cons_prefix_cons.1 hamong).1.symm
  | cons first before =>
      obtain ⟨rfl, hbehind⟩ := List.cons_prefix_cons.1 hamong
      exact .inr ⟨before, hbehind, by simpa using hbytes⟩

theorem cons (h : Complete segments before name bytes rest) (segment : Segment) :
    Complete (segment :: segments) (segment :: before) name (segment.encode ++ bytes) rest where
  among := List.cons_prefix_cons.2 ⟨rfl, h.among⟩
  bytes_eq := by simp [h.bytes_eq]

end Complete

theorem Scanned.cons {segments : List Segment} {bytes : Bytes} {run : Run Unit Bytes Unit}
    (h : Scanned segments bytes run) {segment : Segment} (hsegment : segment.Sound) :
    Scanned (segment :: segments) (segment.encode ++ bytes) run := by
  cases h with
  | whole rest hbytes hsound =>
      refine .whole rest (by rw [hbytes, Segment.encodeAll_cons, List.append_assoc]) ?_
      exact List.forall_mem_cons.2 ⟨hsegment, hsound⟩
  | cut hpre hne hcomplete =>
      refine .cut ((List.prefix_append_right_inj _).2 hpre) ?_ ?_
      · intro h
        exact hne (List.append_cancel_left h)
      · intro before name rest h
        rcases h.cases_cons with rfl | ⟨before', h⟩
        · exact hsegment
        · exact hcomplete before' name rest h
  | fault hcomplete hbefore hname =>
      exact .fault (hcomplete.cons segment) (List.forall_mem_cons.2 ⟨hsegment, hbefore⟩) hname

theorem scanned_scan {segments : List Segment} {bytes : Bytes}
    (h : Along bytes (encodeAll segments)) : Scanned segments bytes (scan segments bytes) := by
  induction segments generalizing bytes with
  | nil => exact .whole bytes rfl (fun _ hmem => nomatch hmem)
  | cons segment segments ih =>
      rw [scan]
      rcases h.cases_append with ⟨hlt, hpre⟩ | ⟨rest, rfl, hrest⟩
      · rw [if_pos hlt]
        refine .cut (hpre.trans (List.prefix_append ..)) ?_ ?_
        · rintro rfl
          rw [Segment.encodeAll_cons, List.length_append] at hlt
          omega
        · intro before name rest hcomplete
          obtain ⟨behind, rfl⟩ := hcomplete.exists_eq_append
          rw [List.length_append] at hlt
          omega
      · rw [if_neg (by rw [List.length_append]; omega), List.drop_left]
        by_cases hsound : segment.Sound
        · rw [Segment.check_of_sound hsound]
          exact (ih hrest).cons hsound
        · cases segment with
          | plain bytes => exact absurd trivial hsound
          | name bytes =>
              rw [Segment.check, Utf8.decode_of_not_wellFormed hsound]
              have hcomplete : Complete (.name bytes :: segments) [] bytes
                  (Segment.encode (.name bytes) ++ rest) rest := ⟨⟨segments, rfl⟩, by simp⟩
              exact .fault hcomplete (fun _ hmem => nomatch hmem) hsound

theorem scan_encodeAll {segments : List Segment} (h : ∀ segment ∈ segments, segment.Sound)
    (rest : Bytes) : scan segments (encodeAll segments ++ rest) = .answer () rest := by
  induction segments with
  | nil => rfl
  | cons segment segments ih =>
      obtain ⟨hsegment, hsegments⟩ := List.forall_mem_cons.1 h
      rw [scan, Segment.encodeAll_cons, List.append_assoc,
        if_neg (by rw [List.length_append]; omega), List.drop_left, Segment.check_of_sound hsegment]
      exact ih hsegments

theorem Complete.scan_eq {segments before : List Segment} {name bytes rest : Bytes}
    (h : Complete segments before name bytes rest) (hbefore : ∀ segment ∈ before, segment.Sound)
    (hname : ¬Utf8.WellFormed name) :
    scan segments bytes =
      .reached (.failed (.invalidUtf8 (Utf8.locate 0 name))) () rest := by
  obtain ⟨⟨after, rfl⟩, rfl⟩ := h
  rw [List.append_assoc, scan_append, Segment.encodeAll_append, List.append_assoc,
    scan_encodeAll hbefore, Run.answer_bind, List.singleton_append, scan, Segment.encodeAll_cons,
    Segment.encodeAll_nil, List.append_nil, if_neg (by rw [List.length_append]; omega),
    List.drop_left, Segment.check, Utf8.decode_of_not_wellFormed hname]
  rfl

/-! ## Evaluations that follow a scan -/

/-- On all bytes that begin with the segments or are a beginning of them, the evaluation comes to
what the scan comes to, and its value is this one. -/
def Reads {α : Type} (run : Bytes → Run Unit Bytes α) (segments : List Segment) (value : α) :
    Prop :=
  ∀ bytes, Along bytes (encodeAll segments) → run bytes = (scan segments bytes).map fun _ => value

namespace Reads

variable {α β : Type} {run : Bytes → Run Unit Bytes α} {segments more : List Segment} {value : α}

theorem answer (value : α) : Reads (.answer value) [] value := fun _ _ => rfl

/-- It is enough to look at what is cut off inside a segment and at the whole of it. -/
theorem of_segment {segment : Segment}
    (hshort : ∀ bytes, bytes <+: segment.encode → bytes.length < segment.encode.length →
      run bytes = .reached .pending () [])
    (hwhole : ∀ rest, run (segment.encode ++ rest) =
      (Run.reached (.ofExcept segment.check) () rest).map fun _ => value) :
    Reads run [segment] value := by
  intro bytes h
  rcases h.cases_append with ⟨hlt, hpre⟩ | ⟨rest, rfl, _⟩
  · rw [hshort bytes hpre hlt, scan, if_pos hlt]
    rfl
  · rw [hwhole rest, scan, if_neg (by rw [List.length_append]; omega), List.drop_left]
    cases segment.check <;> rfl

theorem bind {value' : β} (h : Reads run segments value) (f : α → Bytes → Run Unit Bytes β)
    (hf : Reads (f value) more value') :
    Reads (fun bytes => (run bytes).bind f) (segments ++ more) value' := by
  intro bytes halong
  rw [Segment.encodeAll_append] at halong
  have hfirst := halong.of_append
  show (run bytes).bind f = _
  rw [h bytes hfirst, scan_append, Run.map_bind, Run.map, Run.bind_assoc]
  cases hscan : scan segments bytes with
  | reached outcome state rest =>
      cases outcome with
      | done =>
          have hscanned := scanned_scan hfirst
          rw [hscan] at hscanned
          cases hscanned with
          | whole rest hbytes hsound =>
              -- what is behind the first segments goes along with the others
              rw [hbytes] at halong
              exact hf rest halong.of_append_left
      | pending => rfl
      | failed error => rfl
  | broken misuse => rfl
  | exhausted => rfl

theorem map (h : Reads run segments value) (f : α → β) :
    Reads (fun bytes => (run bytes).map f) segments (f value) := by
  have hbind : Reads (fun bytes => (run bytes).bind fun value rest => .answer (f value) rest)
      (segments ++ []) (f value) := h.bind _ (answer (f value))
  rwa [List.append_nil] at hbind

section Recipes

variable {κ : Type} [Atom κ] {whole : ValueType κ} {before : Recipe κ whole}
  {limit fuel active : Nat} {nested : Nat → Bytes → Run Unit Bytes whole.Carrier}
  {stack stack' : List (Cell κ)}

theorem act (h : Reads (before.evaluate limit fuel nested active) segments stack)
    (action : Action κ)
    (haction : Reads (fun bytes => action.evaluate fuel stack bytes) more stack') :
    Reads ((before.act action).evaluate limit fuel nested active) (segments ++ more) stack' :=
  h.bind (fun stack rest => action.evaluate fuel stack rest) haction

theorem latest {type : ValueType κ} {value : type.Carrier}
    (h : Reads (before.evaluate limit fuel nested active) segments (⟨type, value⟩ :: stack)) :
    Reads (fun bytes => (before.evaluate limit fuel nested active bytes).bind (latest type))
      segments value := by
  have hlatest : Reads (Piecemeal.latest type (⟨type, value⟩ :: stack)) [] value := by
    intro bytes _
    rw [latest_mk]
    rfl
  have hboth := h.bind (Piecemeal.latest type) hlatest
  rwa [List.append_nil] at hboth

end Recipes

end Reads

end Piecemeal
