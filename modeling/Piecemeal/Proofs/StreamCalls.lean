/-
# Calls on a stream

A read of a reader makes calls on its stream, each for the bytes that are still wanted, until there
are enough of them or one of the calls meets something that stops the read.

  * `Call room script event rest`: a call for at most `room` bytes meets `event`, and the next calls
    will meet `rest`.  A piece of data that is longer than asked for stays first in line with what is
    left of it, and a call that gives no bytes has met the end.
  * `Reads n script met rest`: a read of `n` bytes makes calls that meet `met`.

A stream answers in one way only, so both determine what is met, `Reads.unique`.  And a reader does
make these calls, `Reader.exists_reads_fill`: what it hands out is `content met`, and of what is no
data it keeps two marks, `Remembers`.  So nothing else has to be known of how a reader works.  What
there is to say of a read is said of its calls, `Drawn n script met rest`:

    content script = content met ++ content rest
    (content met).length ≤ n
    (content met).length < n → ∃ event ∈ met, event.Stops
    met = before ++ event :: after → (content before).length < n

Nothing is lost, a short answer has a reason, and no call is made that is not needed.  What stops a
read is met once, so there is less to come behind it, `Reads.length_rest_lt`.
-/
import Piecemeal.Source.Reader

namespace Piecemeal

/-! ## What a stream brings -/

namespace StreamEvent

/-- The bytes that the event brings. -/
def bytes : StreamEvent → Bytes
  | .data bytes => bytes
  | .ended | .interrupted | .stalled | .failed _ => []

/-- The event stops the read that meets it. -/
def Stops : StreamEvent → Prop
  | .ended | .stalled | .failed _ => True
  | .data _ | .interrupted => False

/-- Why the stream failed, if it did. -/
def reason? : StreamEvent → Option String
  | .failed reason => some reason
  | _ => none

theorem bytes_of_stops {event : StreamEvent} (h : event.Stops) : event.bytes = [] := by
  cases event with
  | data | interrupted => exact h.elim
  | ended | stalled | failed => rfl

end StreamEvent

namespace Reader

/-- All bytes that a stream brings, whatever stops the calls on it. -/
def content (script : List StreamEvent) : Bytes := script.flatMap StreamEvent.bytes

theorem content_cons (event : StreamEvent) (script : List StreamEvent) :
    content (event :: script) = event.bytes ++ content script :=
  List.flatMap_cons

theorem content_append (script script' : List StreamEvent) :
    content (script ++ script') = content script ++ content script' :=
  List.flatMap_append

end Reader

/-! ## Calls and reads -/

namespace StreamEvent

/-- One call on a stream, for at most `room` bytes: what it meets, and what the next calls will. -/
inductive Call (room : Nat) : List StreamEvent → StreamEvent → List StreamEvent → Prop
  /-- Behind its last event the stream has ended. -/
  | past : Call room [] .ended []
  | whole {bytes : Bytes} {script : List StreamEvent} : bytes ≠ [] → bytes.length ≤ room →
      Call room (.data bytes :: script) (.data bytes) script
  | part {front back : Bytes} {script : List StreamEvent} : front.length = room → back ≠ [] →
      Call room (.data (front ++ back) :: script) (.data front) (.data back :: script)
  /-- A call that gives no bytes is the end of the stream. -/
  | nothing {script : List StreamEvent} : Call room (.data [] :: script) .ended script
  | other {event : StreamEvent} {script : List StreamEvent} : (∀ bytes, event ≠ .data bytes) →
      Call room (event :: script) event script

/-- The calls that one read of `n` bytes makes: what they meet, and what the next calls will. -/
inductive Reads : Nat → List StreamEvent → List StreamEvent → List StreamEvent → Prop
  | enough {script : List StreamEvent} : Reads 0 script [] script
  | stopped {n : Nat} {script rest : List StreamEvent} {event : StreamEvent} : 0 < n →
      Call n script event rest → event.Stops → Reads n script [event] rest
  | goesOn {n : Nat} {script between met rest : List StreamEvent} {event : StreamEvent} : 0 < n →
      Call n script event between → ¬event.Stops →
      Reads (n - event.bytes.length) between met rest → Reads n script (event :: met) rest

/-- A piece that is asked for as a whole is used up. -/
theorem Call.of_drop_eq_nil {b : UInt8} {bytes : Bytes} {n : Nat} {script : List StreamEvent}
    (h : bytes.drop n = []) :
    Call (n + 1) (.data (b :: bytes) :: script) (.data (b :: bytes)) script :=
  .whole (List.cons_ne_nil b bytes) (Nat.succ_le_succ (List.drop_eq_nil_iff.1 h))

/-- What is left of a piece stays first in line. -/
theorem Call.of_drop_ne_nil (b : UInt8) (script : List StreamEvent) {bytes : Bytes} {n : Nat}
    (h : bytes.drop n ≠ []) :
    Call (n + 1) (.data (b :: bytes) :: script) (.data (b :: bytes.take n))
      (.data (bytes.drop n) :: script) := by
  have hlt : n < bytes.length := by
    rw [← Nat.not_le, ← List.drop_eq_nil_iff]
    exact h
  have hfront : (b :: bytes.take n).length = n + 1 := by
    rw [List.length_cons, List.length_take, Nat.min_eq_left (Nat.le_of_lt hlt)]
  have hcall : Call (n + 1) (.data (b :: bytes.take n ++ bytes.drop n) :: script)
      (.data (b :: bytes.take n)) (.data (bytes.drop n) :: script) := .part hfront h
  rw [List.cons_append, List.take_append_drop] at hcall
  exact hcall

/-! ### What is met is determined -/

theorem Call.unique {room : Nat} {script rest rest' : List StreamEvent} {event event' : StreamEvent}
    (h : Call room script event rest) (h' : Call room script event' rest') :
    event = event' ∧ rest = rest' := by
  cases h with
  | past =>
      cases h'
      exact ⟨rfl, rfl⟩
  | whole hne hle =>
      cases h' with
      | whole => exact ⟨rfl, rfl⟩
      | @part front back _ hfront hback =>
          have := List.length_pos_iff.2 hback
          rw [List.length_append] at hle
          omega
      | nothing => exact absurd rfl hne
      | other hother => exact absurd rfl (hother _)
  | @part front back _ hfront hback =>
      generalize hbytes : front ++ back = bytes at h'
      cases h' with
      | whole _ hle =>
          have := List.length_pos_iff.2 hback
          rw [← hbytes, List.length_append] at hle
          omega
      | part hfront' =>
          obtain ⟨rfl, rfl⟩ := List.append_inj hbytes (hfront.trans hfront'.symm)
          exact ⟨rfl, rfl⟩
      | nothing => exact absurd (List.append_eq_nil_iff.1 hbytes).2 hback
      | other hother => exact absurd rfl (hother _)
  | nothing =>
      generalize hbytes : ([] : Bytes) = bytes at h'
      cases h' with
      | whole hne => exact absurd hbytes.symm hne
      | part _ hback => exact absurd (List.append_eq_nil_iff.1 hbytes.symm).2 hback
      | nothing => exact ⟨rfl, rfl⟩
      | other hother => exact absurd rfl (hother _)
  | other hother =>
      cases h' with
      | whole | part | nothing => exact absurd rfl (hother _)
      | other => exact ⟨rfl, rfl⟩

theorem Reads.unique {n : Nat} {script met met' rest rest' : List StreamEvent}
    (h : Reads n script met rest) (h' : Reads n script met' rest') : met = met' ∧ rest = rest' := by
  induction h generalizing met' rest' with
  | enough =>
      cases h' with
      | enough => exact ⟨rfl, rfl⟩
      | stopped hn => exact absurd hn (Nat.lt_irrefl 0)
      | goesOn hn => exact absurd hn (Nat.lt_irrefl 0)
  | stopped hn hcall hstops =>
      cases h' with
      | enough => exact absurd hn (Nat.lt_irrefl 0)
      | stopped _ hcall' =>
          obtain ⟨rfl, rfl⟩ := hcall.unique hcall'
          exact ⟨rfl, rfl⟩
      | goesOn _ hcall' hgoes =>
          obtain ⟨rfl, rfl⟩ := hcall.unique hcall'
          exact absurd hstops hgoes
  | goesOn hn hcall hgoes _ ih =>
      cases h' with
      | enough => exact absurd hn (Nat.lt_irrefl 0)
      | stopped _ hcall' hstops =>
          obtain ⟨rfl, rfl⟩ := hcall.unique hcall'
          exact absurd hstops hgoes
      | goesOn _ hcall' _ hrest =>
          obtain ⟨rfl, rfl⟩ := hcall.unique hcall'
          obtain ⟨rfl, rfl⟩ := ih hrest
          exact ⟨rfl, rfl⟩

theorem Call.content_eq {room : Nat} {script rest : List StreamEvent} {event : StreamEvent}
    (h : Call room script event rest) :
    Reader.content script = event.bytes ++ Reader.content rest := by
  cases h with
  | past => rfl
  | whole => rfl
  | part => simp only [Reader.content_cons, StreamEvent.bytes, List.append_assoc]
  | nothing => rfl
  | other => rfl

theorem Call.length_le {room : Nat} {script rest : List StreamEvent} {event : StreamEvent}
    (h : Call room script event rest) : event.bytes.length ≤ room := by
  cases h with
  | past => exact Nat.zero_le _
  | whole _ hle => exact hle
  | part hfront => exact Nat.le_of_eq hfront
  | nothing => exact Nat.zero_le _
  | other hother =>
      cases event with
      | data bytes => exact absurd rfl (hother bytes)
      | ended | interrupted | stalled | failed => exact Nat.zero_le _

theorem Call.length_rest_le {room : Nat} {script rest : List StreamEvent} {event : StreamEvent}
    (h : Call room script event rest) : rest.length ≤ script.length := by
  cases h with
  | past => exact Nat.le_refl _
  | part => exact Nat.le_refl _
  | whole | nothing | other => exact Nat.le_succ _

theorem Call.length_rest_lt {room : Nat} {script rest : List StreamEvent} {event : StreamEvent}
    (h : Call room script event rest) (hstops : event.Stops) :
    rest = [] ∨ rest.length < script.length := by
  cases h with
  | past => exact .inl rfl
  | part => exact hstops.elim
  | whole | nothing | other => exact .inr (Nat.lt_succ_self _)

theorem Reads.length_rest_le {n : Nat} {script met rest : List StreamEvent}
    (h : Reads n script met rest) : rest.length ≤ script.length := by
  induction h with
  | enough => exact Nat.le_refl _
  | stopped _ hcall => exact hcall.length_rest_le
  | goesOn _ hcall _ _ ih => exact Nat.le_trans ih hcall.length_rest_le

/-- What stops a read has been met, and is not met again. -/
theorem Reads.length_rest_lt {n : Nat} {script met rest : List StreamEvent}
    (h : Reads n script met rest) (hstops : ∃ event ∈ met, event.Stops) :
    rest = [] ∨ rest.length < script.length := by
  induction h with
  | enough =>
      obtain ⟨event, hmem, -⟩ := hstops
      cases hmem
  | stopped _ hcall hstop => exact hcall.length_rest_lt hstop
  | goesOn _ hcall hgoes _ ih =>
      obtain ⟨event, hmem, hstop⟩ := hstops
      rcases List.mem_cons.1 hmem with rfl | hmem
      · exact absurd hstop hgoes
      · rcases ih ⟨event, hmem, hstop⟩ with hnil | hlt
        · exact .inl hnil
        · exact .inr (Nat.lt_of_lt_of_le hlt hcall.length_rest_le)

/-- The calls that have met this were made for up to `n` bytes. -/
structure Drawn (n : Nat) (script met rest : List StreamEvent) : Prop where
  content_eq : Reader.content script = Reader.content met ++ Reader.content rest
  length_le : (Reader.content met).length ≤ n
  /-- Fewer bytes only when something has stopped the calls. -/
  stops : (Reader.content met).length < n → ∃ event ∈ met, event.Stops
  /-- At every call there were bytes wanting. -/
  needed : ∀ before event after, met = before ++ event :: after →
    (Reader.content before).length < n

theorem drawn_nil (script : List StreamEvent) : Drawn 0 script [] script where
  content_eq := rfl
  length_le := Nat.le_refl 0
  stops h := absurd h (Nat.not_lt_zero _)
  needed _ _ _ h := absurd h (List.append_ne_nil_of_right_ne_nil _ (by simp)).symm

theorem Drawn.of_stopped {n : Nat} {script rest : List StreamEvent} {event : StreamEvent}
    (hn : 0 < n) (hcall : Call n script event rest) (hstops : event.Stops) :
    Drawn n script [event] rest where
  content_eq := by rw [hcall.content_eq, Reader.content_cons, bytes_of_stops hstops]; rfl
  length_le := by rw [Reader.content_cons, bytes_of_stops hstops]; exact Nat.zero_le n
  stops _ := ⟨event, List.mem_singleton_self _, hstops⟩
  needed before _ _ heq := by
    cases before with
    | nil => exact hn
    | cons => simp at heq

theorem Drawn.cons {n : Nat} {script between met rest : List StreamEvent} {event : StreamEvent}
    (hn : 0 < n) (hcall : Call n script event between)
    (h : Drawn (n - event.bytes.length) between met rest) : Drawn n script (event :: met) rest where
  content_eq := by rw [hcall.content_eq, h.content_eq, Reader.content_cons, List.append_assoc]
  length_le := by
    have := hcall.length_le
    have := h.length_le
    rw [Reader.content_cons, List.length_append]
    omega
  stops hshort := by
    rw [Reader.content_cons, List.length_append] at hshort
    obtain ⟨last, hmem, hstops⟩ := h.stops (by omega)
    exact ⟨last, List.mem_cons_of_mem _ hmem, hstops⟩
  needed before last after heq := by
    cases before with
    | nil => exact hn
    | cons first before =>
        obtain ⟨rfl, hmet⟩ := List.cons.inj heq
        have := h.needed before last after hmet
        rw [Reader.content_cons, List.length_append]
        omega

theorem Reads.drawn {n : Nat} {script met rest : List StreamEvent} (h : Reads n script met rest) :
    Drawn n script met rest := by
  induction h with
  | enough => exact drawn_nil _
  | stopped hn hcall hstops => exact .of_stopped hn hcall hstops
  | goesOn hn hcall _ _ ih => exact .cons hn hcall ih

end StreamEvent

namespace Reader

/-! ## The marks that calls leave -/

/-- The latest of the failures that have been met. -/
def latestFailure (met : List StreamEvent) : Option String :=
  (met.filterMap StreamEvent.reason?).getLast?

theorem latestFailure_append (met more : List StreamEvent) :
    latestFailure (met ++ more) = (latestFailure more).or (latestFailure met) := by
  rw [latestFailure, List.filterMap_append, List.getLast?_append]
  rfl

/-- After the calls the reader remembers whether one of them met the end, and the latest failure. -/
structure Remembers (hasEnded : Bool) (failure : Option String) (met : List StreamEvent)
    (reader : Reader) : Prop where
  hasEnded_iff : reader.hasEnded = true ↔ hasEnded = true ∨ .ended ∈ met
  failure_eq : reader.failure = (latestFailure met).or failure

theorem remembers_nil (script : List StreamEvent) (hasEnded : Bool) (failure : Option String) :
    Remembers hasEnded failure [] ⟨script, hasEnded, failure⟩ :=
  ⟨by simp, rfl⟩

theorem Remembers.cons {hasEnded : Bool} {failure : Option String} {event : StreamEvent}
    {met : List StreamEvent} {reader : Reader} (h : Remembers hasEnded failure met reader)
    (hgoes : ¬event.Stops) : Remembers hasEnded failure (event :: met) reader := by
  cases event with
  | data | interrupted => exact ⟨by simpa using h.hasEnded_iff, h.failure_eq⟩
  | ended | stalled | failed => exact absurd trivial hgoes

/-! ## The calls of a reader -/

theorem exists_reads_fill (hasEnded : Bool) (failure : Option String) (script : List StreamEvent)
    (n : Nat) :
    ∃ met, StreamEvent.Reads n script met (fill hasEnded failure script n).2.script ∧
      (fill hasEnded failure script n).1 = content met ∧
      Remembers hasEnded failure met (fill hasEnded failure script n).2 := by
  induction script generalizing n with
  | nil =>
      cases n with
      | zero =>
          rw [fill]
          exact ⟨[], .enough, rfl, remembers_nil ..⟩
      | succ n =>
          exact ⟨[.ended], .stopped (Nat.succ_pos n) .past trivial, rfl, by simp [fill], rfl⟩
  | cons event script ih =>
      cases n with
      | zero =>
          rw [fill]
          exact ⟨[], .enough, rfl, remembers_nil ..⟩
      | succ n =>
          have hn : 0 < n + 1 := Nat.succ_pos n
          cases event with
          | ended =>
              exact ⟨[.ended], .stopped hn (.other (by simp)) trivial, rfl, by simp [fill], rfl⟩
          | stalled =>
              exact ⟨[.stalled], .stopped hn (.other (by simp)) trivial, rfl, by simp [fill], rfl⟩
          | failed reason =>
              exact ⟨[.failed reason], .stopped hn (.other (by simp)) trivial, rfl, by simp [fill],
                rfl⟩
          | interrupted =>
              obtain ⟨met, hreads, hcontent, hremembers⟩ := ih (n + 1)
              exact ⟨.interrupted :: met, .goesOn hn (.other (by simp)) id hreads, hcontent,
                hremembers.cons id⟩
          | data bytes =>
              cases bytes with
              | nil => exact ⟨[.ended], .stopped hn .nothing trivial, rfl, by simp [fill], rfl⟩
              | cons b bytes =>
                  rw [fill]
                  split
                  next hdrop =>
                    obtain ⟨met, hreads, hcontent, hremembers⟩ := ih (n - bytes.length)
                    have hrest : n + 1 - (b :: bytes).length = n - bytes.length := by
                      rw [List.length_cons, Nat.add_sub_add_right]
                    refine ⟨.data (b :: bytes) :: met,
                      .goesOn hn (.of_drop_eq_nil hdrop) id (hrest ▸ hreads), ?_,
                      hremembers.cons id⟩
                    rw [content_cons, ← hcontent]
                    rfl
                  next hdrop =>
                    have hcall := StreamEvent.Call.of_drop_ne_nil b script hdrop
                    have hrest : n + 1 - (b :: bytes.take n).length = 0 := by
                      have := List.length_pos_iff.2 hdrop
                      rw [List.length_drop] at this
                      rw [List.length_cons, List.length_take]
                      omega
                    refine ⟨[.data (b :: bytes.take n)], .goesOn hn hcall id ?_, ?_, by simp, rfl⟩
                    · show StreamEvent.Reads (n + 1 - (b :: bytes.take n).length) _ _ _
                      rw [hrest]
                      exact .enough
                    · rw [content_cons]
                      exact (List.append_nil _).symm

theorem exists_reads_read (reader : Reader) (n : Nat) :
    ∃ met, StreamEvent.Reads n reader.script met (reader.read n).2.script ∧
      (reader.read n).1 = content met ∧
      Remembers reader.hasEnded reader.failure met (reader.read n).2 :=
  exists_reads_fill reader.hasEnded reader.failure reader.script n

end Reader

end Piecemeal
