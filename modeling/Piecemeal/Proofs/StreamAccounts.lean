/-
# Readers account for their streams

A reader may be asked for a read, for a skip, for a byte, and for the failure that it keeps,
`Request`.  A skip reads in blocks until enough bytes are gone or a block is empty, `Skips`, and a
byte is a read of one.  What the calls of a request meet is determined by the request,
`Request.Calls.unique`, and is `Drawn` as it is for reads: nothing is lost, a short answer has a
reason, and no call is made that is not needed.

`Request.Calls.answered` is the step, for one request: the answer accounts for what its calls have
met, and so do the marks of the reader, `Remembers`.  That the end has been met is marked for ever,
and of the failures the latest, until it is taken.

A `Transcript` is any sequence of requests with what their calls met, and the properties of one
request go over to it by induction:

    content script = (history.flatMap fun exchange => content exchange.met) ++ content reader.script
    reader.hasEnded = true ↔ ∃ exchange ∈ history, .ended ∈ exchange.met
    reader.failure = pendingFailure history

with the latest failure since failures were last asked for in the last line.
-/
import Mathlib.Data.List.DropRight
import Piecemeal.Proofs.StreamCalls

namespace Piecemeal

/-! ## Skips -/

namespace StreamEvent

/-- The calls that skipping `n` bytes makes. -/
inductive Skips : Nat → List StreamEvent → List StreamEvent → List StreamEvent → Prop
  | enough {script : List StreamEvent} : Skips 0 script [] script
  | nothing {n : Nat} {script met rest : List StreamEvent} : 0 < n →
      Reads (min n ByteSource.skipBlock) script met rest → Reader.content met = [] →
      Skips n script met rest
  | block {n : Nat} {script between met more rest : List StreamEvent} : 0 < n →
      Reads (min n ByteSource.skipBlock) script met between → Reader.content met ≠ [] →
      Skips (n - (Reader.content met).length) between more rest → Skips n script (met ++ more) rest

theorem Skips.unique {n : Nat} {script met met' rest rest' : List StreamEvent}
    (h : Skips n script met rest) (h' : Skips n script met' rest') : met = met' ∧ rest = rest' := by
  induction h generalizing met' rest' with
  | enough =>
      cases h' with
      | enough => exact ⟨rfl, rfl⟩
      | nothing hn => exact absurd hn (Nat.lt_irrefl 0)
      | block hn => exact absurd hn (Nat.lt_irrefl 0)
  | nothing hn hreads hnil =>
      cases h' with
      | enough => exact absurd hn (Nat.lt_irrefl 0)
      | nothing _ hreads' => exact hreads.unique hreads'
      | block _ hreads' hne =>
          obtain ⟨rfl, rfl⟩ := hreads.unique hreads'
          exact absurd hnil hne
  | block hn hreads hne _ ih =>
      cases h' with
      | enough => exact absurd hn (Nat.lt_irrefl 0)
      | nothing _ hreads' hnil =>
          obtain ⟨rfl, rfl⟩ := hreads.unique hreads'
          exact absurd hnil hne
      | block _ hreads' _ hrest =>
          obtain ⟨rfl, rfl⟩ := hreads.unique hreads'
          obtain ⟨rfl, rfl⟩ := ih hrest
          exact ⟨rfl, rfl⟩

/-- Calls for `k` of `n` bytes, and then calls for what is left. -/
theorem Drawn.append {n k : Nat} {script between met more rest : List StreamEvent}
    (h : Drawn k script met between) (hle : k ≤ n)
    (h' : Drawn (n - (Reader.content met).length) between more rest) :
    Drawn n script (met ++ more) rest where
  content_eq := by
    rw [h.content_eq, h'.content_eq, Reader.content_append, List.append_assoc]
  length_le := by
    have := h.length_le
    have := h'.length_le
    rw [Reader.content_append, List.length_append]
    omega
  stops hshort := by
    rw [Reader.content_append, List.length_append] at hshort
    obtain ⟨event, hmem, hstops⟩ := h'.stops (by omega)
    exact ⟨event, List.mem_append_right _ hmem, hstops⟩
  needed before event after heq := by
    rcases List.append_eq_append_iff.1 heq with ⟨front, rfl, hmore⟩ | ⟨back, hmet, hback⟩
    · have := h.length_le
      have hlt := h'.needed front event after hmore
      rw [Reader.content_append, List.length_append]
      omega
    · cases back with
      | nil =>
          rw [List.append_nil] at hmet
          subst hmet
          have hlt := h'.needed [] event after hback.symm
          have hmet : (Reader.content ([] : List StreamEvent)).length = 0 := rfl
          omega
      | cons first back =>
          obtain rfl : event = first := (List.cons.inj hback).1
          exact Nat.lt_of_lt_of_le (h.needed before event back hmet) hle

theorem Skips.drawn {n : Nat} {script met rest : List StreamEvent} (h : Skips n script met rest) :
    Drawn n script met rest := by
  induction h with
  | enough => exact drawn_nil _
  | @nothing n script met rest hn hreads hnil =>
      have hmin : min n ByteSource.skipBlock ≤ n := Nat.min_le_left ..
      have hblock := hreads.drawn
      have hpos : 0 < min n ByteSource.skipBlock := Nat.lt_min.2 ⟨hn, by decide⟩
      refine ⟨hblock.content_eq, Nat.le_trans hblock.length_le hmin, fun _ => ?_, ?_⟩
      · exact hblock.stops (by rw [hnil]; exact hpos)
      · intro before event after heq
        exact Nat.lt_of_lt_of_le (hblock.needed before event after heq) hmin
  | block _ hreads _ _ ih => exact hreads.drawn.append (Nat.min_le_left ..) ih

end StreamEvent

namespace Reader

/-! ## Requests -/

/-- What can be asked of a reader. -/
inductive Request where
  | read (n : Nat)
  | skip (n : Nat)
  | readByte
  | takeFailure
deriving DecidableEq, Repr

/-- What a reader answers. -/
inductive Answer where
  | given (bytes : Bytes)
  | skipped (count : Nat)
  | byte (b : Option UInt8)
  | failure (reason : Option String)
deriving DecidableEq, Repr

/-- The answer to a request, and the reader afterwards. -/
def answer (reader : Reader) : Request → Answer × Reader
  | .read n => (.given (ByteSource.read reader n).1, (ByteSource.read reader n).2)
  | .skip n => (.skipped (ByteSource.skip reader n).1, (ByteSource.skip reader n).2)
  | .readByte => (.byte (ByteSource.readByte reader).1, (ByteSource.readByte reader).2)
  | .takeFailure => (.failure reader.takeFailure.1, reader.takeFailure.2)

/-- The most bytes that the request is for. -/
def Request.size : Request → Nat
  | .read n | .skip n => n
  | .readByte => 1
  | .takeFailure => 0

/-- The calls on the stream that the request makes. -/
def Request.Calls : Request → List StreamEvent → List StreamEvent → List StreamEvent → Prop
  | .read n => StreamEvent.Reads n
  | .readByte => StreamEvent.Reads 1
  | .skip n => StreamEvent.Skips n
  | .takeFailure => fun script met rest => met = [] ∧ rest = script

/-- The answer gives an account of these bytes. -/
def Answer.Accounts : Answer → Bytes → Prop
  | .given bytes, taken => bytes = taken
  | .skipped count, taken => count = taken.length
  | .byte b, taken => b.toList = taken
  | .failure _, taken => taken = []

theorem Request.Calls.unique {request : Request} {script met met' rest rest' : List StreamEvent}
    (h : request.Calls script met rest) (h' : request.Calls script met' rest') :
    met = met' ∧ rest = rest' := by
  cases request with
  | read n => exact StreamEvent.Reads.unique h h'
  | readByte => exact StreamEvent.Reads.unique h h'
  | skip n => exact StreamEvent.Skips.unique h h'
  | takeFailure => exact ⟨h.1.trans h'.1.symm, h.2.trans h'.2.symm⟩

theorem Request.Calls.drawn {request : Request} {script met rest : List StreamEvent}
    (h : request.Calls script met rest) : StreamEvent.Drawn request.size script met rest := by
  cases request with
  | read n => exact StreamEvent.Reads.drawn h
  | readByte => exact StreamEvent.Reads.drawn h
  | skip n => exact StreamEvent.Skips.drawn h
  | takeFailure =>
      obtain ⟨rfl, rfl⟩ := h
      exact StreamEvent.drawn_nil rest

/-! ## What requests meet -/

theorem Remembers.append {hasEnded : Bool} {failure : Option String} {met more : List StreamEvent}
    {middle reader : Reader} (h : Remembers hasEnded failure met middle)
    (h' : Remembers middle.hasEnded middle.failure more reader) :
    Remembers hasEnded failure (met ++ more) reader where
  hasEnded_iff := by rw [h'.hasEnded_iff, h.hasEnded_iff, List.mem_append, or_assoc]
  failure_eq := by rw [h'.failure_eq, h.failure_eq, latestFailure_append, Option.or_assoc]

theorem exists_skips (reader : Reader) (n : Nat) :
    ∃ met, StreamEvent.Skips n reader.script met (ByteSource.skip reader n).2.script ∧
      (ByteSource.skip reader n).1 = (content met).length ∧
      Remembers reader.hasEnded reader.failure met (ByteSource.skip reader n).2 := by
  refine ByteSource.skipByReading_induct (motive := fun reader n result =>
    ∃ met, StreamEvent.Skips n reader.script met result.2.script ∧
      result.1 = (content met).length ∧ Remembers reader.hasEnded reader.failure met result.2)
    ?enough ?nothing ?block reader n
  case enough => exact fun reader => ⟨[], .enough, rfl, remembers_nil ..⟩
  case nothing =>
    intro reader n rest hpos hblock
    obtain ⟨met, hreads, hcontent, hremembers⟩ := reader.exists_reads_read
      (min n ByteSource.skipBlock)
    rw [hblock] at hreads hcontent hremembers
    exact ⟨met, .nothing (Nat.lt_min.1 hpos).1 hreads hcontent.symm, congrArg List.length hcontent,
      hremembers⟩
  case block =>
    intro reader n b bytes middle result hpos hblock ih
    obtain ⟨met, hreads, hcontent, hremembers⟩ := reader.exists_reads_read
      (min n ByteSource.skipBlock)
    rw [hblock] at hreads hcontent hremembers
    have hlength : (content met).length = bytes.length + 1 := by
      rw [← hcontent, List.length_cons]
    obtain ⟨more, hskips, hcount, hmore⟩ := ih
    refine ⟨met ++ more, .block (Nat.lt_min.1 hpos).1 hreads ?_ (hlength ▸ hskips), ?_,
      hremembers.append hmore⟩
    · exact hcontent ▸ List.cons_ne_nil b bytes
    · rw [content_append, List.length_append, hlength, ← hcount]

/-- What a request meets, what it leaves and what it is answered. -/
theorem exists_calls (reader : Reader) (request : Request) :
    ∃ met, request.Calls reader.script met (reader.answer request).2.script ∧
      (reader.answer request).1.Accounts (content met) ∧
      (request ≠ .takeFailure →
        Remembers reader.hasEnded reader.failure met (reader.answer request).2) := by
  cases request with
  | read n =>
      obtain ⟨met, hreads, hcontent, hremembers⟩ := reader.exists_reads_read n
      exact ⟨met, hreads, hcontent, fun _ => hremembers⟩
  | skip n =>
      obtain ⟨met, hskips, hcount, hremembers⟩ := exists_skips reader n
      exact ⟨met, hskips, hcount, fun _ => hremembers⟩
  | readByte =>
      obtain ⟨met, hreads, hcontent, hremembers⟩ := reader.exists_reads_read 1
      have hone := hreads.drawn.length_le
      rw [answer, ByteSource.readByte]
      split
      next b rest hread =>
        have hbyte : reader.read 1 = ([b], rest) := hread
        rw [hbyte] at hreads hcontent hremembers
        exact ⟨met, hreads, hcontent, fun _ => hremembers⟩
      next bytes rest hmany hread =>
        have hbytes : reader.read 1 = (bytes, rest) := hread
        rw [hbytes] at hreads hcontent hremembers
        have hnil : bytes = [] := by
          match bytes, hmany with
          | [], _ => rfl
          | [b], hmany => exact absurd rfl (hmany b)
          | _ :: _ :: _, _ =>
              rw [← hcontent, List.length_cons, List.length_cons] at hone
              omega
        subst hnil
        exact ⟨met, hreads, hcontent, fun _ => hremembers⟩
  | takeFailure => exact ⟨[], ⟨rfl, rfl⟩, rfl, fun hne => absurd rfl hne⟩

/-- The answer accounts for what the calls of the request have met, and so does the reader. -/
theorem Request.Calls.answered {request : Request} {reader next : Reader} {answer : Answer}
    {met : List StreamEvent} (h : request.Calls reader.script met next.script)
    (hanswer : reader.answer request = (answer, next)) :
    answer.Accounts (content met) ∧
      (request ≠ .takeFailure → Remembers reader.hasEnded reader.failure met next) := by
  obtain ⟨met', hcalls, haccounts, hremembers⟩ := exists_calls reader request
  rw [hanswer] at hcalls haccounts hremembers
  obtain ⟨rfl, -⟩ := hcalls.unique h
  exact ⟨haccounts, hremembers⟩

/-! ## Transcripts -/

/-- A request with its answer and with what the calls on the stream met for it. -/
structure Exchange where
  request : Request
  answer : Answer
  met : List StreamEvent

/-- The requests made of a reader over this stream so far, and the reader after them. -/
inductive Transcript (script : List StreamEvent) : List Exchange → Reader → Prop
  | start : Transcript script [] (ofScript script)
  | next {history : List Exchange} {reader next : Reader} {exchange : Exchange} :
      Transcript script history reader →
      reader.answer exchange.request = (exchange.answer, next) →
      exchange.request.Calls reader.script exchange.met next.script →
      Transcript script (history ++ [exchange]) next

/-- The latest failure that has been met since failures were last asked for. -/
def pendingFailure (history : List Exchange) : Option String :=
  latestFailure ((history.rtakeWhile fun exchange => exchange.request ≠ .takeFailure).flatMap
    Exchange.met)

theorem exists_transcript (script : List StreamEvent) (requests : List Request) :
    ∃ history reader, Transcript script history reader ∧
      history.map Exchange.request = requests := by
  induction requests using List.reverseRecOn with
  | nil => exact ⟨[], _, .start, rfl⟩
  | append_singleton requests request ih =>
      obtain ⟨history, reader, htranscript, hrequests⟩ := ih
      obtain ⟨met, hcalls, -⟩ := exists_calls reader request
      let exchange : Exchange := ⟨request, (reader.answer request).1, met⟩
      refine ⟨history ++ [exchange], _, htranscript.next rfl hcalls, ?_⟩
      rw [List.map_append, hrequests]
      rfl

namespace Transcript

variable {script : List StreamEvent} {history : List Exchange} {reader : Reader}

theorem content_eq (h : Transcript script history reader) :
    content script = (history.flatMap fun exchange => content exchange.met) ++
      content reader.script := by
  induction h with
  | start => rfl
  | next _ _ hcalls ih =>
      rw [ih, hcalls.drawn.content_eq, List.flatMap_append, List.flatMap_singleton,
        List.append_assoc]

theorem accounts_of_mem (h : Transcript script history reader) {exchange : Exchange}
    (hmem : exchange ∈ history) :
    exchange.answer.Accounts (content exchange.met) ∧
      ∃ script rest, StreamEvent.Drawn exchange.request.size script exchange.met rest := by
  induction h with
  | start => exact absurd hmem List.not_mem_nil
  | next _ hanswer hcalls ih =>
      rcases List.mem_append.1 hmem with hmem | hmem
      · exact ih hmem
      · obtain rfl := List.mem_singleton.1 hmem
        exact ⟨(hcalls.answered hanswer).1, _, _, hcalls.drawn⟩

theorem hasEnded_iff (h : Transcript script history reader) :
    reader.hasEnded = true ↔ ∃ exchange ∈ history, .ended ∈ exchange.met := by
  induction h with
  | start => simp [ofScript]
  | @next history reader next exchange _ hanswer hcalls ih =>
      have hstep : next.hasEnded = true ↔ reader.hasEnded = true ∨ .ended ∈ exchange.met := by
        by_cases hrequest : exchange.request = .takeFailure
        · rw [hrequest] at hanswer hcalls
          obtain ⟨-, rfl⟩ := Prod.mk.inj hanswer
          have hkept : reader.takeFailure.2.hasEnded = reader.hasEnded := rfl
          rw [hcalls.1, hkept]
          simp
        · exact ((hcalls.answered hanswer).2 hrequest).hasEnded_iff
      rw [hstep, ih]
      simp [or_and_right, exists_or]

theorem failure_eq (h : Transcript script history reader) :
    reader.failure = pendingFailure history := by
  induction h with
  | start => rfl
  | @next history reader next exchange _ hanswer hcalls ih =>
      by_cases hrequest : exchange.request = .takeFailure
      · -- nothing is kept any more
        rw [pendingFailure, List.rtakeWhile_concat, if_neg (by simp [hrequest])]
        rw [hrequest] at hanswer
        obtain ⟨-, rfl⟩ := Prod.mk.inj hanswer
        rfl
      · rw [((hcalls.answered hanswer).2 hrequest).failure_eq, ih, pendingFailure, pendingFailure,
          List.rtakeWhile_concat, if_pos (by simpa using hrequest), List.flatMap_append,
          latestFailure_append, List.flatMap_singleton]

end Transcript

/-! ## The property -/

/-- Whatever a stream meets and whatever is asked of its reader, nothing is lost: the bytes that
have been handed out and skipped, one after another, are those that the calls have met, with what
the next calls will meet they are the content of the stream, and every answer accounts for its share
of them.  There are fewer bytes than asked for only where a call has met a stall, a failure or the
end, and no call is made when there are enough.  The end is remembered when a call has met it, and
the failure that can be taken is the latest met since failures were last asked for. -/
theorem loses_nothing (script : List StreamEvent) :
    (∀ requests, ∃ history reader, Transcript script history reader ∧
      history.map Exchange.request = requests) ∧
    ∀ history reader, Transcript script history reader →
      content script = (history.flatMap fun exchange => content exchange.met) ++
        content reader.script ∧
      (∀ exchange ∈ history,
        exchange.answer.Accounts (content exchange.met) ∧
        (content exchange.met).length ≤ exchange.request.size ∧
        ((content exchange.met).length < exchange.request.size →
          ∃ event ∈ exchange.met, event.Stops) ∧
        ∀ before event after, exchange.met = before ++ event :: after →
          (content before).length < exchange.request.size) ∧
      (reader.hasEnded = true ↔ ∃ exchange ∈ history, .ended ∈ exchange.met) ∧
      (reader.answer .takeFailure).1 = .failure (pendingFailure history) := by
  refine ⟨exists_transcript script, fun history reader h => ⟨h.content_eq, ?_, h.hasEnded_iff, ?_⟩⟩
  · intro exchange hmem
    obtain ⟨haccounts, script, rest, hdrawn⟩ := h.accounts_of_mem hmem
    exact ⟨haccounts, hdrawn.length_le, hdrawn.stops, hdrawn.needed⟩
  · rw [← h.failure_eq]
    rfl

/-- Of two bytes one is read, and three are skipped of which there is one: a stall ends the first
block and a failure the second, which is taken then. -/
theorem loses_nothing_at_failure :
    let script : List StreamEvent :=
      [.data [1, 2], .interrupted, .stalled, .failed "reset", .data [3, 4, 5]]
    let history : List Exchange :=
      [⟨.read 1, .given [1], [.data [1]]⟩,
        ⟨.skip 3, .skipped 1, [.data [2], .interrupted, .stalled, .failed "reset"]⟩]
    let reader : Reader := ⟨[.data [3, 4, 5]], false, some "reset"⟩
    Transcript script history reader ∧
      content script = (history.flatMap fun exchange => content exchange.met) ++ [3, 4, 5] ∧
      (reader.hasEnded = true ↔ ∃ exchange ∈ history, .ended ∈ exchange.met) ∧
      Answer.failure (some "reset") = .failure (pendingFailure history) := by
  intro script history reader
  let between : List StreamEvent :=
    [.data [2], .interrupted, .stalled, .failed "reset", .data [3, 4, 5]]
  have hread : StreamEvent.Reads 1 script [.data [1]] between :=
    .goesOn (by decide) (@StreamEvent.Call.part 1 [1] [2] _ rfl (by simp)) id .enough
  have hblock : StreamEvent.Reads 3 between [.data [2], .interrupted, .stalled]
      [.failed "reset", .data [3, 4, 5]] :=
    .goesOn (by decide) (.whole (by simp) (by decide)) id
      (.goesOn (by decide) (.other (by simp)) id (.stopped (by decide) (.other (by simp)) trivial))
  have hempty : StreamEvent.Skips 2 [.failed "reset", .data [3, 4, 5]] [.failed "reset"]
      [.data [3, 4, 5]] :=
    .nothing (by decide) (.stopped (by decide) (.other (by simp)) trivial) rfl
  have hskip : StreamEvent.Skips 3 between
      ([.data [2], .interrupted, .stalled] ++ [.failed "reset"]) [.data [3, 4, 5]] :=
    .block (by decide) hblock (by decide) hempty
  have hlast : ByteSource.skipByReading read
      ⟨[.failed "reset", .data [3, 4, 5]], false, none⟩ 2 = (0, reader) := by
    rw [ByteSource.skipByReading]
    rfl
  have hboth : ByteSource.skipByReading read ⟨between, false, none⟩ 3 = (1, reader) := by
    rw [ByteSource.skipByReading]
    exact congrArg (fun result => (1 + result.1, result.2)) hlast
  have hskipped : Reader.answer ⟨between, false, none⟩ (.skip 3) = (.skipped 1, reader) :=
    congrArg (fun result => (Answer.skipped result.1, result.2)) hboth
  have hgiven : (ofScript script).answer (.read 1) = (.given [1], ⟨between, false, none⟩) := rfl
  have hfirst : Transcript script [⟨.read 1, .given [1], [.data [1]]⟩] ⟨between, false, none⟩ :=
    @Transcript.next script [] _ _ ⟨.read 1, .given [1], [.data [1]]⟩ .start hgiven hread
  have htranscript : Transcript script history reader :=
    @Transcript.next script [⟨.read 1, .given [1], [.data [1]]⟩] _ reader
      ⟨.skip 3, .skipped 1, _⟩ hfirst hskipped hskip
  obtain ⟨hcontent, -, hended, hfailure⟩ := (loses_nothing script).2 history reader htranscript
  exact ⟨htranscript, hcontent, hended, hfailure⟩

end Reader

end Piecemeal
