/-
# What a repetition makes of its elements

A repetition hands its collector the elements that the decoder of elements answers one after
another, each once, in order and with its index, from an empty container that is supplied once.  It
ends when it has the elements it was told to collect, or with the first element that fails its
predicate; and it has then read these elements, what told it their number, and nothing else.

`Completes bound c tally elements result` is what there is to say about a repetition in the middle:
with these further elements it is complete, and answers `result`.  All runs that end are such,

    (d.repeated bound c).Ends ⟨target, element, some tally⟩ bytes
        (.reached (.done result) next rest) ↔
      ∃ elements last, d.InTurn element bytes elements last rest ∧
        Completes bound c tally elements result ∧ next = ⟨target, last, none⟩

by `ends_collecting_iff`: from left to right by induction on the run, from right to left on the
elements.  What completes a repetition of each kind is read off from there.

  * Told their number, it is complete with exactly the elements that are missing: `ends_times_iff`,
    and `ends_prefixedBy_iff` behind a number that is read.  A number out of range is rejected in
    front of the first element, `ends_prefixedBy_of_outOfRange`.
  * Not told, it is complete with the first element that ends it: `ends_whileHolds_iff`.

Fed chunk by chunk a repetition ends as on the whole stream, if its parts go on where they stopped.
-/
import Piecemeal.Proofs.Enactments
import Piecemeal.Proofs.Evaluation
import Piecemeal.Proofs.Payloads
import Piecemeal.Proofs.Successions

namespace Piecemeal

variable {ε ρ : Type}

/-! ## Complete repetitions -/

/-- A repetition that has got so far is complete with these further elements, and this is what its
collector makes of all. -/
inductive Completes (bound : Bound ε) (c : Collector ε ρ) :
    Tally c.Container → List ε → ρ → Prop
  | full {tally : Tally c.Container} :
      tally.isFull = true → Completes bound c tally [] (tally.finish c)
  | last {tally : Tally c.Container} {element : ε} :
      tally.isFull = false → bound.endsAt element = true →
      Completes bound c tally [element]
        ((if bound.keepsLast then tally.add c element else tally).finish c)
  | more {tally : Tally c.Container} {element : ε} {elements : List ε} {result : ρ} :
      tally.isFull = false → bound.endsAt element = false →
      Completes bound c (tally.add c element) elements result →
      Completes bound c tally (element :: elements) result

namespace Completes

variable {bound : Bound ε} {c : Collector ε ρ} {tally : Tally c.Container} {elements : List ε}
  {result : ρ}

theorem ne_nil (h : Completes bound c tally elements result) (hfull : tally.isFull = false) :
    elements ≠ [] := by
  rintro rfl
  cases h with
  | full hfull' => rw [hfull] at hfull'; cases hfull'

theorem iff_of_target {n : Nat} (hbound : ∀ element, bound.endsAt element = false)
    (htarget : tally.target = some n) :
    Completes bound c tally elements result ↔
      tally.produced + elements.length = n ∧
        result = (elements.foldl (Tally.add c) tally).finish c := by
  constructor
  · intro h
    induction h with
    | full hfull =>
        simp only [Tally.isFull, htarget, beq_iff_eq, Option.some.injEq] at hfull
        exact ⟨hfull.symm, rfl⟩
    | @last tally element hfull hends => rw [hbound element] at hends; cases hends
    | more hfull hends _ ih =>
        obtain ⟨hcount, hresult⟩ := ih htarget
        refine ⟨?_, hresult⟩
        rw [← hcount, List.length_cons, Nat.add_comm _ 1, ← Nat.add_assoc]
        rfl
  · rintro ⟨hcount, rfl⟩
    induction elements generalizing tally with
    | nil =>
        refine .full ?_
        rw [Tally.isFull, htarget, ← hcount]
        simp
    | cons element elements ih =>
        rw [List.length_cons] at hcount
        have hfull : tally.isFull = false := by
          simp only [Tally.isFull, htarget, beq_eq_false_iff_ne, ne_eq, Option.some.injEq]
          omega
        refine .more hfull (hbound element) (ih htarget ?_)
        show tally.produced + 1 + elements.length = n
        omega

theorem iff_of_no_target (htarget : tally.target = none) :
    Completes bound c tally elements result ↔
      ∃ front last, elements = front ++ [last] ∧ (∀ element ∈ front, bound.endsAt element = false) ∧
        bound.endsAt last = true ∧
        result = ((if bound.keepsLast then front ++ [last] else front).foldl (Tally.add c)
          tally).finish c := by
  have hfull : ∀ {tally : Tally c.Container}, tally.target = none → tally.isFull = false := by
    intro tally htarget
    simp [Tally.isFull, htarget]
  constructor
  · intro h
    induction h with
    | full hfull' => rw [hfull htarget] at hfull'; cases hfull'
    | @last tally element _ hends =>
        refine ⟨[], element, rfl, by simp, hends, ?_⟩
        cases bound.keepsLast <;> rfl
    | @more tally element elements result _ hends _ ih =>
        obtain ⟨front, last, rfl, hfront, hlast, rfl⟩ := ih htarget
        refine ⟨element :: front, last, rfl, ?_, hlast, ?_⟩
        · rintro element' helement'
          rcases List.mem_cons.1 helement' with rfl | helement'
          · exact hends
          · exact hfront element' helement'
        · cases bound.keepsLast <;> rfl
  · rintro ⟨front, last, rfl, hfront, hlast, rfl⟩
    induction front generalizing tally with
    | nil =>
        have hcomplete : Completes bound c tally [last] _ := .last (hfull htarget) hlast
        cases hkeeps : bound.keepsLast <;> rw [hkeeps] at hcomplete <;> exact hcomplete
    | cons element front ih =>
        have hmore := @ih (tally.add c element) htarget
          fun element' h => hfront element' (List.mem_cons_of_mem _ h)
        refine .more (hfull htarget) (hfront element List.mem_cons_self) ?_
        cases hkeeps : bound.keepsLast <;> rw [hkeeps] at hmore <;> exact hmore

end Completes

namespace Decoder

/-! ## Runs of a repetition -/

section

variable {d : Decoder ε} {bound : Bound ε} {c : Collector ε ρ} {target : bound.target.State}
  {element last : d.State} {tally : Tally c.Container} {bytes rest : Bytes} {elements : List ε}
  {result : ρ} {next : (d.repeated bound c).State}

theorem ends_collecting (hturn : d.InTurn element bytes elements last rest)
    (h : Completes bound c tally elements result) :
    (d.repeated bound c).Ends ⟨target, element, some tally⟩ bytes
      (.reached (.done result) ⟨target, last, none⟩ rest) := by
  induction h generalizing element bytes with
  | full hfull =>
      cases hturn
      exact (ends_of_done (step_full target last hfull)).2 rfl
  | last hfull hends =>
      cases hturn with
      | cons hvalue hnil =>
          cases hnil
          refine (ends_embed_of_done _ d _ _ _ (step_missing d bound c target hfull) hvalue).2 ?_
          rw [if_pos hends]
          rfl
  | more hfull hends _ ih =>
      cases hturn with
      | cons hvalue hrest =>
          refine (ends_embed_of_done _ d _ _ _ (step_missing d bound c target hfull) hvalue).2 ?_
          rw [if_neg (by rw [hends]; exact Bool.false_ne_true)]
          exact ih hrest

/-- What leads the decoder to where the values begin may come in front of the first. -/
theorem InTurn.of_ends {state state' : d.State} {bytes' : Bytes}
    (h : d.InTurn state' bytes' elements last rest) (hne : elements ≠ [])
    (hends : ∀ run, d.Ends state' bytes' run → d.Ends state bytes run) :
    d.InTurn state bytes elements last rest := by
  cases h with
  | nil => exact absurd rfl hne
  | cons hvalue hvalues => exact .cons (hends _ hvalue) hvalues

/-- A repetition that answers has been completed by elements that were decoded in turn. -/
theorem exists_completes {budget : Nat}
    (h : (d.repeated bound c).run budget ⟨target, element, some tally⟩ bytes =
      .reached (.done result) next rest) :
    ∃ elements last, d.InTurn element bytes elements last rest ∧
      Completes bound c tally elements result ∧ next = ⟨target, last, none⟩ := by
  -- the decoder of elements may be inside the first one: what it still does for it is put in front
  induction budget generalizing element tally bytes with
  | zero => cases h
  | succ budget ih =>
      cases hfull : tally.isFull with
      | true =>
          rw [run_succ_of_done (step_full target element hfull)] at h
          cases h
          exact ⟨[], element, .nil _ _, .full hfull, rfl⟩
      | false =>
          have hosts := hosts_element d bound c target hfull
          cases hs : d.step element using Step.casesRequest with
          | request step n resume hreq =>
              subst hs
              rw [run_succ_of_request (hosts.request hreq)] at h
              split at h
              next => cases h
              next hlen =>
                obtain ⟨elements, last, hturn, hcompletes, hnext⟩ := ih h
                refine ⟨elements, last, hturn.of_ends (hcompletes.ne_nil hfull) ?_, hcompletes, hnext⟩
                intro run hrun
                rw [ends_of_request hreq, if_neg hlen]
                exact hrun
          | tick state events =>
              rw [run_succ_of_tick (hosts.tick hs)] at h
              obtain ⟨elements, last, hturn, hcompletes, hnext⟩ := ih h
              refine ⟨elements, last, hturn.of_ends (hcompletes.ne_nil hfull) ?_, hcompletes, hnext⟩
              intro run hrun
              exact (ends_of_tick hs).2 hrun
          | done value state =>
              have hstep := step_element (c := c) target hfull hs
              cases hends : bound.endsAt value with
              | true =>
                  rw [if_pos hends] at hstep
                  rw [run_succ_of_done hstep] at h
                  cases h
                  exact ⟨[value], state, .cons ((ends_of_done hs).2 rfl) (.nil _ _),
                    .last hfull hends, rfl⟩
              | false =>
                  rw [if_neg (by rw [hends]; exact Bool.false_ne_true)] at hstep
                  rw [run_succ_of_tick hstep] at h
                  obtain ⟨elements, last, hturn, hcompletes, hnext⟩ := ih h
                  exact ⟨value :: elements, last, .cons ((ends_of_done hs).2 rfl) hturn,
                    .more hfull hends hcompletes, hnext⟩
          | fail error state =>
              have hstep := step_missing d bound c target hfull element
              rw [hs] at hstep
              rw [run_succ_of_fail hstep] at h
              cases h
          | broken misuse =>
              rw [run_succ_of_broken (hosts.broken hs)] at h
              cases h

theorem ends_collecting_iff :
    (d.repeated bound c).Ends ⟨target, element, some tally⟩ bytes
        (.reached (.done result) next rest) ↔
      ∃ elements last, d.InTurn element bytes elements last rest ∧
        Completes bound c tally elements result ∧ next = ⟨target, last, none⟩ := by
  constructor
  · rintro ⟨-, budget, hrun⟩
    exact exists_completes hrun
  · rintro ⟨elements, last, hturn, hcompletes, rfl⟩
    exact ends_collecting hturn hcompletes

theorem ends_repeated_of_step {n : Option Nat} (h : bound.target.step target = .done n target) :
    (d.repeated bound c).Ends ⟨target, element, none⟩ bytes (.reached (.done result) next rest) ↔
      ∃ elements last, d.InTurn element bytes elements last rest ∧
        Completes bound c (.start c n) elements result ∧ next = ⟨target, last, none⟩ :=
  (ends_of_tick (step_target c element h)).trans ends_collecting_iff

theorem ends_repeated_iff :
    (d.repeated bound c).Ends ⟨target, element, none⟩ bytes (.reached (.done result) next rest) ↔
      ∃ n target' middle, bound.target.Ends target bytes (.reached (.done n) target' middle) ∧
        ∃ elements last, d.InTurn element middle elements last rest ∧
          Completes bound c (.start c n) elements result ∧ next = ⟨target', last, none⟩ := by
  refine (ends_embed_done_iff (d.repeated bound c) bound.target (⟨·, element, none⟩)
    (⟨·, element, none⟩) _ fun _ => rfl).trans ?_
  refine exists_congr fun n => exists_congr fun target' => exists_congr fun middle =>
    and_congr_right fun _ => ?_
  exact ends_collecting_iff

end

/-! ## The three kinds -/

section

variable {d : Decoder ε} {c : Collector ε ρ} {element : d.State} {bytes rest : Bytes} {result : ρ}

theorem completes_start_iff {bound : Bound ε} (hbound : ∀ element, bound.endsAt element = false)
    {n : Nat} {elements : List ε} : Completes bound c (.start c (some n)) elements result ↔
      elements.length = n ∧ result = c.collect (some n) elements := by
  rw [Completes.iff_of_target hbound rfl, Tally.finish_foldl_start]
  simp [Tally.start]

theorem ends_times_iff {n : Nat} {target : (Bound.times n : Bound ε).target.State}
    {next : (d.repeated (.times n) c).State} :
    (d.repeated (.times n) c).Ends ⟨target, element, none⟩ bytes
        (.reached (.done result) next rest) ↔
      ∃ elements last, d.InTurn element bytes elements last rest ∧ elements.length = n ∧
        result = c.collect (some n) elements ∧ next = ⟨target, last, none⟩ := by
  have hends : ∀ v, (Bound.times n : Bound ε).endsAt v = false := fun _ => rfl
  refine (ends_repeated_of_step rfl).trans ?_
  refine exists_congr fun elements => exists_congr fun last => and_congr_right fun _ => ?_
  rw [completes_start_iff hends, and_assoc]

theorem ends_whileHolds_iff {predicate : ε → Bool} {addLast : Bool}
    {target : (Bound.whileHolds predicate addLast).target.State}
    {next : (d.repeated (.whileHolds predicate addLast) c).State} :
    (d.repeated (.whileHolds predicate addLast) c).Ends ⟨target, element, none⟩ bytes
        (.reached (.done result) next rest) ↔
      ∃ front value last, d.InTurn element bytes (front ++ [value]) last rest ∧
        (∀ v ∈ front, predicate v = true) ∧ predicate value = false ∧
        result = c.collect none (if addLast then front ++ [value] else front) ∧
        next = ⟨target, last, none⟩ := by
  refine (ends_repeated_of_step rfl).trans ?_
  constructor
  · rintro ⟨_, last, hturn, hcompletes, hnext⟩
    obtain ⟨front, value, rfl, hfront, hvalue, rfl⟩ :=
      (Completes.iff_of_no_target rfl).1 hcompletes
    refine ⟨front, value, last, hturn, ?_, ?_, Tally.finish_foldl_start .., hnext⟩
    · intro v hv
      simpa [Bound.endsAt] using hfront v hv
    · simpa [Bound.endsAt] using hvalue
  · rintro ⟨front, value, last, hturn, hfront, hvalue, rfl, hnext⟩
    refine ⟨_, last, hturn, (Completes.iff_of_no_target rfl).2 ⟨front, value, rfl, ?_, ?_,
      (Tally.finish_foldl_start ..).symm⟩, hnext⟩
    · intro v hv
      simpa [Bound.endsAt] using hfront v hv
    · simpa [Bound.endsAt] using hvalue

variable {α : Type} [CountPrefix α] {size : Decoder α} {target : size.State}

theorem ends_prefixedBy_iff {next : (d.repeated (.prefixedBy size) c).State} :
    (d.repeated (.prefixedBy size) c).Ends ⟨target, element, none⟩ bytes
        (.reached (.done result) next rest) ↔
      ∃ value target' middle elements last,
        size.Ends target bytes (.reached (.done value) target' middle) ∧
        d.InTurn element middle elements last rest ∧
        CountPrefix.toInt value = elements.length ∧ elements.length < lengthLimit ∧
        result = c.collect (some elements.length) elements ∧ next = ⟨target', last, none⟩ := by
  refine ends_repeated_iff.trans ?_
  constructor
  · rintro ⟨_, target', middle, hcount, elements, last, hturn, hcompletes, hnext⟩
    obtain ⟨n, hlength, rfl⟩ := ends_map_done_iff.1 hcount
    obtain ⟨value, hvalue, hok⟩ := ends_tryMap_done_iff.1 hlength
    obtain ⟨htoInt, hrange⟩ := toLength_eq_ok_iff.1 hok
    obtain ⟨rfl, hresult⟩ := (completes_start_iff fun _ => rfl).1 hcompletes
    exact ⟨value, target', middle, elements, last, hvalue, hturn, htoInt, hrange, hresult, hnext⟩
  · rintro ⟨value, target', middle, elements, last, hvalue, hturn, htoInt, hrange, hresult, hnext⟩
    have hok := toLength_eq_ok_iff.2 ⟨htoInt, hrange⟩
    have hlength := ends_tryMap_done_iff.2 ⟨value, hvalue, hok⟩
    have hcount := (ends_map_done_iff (f := some)).2 ⟨_, hlength, rfl⟩
    exact ⟨_, target', middle, hcount, elements, last, hturn,
      (completes_start_iff fun _ => rfl).2 ⟨rfl, hresult⟩, hnext⟩

/-- A number of elements that is out of range is rejected in front of the first. -/
theorem ends_prefixedBy_of_outOfRange {value : α} {target' : size.State} {middle : Bytes}
    (h : size.Ends target bytes (.reached (.done value) target' middle))
    (hrange : CountPrefix.toInt value < 0 ∨ lengthLimit ≤ CountPrefix.toInt value) :
    (d.repeated (.prefixedBy size) c).Ends ⟨target, element, none⟩ bytes
      (.reached
        (.failed (.invalidLength s!"length prefix {CountPrefix.toInt value} is out of range"))
        ⟨target', element, none⟩ middle) := by
  have hlength := (ends_tryMap_of_done h toLength).2 rfl
  rw [toLength_of_outOfRange hrange] at hlength
  have hcount := ends_embed_of_failed ((size.tryMap toLength).map some) (size.tryMap toLength)
    (fun state => state) (fun state => state) _ (fun _ => rfl) hlength
  exact ends_embed_of_failed (d.repeated (.prefixedBy size) c) (Bound.prefixedBy size).target
    (⟨·, element, none⟩) (⟨·, element, none⟩) _ (fun _ => rfl) hcount

end

/-! ## The property -/

/-- What a repetition answers, however the stream is cut, and wherever the decoders of its elements
and of their number were left before.  It answers exactly if the decoder of elements answers as many
as it was told to collect, or as it has decoded, or some that satisfy the predicate and then one that
does not; and what it answers is the whole fold of these elements, the last one included if it is
wanted.  It has then read the number and the elements and nothing else, and both decoders stand
behind them.  A number that is negative or not below the limit is rejected, with the elements unread.
The decoders of elements and of their number may be any that go on where they stopped, as all
standard ones do (`Standard.splits`). -/
theorem repeated_exact {d : Decoder ε} (hd : d.Splits) (c : Collector ε ρ) (element : d.State)
    (chunk : Bytes) (chunks : List Bytes) :
    let stream := chunk ++ chunks.flatten
    (∀ n target result next rest,
      (d.repeated (.times n) c).Fed ⟨target, element, none⟩ (chunk :: chunks)
          (.reached (.done result) next rest) ↔
        ∃ elements last, d.InTurn element stream elements last rest ∧ elements.length = n ∧
          result = c.collect (some n) elements ∧ next = ⟨target, last, none⟩) ∧
    (∀ {α : Type} [CountPrefix α] (size : Decoder α) (target : size.State), size.Splits →
      (∀ result next rest,
        (d.repeated (.prefixedBy size) c).Fed ⟨target, element, none⟩ (chunk :: chunks)
            (.reached (.done result) next rest) ↔
          ∃ value target' middle elements last,
            size.Ends target stream (.reached (.done value) target' middle) ∧
            d.InTurn element middle elements last rest ∧
            CountPrefix.toInt value = elements.length ∧ elements.length < lengthLimit ∧
            result = c.collect (some elements.length) elements ∧
            next = ⟨target', last, none⟩) ∧
      ∀ value target' middle, size.Ends target stream (.reached (.done value) target' middle) →
        CountPrefix.toInt value < 0 ∨ lengthLimit ≤ CountPrefix.toInt value →
        (d.repeated (.prefixedBy size) c).Fed ⟨target, element, none⟩ (chunk :: chunks)
          (.reached
            (.failed (.invalidLength s!"length prefix {CountPrefix.toInt value} is out of range"))
            ⟨target', element, none⟩ middle)) ∧
    ∀ predicate addLast target result next rest,
      (d.repeated (.whileHolds predicate addLast) c).Fed ⟨target, element, none⟩ (chunk :: chunks)
          (.reached (.done result) next rest) ↔
        ∃ front value last, d.InTurn element stream (front ++ [value]) last rest ∧
          (∀ v ∈ front, predicate v = true) ∧ predicate value = false ∧
          result = c.collect none (if addLast then front ++ [value] else front) ∧
          next = ⟨target, last, none⟩ := by
  intro stream
  refine ⟨?_, ?_, ?_⟩
  · intro n target result next rest
    exact (hd.repeated (by rintro _ ⟨⟩) c).fed_iff.trans ends_times_iff
  · intro α _ size target hsize
    have hsplits : (d.repeated (.prefixedBy size) c).Splits := by
      refine hd.repeated ?_ c
      rintro _ ⟨⟩
      exact hsize.tryMap toLength
    refine ⟨?_, ?_⟩
    · intro result next rest
      exact hsplits.fed_iff.trans ends_prefixedBy_iff
    · intro value target' middle hvalue hrange
      exact hsplits.fed_iff.2 (ends_prefixedBy_of_outOfRange hvalue hrange)
  · intro predicate addLast target result next rest
    exact (hd.repeated (by rintro _ ⟨⟩) c).fed_iff.trans ends_whileHolds_iff

theorem inTurn_byte (values rest : Bytes) :
    (number UInt8 .big).InTurn (number UInt8 .big).start (values ++ rest) values
      (number UInt8 .big).start rest := by
  induction values with
  | nil => exact .nil _ rest
  | cons b values ih =>
      have hwidth : FixedWidth.width UInt8 ≤ (b :: (values ++ rest)).length :=
        Nat.succ_le_succ (Nat.zero_le _)
      have hvalue : FixedWidth.ofBytes .big ([b] : Bytes) = b := by
        simp [FixedWidth.ofBytes, ByteOrder.toNat, Bytes.toNat]
      have hends := ends_number .big hwidth
      rw [show (b :: (values ++ rest)).take (FixedWidth.width UInt8) = [b] from rfl, hvalue] at hends
      exact .cons hends ih

/-- Two elements, one of them cut; three behind their number; some up to a zero; and a negative
number of elements. -/
theorem repeated_exact_cut :
    (let d := (number UInt16 .big).repeated (.times 2) .toList;
      d.Fed d.start [[0, 1, 0], [2, 9]] (.reached (.done [1, 2]) d.start [9])) ∧
    (let d := (number UInt8 .big).repeated (.prefixedBy (number UInt8 .big)) .counting;
      d.Fed d.start [[3, 7], [], [7, 7]] (.reached (.done 3) d.start [])) ∧
    (let d := (number UInt8 .big).repeated (.whileHolds (· != 0) true) .toList;
      d.Fed d.start [[4], [5, 0, 6]] (.reached (.done [4, 5, 0]) d.start [6])) ∧
    (let d := (number UInt8 .big).repeated (.prefixedBy (number Int8 .big)) .counting;
      d.Fed d.start [[255, 7]] (.reached
        (.failed (.invalidLength "length prefix -1 is out of range")) d.start [7])) := by
  have hbyte := splits_number UInt8 .big
  refine ⟨?_, ?_, ?_, ?_⟩
  · obtain ⟨htimes, -⟩ := repeated_exact (splits_number UInt16 .big) .toList _ [0, 1, 0] [[2, 9]]
    have hfirst : FixedWidth.width UInt16 ≤ ([0, 1, 0, 2, 9] : Bytes).length := by decide
    have hsecond : FixedWidth.width UInt16 ≤ ([0, 2, 9] : Bytes).length := by decide
    exact (htimes 2 _ _ _ _).2 ⟨[1, 2], _,
      .cons (ends_number .big hfirst) (.cons (ends_number .big hsecond) (.nil _ _)), rfl, rfl, rfl⟩
  · obtain ⟨-, hprefixed, -⟩ := repeated_exact hbyte .counting _ [3, 7] [[], [7, 7]]
    obtain ⟨hdone, -⟩ := hprefixed (number UInt8 .big) (number UInt8 .big).start hbyte
    have hwidth : FixedWidth.width UInt8 ≤ ([3, 7, 7, 7] : Bytes).length := by decide
    exact (hdone _ _ _).2 ⟨3, _, _, [7, 7, 7], _, ends_number .big hwidth,
      inTurn_byte [7, 7, 7] [], rfl, by decide, rfl, rfl⟩
  · obtain ⟨-, -, hwhile⟩ := repeated_exact hbyte .toList _ [4] [[5, 0, 6]]
    exact (hwhile (· != 0) true _ _ _ _).2 ⟨[4, 5], 0, _, inTurn_byte [4, 5, 0] [6], by simp,
      by decide, rfl, rfl⟩
  · obtain ⟨-, hprefixed, -⟩ := repeated_exact hbyte .counting _ [255, 7] []
    obtain ⟨-, hrange⟩ :=
      hprefixed (number Int8 .big) (number Int8 .big).start (splits_number Int8 .big)
    have hwidth : FixedWidth.width Int8 ≤ ([255, 7] : Bytes).length := by decide
    exact hrange _ _ _ (ends_number .big hwidth) (.inl (by decide))

end Decoder

end Piecemeal
