/-
# Byte strings in front of a marker

The decoder of bytes up to a marker takes byte after byte, and looks after each whether the bytes
so far end with the marker.  So it finds the first marker, whatever the marker shares with itself
or with the bytes in front of it.  `FirstMarker marker stream value rest` is that, with no search
in it:

    stream = value ++ marker ++ rest
    ∀ xs, xs <+: stream → marker <:+ xs → value.length + marker.length ≤ xs.length

and it is what is answered, `ends_terminated_done_iff`.  If no prefix of the stream ends with the
marker the search goes on, and only then, `ends_terminated_pending_iff`.  Both are by induction on
the bytes to come, from any state of the search: what is kept of the bytes seen, latest first, is
`searching`, and a marker stands at their end if its reverse is a prefix of that,
`isPrefixOf_reverse`.

What is behind the marker is searched as a stream of its own, since the search ends as it began, so
values are decoded in turn as the stream is `Parted`.
-/
import Mathlib.Order.Nat
import Mathlib.Data.List.Infix
import Piecemeal.Proofs.Successions

namespace Piecemeal

/-! ## Streams with markers -/

/-- The stream is this value, the marker and this rest, and no shorter prefix of it ends with the
marker. -/
structure FirstMarker (marker stream value rest : Bytes) : Prop where
  eq_append : stream = value ++ marker ++ rest
  le_length : ∀ xs, xs <+: stream → marker <:+ xs → value.length + marker.length ≤ xs.length

instance (marker stream value rest : Bytes) : Decidable (FirstMarker marker stream value rest) :=
  decidable_of_iff (stream = value ++ marker ++ rest ∧
      ∀ xs ∈ stream.inits, marker <:+ xs → value.length + marker.length ≤ xs.length)
    ⟨fun h => ⟨h.1, fun xs hxs => h.2 xs ((List.mem_inits _ _).2 hxs)⟩,
      fun h => ⟨h.eq_append, fun xs hxs => h.le_length xs ((List.mem_inits _ _).1 hxs)⟩⟩

/-- The stream is these values with the first marker behind each, and this rest. -/
inductive Parted (marker : Bytes) : Bytes → List Bytes → Bytes → Prop
  | nil (stream : Bytes) : Parted marker stream [] stream
  | cons {stream middle rest value : Bytes} {values : List Bytes} :
      FirstMarker marker stream value middle → Parted marker middle values rest →
      Parted marker stream (value :: values) rest

theorem exists_firstMarker {marker stream xs : Bytes} (hxs : xs <+: stream) (h : marker <:+ xs) :
    ∃ value rest, FirstMarker marker stream value rest := by
  have hex : ∃ n, marker <:+ stream.take n := by
    refine ⟨xs.length, ?_⟩
    rw [← List.prefix_iff_eq_take.1 hxs]
    exact h
  -- the shortest prefix that ends with the marker
  obtain ⟨value, hvalue⟩ := Nat.find_spec hex
  refine ⟨value, stream.drop (Nat.find hex), ?_, ?_⟩
  · rw [hvalue, List.take_append_drop]
  · intro ys hys hmarker
    rw [List.prefix_iff_eq_take.1 hys] at hmarker
    have hle : Nat.find hex ≤ ys.length := Nat.find_min' hex hmarker
    rw [← List.length_append, hvalue, List.length_take]
    omega

namespace Decoder

/-! ## The search -/

/-- The state in which these bytes have been looked through. -/
def searching (marker seen : Bytes) : (terminated marker).State := seen.reverse

section

variable {marker seen : Bytes}

/-- A prefix of what is kept, latest byte first, is a suffix of what has been seen. -/
theorem isPrefixOf_reverse : marker.reverse.isPrefixOf seen.reverse ↔ marker <:+ seen := by
  rw [List.isPrefixOf_iff_prefix, List.reverse_prefix]

theorem step_searching (h : marker <:+ seen) : (terminated marker).step (searching marker seen) =
    .done (seen.take (seen.length - marker.length)) (terminated marker).start := by
  simp only [terminated, searching, if_pos (isPrefixOf_reverse.2 h), List.drop_reverse,
    List.reverse_reverse]

theorem request?_searching (h : ¬ marker <:+ seen) :
    ((terminated marker).step (searching marker seen)).request? =
      some (1, fun bytes => searching marker (seen ++ bytes.reverse)) := by
  have hresume : (fun bytes : Bytes => bytes ++ seen.reverse) =
      fun bytes => (seen ++ bytes.reverse).reverse := by
    funext bytes
    rw [List.reverse_append, List.reverse_reverse]
  exact (request?_terminated (mt isPrefixOf_reverse.1 h)).trans
    (congrArg (fun resume => some (1, resume)) hresume)

theorem ends_searching_cons (h : ¬ marker <:+ seen) {b : UInt8} {bytes : Bytes}
    {run : Run (terminated marker).State Bytes Bytes} :
    (terminated marker).Ends (searching marker seen) (b :: bytes) run ↔
      (terminated marker).Ends (searching marker (seen ++ [b])) bytes run := by
  rw [ends_of_request (request?_searching h), if_neg (by simp)]
  exact Iff.rfl

/-- The marker is found at the end of `xs` if it is not found before. -/
theorem ends_found {xs : Bytes} (h : marker <:+ seen ++ xs)
    (hfirst : ∀ ys, ys <+: xs → marker <:+ seen ++ ys → ys = xs) (rest : Bytes) :
    (terminated marker).Ends (searching marker seen) (xs ++ rest)
      (.reached (.done ((seen ++ xs).take ((seen ++ xs).length - marker.length)))
        (terminated marker).start rest) := by
  -- byte after byte goes from what is ahead to what has been seen
  induction xs generalizing seen with
  | nil =>
      rw [List.append_nil] at h ⊢
      exact (ends_of_done (step_searching h)).2 rfl
  | cons b xs ih =>
      have hseen : ¬ marker <:+ seen := by
        intro hmarker
        cases hfirst [] List.nil_prefix (by rwa [List.append_nil])
      rw [List.append_cons] at h ⊢
      refine (ends_searching_cons hseen).2 (ih h ?_)
      intro ys hys hmarker
      rw [List.append_assoc] at hmarker
      cases hfirst (b :: ys) ((List.prefix_cons_inj b).2 hys) hmarker
      rfl

theorem ends_searching {xs : Bytes} (h : ∀ ys, ys <+: xs → ¬ marker <:+ seen ++ ys) :
    (terminated marker).Ends (searching marker seen) xs
      (.reached .pending (searching marker (seen ++ xs)) []) := by
  have hseen : ¬ marker <:+ seen := by
    have hnil := h [] List.nil_prefix
    rwa [List.append_nil] at hnil
  induction xs generalizing seen with
  | nil => exact (ends_of_request (request?_searching hseen)).2 rfl
  | cons b xs ih =>
      have hmore : ∀ ys, ys <+: xs → ¬ marker <:+ seen ++ [b] ++ ys := by
        intro ys hys
        rw [List.append_assoc]
        exact h (b :: ys) ((List.prefix_cons_inj b).2 hys)
      rw [List.append_cons]
      refine (ends_searching_cons hseen).2 (ih hmore ?_)
      have hnil := hmore [] List.nil_prefix
      rwa [List.append_nil] at hnil

end

section

variable {marker stream value rest : Bytes} {next : (terminated marker).State}

theorem ends_of_firstMarker (h : FirstMarker marker stream value rest) :
    (terminated marker).Ends (terminated marker).start stream
      (.reached (.done value) (terminated marker).start rest) := by
  have hfirst : ∀ ys, ys <+: value ++ marker → marker <:+ [] ++ ys → ys = value ++ marker := by
    intro ys hys hmarker
    refine hys.eq_of_length_le ?_
    rw [List.length_append]
    refine h.le_length ys (hys.trans ?_) hmarker
    rw [h.eq_append]
    exact List.prefix_append _ _
  have hmarker : marker <:+ [] ++ (value ++ marker) := List.suffix_append value marker
  have hfound := ends_found hmarker hfirst rest
  rw [List.nil_append, List.length_append, Nat.add_sub_cancel, List.take_left, ← h.eq_append]
    at hfound
  exact hfound

theorem ends_terminated_done_iff :
    (terminated marker).Ends (terminated marker).start stream (.reached (.done value) next rest) ↔
      next = (terminated marker).start ∧ FirstMarker marker stream value rest := by
  constructor
  · intro h
    -- there is one run only, and with a marker it ends with the first, without one it is pending
    by_cases hex : ∃ xs, xs <+: stream ∧ marker <:+ xs
    · obtain ⟨xs, hxs, hmarker⟩ := hex
      obtain ⟨value', rest', hfirst⟩ := exists_firstMarker hxs hmarker
      cases h.unique (ends_of_firstMarker hfirst)
      exact ⟨rfl, hfirst⟩
    · have hnone : ∀ ys, ys <+: stream → ¬ marker <:+ [] ++ ys := by
        intro ys hys hmarker
        exact hex ⟨ys, hys, hmarker⟩
      cases h.unique (ends_searching hnone)
  · rintro ⟨rfl, hfirst⟩
    exact ends_of_firstMarker hfirst

theorem ends_terminated_pending_iff :
    (∃ next, (terminated marker).Ends (terminated marker).start stream
      (.reached .pending next [])) ↔ ∀ xs, xs <+: stream → ¬ marker <:+ xs := by
  constructor
  · rintro ⟨next, h⟩ xs hxs hmarker
    obtain ⟨value, rest, hfirst⟩ := exists_firstMarker hxs hmarker
    cases h.unique (ends_of_firstMarker hfirst)
  · intro h
    have hnone : ∀ xs, xs <+: stream → ¬ marker <:+ [] ++ xs := h
    exact ⟨_, ends_searching hnone⟩

theorem inTurn_terminated_iff {values : List Bytes} :
    (terminated marker).InTurn (terminated marker).start stream values next rest ↔
      next = (terminated marker).start ∧ Parted marker stream values rest := by
  constructor
  · intro h
    generalize hstart : (terminated marker).start = state at h
    induction h with
    | nil state stream => exact ⟨rfl, .nil stream⟩
    | cons hvalue _ ih =>
        subst hstart
        obtain ⟨rfl, hfirst⟩ := ends_terminated_done_iff.1 hvalue
        obtain ⟨rfl, hparted⟩ := ih rfl
        exact ⟨rfl, .cons hfirst hparted⟩
  · rintro ⟨rfl, h⟩
    induction h with
    | nil stream => exact .nil _ stream
    | cons hfirst _ ih => exact .cons (ends_of_firstMarker hfirst) ih

end

/-! ## The property -/

/-- The decoder of bytes up to a marker, which must not be empty, finds the first marker.  However the
stream is cut, it answers a value exactly if the first marker of the stream stands behind the value,
and leaves what is behind the marker; it is pending, and has read everything, exactly if no prefix of
the stream ends with the marker; and it looks for further values behind the marker alone. -/
theorem terminated_exact {marker : Bytes} (hmarker : marker ≠ []) (chunk : Bytes)
    (chunks : List Bytes) :
    terminated? marker = .ok (terminated marker) ∧
    (∀ value next rest, (terminated marker).Fed (terminated marker).start (chunk :: chunks)
        (.reached (.done value) next rest) ↔
      next = (terminated marker).start ∧
        FirstMarker marker (chunk ++ chunks.flatten) value rest) ∧
    ((∃ next, (terminated marker).Fed (terminated marker).start (chunk :: chunks)
        (.reached .pending next [])) ↔
      ∀ xs, xs <+: chunk ++ chunks.flatten → ¬ marker <:+ xs) ∧
    ∀ values next rest, (terminated marker).FedInTurn (terminated marker).start (chunk :: chunks)
        values next rest ↔
      next = (terminated marker).start ∧ Parted marker (chunk ++ chunks.flatten) values rest := by
  have hsplits := splits_terminated marker
  refine ⟨?_, ?_, ?_, ?_⟩
  · rw [terminated?, if_neg (by simpa using hmarker)]
  · intro value next rest
    exact hsplits.fed_iff.trans ends_terminated_done_iff
  · refine Iff.trans ?_ ends_terminated_pending_iff
    exact exists_congr fun next => hsplits.fed_iff
  · intro values next rest
    exact hsplits.fedInTurn_iff.trans inTurn_terminated_iff

/-- A marker that begins twice and is cut twice, with a further value behind it. -/
theorem terminated_exact_cut :
    let marker : Bytes := [1, 1, 2]
    marker ≠ [] ∧
    (∃ next, (terminated marker).Fed (terminated marker).start [[5, 1], [1, 1]]
      (.reached .pending next [])) ∧
    (terminated marker).Fed (terminated marker).start [[5, 1], [1, 1], [2, 9, 1], [1, 2]]
      (.reached (.done [5, 1]) (terminated marker).start [9, 1, 1, 2]) ∧
    (terminated marker).FedInTurn (terminated marker).start [[5, 1], [1, 1], [2, 9, 1], [1, 2]]
      [[5, 1], [9]] (terminated marker).start [] := by
  intro marker
  have hmarker : marker ≠ [] := by decide
  obtain ⟨-, -, hpending, -⟩ := terminated_exact hmarker [5, 1] [[1, 1]]
  obtain ⟨-, hdone, -, hturn⟩ := terminated_exact hmarker [5, 1] [[1, 1], [2, 9, 1], [1, 2]]
  have hfirst : FirstMarker marker [5, 1, 1, 1, 2, 9, 1, 1, 2] [5, 1] [9, 1, 1, 2] := by decide
  have hsecond : FirstMarker marker [9, 1, 1, 2] [9] [] := by decide
  have hnone : ∀ xs ∈ ([5, 1, 1, 1] : Bytes).inits, ¬ marker <:+ xs := by decide
  refine ⟨hmarker, hpending.2 ?_, (hdone _ _ _).2 ⟨rfl, hfirst⟩, (hturn _ _ _).2 ⟨rfl, ?_⟩⟩
  · intro xs hxs
    exact hnone xs ((List.mem_inits _ _).2 hxs)
  · exact .cons hfirst (.cons hsecond (.nil []))

end Decoder

end Piecemeal
