/-
# Laws of sequencing

Decoders that follow one another may be bracketed either way, and a decoder that reads nothing may
be left out: with `constant` and `andThen` decoders are a monad, up to what calls can show.  Pairs
associate but for the nesting of their values, and bytes dropped in two portions are dropped in
one.

    (constant v).andThen f              shows as    f v
    d.andThen constant                  shows as    d
    (d.andThen f).andThen g             shows as    d.andThen fun x => (f x).andThen g
    ((a.both b).both c).map nestRight   shows as    a.both (b.both c)
    (d.skipAfter m).skipAfter n         shows as    d.skipAfter (m + n)

The two sides of a law keep the same progress in different places, so each law is a bisimulation
whose clauses say which part is at work: `Chosen`, `Rebracketed`, `Renested`.  Both sides let the
same machine do its step, `meets_of_embed`, so only what follows its answer is left to compare.  A
part that rests on one side may have been made anew on the other; this matters only for the first
law, where the contract of the decoder is needed, `Renewable`.

The law of dropped bytes is not one of single requests: where one side asks for all of the bytes,
the other asks twice.  What a call makes of them is the same, `ends_dropping`, and calls are all
that is seen.
-/
import Piecemeal.Proofs.Bisimulation
import Piecemeal.Proofs.Resumption

namespace Piecemeal

theorem Step.embed_embed {σ τ υ α β γ : Type} (step : Step σ α) (wrap spoiled : σ → τ)
    (finished : α → σ → Step τ β) (wrap' spoiled' : τ → υ) (finished' : β → τ → Step υ γ) :
    (step.embed wrap spoiled finished).embed wrap' spoiled' finished' =
      step.embed (fun state => wrap' (wrap state)) (fun state => spoiled' (spoiled state))
        fun value state => (finished value state).embed wrap' spoiled' finished' := by
  cases step <;> rfl

namespace Decoder

variable {α β γ : Type}

/-- No sequence of calls tells two new decoders apart, up to the first rejection. -/
def ShowsAs (a b : Decoder α) : Prop :=
  ∀ slices ends, a.Shows a.start slices ends ↔ b.Shows b.start slices ends

/-! ## The same machine at work on both sides -/

section Shared

variable {σ ε : Type} {a b : Decoder γ} {P : a.State → b.State → Prop}

/-- Both sides let the same machine do its step. -/
theorem meets_of_embed (inner : Step σ ε) {s : a.State} {s' : b.State} {wrap spoiled : σ → a.State}
    {finished : ε → σ → Step a.State γ} {wrap' spoiled' : σ → b.State}
    {finished' : ε → σ → Step b.State γ} (hs : a.step s = inner.embed wrap spoiled finished)
    (hs' : b.step s' = inner.embed wrap' spoiled' finished')
    (hwrap : ∀ state, P (wrap state) (wrap' state))
    (hdone : ∀ value state, a.step s = finished value state → b.step s' = finished' value state →
      Meets a b P s s') : Meets a b P s s' := by
  rw [Step.embed_eq_graft] at hs hs'
  refine meets_of_graft (Step.Agrees.refl inner) hs hs' ?_ ?_ ?_
  · rintro state _ rfl
    exact hwrap state
  · rintro value _ state _ rfl rfl h h'
    exact hdone value state h h'
  · intro error state state' h h'
    refine .now (.here s) (.here s') ?_
    rw [h, h']
    exact .fail error _ _

theorem meets_of_ticks {s t : a.State} {s' t' : b.State} {events events' : List Event}
    (hs : a.step s = .tick t events) (hs' : b.step s' = .tick t' events') (h : P t t') :
    Meets a b P s s' :=
  .later hs (.here t) hs' (.here t') h

theorem meets_of_dones {s t : a.State} {s' t' : b.State} {value : γ}
    (hs : a.step s = .done value t) (hs' : b.step s' = .done value t') (h : P t t') :
    Meets a b P s s' := by
  refine .now (.here s) (.here s') ?_
  rw [hs, hs']
  exact .done rfl h

/-- While both sides wait for the same machine their calls end alike, if they do when it has answered.
-/
theorem endAlike_of_embed (inner : Decoder ε) {wrap spoiled : inner.State → a.State}
    {finished : ε → inner.State → Step a.State γ} {wrap' spoiled' : inner.State → b.State}
    {finished' : ε → inner.State → Step b.State γ}
    (hstep : ∀ s, a.step (wrap s) = (inner.step s).embed wrap spoiled finished)
    (hstep' : ∀ s, b.step (wrap' s) = (inner.step s).embed wrap' spoiled' finished')
    (hwrap : ∀ s, P (wrap s) (wrap' s))
    (hdone : ∀ value s bytes, ∃ run run', a.EndsBy (finished value s) bytes run ∧
      b.EndsBy (finished' value s) bytes run' ∧ run.Agrees P run')
    (s : inner.State) (bytes : Bytes) : EndAlike a b P (wrap s) (wrap' s) bytes := by
  intro hends
  obtain ⟨r, hr⟩ : ∃ r, inner.Ends s bytes r := by
    rcases hends with ⟨run, hrun⟩ | ⟨run', hrun'⟩
    · obtain ⟨r, hr, -⟩ := (ends_embed a inner wrap spoiled finished hstep).1 hrun
      exact ⟨r, hr⟩
    · obtain ⟨r, hr, -⟩ := (ends_embed b inner wrap' spoiled' finished' hstep').1 hrun'
      exact ⟨r, hr⟩
  match r, hr with
  | .reached .pending next rest, hr =>
      exact ⟨_, _, ends_embed_of_pending a inner wrap spoiled finished hstep hr,
        ends_embed_of_pending b inner wrap' spoiled' finished' hstep' hr,
        .reached rest fun _ => hwrap next⟩
  | .reached (.done value) next rest, hr =>
      obtain ⟨run, run', hrun, hrun', hagrees⟩ := hdone value next rest
      exact ⟨run, run', (ends_embed_of_done a inner wrap spoiled finished hstep hr).2 hrun,
        (ends_embed_of_done b inner wrap' spoiled' finished' hstep' hr).2 hrun', hagrees⟩
  | .reached (.failed error) next rest, hr =>
      exact ⟨_, _, ends_embed_of_failed a inner wrap spoiled finished hstep hr,
        ends_embed_of_failed b inner wrap' spoiled' finished' hstep' hr,
        .reached rest fun hok => absurd rfl (hok error)⟩
  | .broken misuse, hr =>
      exact ⟨_, _, (ends_embed a inner wrap spoiled finished hstep).2 ⟨_, hr, rfl⟩,
        (ends_embed b inner wrap' spoiled' finished' hstep').2 ⟨_, hr, rfl⟩, .broken misuse⟩
  | .exhausted, hr => exact absurd rfl hr.1

theorem Bisimulation.showsAs (h : Bisimulation a b P) (hstart : P a.start b.start) :
    a.ShowsAs b :=
  h.shows_iff hstart

end Shared

/-! ## The monad laws -/

/-- The chosen decoder on its own, used for value after value, and behind a value that is known,
where it is chosen anew each time. -/
inductive Chosen (f : α → Decoder β) (value : α) :
    (f value).State → ((constant value).andThen f).State → Prop
  | waiting {t : (f value).State} :
      (f value).KeepsPace t (f value).start → Chosen f value t ⟨(), none⟩
  | chosen {t s : (f value).State} :
      (f value).KeepsPace t s → Chosen f value t ⟨(), some ⟨value, s⟩⟩

theorem chosen_bisimulation (f : α → Decoder β) (value : α) :
    Bisimulation (f value) ((constant value).andThen f) (Chosen f value) := by
  have hwork (t s : (f value).State) (hpace : (f value).KeepsPace t s) :
      ((f value).step t).Agrees Eq (Chosen f value) (Chosen f value)
        (((constant value).andThen f).step ⟨(), some ⟨value, s⟩⟩) := by
    have hstep : ((constant value).andThen f).step ⟨(), some ⟨value, s⟩⟩ =
        ((f value).step s).graft (fun s => ⟨(), some ⟨value, s⟩⟩)
          (fun result _ => .done result ⟨(), none⟩)
          (fun error s => .fail error ⟨(), some ⟨value, s⟩⟩) := by
      simp only [andThen, Step.embed_eq_graft]
    rw [hstep]
    have hagrees := hpace.step
    generalize (f value).step t = x, (f value).step s = y at hagrees
    cases hagrees with
    | request hreq hreq' hnext =>
        exact .request hreq (Step.request?_graft hreq' ..)
          fun bytes hlen => .chosen (hnext bytes hlen)
    | tick events events' hnext => exact .tick events events' (.chosen hnext)
    | done hvalue hnext => exact .done hvalue (.waiting hnext)
    | fail error t s => exact .fail error t _
    | broken misuse => exact .broken misuse
  intro t progress h
  cases h with
  | waiting hpace => exact .now (.here t) (.single rfl) (hwork t _ hpace)
  | chosen hpace => exact .now (.here t) (.here _) (hwork t _ hpace)

theorem showsAs_constant_andThen {f : α → Decoder β} {value : α} (h : (f value).Renewable) :
    ((constant value).andThen f).ShowsAs (f value) :=
  fun slices ends => ((chosen_bisimulation f value).showsAs (.waiting h) slices ends).symm

theorem showsAs_andThen_constant (d : Decoder α) : (d.andThen constant).ShowsAs d := by
  have hbisim : Bisimulation (d.andThen constant) d fun progress s => progress = ⟨s, none⟩ := by
    rintro _ s rfl
    refine meets_of_embed (d.step s) rfl (Step.embed_id (d.step s)).symm (fun _ => rfl) ?_
    intro value s hs hs'
    refine .now (.single hs) (.here _) ?_
    rw [hs']
    exact .done rfl rfl
  exact hbisim.showsAs rfl

/-- Three decoders one after another, bracketed to the left and to the right. -/
inductive Rebracketed (d : Decoder α) (f : α → Decoder β) (g : β → Decoder γ) :
    ((d.andThen f).andThen g).State → (d.andThen fun value => (f value).andThen g).State → Prop
  | first (s : d.State) : Rebracketed d f g ⟨⟨s, none⟩, none⟩ ⟨s, none⟩
  | second (s : d.State) (value : α) (t : (f value).State) :
      Rebracketed d f g ⟨⟨s, some ⟨value, t⟩⟩, none⟩ ⟨s, some ⟨value, ⟨t, none⟩⟩⟩
  /-- On the right the second decoder is still there, but it is not used any more. -/
  | third (s : d.State) (value : α) (t : (f value).State) (result : β) (u : (g result).State) :
      Rebracketed d f g ⟨⟨s, none⟩, some ⟨result, u⟩⟩ ⟨s, some ⟨value, ⟨t, some ⟨result, u⟩⟩⟩⟩

theorem rebracketed_bisimulation (d : Decoder α) (f : α → Decoder β) (g : β → Decoder γ) :
    Bisimulation ((d.andThen f).andThen g) (d.andThen fun value => (f value).andThen g)
      (Rebracketed d f g) := by
  intro left right h
  cases h with
  | first s =>
      refine meets_of_embed (d.step s) (by simp only [andThen, Step.embed_embed]; rfl) rfl
        .first ?_
      exact fun value s hs hs' => meets_of_ticks hs hs' (.second s value _)
  | second s value t =>
      refine meets_of_embed ((f value).step t) (by simp only [andThen, Step.embed_embed]; rfl)
        (by simp only [andThen, Step.embed_embed]; rfl) (.second s value) ?_
      exact fun result t hs hs' => meets_of_ticks hs hs' (.third s value t result _)
  | third s value t result u =>
      refine meets_of_embed ((g result).step u) rfl
        (by simp only [andThen, Step.embed_embed]; rfl) (.third s value t result) ?_
      exact fun _ u hs hs' => meets_of_dones hs hs' (.first s)

/-! ## Pairs -/

/-- Three decoders in pairs, nested to the left and to the right. -/
inductive Renested (a : Decoder α) (b : Decoder β) (c : Decoder γ) :
    ((a.both b).both c).State → (a.both (b.both c)).State → Prop
  | first (s : a.State) (t : b.State) (u : c.State) :
      Renested a b c ⟨⟨s, t, none⟩, u, none⟩ ⟨s, ⟨t, u, none⟩, none⟩
  | second (s : a.State) (t : b.State) (u : c.State) (x : α) :
      Renested a b c ⟨⟨s, t, some x⟩, u, none⟩ ⟨s, ⟨t, u, none⟩, some x⟩
  | third (s : a.State) (t : b.State) (u : c.State) (x : α) (y : β) :
      Renested a b c ⟨⟨s, t, none⟩, u, some (x, y)⟩ ⟨s, ⟨t, u, some y⟩, some x⟩

/-- The values of a pair of a pair, nested to the right. -/
def nestRight : (α × β) × γ → α × β × γ
  | ((x, y), z) => (x, y, z)

theorem renested_bisimulation (a : Decoder α) (b : Decoder β) (c : Decoder γ) :
    Bisimulation (((a.both b).both c).map nestRight) (a.both (b.both c)) (Renested a b c) := by
  intro left right h
  cases h with
  | first s t u =>
      refine meets_of_embed (a.step s) (by simp only [map, both, Step.embed_embed]; rfl) rfl
        (.first · t u) ?_
      exact fun x s hs hs' => meets_of_ticks hs hs' (.second s t u x)
  | second s t u x =>
      refine meets_of_embed (b.step t) (by simp only [map, both, Step.embed_embed]; rfl)
        (by simp only [both, Step.embed_embed]; rfl) (.second s · u x) ?_
      exact fun y t hs hs' => meets_of_ticks hs hs' (.third s t u x y)
  | third s t u x y =>
      refine meets_of_embed (c.step u) (by simp only [map, both, Step.embed_embed]; rfl)
        (by simp only [both, Step.embed_embed]; rfl) (.third s t · x y) ?_
      exact fun z u hs hs' => meets_of_dones hs hs' (.first s t u)

/-! ## Dropped bytes -/

section Dropping

variable {d : Decoder α}

/-- How a call ends that has a value and drops the bytes behind it. -/
def droppingEnd (d : Decoder α) (n : Nat) (s : d.State) (owed : Nat) (value : α) (bytes : Bytes) :
    Run (d.skipAfter n).State Bytes α :=
  if bytes.length < owed then .reached .pending ⟨s, owed - bytes.length, some value⟩ []
  else .reached (.done value) ⟨s, n, none⟩ (bytes.drop owed)

theorem ends_dropping {n owed : Nat} {s : d.State} {value : α} {bytes : Bytes}
    {run : Run (d.skipAfter n).State Bytes α} :
    (d.skipAfter n).Ends ⟨s, owed, some value⟩ bytes run ↔
      run = droppingEnd d n s owed value bytes := by
  have hdone : (d.skipAfter n).step ⟨s, 0, some value⟩ = .done value ⟨s, n, none⟩ := rfl
  unfold droppingEnd
  by_cases howed : owed = 0
  · subst howed
    rw [ends_of_done hdone, if_neg (Nat.not_lt_zero _), List.drop_zero]
  · rw [ends_of_request (request?_skipAfter howed)]
    split
    next => exact Iff.rfl
    next hlen =>
      have hpaid : owed - (bytes.take owed).length = 0 := by
        rw [List.length_take]; omega
      simp only [hpaid]
      exact ends_of_done hdone

/-- Bytes dropped in two portions behind a value, and in one. -/
inductive Merged (d : Decoder α) (m n : Nat) :
    ((d.skipAfter m).skipAfter n).State → (d.skipAfter (m + n)).State → Prop
  | decoding (s : d.State) : Merged d m n ⟨⟨s, m, none⟩, n, none⟩ ⟨s, m + n, none⟩
  | first (s : d.State) (owed : Nat) (value : α) :
      Merged d m n ⟨⟨s, owed, some value⟩, n, none⟩ ⟨s, owed + n, some value⟩
  | second (s : d.State) (owed : Nat) (value : α) :
      Merged d m n ⟨⟨s, m, none⟩, owed, some value⟩ ⟨s, owed, some value⟩

variable {m n : Nat}

theorem exists_ends_second (s : d.State) (owed : Nat) (value : α) (bytes : Bytes) :
    ∃ run run', ((d.skipAfter m).skipAfter n).Ends ⟨⟨s, m, none⟩, owed, some value⟩ bytes run ∧
      (d.skipAfter (m + n)).Ends ⟨s, owed, some value⟩ bytes run' ∧
      run.Agrees (Merged d m n) run' := by
  refine ⟨_, _, ends_dropping.2 rfl, ends_dropping.2 rfl, ?_⟩
  unfold droppingEnd
  split
  next => exact .reached [] fun _ => .second s _ value
  next => exact .reached _ fun _ => .decoding s

theorem exists_ends_first (s : d.State) (owed : Nat) (value : α) (bytes : Bytes) :
    ∃ run run', ((d.skipAfter m).skipAfter n).Ends ⟨⟨s, owed, some value⟩, n, none⟩ bytes run ∧
      (d.skipAfter (m + n)).Ends ⟨s, owed + n, some value⟩ bytes run' ∧
      run.Agrees (Merged d m n) run' := by
  have hinner : (d.skipAfter m).Ends ⟨s, owed, some value⟩ bytes _ := ends_dropping.2 rfl
  unfold droppingEnd at hinner
  by_cases hlen : bytes.length < owed
  · rw [if_pos hlen] at hinner
    refine ⟨_, _, ends_embed_of_pending ((d.skipAfter m).skipAfter n) (d.skipAfter m)
      (⟨·, n, none⟩) (⟨·, n, none⟩) _ (fun _ => rfl) hinner, ends_dropping.2 rfl, ?_⟩
    rw [droppingEnd, if_pos (Nat.lt_add_right n hlen), Nat.sub_add_comm (Nat.le_of_lt hlen)]
    exact .reached [] fun _ => .first s _ value
  · rw [if_neg hlen] at hinner
    have hsecond : ((d.skipAfter m).skipAfter n).EndsBy (.tick ⟨⟨s, m, none⟩, n, some value⟩ [])
        (bytes.drop owed) (droppingEnd (d.skipAfter m) n ⟨s, m, none⟩ n value (bytes.drop owed)) :=
      ends_dropping.2 rfl
    refine ⟨_, _, (ends_embed_of_done ((d.skipAfter m).skipAfter n) (d.skipAfter m)
      (⟨·, n, none⟩) (⟨·, n, none⟩) _ (fun _ => rfl) hinner).2 hsecond, ends_dropping.2 rfl, ?_⟩
    unfold droppingEnd
    rw [List.length_drop, List.drop_drop]
    by_cases hlast : bytes.length < owed + n
    · have howed : n - (bytes.length - owed) = owed + n - bytes.length := by omega
      rw [if_pos (by omega), if_pos hlast, howed]
      exact .reached [] fun _ => .second s _ value
    · rw [if_neg (by omega), if_neg hlast]
      exact .reached _ fun _ => .decoding s

theorem endAlike_merged {left : ((d.skipAfter m).skipAfter n).State}
    {right : (d.skipAfter (m + n)).State} (h : Merged d m n left right) (bytes : Bytes) :
    EndAlike ((d.skipAfter m).skipAfter n) (d.skipAfter (m + n)) (Merged d m n) left right
      bytes := by
  cases h with
  | decoding s =>
      have hstep (s : d.State) : ((d.skipAfter m).skipAfter n).step ⟨⟨s, m, none⟩, n, none⟩ =
          (d.step s).embed (fun s => ⟨⟨s, m, none⟩, n, none⟩) (fun s => ⟨⟨s, m, none⟩, n, none⟩)
            fun value s => .tick ⟨⟨s, m, some value⟩, n, none⟩ [] := by
        simp only [skipAfter, Step.embed_embed]
        rfl
      have hstep' (s : d.State) : (d.skipAfter (m + n)).step ⟨s, m + n, none⟩ =
          (d.step s).embed (⟨·, m + n, none⟩) (⟨·, m + n, none⟩)
            fun value s => .tick ⟨s, m + n, some value⟩ [] := rfl
      exact endAlike_of_embed d hstep hstep' Merged.decoding
        (fun value s bytes => exists_ends_first s m value bytes) s bytes
  | first s owed value => exact fun _ => exists_ends_first s owed value bytes
  | second s owed value => exact fun _ => exists_ends_second s owed value bytes

end Dropping

theorem showsAs_skipAfter_skipAfter (d : Decoder α) (m n : Nat) :
    ((d.skipAfter m).skipAfter n).ShowsAs (d.skipAfter (m + n)) :=
  shows_iff_of_endAlike (fun _ _ h bytes => endAlike_merged h bytes) (.decoding d.start)

/-! ## The property -/

/-- The laws of sequencing.  A value that is known in front of a chosen decoder may be left out, if
that is one of the library, and so may one that is only passed on behind a decoder; three decoders in
a row may be bracketed either way, and so may pairs, but for the nesting of their values; and bytes
dropped in two portions may be dropped in one.  In each case no sequence of calls tells the two sides
apart, up to the first rejection. -/
theorem sequencing_laws :
    (∀ (value : α) (f : α → Decoder β), (f value).Standard →
      ((constant value).andThen f).ShowsAs (f value)) ∧
    (∀ d : Decoder α, (d.andThen constant).ShowsAs d) ∧
    (∀ (d : Decoder α) (f : α → Decoder β) (g : β → Decoder γ),
      ((d.andThen f).andThen g).ShowsAs (d.andThen fun value => (f value).andThen g)) ∧
    (∀ (a : Decoder α) (b : Decoder β) (c : Decoder γ),
      (((a.both b).both c).map nestRight).ShowsAs (a.both (b.both c))) ∧
    ∀ (d : Decoder α) (m n : Nat), ((d.skipAfter m).skipAfter n).ShowsAs (d.skipAfter (m + n)) :=
  ⟨fun _ _ h => showsAs_constant_andThen h.renewable, showsAs_andThen_constant,
    fun d f g => (rebracketed_bisimulation d f g).showsAs (.first d.start),
    fun a b c => (renested_bisimulation a b c).showsAs (.first a.start b.start c.start),
    showsAs_skipAfter_skipAfter⟩

/-- Two bytes behind a known count, for two values, with the second cut in the middle; and two bytes
dropped behind each of two values, one by one. -/
theorem sequencing_laws_over_two_values :
    (Standard (bytes 2) ∧
      ((constant 2).andThen bytes).Shows ((constant 2).andThen bytes).start [[1, 2, 3], [4], [5]]
        [.reached (.done [1, 2]) () [3], .reached .pending () [], .reached (.done [4, 5]) () []]) ∧
    ((bool.skipAfter 1).skipAfter 1).Shows ((bool.skipAfter 1).skipAfter 1).start
      [[1, 8, 8, 0], [0, 8], [8]]
      [.reached (.done true) () [0], .reached .pending () [], .reached (.done false) () []] := by
  have hbytes : (bytes 2).Shows (bytes 2).start [[1, 2, 3], [4], [5]]
      [.reached (.done [1, 2]) () [3], .reached .pending () [], .reached (.done [4, 5]) () []] :=
    .answered ⟨by simp, 9, rfl⟩ (by simp)
      (.answered ⟨by simp, 9, rfl⟩ (by simp) (.answered ⟨by simp, 9, rfl⟩ (by simp) (.nothing _)))
  have hbool : (bool.skipAfter 2).Shows (bool.skipAfter 2).start [[1, 8, 8, 0], [0, 8], [8]]
      [.reached (.done true) () [0], .reached .pending () [], .reached (.done false) () []] :=
    .answered ⟨by simp, 9, rfl⟩ (by simp)
      (.answered ⟨by simp, 9, rfl⟩ (by simp) (.answered ⟨by simp, 9, rfl⟩ (by simp) (.nothing _)))
  have hlaws := sequencing_laws (α := Nat) (β := Bytes) (γ := Unit)
  exact ⟨⟨.bytes 2, (hlaws.1 2 bytes (.bytes 2) _ _).2 hbytes⟩,
    ((sequencing_laws (α := Bool) (β := Unit) (γ := Unit)).2.2.2.2 bool 1 1 _ _).2 hbool⟩

end Decoder

end Piecemeal
