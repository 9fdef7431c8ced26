/-
# Adapters and parts

What an adapter does can also be said by parts of a recipe: a decoder chosen for a value, bytes
that are dropped behind it, a pair, or a value transformed.  `Spelled` lists the ways to spell an
adapter out.

    d.andThen f       d, then `replace` by the decoder that `f` chooses
    d.skipAfter n     d, then `skip n`
    a.both b          a, then `decode b`, then `reduceRow` to the pair
    d.map f           d, then `reduceRow` by `f`

It makes no difference, at any place of any recipe and whatever is added behind it: the recipe with
the adapter and the one with the parts fail to be built alike, or make programs that cannot be told
apart, `Spelled.indistinguishable`.  The call `decodeMapped` of the builder is the last of the
four.

An adapter keeps its first value and its second decoder in its own state, and a program keeps them
on its stack and in a step of its own.  Both go through the same decoders one after another, so the
adapter enacts the parts that it is spelled out to, as `Amid` the composite of what stands before
it: `enacts_behind` for the first part, `Enacts.next` for the ones that follow, and
`resembles_of_tops` when the last has been enacted and the adapter answers with it.  So the one can
be exchanged for the other, `interchange_of_behind`, and the rest is the matter of
`Piecemeal.Proofs.Congruence`.
-/
import Piecemeal.Proofs.Congruence

namespace Piecemeal

variable {κ : Type} [Atom κ]

/-! ## Ways to spell an adapter out -/

/-- To decode a value of this type with the decoder is to decode one of type `source` with `first`,
and to make the calls `more`. -/
inductive Spelled : (type : ValueType κ) → Decoder type.Carrier → (source : ValueType κ) →
    Decoder source.Carrier → List (Addition κ) → Prop
  | chained {source type : ValueType κ} (d : Decoder source.Carrier)
      (f : source.Carrier → Decoder type.Carrier) :
      Spelled type (d.andThen f) source d [.replace source type f]
  | trailed {type : ValueType κ} (d : Decoder type.Carrier) (n : Nat) :
      Spelled type (d.skipAfter n) type d [.skip n]
  | paired {left right : ValueType κ} (a : Decoder left.Carrier) (b : Decoder right.Carrier) :
      Spelled (.pair left right) (a.both b) left a
        [.decode right b, .reduceRow [left, right] (.pair left right) fun (x, y, _) => (x, y)]
  | mapped {source type : ValueType κ} (d : Decoder source.Carrier)
      (f : source.Carrier → type.Carrier) :
      Spelled type (d.map f) source d [.reduceRow [source] type fun (x, _) => f x]

/-! ## Adapters enact their parts -/

namespace Decoder

variable {E : DecodeError → Prop} {α β : Type}

theorem enacts_inner (d : Decoder α) (n : Nat) :
    Enacts E (d.skipAfter n) d (fun value t => ∃ inner, t = ⟨inner, n, some value⟩)
      (d.skipAfter n).start d.start := by
  have hhost : (d.skipAfter n).Hosts d (⟨·, n, none⟩) := hosts_of_embed fun _ => rfl
  refine (Resembles.refl d).hosted hhost (.refl d) ?_
  intro value s t last last' hs ht
  have hstep : (d.skipAfter n).step ⟨s, n, none⟩ = .tick ⟨last, n, some value⟩ [] := by
    simp only [skipAfter, hs]
    rfl
  exact (enacts_of_done ht ⟨last, rfl⟩).of_idles (.single hstep) (.here t)

theorem enacts_owed (d : Decoder α) (n : Nat) (inner : d.State) (value : α) :
    Enacts E (d.skipAfter n) (skipBytes n)
      (fun _ t => (d.skipAfter n).step t = .done value ⟨inner, n, none⟩) ⟨inner, n, some value⟩
      (skipBytes n).start := by
  have hstep : ∀ owed : Nat, (d.skipAfter n).step ⟨inner, owed, some value⟩ =
      ((skipBytes n).step owed).embed (⟨inner, ·, some value⟩) (⟨inner, ·, some value⟩)
        fun _ _ => .done value ⟨inner, n, none⟩ := by
    intro owed
    simp only [skipAfter, skipBytes]
    split <;> rfl
  refine (Resembles.refl (skipBytes n)).hosted (hosts_of_embed hstep) (.refl _) ?_
  intro _ s t last last' hs ht
  refine enacts_of_done ht ?_
  have howed := hstep s
  rw [hs] at howed
  exact howed

theorem enacts_left (a : Decoder α) (b : Decoder β) :
    Enacts E (a.both b) a (fun x t => ∃ first, t = ⟨first, b.start, some x⟩) (a.both b).start
      a.start := by
  have hhost : (a.both b).Hosts a (⟨·, b.start, none⟩) := hosts_of_embed fun _ => rfl
  refine (Resembles.refl a).hosted hhost (.refl a) ?_
  intro x s t last last' hs ht
  have hstep : (a.both b).step ⟨s, b.start, none⟩ = .tick ⟨last, b.start, some x⟩ [] := by
    simp only [both, hs]
    rfl
  exact (enacts_of_done ht ⟨last, rfl⟩).of_idles (.single hstep) (.here t)

theorem enacts_right (a : Decoder α) (b : Decoder β) (first : a.State) (x : α) :
    Enacts E (a.both b) b (fun y t => ∃ last, (a.both b).step t = .done (x, y) last)
      ⟨first, b.start, some x⟩ b.start := by
  have hhost : (a.both b).Hosts b (⟨first, ·, some x⟩) := hosts_of_embed fun _ => rfl
  refine (Resembles.refl b).hosted hhost (.refl b) ?_
  intro y s t last last' hs ht
  refine enacts_of_done ht ⟨⟨first, last, none⟩, ?_⟩
  simp only [both, hs]
  rfl

theorem enacts_mapped (d : Decoder α) (f : α → β) :
    Enacts E (d.map f) d (fun x t => ∃ last, (d.map f).step t = .done (f x) last) (d.map f).start
      d.start := by
  refine (Resembles.refl d).hosted (hosts_map f d) (.refl d) ?_
  intro x s t last last' hs ht
  exact enacts_of_done ht ⟨last, step_map f hs⟩

end Decoder

/-! ## Behind what stands before -/

section Amid

variable {E : DecodeError → Prop} {type source : ValueType κ} {d : Decoder type.Carrier}
  {first : Decoder source.Carrier} {C C' B : Decoder (List (Cell κ))}

/-- The decoder is at work behind a stack, in a state that is right for these cells. -/
def Amid (C : Decoder (List (Cell κ))) (type : ValueType κ) (d : Decoder type.Carrier)
    (after : List (Cell κ) → List (Cell κ) → d.State → Prop) (cells : List (Cell κ))
    (s : (C.behind type d).State) : Prop :=
  ∃ stack last t, s = ⟨last, some ⟨stack, t⟩⟩ ∧ after stack cells t

theorem enacts_behind (h : Decoder.Resembles E C C') {after : source.Carrier → d.State → Prop}
    (hfirst : d.Enacts E first after d.start first.start) :
    (C.behind type d).Enacts E (C'.behind source first)
      (Amid C type d fun stack cells t =>
        ∃ value, cells = ⟨source, value⟩ :: stack ∧ after value t)
      (C.behind type d).start (C'.behind source first).start := by
  refine (h.first fun stack => (Action.decode type d).composite stack).andThen ?_
  rintro stack _ ⟨last, rfl⟩
  refine (hfirst.host (Decoder.hosts_behind last stack)).map ?_
  rintro value _ ⟨t, rfl, hafter⟩
  exact ⟨_, .here _, stack, last, t, rfl, value, rfl, hafter⟩

theorem Decoder.Enacts.next {after after' : List (Cell κ) → List (Cell κ) → d.State → Prop}
    {rest : List (Cell κ) → Decoder (List (Cell κ))} {s : (C.behind type d).State}
    (h : (C.behind type d).Enacts E B (Amid C type d after) s B.start)
    (hrest : ∀ stack cells t, after stack cells t →
      d.Enacts E (rest cells) (after' stack) t (rest cells).start) :
    (C.behind type d).Enacts E (B.andThen rest) (Amid C type d after') s (B.andThen rest).start := by
  refine h.andThen ?_
  rintro cells _ ⟨stack, last, t, rfl, hafter⟩
  refine ((hrest stack cells t hafter).host (Decoder.hosts_behind last stack)).mono ?_
  rintro cells' _ ⟨t', rfl, hafter'⟩
  exact ⟨_, .here _, stack, last, t', rfl, hafter'⟩

theorem enacts_behind_both {left right : ValueType κ} (h : Decoder.Resembles E C C')
    (a : Decoder left.Carrier) (b : Decoder right.Carrier) :
    (C.behind (.pair left right) (a.both b)).Enacts E ((C'.behind left a).behind right b)
      (Amid C (.pair left right) (a.both b) fun stack cells t => ∃ x y last,
        cells = ⟨right, y⟩ :: ⟨left, x⟩ :: stack ∧ (a.both b).step t = .done (x, y) last)
      (C.behind (.pair left right) (a.both b)).start ((C'.behind left a).behind right b).start := by
  refine (enacts_behind h (Decoder.enacts_left a b)).next ?_
  rintro stack _ _ ⟨x, rfl, first, rfl⟩
  refine (Decoder.enacts_right a b first x).map ?_
  rintro y t ⟨last, hdone⟩
  exact ⟨t, .here t, x, y, last, rfl, hdone⟩

/-- The decoder answers the value on top of these cells. -/
def Tops (type : ValueType κ) (d : Decoder type.Carrier) (stack cells : List (Cell κ))
    (t : d.State) : Prop :=
  ∃ value last, cells = ⟨type, value⟩ :: stack ∧ d.step t = .done value last

/-- When it has enacted all of its parts it answers with them. -/
theorem resembles_of_tops
    (h : (C.behind type d).Enacts E B (Amid C type d (Tops type d)) (C.behind type d).start B.start) :
    Decoder.Resembles E (C.behind type d) B := by
  refine h.mono ?_
  rintro _ _ ⟨stack, last, t, rfl, value, last', rfl, hdone⟩
  exact ⟨_, .here _, _, Decoder.step_behind last stack hdone⟩

end Amid

/-! ## Composites -/

namespace Recipe

variable {E : DecodeError → Prop} {whole : ValueType κ}

/-- Decodes the stack that stands before a part. -/
def compositeBefore (root : Recipe κ whole) (limit room : Nat) :
    Option (Recipe κ whole) → Decoder (List (Cell κ))
  | none => .constant []
  | some r => root.composite limit room r

theorem composite_decodeAfter (root : Recipe κ whole) (limit room : Nat)
    (before : Option (Recipe κ whole)) (type : ValueType κ) (decoder : Decoder type.Carrier) :
    root.composite limit room (decodeAfter before type decoder) =
      (root.compositeBefore limit room before).behind type decoder := by
  cases before with
  | none => exact composite_first root limit room type decoder
  | some r => exact composite_act root r limit room (.decode type decoder)

/-- The types that are pending before a part. -/
def pendingBefore (before : Option (Recipe κ whole)) : List (ValueType κ) :=
  before.elim [] pending

theorem pending_decodeAfter (before : Option (Recipe κ whole)) (type : ValueType κ)
    (decoder : Decoder type.Carrier) :
    (decodeAfter before type decoder).pending = type :: pendingBefore before := by
  cases before <;> rfl

theorem tailMisuse?_eq_none {r : Recipe κ whole} {wanted rest : List (ValueType κ)}
    (h : r.pending = wanted.reverse ++ rest) (label : String) :
    r.tailMisuse? label wanted = none := by
  have hlen : ¬ r.pending.length < wanted.length := by
    rw [h, List.length_append, List.length_reverse]
    omega
  have htake : (r.pending.take wanted.length).reverse = wanted := by
    rw [h, ← List.length_reverse, List.take_left, List.reverse_reverse]
  have hzip : wanted.zip wanted = wanted.map fun type => (type, type) := List.zipWith_self
  rw [tailMisuse?, if_neg hlen, htake, Option.map_eq_none_iff, List.find?_eq_none, hzip]
  intro pair hpair
  obtain ⟨type, -, rfl⟩ := List.mem_map.1 hpair
  simp

theorem reduceRow_eq_ok {r : Recipe κ whole} {types rest : List (ValueType κ)}
    (h : r.pending = types.reverse ++ rest) (hne : types ≠ []) (type : ValueType κ)
    (f : Row types → type.Carrier) :
    r.reduceRow types type f = .ok (r.act (.reduce types.length type (.row types f))) := by
  have hlen : ¬ r.pending.length < types.length := by
    rw [h, List.length_append, List.length_reverse]
    omega
  rw [reduceRow, tailMisuse?_eq_none h]
  simp only [reduce, if_neg hlen, List.length_eq_zero_iff, if_neg hne]

theorem evaluate_single {source : ValueType κ} {α : Type} (x : source.Carrier)
    (stack : List (Cell κ)) (f : source.Carrier → α) :
    (Reading.row [source] fun ((x, _) : Row [source]) => f x).evaluate
      ((⟨source, x⟩ :: stack).take 1).reverse = .ok (f x, []) := by
  simp [Reading.row, Reading.evaluate]

theorem evaluate_pair {left right : ValueType κ} (x : left.Carrier) (y : right.Carrier)
    (stack : List (Cell κ)) :
    (Reading.row [left, right] fun ((x, y, _) : Row [left, right]) => (x, y)).evaluate
      ((⟨right, y⟩ :: ⟨left, x⟩ :: stack).take 2).reverse = .ok ((x, y), []) := by
  simp [Reading.row, Reading.evaluate]

/-- What a decoder enacts behind anything that stands before, it can be exchanged for. -/
theorem interchange_of_behind {type : ValueType κ} {d : Decoder type.Carrier}
    {before : Option (Recipe κ whole)} {q : Recipe κ whole}
    (h : ∀ (root root' : Recipe κ whole) (limit room limit' room' : Nat),
      Decoder.Resembles E (root.compositeBefore limit room before)
        (root'.compositeBefore limit' room' before) →
      Decoder.Resembles E ((root.compositeBefore limit room before).behind type d)
        (root'.composite limit' room' q)) :
    Interchange E (decodeAfter before type d) q := by
  intro root root' limit room limit' room' _ hsame
  rw [composite_decodeAfter]
  refine h root root' limit room limit' room' ?_
  cases before with
  | none => exact .refl _
  | some r => exact hsame r

section Interchange

variable {type source left right : ValueType κ} (before : Option (Recipe κ whole))

theorem interchange_chained (d : Decoder source.Carrier)
    (f : source.Carrier → Decoder type.Carrier) :
    Interchange E (decodeAfter before type (d.andThen f))
      ((decodeAfter before source d).act (.replace source type f)) := by
  refine interchange_of_behind ?_
  intro root root' limit room limit' room' hbefore
  rw [composite_act, composite_decodeAfter]
  refine resembles_of_tops ((enacts_behind hbefore ((Decoder.Resembles.refl d).first f)).next ?_)
  rintro stack _ _ ⟨value, rfl, last, rfl⟩
  rw [Action.composite, Decoder.topmost_mk]
  refine Decoder.enacts_constant_andThen ?_
  refine (Decoder.Resembles.refl (f value)).hosted (Decoder.hosts_second d f last value)
    (Decoder.hosts_map (fun result => Cell.mk type result :: stack) (f value)) ?_
  intro result s t _ _ hs ht
  exact Decoder.enacts_of_done (Decoder.step_map _ ht) ⟨result, _, rfl, Decoder.step_second last hs⟩

theorem interchange_trailed (d : Decoder type.Carrier) (n : Nat) :
    Interchange E (decodeAfter before type (d.skipAfter n))
      ((decodeAfter before type d).skip n) := by
  refine interchange_of_behind ?_
  intro root root' limit room limit' room' hbefore
  rw [composite_skip, composite_decodeAfter]
  refine resembles_of_tops ((enacts_behind hbefore (Decoder.enacts_inner d n)).next ?_)
  rintro stack _ _ ⟨value, rfl, inner, rfl⟩
  refine (Decoder.enacts_owed d n inner value).map ?_
  intro _ t hdone
  exact ⟨t, .here t, value, _, rfl, hdone⟩

theorem interchange_paired (a : Decoder left.Carrier) (b : Decoder right.Carrier) :
    Interchange E (decodeAfter before (.pair left right) (a.both b))
      (((decodeAfter before left a).decode right b).act
        (.reduce 2 (.pair left right) (.row [left, right] fun (x, y, _) => (x, y)))) := by
  refine interchange_of_behind ?_
  intro root root' limit room limit' room' hbefore
  rw [composite_act, decode, composite_act, composite_decodeAfter]
  have hboth := enacts_behind_both hbefore a b
  refine resembles_of_tops (hboth.next ?_)
  rintro stack _ t ⟨x, y, last, rfl, hdone⟩
  rw [Action.composite_reduce (evaluate_pair x y stack)]
  exact Decoder.enacts_constant ⟨(x, y), last, rfl, hdone⟩ ()

theorem interchange_mapped (d : Decoder source.Carrier) (f : source.Carrier → type.Carrier) :
    Interchange E (decodeAfter before type (d.map f))
      ((decodeAfter before source d).act (.reduce 1 type (.row [source] fun (x, _) => f x))) := by
  refine interchange_of_behind ?_
  intro root root' limit room limit' room' hbefore
  rw [composite_act, composite_decodeAfter]
  refine resembles_of_tops ((enacts_behind hbefore (Decoder.enacts_mapped d f)).next ?_)
  rintro stack _ t ⟨x, rfl, last, hdone⟩
  rw [Action.composite_reduce (evaluate_single x stack f)]
  exact Decoder.enacts_constant ⟨f x, last, rfl, hdone⟩ ()

end Interchange

end Recipe

/-! ## The property -/

theorem Recipe.Interchange.shows_iff {whole : ValueType κ} {b q : Recipe κ whole}
    (h : Interchange (fun _ => False) b q) (hb : b.Accepted) (hq : q.Accepted)
    (hpending : b.pending = q.pending) (additions : List (Addition κ)) (maxDepth : Nat) :
    Parallel (fun p p' => ∀ slices ends, p.decoder.Shows p.decoder.start slices ends ↔
        p'.decoder.Shows p'.decoder.start slices ends)
      (b.buildProgram additions maxDepth) (q.buildProgram additions maxDepth) := by
  have hswap : Alongside (fun r r' => r = b ∧ r' = q) b q := .swap ⟨rfl, rfl⟩
  refine (hswap.buildProgram ?_ additions maxDepth maxDepth).mono ?_
  · rintro _ _ ⟨rfl, rfl⟩
    exact hpending
  · rintro p p' - - ⟨root, root', hroot, hbuild, hbuild', hp, hp'⟩
    have hof := (hb.build hbuild).ofRecipe hp
    have hof' := (hq.build hbuild').ofRecipe hp'
    have hdepth : p.maxDepth = p'.maxDepth := by
      obtain ⟨-, rfl⟩ := exists_eq_program hp
      obtain ⟨-, rfl⟩ := exists_eq_program hp'
      rfl
    have hlimit : SameLimit (fun _ => False) p.maxDepth p.maxDepth p'.maxDepth p'.maxDepth :=
      .inl ⟨hdepth, hdepth⟩
    have hchanges : ∀ r r', r = b ∧ r' = q → Interchange (fun _ => False) r r' := by
      rintro _ _ ⟨rfl, rfl⟩
      exact h
    exact hof.shows_iff hof'
      (resembles_compositeValue (Alongside.resembles hchanges hroot hlimit hroot) whole)

namespace Spelled

open Recipe

variable {whole : ValueType κ} {type source : ValueType κ} {d : Decoder type.Carrier}
  {first : Decoder source.Carrier} {more : List (Addition κ)}

theorem exists_build (h : Spelled type d source first more) (E : DecodeError → Prop)
    (before : Option (Recipe κ whole)) :
    ∃ q, (decodeAfter before source first).build more = .ok q ∧
      (decodeAfter before type d).pending = q.pending ∧
      Interchange E (decodeAfter before type d) q := by
  have hpending : ∀ (type : ValueType κ) (d : Decoder type.Carrier),
      (decodeAfter before type d).pending = [type].reverse ++ pendingBefore before :=
    pending_decodeAfter before
  cases h with
  | chained _ f =>
      refine ⟨_, ?_, ?_, interchange_chained before first f⟩
      · simp only [build, Addition.addTo, replace, tailMisuse?_eq_none (hpending source first)]
        rfl
      · rw [hpending, pending_act, hpending]
        rfl
  | trailed d n =>
      refine ⟨_, rfl, ?_, interchange_trailed before d n⟩
      exact (hpending type (d.skipAfter n)).trans (hpending type d).symm
  | @paired _ right _ b =>
      have hboth : ((decodeAfter before source first).decode right b).pending =
          [source, right].reverse ++ pendingBefore before :=
        congrArg (List.cons right) (hpending source first)
      refine ⟨_, ?_, ?_, interchange_paired before first b⟩
      · simp only [build, Addition.addTo]
        show (Recipe.reduceRow _ _ _ _ >>= fun r => Except.ok r) = _
        rw [reduceRow_eq_ok hboth (List.cons_ne_nil _ _)]
        rfl
      · refine (hpending (.pair source right) (first.both b)).trans ?_
        rw [pending_act, hboth]
        rfl
  | mapped _ f =>
      refine ⟨_, ?_, ?_, interchange_mapped before first f⟩
      · simp only [build, Addition.addTo]
        rw [reduceRow_eq_ok (hpending source first) (List.cons_ne_nil _ _)]
        rfl
      · rw [hpending, pending_act, hpending]
        rfl

/-- A recipe with an adapter and one with the parts that it is spelled out to fail to be built in the
same way, or their programs cannot be told apart. -/
theorem indistinguishable (h : Spelled type d source first more) {before : Option (Recipe κ whole)}
    (hbefore : ∀ r, before = some r → r.Accepted) (additions : List (Addition κ)) (maxDepth : Nat) :
    Parallel (fun p p' => ∀ slices ends, p.decoder.Shows p.decoder.start slices ends ↔
        p'.decoder.Shows p'.decoder.start slices ends)
      ((decodeAfter before type d).buildProgram additions maxDepth)
      ((decodeAfter before source first).buildProgram (more ++ additions) maxDepth) := by
  obtain ⟨q, hq, hpending, hchange⟩ := h.exists_build (fun _ => False) before
  rw [buildProgram_append, hq]
  exact hchange.shows_iff (.decodeAfter hbefore type d)
    ((Accepted.decodeAfter hbefore source first).build hq) hpending additions maxDepth

/-- Also at the call that decodes a value and transforms it: it decodes the value, and reduces it
alone. -/
theorem decodeMapped_shows_iff {r : Recipe κ whole} (h : r.Accepted)
    (first : Decoder source.Carrier) (f : source.Carrier → type.Carrier)
    (additions : List (Addition κ)) (maxDepth : Nat) :
    Parallel (fun p p' => ∀ slices ends, p.decoder.Shows p.decoder.start slices ends ↔
        p'.decoder.Shows p'.decoder.start slices ends)
      ((r.decodeMapped type first f).buildProgram additions maxDepth)
      ((r.decode source first).buildProgram
        (.reduceRow [source] type (fun row => f row.1) :: additions) maxDepth) := by
  obtain ⟨q, hq, hpending, hchange⟩ :=
    (Spelled.mapped first f).exists_build (fun _ => False) (some r)
  have hbuild : (r.decode source first).build [.reduceRow [source] type fun row => f row.1] =
      .ok q := hq
  have hprogram := buildProgram_append (r.decode source first)
    [.reduceRow [source] type fun row => f row.1] additions maxDepth
  rw [hbuild] at hprogram
  rw [← List.singleton_append, hprogram]
  exact hchange.shows_iff (h.decode type (first.map f)) ((h.decode source first).build hbuild)
    hpending additions maxDepth

/-- One byte of a node. -/
def byte : Decoder (ValueType.uint8 : ValueType Empty).Carrier := .number UInt8 .big

/-- The subtrees of a node that is a byte and a pair of bytes, and the number of nodes. -/
def countNodes : List (Addition Empty) :=
  [.recur .bool, .recur .bool,
    .reduceRow [.uint8, .pair .uint8 .uint8, .option .size, .option .size] .size
      fun (_, _, left, right, _) => nodesAbove left right]

/-- A leaf whose pair of bytes comes in two slices. -/
theorem shows_countNodes :
    ∃ p p' : Program Empty .size,
      ((Recipe.first .uint8 byte).decode (.pair .uint8 .uint8) (byte.both byte)).buildProgram
        countNodes 8 = .ok p ∧
      ((Recipe.first .uint8 byte).decode .uint8 byte).buildProgram
        ([.decode .uint8 byte,
          .reduceRow [.uint8, .uint8] (.pair .uint8 .uint8) fun (x, y, _) => (x, y)] ++ countNodes)
        8 = .ok p' ∧
      p.decoder.Shows p.decoder.start [[7, 1], [2, 0, 0]]
        [.reached .pending () [], .reached (.done (1 : Nat)) () []] ∧
      p'.decoder.Shows p'.decoder.start [[7, 1], [2, 0, 0]]
        [.reached .pending () [], .reached (.done (1 : Nat)) () []] := by
  obtain ⟨p, hp, middle, last, hfirst, hsecond⟩ : ∃ p : Program Empty .size,
      ((Recipe.first .uint8 byte).decode (.pair .uint8 .uint8) (byte.both byte)).buildProgram
        countNodes 8 = .ok p ∧
        ∃ middle last,
          p.decoder.run 30 p.decoder.start ([7, 1] : Bytes) = .reached .pending middle [] ∧
          p.decoder.run 30 middle ([2, 0, 0] : Bytes) = .reached (.done (1 : Nat)) last [] :=
    ⟨_, rfl, _, _, rfl, rfl⟩
  have hshows : p.decoder.Shows p.decoder.start [[7, 1], [2, 0, 0]]
      [.reached .pending () [], .reached (.done (1 : Nat)) () []] :=
    .answered ⟨by simp, 30, hfirst⟩ (by simp)
      (.answered ⟨by simp, 30, hsecond⟩ (by simp) (.nothing _))
  have hbefore : ∀ r, some (Recipe.first .uint8 byte : Recipe Empty .size) = some r →
      r.Accepted := by
    rintro _ ⟨⟩
    exact .first .uint8 byte
  obtain ⟨p', hp', hsame⟩ :=
    ((Spelled.paired byte byte).indistinguishable hbefore countNodes 8).exists_of_ok hp
  exact ⟨p, p', hp, hp', hshows, (hsame _ _).1 hshows⟩

end Spelled

end Piecemeal
