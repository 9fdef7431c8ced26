/-
# Nested and inlined

A program can be used as a decoder in another recipe, or its parts can stand there themselves.
`nested_like_inlined` says that the two cannot be told apart, unless a limit is exceeded: if `D` is
the program that `parts` make of a decoder, then building

    first X D.decoder, more                 and                 first type decoder, parts ++ more

fails alike, or gives programs with `p.decoder.SameUnless IsDepthLimit p'.decoder`.  Nested, the
program has a machine of its own, with a stack and a limit of its own; inlined, its parts share the
steps, the stack and the scopes of the whole.

The parts must not recurse, as a recursion leads back to the recipe that it stands in.  Without
one, a part decodes the same stacks in any recipe, `composite_retype`; so the composite of the
parts in the recipe around them is that of `D`, which the program enacts, and the one can stand in
the place of the other, `Program.OfRecipe.interchange_nested`.  What is built on top of either is
the matter of `Piecemeal.Proofs.Congruence`.
-/
import Piecemeal.Proofs.Congruence

namespace Piecemeal

variable {κ : Type} [Atom κ] {whole whole' : ValueType κ}

/-! ## Parts in another recipe -/

/-- The call adds no recursion. -/
def Addition.RecursionFree : Addition κ → Prop
  | recur _ => False
  | _ => True

namespace Recipe

/-- No part is a recursion. -/
def RecursionFree : Recipe κ whole → Prop
  | first .. => True
  | act before _ | skip before _ => before.RecursionFree
  | recur .. => False
  | optional body _ _ | repetition body _ _ _ _ => body.RecursionFree

/-- The same parts, as the beginning of a recipe for values of another type. -/
def retype (whole' : ValueType κ) : Recipe κ whole → Recipe κ whole'
  | first type decoder => first type decoder
  | act before action => act (before.retype whole') action
  | skip before n => skip (before.retype whole') n
  | recur before flag => recur (before.retype whole') flag
  | optional body type flag => optional (body.retype whole') type flag
  | repetition body element result bound collector =>
      repetition (body.retype whole') element result bound collector

/-- Without recursion the second has the same parts as the first. -/
def Retyped (r : Recipe κ whole) (r' : Recipe κ whole') : Prop :=
  r.RecursionFree ∧ r' = r.retype whole'

theorem pending_retype {r : Recipe κ whole} (h : r.RecursionFree) :
    (r.retype whole').pending = r.pending := by
  induction r with
  | first => rfl
  | act before action ih =>
      show ((before.retype whole').act action).pending = (before.act action).pending
      rw [pending_act, pending_act, ih h]
  | skip before n ih => exact ih h
  | recur => exact h.elim
  | optional => rfl
  | repetition => rfl

theorem compatible_retyped :
    Compatible (Retyped : Recipe κ whole → Recipe κ whole' → Prop) where
  pending_eq := by rintro r _ ⟨h, rfl⟩; exact (pending_retype h).symm
  act := by rintro r _ action ⟨h, rfl⟩; exact ⟨h, rfl⟩
  skip := by rintro r _ n ⟨h, rfl⟩; exact ⟨h, rfl⟩
  optional := by rintro r _ type flag ⟨h, rfl⟩; exact ⟨h, rfl⟩
  repetition := by rintro r _ element result bound collector ⟨h, rfl⟩; exact ⟨h, rfl⟩

/-- Without recursion a part decodes the same stacks in any recipe. -/
theorem composite_retype (root : Recipe κ whole) (root' : Recipe κ whole') (limit room : Nat)
    {r : Recipe κ whole} (h : r.RecursionFree) :
    root'.composite limit room (r.retype whole') = root.composite limit room r := by
  induction r generalizing room with
  | first type decoder => rw [retype, composite_first, composite_first]
  | act before action ih => rw [retype, composite_act, composite_act, ih room h]
  | skip before n ih => rw [retype, composite_skip, composite_skip, ih room h]
  | recur => exact h.elim
  | optional body type flag ih =>
      rw [retype, composite_optional, composite_optional, compositeValue, compositeValue,
        ih (room - 1) h]
  | repetition body element result bound collector ih =>
      rw [retype, composite_repetition, composite_repetition, compositeValue, compositeValue,
        ih (room - 1) h]

end Recipe

/-! ## The property -/

/-- Too many scopes were active. -/
def IsDepthLimit (error : DecodeError) : Prop := ∃ limit, error = .depthLimit limit

/-- In place of the parts of a program there can be the program, as far as limits are not exceeded. -/
theorem Program.OfRecipe.interchange_nested {X : ValueType κ} {r : Recipe κ X} {D : Program κ X}
    (hD : D.OfRecipe r) (hfree : r.RecursionFree) :
    Recipe.Interchange IsDepthLimit (.first X D.decoder : Recipe κ whole) (r.retype whole) := by
  intro root root' limit room limit' room' _ _
  rw [Recipe.composite_first, Recipe.composite_retype r root' limit' room' hfree]
  have hlevel : SameRoom IsDepthLimit D.maxDepth 0 limit' room' := .inr ⟨⟨_, rfl⟩, ⟨_, rfl⟩⟩
  have henacts := (Machine.enacts_composite hD hlevel).host
    (Decoder.hosts_behind (C := .constant []) () [])
  have hanswers : Decoder.Enacts IsDepthLimit (Decoder.behind (.constant []) X D.decoder)
      (r.composite limit' room' r)
      (fun stack s => ∃ last, (Decoder.behind (.constant []) X D.decoder).step s = .done stack last)
      ⟨(), some ⟨[], D.decoder.start⟩⟩ (r.composite limit' room' r).start := by
    refine henacts.mono ?_
    rintro _ _ ⟨m, rfl, value, rfl, hdone⟩
    exact ⟨_, .here _, _, Decoder.step_behind (C := .constant []) () [] hdone⟩
  exact hanswers.of_idles (.single rfl) (.here _)

namespace Recipe

variable {X type : ValueType κ} {decoder : Decoder type.Carrier} {parts : List (Addition κ)}
  {r : Recipe κ X} {D : Program κ X} {limit : Nat}

/-- With a nested program in front of more parts, or with the parts of that program there, a recipe
fails to be built in the same way, or its programs cannot be told apart until one of them exceeds a
limit. -/
theorem nested_like_inlined (hfree : ∀ part ∈ parts, part.RecursionFree)
    (hbuild : (first type decoder : Recipe κ X).build parts = .ok r)
    (hD : r.assemble limit = .ok D) (more : List (Addition κ)) (maxDepth maxDepth' : Nat) :
    Parallel (fun p p' => p.decoder.SameUnless IsDepthLimit p'.decoder)
      ((first X D.decoder : Recipe κ whole).buildProgram more maxDepth)
      ((first type decoder : Recipe κ whole).buildProgram (parts ++ more) maxDepth') := by
  have hfirst : Retyped (first type decoder : Recipe κ X) (first type decoder : Recipe κ whole) :=
    ⟨trivial, rfl⟩
  have hrecur : ∀ flag, .recur flag ∈ parts → ∀ (q : Recipe κ X) (q' : Recipe κ whole),
      Retyped q q' → Retyped (q.recur flag) (q'.recur flag) :=
    fun flag hflag => (hfree _ hflag).elim
  obtain ⟨q, hq, hr, rfl⟩ := (compatible_retyped.build hfirst hrecur).exists_of_ok hbuild
  have hof := ((Accepted.first type decoder).build hbuild).ofRecipe hD
  have hpending : ∀ b b' : Recipe κ whole, b = .first X D.decoder ∧ b' = r.retype whole →
      b.pending = b'.pending := by
    rintro _ _ ⟨rfl, rfl⟩
    rw [pending_retype hr, hof.single]
    rfl
  have hchanges : ∀ b b' : Recipe κ whole, b = .first X D.decoder ∧ b' = r.retype whole →
      Interchange IsDepthLimit b b' := by
    rintro _ _ ⟨rfl, rfl⟩
    exact hof.interchange_nested hr
  have hswap : Alongside (fun b b' => b = .first X D.decoder ∧ b' = r.retype whole)
      (first X D.decoder) (r.retype whole) := .swap ⟨rfl, rfl⟩
  rw [buildProgram_append, hq]
  refine (hswap.buildProgram hpending more maxDepth maxDepth').mono ?_
  rintro p p' - - ⟨root, root', hroot, hbuild, hbuild', hp, hp'⟩
  have hnested := ((Accepted.first X D.decoder).build hbuild).ofRecipe hp
  have hinlined := (((Accepted.first type decoder).build hq).build hbuild').ofRecipe hp'
  have hlimit : SameLimit IsDepthLimit p.maxDepth p.maxDepth p'.maxDepth p'.maxDepth :=
    .inr ⟨⟨_, rfl⟩, ⟨_, rfl⟩⟩
  exact hnested.sameUnless hinlined
    (resembles_compositeValue (Alongside.resembles hchanges hroot hlimit hroot) whole)

/-- A byte that may be absent. -/
def mayBeByte : List (Addition Empty) := [.optionally .uint8 .bool]

/-- How many bytes there are from here on. -/
def bytesFrom (present : Option UInt8) (behind : Option Nat) : Nat :=
  (if present.isSome then 1 else 0) + behind.getD 0

/-- A chain of such bytes, and how many there are. -/
def countBytes : List (Addition Empty) :=
  [.recur .bool,
    .reduceRow [.option .uint8, .option .size] .size fun (present, behind, _) =>
      bytesFrom present behind]

/-- A chain of one byte, and a byte behind it. -/
theorem countBytes_nested_inlined :
    ∃ (r : Recipe Empty (.option .uint8)) (D : Program Empty (.option .uint8))
      (p p' : Program Empty .size) (ends' : List (Run Unit Bytes Nat)),
      (first .uint8 (.number UInt8 .big)).build mayBeByte = .ok r ∧ r.assemble 1 = .ok D ∧
      (first (.option .uint8) D.decoder).buildProgram countBytes 4 = .ok p ∧
      (first .uint8 (.number UInt8 .big)).buildProgram (mayBeByte ++ countBytes) 4 = .ok p' ∧
      p.decoder.Shows p.decoder.start [[1], [7, 0, 5]]
        [.reached .pending () [], .reached (.done (1 : Nat)) () [5]] ∧
      p'.decoder.Shows p'.decoder.start [[1], [7, 0, 5]] ends' ∧
      Decoder.SameUntil IsDepthLimit IsDepthLimit
        [.reached .pending () [], .reached (.done (1 : Nat)) () [5]] ends' := by
  obtain ⟨r, D, p, hr, hD, hp, middle, last, hfirst, hsecond⟩ :
      ∃ (r : Recipe Empty (.option .uint8)) (D : Program Empty (.option .uint8))
        (p : Program Empty .size),
        (first .uint8 (.number UInt8 .big)).build mayBeByte = .ok r ∧ r.assemble 1 = .ok D ∧
        (first (.option .uint8) D.decoder).buildProgram countBytes 4 = .ok p ∧
        ∃ middle last, p.decoder.run 40 p.decoder.start ([1] : Bytes) = .reached .pending middle [] ∧
          p.decoder.run 40 middle ([7, 0, 5] : Bytes) = .reached (.done (1 : Nat)) last [5] :=
    ⟨_, _, _, rfl, rfl, rfl, _, _, rfl, rfl⟩
  have hshows : p.decoder.Shows p.decoder.start [[1], [7, 0, 5]]
      [.reached .pending () [], .reached (.done (1 : Nat)) () [5]] :=
    .answered ⟨by simp, 40, hfirst⟩ (by simp)
      (.answered ⟨by simp, 40, hsecond⟩ (by simp) (.nothing _))
  have hfree : ∀ part ∈ mayBeByte, part.RecursionFree := by simp [mayBeByte, Addition.RecursionFree]
  obtain ⟨p', hp', hsame⟩ := (nested_like_inlined hfree hr hD countBytes 4 4).exists_of_ok hp
  obtain ⟨ends', hends'⟩ := hsame.second hshows (by simp [Decoder.Spared])
  exact ⟨r, D, p, p', ends', hr, hD, hp, hp', hshows, hends', hsame.sameUntil hshows hends'⟩

end Recipe

end Piecemeal
