/-
# Recipes that are built alike

A recipe is built by calls that each add a part, `Addition`.  What a call checks is what values are
pending, so the same calls on two recipes that leave values of the same types fail alike or succeed
alike, and the recipes that come of it differ only where those did.

  * `accepted_iff_exists_build`: the recipes that can be built are those that calls make of a
    decoder.  So to say something of all recipes that can be built is to say it of all calls.

        r.Accepted ↔ ∃ type decoder additions, (first type decoder).build additions = .ok r

  * `Parallel R x y`: both have failed with the same misuse, or succeeded with values related by
    `R`.  `addTo` and `build` are of this form, for any relation `R` that a recipe keeps when the
    same part is added on both sides, `Compatible`.
  * `Alongside Swap r r'` is such a relation: the parts of `r` and `r'` are the same, but in one
    place the one has a beginning `b` and the other a beginning `b'`, where `Swap b b'`.  Both can
    be built and assembled with any further calls, or neither, `Alongside.buildProgram`.

A recursion that is added refers to the whole recipe, so `Compatible` leaves it out and `addTo`
asks for it separately; recipes of different types are compared without one.
-/
import Piecemeal.Proofs.Typing

namespace Piecemeal

/-- Both fail with the same misuse, or both succeed, with results that are related. -/
inductive Parallel {α β : Type 1} (R : α → β → Prop) : Except Misuse α → Except Misuse β → Prop
  | ok {a : α} {b : β} : R a b → Parallel R (.ok a) (.ok b)
  | error (misuse : Misuse) : Parallel R (.error misuse) (.error misuse)

namespace Parallel

variable {α β γ δ : Type 1} {R R' : α → β → Prop} {S : γ → δ → Prop} {x : Except Misuse α}
  {y : Except Misuse β}

theorem exists_of_ok (h : Parallel R x y) {a : α} (hx : x = .ok a) : ∃ b, y = .ok b ∧ R a b := by
  cases h with
  | ok hab => cases hx; exact ⟨_, rfl, hab⟩
  | error misuse => cases hx

theorem mono (h : Parallel R x y) (hR : ∀ a b, x = .ok a → y = .ok b → R a b → R' a b) :
    Parallel R' x y := by
  cases h with
  | ok hab => exact .ok (hR _ _ rfl rfl hab)
  | error misuse => exact .error misuse

theorem bind (h : Parallel R x y) {f : α → Except Misuse γ} {g : β → Except Misuse δ}
    (hfg : ∀ a b, x = .ok a → y = .ok b → R a b → Parallel S (f a) (g b)) :
    Parallel S (x >>= f) (y >>= g) := by
  cases h with
  | ok hab => exact hfg _ _ rfl rfl hab
  | error misuse => exact .error misuse

end Parallel

variable {κ : Type} [Atom κ] {whole : ValueType κ}

/-! ## Calls -/

/-- A call that adds a part to a recipe. -/
inductive Addition (κ : Type) [Atom κ] : Type 1 where
  | decode (type : ValueType κ) (decoder : Decoder type.Carrier)
  | replace (source type : ValueType κ) (choose : source.Carrier → Decoder type.Carrier)
  | follow (source type : ValueType κ) (choose : source.Carrier → Decoder type.Carrier)
  | reduce (arity : Nat) (type : ValueType κ) (reading : Reading κ type.Carrier)
  | reduceRow (types : List (ValueType κ)) (type : ValueType κ) (f : Row types → type.Carrier)
  | skip (n : Nat)
  | recur (flag : Decoder Bool)
  | optionally (type : ValueType κ) (flag : Decoder Bool)
  | repeated (element result : ValueType κ) (bound : Bound element.Carrier)
      (collector : Collector element.Carrier result.Carrier)

/-- What becomes of a recipe by a call. -/
def Addition.addTo (r : Recipe κ whole) : Addition κ → Except Misuse (Recipe κ whole)
  | decode type decoder => .ok (r.decode type decoder)
  | replace source type choose => r.replace source type choose
  | follow source type choose => r.follow source type choose
  | reduce arity type reading => r.reduce arity type reading
  | reduceRow types type f => r.reduceRow types type f
  | skip n => .ok (r.skip n)
  | recur flag => .ok (r.recur flag)
  | optionally type flag => r.optionally type flag
  | repeated element result bound collector => r.repeated element result bound collector

namespace Recipe

/-- What becomes of a recipe by calls in turn. -/
def build (r : Recipe κ whole) : List (Addition κ) → Except Misuse (Recipe κ whole)
  | [] => .ok r
  | addition :: more => addition.addTo r >>= fun r => build r more

/-- The program of a recipe to which parts are added by calls. -/
def buildProgram (r : Recipe κ whole) (additions : List (Addition κ)) (maxDepth : Nat) :
    Except Misuse (Program κ whole) :=
  r.build additions >>= fun r => r.assemble maxDepth

/-- A decoder as the next part, or as the first one. -/
def decodeAfter (before : Option (Recipe κ whole)) (type : ValueType κ)
    (decoder : Decoder type.Carrier) : Recipe κ whole :=
  match before with
  | none => first type decoder
  | some r => r.decode type decoder

theorem build_append (r : Recipe κ whole) (additions more : List (Addition κ)) :
    r.build (additions ++ more) = r.build additions >>= fun r => r.build more := by
  induction additions generalizing r with
  | nil => rfl
  | cons addition additions ih =>
      simp only [List.cons_append, build]
      cases addition.addTo r with
      | ok r => exact ih r
      | error misuse => rfl

theorem buildProgram_append (r : Recipe κ whole) (additions more : List (Addition κ))
    (maxDepth : Nat) : r.buildProgram (additions ++ more) maxDepth =
      r.build additions >>= fun r => r.buildProgram more maxDepth := by
  rw [buildProgram, build_append]
  cases r.build additions <;> rfl

theorem Accepted.addTo {r r' : Recipe κ whole} {addition : Addition κ} (h : r.Accepted)
    (hok : addition.addTo r = .ok r') : r'.Accepted := by
  cases addition with
  | decode type decoder => cases hok; exact .decode type decoder h
  | replace source type choose => exact .replace source type choose h hok
  | follow source type choose => exact .follow source type choose h hok
  | reduce arity type reading => exact .reduce arity type reading h hok
  | reduceRow types type f => exact .reduceRow types type f h hok
  | skip n => cases hok; exact .skip n h
  | recur flag => cases hok; exact .recur flag h
  | optionally type flag => exact .optionally type flag h hok
  | repeated element result bound collector =>
      exact .repeated element result bound collector h hok

theorem Accepted.build {r r' : Recipe κ whole} {additions : List (Addition κ)} (h : r.Accepted)
    (hok : r.build additions = .ok r') : r'.Accepted := by
  induction additions generalizing r with
  | nil => cases hok; exact h
  | cons addition additions ih =>
      rw [Recipe.build] at hok
      cases hadd : addition.addTo r with
      | ok next => rw [hadd] at hok; exact ih (h.addTo hadd) hok
      | error misuse => rw [hadd] at hok; cases hok

theorem Accepted.decodeAfter {before : Option (Recipe κ whole)}
    (h : ∀ r, before = some r → r.Accepted) (type : ValueType κ) (decoder : Decoder type.Carrier) :
    (decodeAfter before type decoder).Accepted := by
  cases before with
  | none => exact .first type decoder
  | some r => exact .decode type decoder (h r rfl)

/-- The recipes that can be built are those that calls make of a decoder. -/
theorem accepted_iff_exists_build {r : Recipe κ whole} :
    r.Accepted ↔ ∃ type decoder additions, (first type decoder).build additions = .ok r := by
  constructor
  · have hadd : ∀ {r r' : Recipe κ whole} (addition : Addition κ), addition.addTo r = .ok r' →
        (∃ type decoder additions, (Recipe.first type decoder).build additions = .ok r) →
        ∃ type decoder additions, (Recipe.first type decoder).build additions = .ok r' := by
      rintro r r' addition hok ⟨type, decoder, additions, hr⟩
      refine ⟨type, decoder, additions ++ [addition], ?_⟩
      rw [build_append, hr]
      show (addition.addTo r >>= fun r => .ok r) = .ok r'
      rw [hok]
      rfl
    intro h
    induction h with
    | first type decoder => exact ⟨type, decoder, [], rfl⟩
    | decode type decoder _ ih => exact hadd (.decode type decoder) rfl ih
    | replace source type choose _ hok ih => exact hadd (.replace source type choose) hok ih
    | follow source type choose _ hok ih => exact hadd (.follow source type choose) hok ih
    | reduce arity type reading _ hok ih => exact hadd (.reduce arity type reading) hok ih
    | reduceRow types type f _ hok ih => exact hadd (.reduceRow types type f) hok ih
    | skip n _ ih => exact hadd (.skip n) rfl ih
    | recur flag _ ih => exact hadd (.recur flag) rfl ih
    | optionally type flag _ hok ih => exact hadd (.optionally type flag) hok ih
    | repeated element result bound collector _ hok ih =>
        exact hadd (.repeated element result bound collector) hok ih
  · rintro ⟨type, decoder, additions, hok⟩
    exact (Accepted.first type decoder).build hok

/-! ## The same calls on both -/

/-- Related recipes leave values of the same types, and remain related when the same part is added to
both.  Recursions are left aside: what they leave depends on the type of the whole. -/
structure Compatible {whole' : ValueType κ} (R : Recipe κ whole → Recipe κ whole' → Prop) : Prop where
  pending_eq {r r'} : R r r' → r.pending = r'.pending
  act {r r'} (action : Action κ) : R r r' → R (r.act action) (r'.act action)
  skip {r r'} (n : Nat) : R r r' → R (r.skip n) (r'.skip n)
  optional {r r'} (type : ValueType κ) (flag : Decoder Bool) :
    R r r' → R (r.optional type flag) (r'.optional type flag)
  repetition {r r'} (element result : ValueType κ) (bound : Bound element.Carrier)
    (collector : Collector element.Carrier result.Carrier) : R r r' →
    R (r.repetition element result bound collector) (r'.repetition element result bound collector)

namespace Compatible

variable {whole' : ValueType κ} {R : Recipe κ whole → Recipe κ whole' → Prop}
  {r : Recipe κ whole} {r' : Recipe κ whole'} (hR : Compatible R) (h : R r r')

include hR h

/-- The same call on both fails alike, or succeeds alike. -/
theorem addTo {addition : Addition κ} (hrecur : ∀ flag, addition = .recur flag → ∀ r r', R r r' →
      R (r.recur flag) (r'.recur flag)) : Parallel R (addition.addTo r) (addition.addTo r') := by
  have hpending := hR.pending_eq h
  have htail : ∀ label wanted, r.tailMisuse? label wanted = r'.tailMisuse? label wanted := by
    intro label wanted
    simp only [tailMisuse?, hpending]
  have hsingle : ∀ label wanted, r.singleMisuse? label wanted = r'.singleMisuse? label wanted := by
    intro label wanted
    simp only [singleMisuse?, htail, hpending]
  have hchecked : ∀ {q : Recipe κ whole} {q' : Recipe κ whole'} (misuse? : Option Misuse),
      R q q' → Parallel R (checked misuse? q) (checked misuse? q') := by
    intro q q' misuse? hq
    cases misuse? with
    | none => exact .ok hq
    | some misuse => exact .error misuse
  have hreduce : ∀ (arity : Nat) (type : ValueType κ) (reading : Reading κ type.Carrier),
      Parallel R (r.reduce arity type reading) (r'.reduce arity type reading) := by
    intro arity type reading
    simp only [Recipe.reduce, hpending]
    split
    · exact .error _
    · split
      · exact .error _
      · exact .ok (hR.act _ h)
  cases addition with
  | decode type decoder => exact .ok (hR.act _ h)
  | replace source type choose =>
      simp only [Addition.addTo, replace, htail]
      exact hchecked _ (hR.act _ h)
  | follow source type choose =>
      simp only [Addition.addTo, follow, htail]
      exact hchecked _ (hR.act _ h)
  | reduce arity type reading => exact hreduce arity type reading
  | reduceRow types type f =>
      simp only [Addition.addTo, reduceRow, htail]
      cases r'.tailMisuse? s!"reduce{types.length}" types with
      | none => exact hreduce types.length type (.row types f)
      | some misuse => exact .error misuse
  | skip n => exact .ok (hR.skip n h)
  | recur flag => exact .ok (hrecur flag rfl r r' h)
  | optionally type flag =>
      simp only [Addition.addTo, optionally, hsingle]
      exact hchecked _ (hR.optional type flag h)
  | repeated element result bound collector =>
      simp only [Addition.addTo, repeated, hsingle]
      exact hchecked _ (hR.repetition element result bound collector h)

theorem build {additions : List (Addition κ)} (hrecur : ∀ flag, .recur flag ∈ additions →
      ∀ r r', R r r' → R (r.recur flag) (r'.recur flag)) :
    Parallel R (r.build additions) (r'.build additions) := by
  induction additions generalizing r r' with
  | nil => exact .ok h
  | cons addition additions ih =>
      have hhead : ∀ flag, addition = .recur flag → ∀ r r', R r r' →
          R (r.recur flag) (r'.recur flag) := by
        rintro flag rfl
        exact hrecur flag List.mem_cons_self
      refine (hR.addTo h hhead).bind ?_
      exact fun _ _ _ _ hnext => ih hnext fun flag hflag => hrecur flag (List.mem_cons_of_mem _ hflag)

end Compatible

/-! ## Recipes side by side -/

/-- The same parts, but in one place a beginning `b` here and `b'` there, where `Swap b b'`. -/
inductive Alongside (Swap : Recipe κ whole → Recipe κ whole → Prop) :
    Recipe κ whole → Recipe κ whole → Prop
  | swap {b b' : Recipe κ whole} : Swap b b' → Alongside Swap b b'
  | first (type : ValueType κ) (decoder : Decoder type.Carrier) :
      Alongside Swap (.first type decoder) (.first type decoder)
  | act {r r' : Recipe κ whole} (action : Action κ) :
      Alongside Swap r r' → Alongside Swap (r.act action) (r'.act action)
  | skip {r r' : Recipe κ whole} (n : Nat) :
      Alongside Swap r r' → Alongside Swap (r.skip n) (r'.skip n)
  | recur {r r' : Recipe κ whole} (flag : Decoder Bool) :
      Alongside Swap r r' → Alongside Swap (r.recur flag) (r'.recur flag)
  | optional {r r' : Recipe κ whole} (type : ValueType κ) (flag : Decoder Bool) :
      Alongside Swap r r' → Alongside Swap (r.optional type flag) (r'.optional type flag)
  | repetition {r r' : Recipe κ whole} (element result : ValueType κ)
      (bound : Bound element.Carrier) (collector : Collector element.Carrier result.Carrier) :
      Alongside Swap r r' → Alongside Swap (r.repetition element result bound collector)
        (r'.repetition element result bound collector)

namespace Alongside

variable {Swap Swap' : Recipe κ whole → Recipe κ whole → Prop} {r r' : Recipe κ whole}

theorem refl (r : Recipe κ whole) : Alongside Swap r r := by
  induction r with
  | first type decoder => exact .first type decoder
  | act before action ih => exact .act action ih
  | skip before n ih => exact .skip n ih
  | recur before flag ih => exact .recur flag ih
  | optional body type flag ih => exact .optional type flag ih
  | repetition body element result bound collector ih =>
      exact .repetition element result bound collector ih

theorem mono (h : Alongside Swap r r') (hswap : ∀ b b', Swap b b' → Swap' b b') :
    Alongside Swap' r r' := by
  induction h with
  | swap h => exact .swap (hswap _ _ h)
  | first type decoder => exact .first type decoder
  | act action _ ih => exact .act action ih
  | skip n _ ih => exact .skip n ih
  | recur flag _ ih => exact .recur flag ih
  | optional type flag _ ih => exact .optional type flag ih
  | repetition element result bound collector _ ih =>
      exact .repetition element result bound collector ih

section Pending

variable (hswap : ∀ b b', Swap b b' → b.pending = b'.pending)

include hswap

theorem pending_eq (h : Alongside Swap r r') : r.pending = r'.pending := by
  induction h with
  | swap h => exact hswap _ _ h
  | first => rfl
  | act action _ ih => rw [pending_act, pending_act, ih]
  | skip n _ ih => exact ih
  | recur flag _ ih => exact congrArg (List.cons _) ih
  | optional => rfl
  | repetition => rfl

theorem compatible : Compatible (Alongside Swap) where
  pending_eq h := h.pending_eq hswap
  act := .act
  skip := .skip
  optional := .optional
  repetition := .repetition

theorem buildProgram (h : Alongside Swap r r') (additions : List (Addition κ))
    (maxDepth maxDepth' : Nat) :
    Parallel (fun p p' => ∃ q q', Alongside Swap q q' ∧ r.build additions = .ok q ∧
        r'.build additions = .ok q' ∧ q.assemble maxDepth = .ok p ∧ q'.assemble maxDepth' = .ok p')
      (r.buildProgram additions maxDepth) (r'.buildProgram additions maxDepth') := by
  have hbuild : Parallel (Alongside Swap) (r.build additions) (r'.build additions) :=
    (compatible hswap).build h fun flag _ _ _ h => h.recur flag
  refine hbuild.bind ?_
  intro q q' hq hq' hqq
  have hpending := hqq.pending_eq hswap
  by_cases hwhole : q.pending = [whole]
  · have hp : q.assemble maxDepth = .ok (q.program hwhole maxDepth) := dif_pos hwhole
    have hp' : q'.assemble maxDepth' = .ok (q'.program (hpending ▸ hwhole) maxDepth') :=
      dif_pos (hpending ▸ hwhole)
    rw [hp, hp']
    exact .ok ⟨q, q', hqq, hq, hq', hp, hp'⟩
  · simp only [assemble, dif_neg hwhole, ← hpending]
    exact .error _

end Pending

end Alongside

end Recipe

end Piecemeal
