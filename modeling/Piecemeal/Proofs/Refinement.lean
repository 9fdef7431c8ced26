/-
# Programs decode what their recipes say

The program of a recipe decodes what the evaluation of the recipe does: the same value, rejection
or need for more bytes, with the same bytes left.  The machine jumps, rewinds and nests instances
on one accumulator; the evaluation recurses.

Between the two stands the composite of the recipe.

  * It performs the evaluation, part by part: `root.composite limit room r` performs `r.evaluate` as
    long as `active + room = limit`, and so `root.compositeValue limit room root whole` performs
    `root.value limit fuel active`.  The induction is on the recipe, inside one on the steps of the
    evaluation, as a nested instance is the whole recipe with a step less.
  * The program cannot be told from it, `Program.OfRecipe.exists_bisimulation`.

So `p.decoder` performs `root.value p.maxDepth fuel 0` from its start on, for every number `fuel`.
-/
import Piecemeal.Proofs.Adequacy
import Piecemeal.Proofs.Performance

namespace Piecemeal

variable {κ : Type} [Atom κ]

/-! ## Actions -/

theorem Decoder.performs_topmost (type : ValueType κ) (stack : List (Cell κ)) (bytes : Bytes) :
    (topmost type stack).Performs (topmost type stack).start bytes (latest type stack bytes) := by
  cases stack with
  | nil => exact performs_unmade (.popEmpty type.name) bytes
  | cons cell stack =>
      simp only [topmost, latest]
      cases cell.read type with
      | ok value => exact performs_constant value bytes
      | error misuse => exact performs_unmade misuse bytes

theorem Action.performs_composite (action : Action κ) (fuel : Nat) (stack : List (Cell κ))
    (bytes : Bytes) :
    (action.composite stack).Performs (action.composite stack).start bytes
      (action.evaluate fuel stack bytes) := by
  cases action with
  | decode type decoder => exact (decoder.performs_evaluate fuel bytes).map _
  | replace source type choose =>
      refine (Decoder.performs_topmost source stack bytes).andThen ?_
      exact fun value rest => ((choose value).performs_evaluate fuel rest).map _
  | follow source type choose =>
      refine (Decoder.performs_topmost source stack bytes).andThen ?_
      exact fun value rest => ((choose value).performs_evaluate fuel rest).map _
  | reduce arity type reading =>
      simp only [composite, evaluate]
      cases reading.evaluate (stack.take arity).reverse with
      | ok result => exact Decoder.performs_constant _ bytes
      | error misuse => exact Decoder.performs_unmade misuse bytes

/-! ## Scopes -/

namespace Decoder

variable {type : ValueType κ} {limit room active : Nat}

theorem performs_roomed {α : Type} {d : Decoder α} {bytes : Bytes} {run : Run Unit Bytes α}
    (hlevel : active + room = limit)
    (h : ∀ room', room = room' + 1 → d.Performs d.start bytes run) :
    (roomed limit room d).Performs (roomed limit room d).start bytes
      (run.within limit active bytes) := by
  cases room with
  | zero =>
      rw [Run.within, if_neg (by omega)]
      exact performs_of_ends ((ends_of_fail rfl).2 rfl)
  | succ room =>
      rw [Run.within, if_pos (by omega)]
      exact h room rfl

theorem performs_flagged (flag : Decoder Bool) {d : Decoder type.Carrier}
    {run : Bytes → Run Unit Bytes type.Carrier} (h : ∀ bytes, d.Performs d.start bytes (run bytes))
    (stack : List (Cell κ)) (fuel : Nat) (bytes : Bytes) :
    (flagged flag type d stack).Performs (flagged flag type d stack).start bytes
      ((flag.evaluate fuel bytes).bind fun present rest =>
        if present then (run rest).map fun value => ⟨.option type, some value⟩ :: stack
        else .answer (⟨.option type, none⟩ :: stack) rest) := by
  refine (flag.performs_evaluate fuel bytes).andThen ?_
  intro present rest
  cases present with
  | true => exact (h rest).map _
  | false => exact performs_constant _ rest

end Decoder

/-! ## Recipes -/

namespace Recipe

variable {whole : ValueType κ} {root : Recipe κ whole} {limit fuel : Nat}

theorem performs_compositeValue {r : Recipe κ whole} {room : Nat} {bytes : Bytes}
    {run : Run Unit Bytes (List (Cell κ))}
    (h : (root.composite limit room r).Performs (root.composite limit room r).start bytes run)
    (type : ValueType κ) :
    (root.compositeValue limit room r type).Performs
      (root.compositeValue limit room r type).start bytes (run.bind (latest type)) :=
  h.andThen fun stack rest => Decoder.performs_topmost type stack rest

theorem performs_composite {nested : Nat → Bytes → Run Unit Bytes whole.Carrier}
    (hnested : ∀ room active bytes, active + room = limit →
      (root.compositeValue limit room root whole).Performs
        (root.compositeValue limit room root whole).start bytes (nested active bytes))
    (r : Recipe κ whole) {room active : Nat} (hlevel : active + room = limit) (bytes : Bytes) :
    (root.composite limit room r).Performs (root.composite limit room r).start bytes
      (r.evaluate limit fuel nested active bytes) := by
  -- the instance that a recursion evaluates is no smaller than the recipe, hence `hnested`
  induction r generalizing room active bytes with
  | first type decoder =>
      rw [composite_first]
      exact (Decoder.performs_constant ([] : List (Cell κ)) bytes).andThen
        fun stack rest => (Action.decode type decoder).performs_composite fuel stack rest
  | act before action ih =>
      rw [composite_act]
      refine (ih hlevel bytes).andThen ?_
      exact fun stack rest => action.performs_composite fuel stack rest
  | skip before n ih =>
      rw [composite_skip]
      refine (ih hlevel bytes).andThen ?_
      intro stack rest
      have hskip := (Decoder.performs_skipBytes n rest).map fun _ => stack
      by_cases hlt : rest.length < n
      · rw [if_pos hlt] at hskip ⊢
        exact hskip
      · rw [if_neg hlt] at hskip ⊢
        exact hskip
  | recur before flag ih =>
      rw [composite_recur]
      refine (ih hlevel bytes).andThen ?_
      intro stack rest
      refine Decoder.performs_roomed hlevel ?_
      rintro room rfl
      exact Decoder.performs_flagged flag (fun bytes => hnested room (active + 1) bytes (by omega))
        stack fuel rest
  | optional body type flag ih =>
      rw [composite_optional]
      refine Decoder.performs_roomed hlevel ?_
      rintro room rfl
      refine Decoder.performs_flagged flag ?_ [] fuel bytes
      intro bytes
      have hinner : active + 1 + room = limit := by omega
      exact performs_compositeValue (ih hinner bytes) type
  | repetition body element result bound collector ih =>
      rw [composite_repetition]
      refine Decoder.performs_roomed hlevel ?_
      rintro room rfl
      have hbody : ∀ bytes, (root.compositeValue limit room body element).afresh.Performs
          (root.compositeValue limit room body element).afresh.start bytes
          ((body.evaluate limit fuel nested (active + 1) bytes).bind (latest element)) := by
        intro bytes
        have hinner : active + 1 + room = limit := by omega
        exact Decoder.Performs.afresh (performs_compositeValue (ih hinner bytes) element)
      have hrepeated := Decoder.performs_repeated bound collector Decoder.renews_afresh hbody fuel
        bytes
      have hwhole := hrepeated.map fun value => [(⟨result, value⟩ : Cell κ)]
      simp only [Run.bind_map, Run.map_map] at hwhole
      exact hwhole

/-- The composite of a recipe performs the evaluation, however deep instances are nested. -/
theorem performs_value (fuel : Nat) {room active : Nat} (hlevel : active + room = limit)
    (bytes : Bytes) :
    (root.compositeValue limit room root whole).Performs
      (root.compositeValue limit room root whole).start bytes
      (root.value limit fuel active bytes) := by
  induction fuel generalizing room active bytes with
  | zero => exact fun hfinite => absurd rfl hfinite
  | succ fuel ih =>
      have hnested : ∀ room active bytes, active + room = limit →
          (root.compositeValue limit room root whole).Performs
            (root.compositeValue limit room root whole).start bytes
            (root.value limit fuel active bytes) :=
        fun room active bytes hlevel => ih hlevel bytes
      exact performs_compositeValue (performs_composite hnested root hlevel bytes) whole

end Recipe

/-! ## Programs -/

variable {whole : ValueType κ} {p : Program κ whole} {root : Recipe κ whole}

theorem Program.OfRecipe.performs (hp : p.OfRecipe root) (fuel : Nat) (bytes : Bytes) :
    p.decoder.Performs p.decoder.start bytes (root.value p.maxDepth fuel 0 bytes) := by
  obtain ⟨P, hbisim, hstart⟩ := hp.exists_bisimulation
  have hvalue := root.performs_value fuel (Nat.zero_add p.maxDepth) bytes
  exact hvalue.afresh.of_bisimulation hbisim hstart

/-! ## The property -/

/-- The program of an accepted recipe decodes what the evaluation of the recipe does: it ends with
the same value, the same error or the same need for more bytes, and leaves the same bytes. -/
theorem Recipe.Accepted.refines (h : root.Accepted) {maxDepth : Nat} (hdepth : 1 ≤ maxDepth)
    (hp : root.assemble maxDepth = .ok p) (fuel : Nat) (bytes : Bytes)
    (hfinite : root.value maxDepth fuel 0 bytes ≠ .exhausted) :
    ∃ run, p.decoder.Ends p.decoder.start bytes run ∧
      run.forget = root.value maxDepth fuel 0 bytes := by
  have hmax : p.maxDepth = maxDepth := by
    obtain ⟨-, rfl⟩ := Recipe.exists_eq_program hp
    exact Nat.max_eq_left hdepth
  have hperforms := (h.ofRecipe hp).performs fuel bytes
  rw [hmax] at hperforms
  exact hperforms hfinite

/-- A tree of two nodes, with one byte behind it. -/
theorem nodeCount_refines :
    ∃ p, Recipe.nodeCount.assemble 8 = .ok p ∧
      ∃ next, p.decoder.Ends p.decoder.start ([7, 1, 8, 0, 0, 0, 5] : Bytes)
        (.reached (.done (2 : Nat)) next [5]) := by
  obtain ⟨p, hp⟩ : ∃ p, Recipe.nodeCount.assemble 8 = .ok p := ⟨_, rfl⟩
  have hvalue : Recipe.nodeCount.value 8 5 0 [7, 1, 8, 0, 0, 0, 5] =
      .reached (.done (2 : Nat)) () [5] := rfl
  obtain ⟨run, hends, hforget⟩ := Recipe.nodeCount_accepted.refines (by decide) hp 5
    [7, 1, 8, 0, 0, 0, 5] (by rw [hvalue]; exact fun h => nomatch h)
  rw [hvalue] at hforget
  refine ⟨p, hp, ?_⟩
  cases run with
  | reached outcome next rest => cases hforget; exact ⟨next, hends⟩
  | broken misuse => cases hforget
  | exhausted => cases hforget

end Piecemeal
