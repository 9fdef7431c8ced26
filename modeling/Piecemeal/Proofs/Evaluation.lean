/-
# Evaluating a recipe

What a recipe means, without a program: the parts are evaluated one after another, each on the
stack of values that those before it have left.

    before.act action       evaluate before, then the action on the stack
    before.skip n           evaluate before, then drop `n` bytes
    before.recur flag       evaluate before, then the flag, and if it is set the whole recipe
    body.optional t flag    evaluate the flag, and if it is set the body, from an empty stack
    body.repetition … b c   evaluate the body from an empty stack for every element

Nothing is laid out, nothing jumps, and no instance sees the values of another.

`Recipe.value limit fuel active` is limited by a number of steps, as runs are, and it counts the
scopes that are active, because the depth to which a recipe may nest is limited as well.  The steps
bound the nesting of instances and the number of elements, so the definition is by recursion on the
recipe inside one on `fuel`.

Evaluations are put together by `Run.bind`: on a value it goes on with the bytes that are left, and
an error, a want of bytes, a misuse or a lack of steps stays what it is.  `bind` is associative and
`answer` its unit, so an evaluation can be regrouped like the adapters of a decoder.
-/
import Piecemeal.Decoder.Repeat
import Piecemeal.Proofs.Layers
import Piecemeal.Recipe

namespace Piecemeal

/-! ## Ends of evaluations -/

namespace Run

variable {σ ι α β γ : Type}

/-- The end of a run without the state in which it leaves its decoder. -/
def forget : Run σ ι α → Run Unit ι α
  | .reached outcome _ rest => .reached outcome () rest
  | .broken misuse => .broken misuse
  | .exhausted => .exhausted

/-- The answer of a value, with nothing read. -/
def answer (value : α) (bytes : Bytes) : Run Unit Bytes α := .reached (.done value) () bytes

theorem reached_ne_exhausted {outcome : Outcome α} {state : σ} {source : ι} :
    reached outcome state source ≠ .exhausted := nofun

theorem broken_ne_exhausted {misuse : Misuse} : (broken misuse : Run σ ι α) ≠ .exhausted := nofun

/-- Goes on with the value and the bytes behind it. -/
def bind (run : Run Unit Bytes α) (f : α → Bytes → Run Unit Bytes β) : Run Unit Bytes β :=
  match run with
  | .reached (.done value) _ rest => f value rest
  | .reached .pending _ rest => .reached .pending () rest
  | .reached (.failed error) _ rest => .reached (.failed error) () rest
  | .broken misuse => .broken misuse
  | .exhausted => .exhausted

def map (f : α → β) (run : Run Unit Bytes α) : Run Unit Bytes β :=
  run.bind fun value rest => answer (f value) rest

theorem bind_assoc (run : Run Unit Bytes α) (f : α → Bytes → Run Unit Bytes β)
    (g : β → Bytes → Run Unit Bytes γ) :
    (run.bind f).bind g = run.bind fun value rest => (f value rest).bind g := by
  match run with
  | .reached (.done value) _ rest => rfl
  | .reached .pending _ rest => rfl
  | .reached (.failed error) _ rest => rfl
  | .broken misuse => rfl
  | .exhausted => rfl

theorem map_map (run : Run Unit Bytes α) (f : α → β) (g : β → γ) :
    (run.map f).map g = run.map fun value => g (f value) := bind_assoc ..

theorem bind_map (run : Run Unit Bytes α) (f : α → Bytes → Run Unit Bytes β) (g : β → γ) :
    (run.bind f).map g = run.bind fun value rest => (f value rest).map g := bind_assoc ..

theorem bind_answer (run : Run Unit Bytes α) : run.bind answer = run := by
  match run with
  | .reached (.done value) _ rest => rfl
  | .reached .pending _ rest => rfl
  | .reached (.failed error) _ rest => rfl
  | .broken misuse => rfl
  | .exhausted => rfl

theorem map_id (run : Run Unit Bytes α) : run.map id = run := bind_answer run

/-- The same within a scope, if one more may be active. -/
def within (limit active : Nat) (bytes : Bytes) (run : Run Unit Bytes α) : Run Unit Bytes α :=
  if active < limit then run else .reached (.failed (.depthLimit limit)) () bytes

end Run

/-- The run of a fresh decoder. -/
def Decoder.evaluate {α : Type} (d : Decoder α) (fuel : Nat) (bytes : Bytes) :
    Run Unit Bytes α :=
  (d.run fuel d.start bytes).forget

variable {κ : Type} [Atom κ]

/-! ## Actions -/

/-- The latest value of a stack. -/
def latest (type : ValueType κ) (stack : List (Cell κ)) (bytes : Bytes) :
    Run Unit Bytes type.Carrier :=
  match stack with
  | [] => .broken (.popEmpty type.name)
  | cell :: _ =>
      match cell.read type with
      | .ok value => .answer value bytes
      | .error misuse => .broken misuse

theorem latest_mk (type : ValueType κ) (value : type.Carrier) (stack : List (Cell κ))
    (bytes : Bytes) : latest type (⟨type, value⟩ :: stack) bytes = .answer value bytes := by
  simp only [latest, Cell.read_mk]

/-- The stack that an action leaves. -/
def Action.evaluate (fuel : Nat) (stack : List (Cell κ)) (bytes : Bytes) :
    Action κ → Run Unit Bytes (List (Cell κ))
  | .decode type decoder => (decoder.evaluate fuel bytes).map fun value => ⟨type, value⟩ :: stack
  | .replace source type choose =>
      (latest source stack bytes).bind fun value rest =>
        ((choose value).evaluate fuel rest).map fun result => ⟨type, result⟩ :: stack.tail
  | .follow source type choose =>
      (latest source stack bytes).bind fun value rest =>
        ((choose value).evaluate fuel rest).map fun result => ⟨type, result⟩ :: stack
  | .reduce arity type reading =>
      match reading.evaluate (stack.take arity).reverse with
      | .ok (value, _) => .answer (⟨type, value⟩ :: stack.drop arity) bytes
      | .error misuse => .broken misuse

/-! ## Repetitions -/

namespace Bound

variable {ε : Type}

/-- The number of elements to come, if it is known. -/
def evaluate (fuel : Nat) (bytes : Bytes) : Bound ε → Run Unit Bytes (Option Nat)
  | .times n => .answer (some n) bytes
  | .prefixed size => (size.evaluate fuel bytes).map some
  | .whileHolds .. => .answer none bytes

/-- The elements, if so many are still to come. -/
def elements (bound : Bound ε) (body : Bytes → Run Unit Bytes ε) (fuel : Nat) (left : Option Nat)
    (bytes : Bytes) : Run Unit Bytes (List ε) :=
  match fuel with
  | 0 => .exhausted
  | fuel + 1 =>
      if left = some 0 then .answer [] bytes
      else (body bytes).bind fun value rest =>
        if bound.endsAt value then .answer (if bound.keepsLast then [value] else []) rest
        else (elements bound body fuel (left.map (· - 1)) rest).map (value :: ·)

end Bound

namespace Tally

variable {ε ρ γ : Type}

/-- The number of elements still to come, if it is known. -/
def missing (tally : Tally γ) : Option Nat := tally.target.map (· - tally.produced)

theorem missing_of_isFull {tally : Tally γ} (h : tally.isFull = true) : tally.missing = some 0 := by
  rw [missing, eq_of_beq h, Option.map_some, Nat.sub_self]

theorem missing_ne_zero {tally : Tally γ} (h : ∀ n, tally.target = some n → tally.produced < n) :
    tally.missing ≠ some 0 := by
  intro hzero
  obtain ⟨n, htarget, hn⟩ := Option.map_eq_some_iff.1 hzero
  have hlt := h n htarget
  omega

theorem produced_lt {tally : Tally γ} (h : ∀ n, tally.target = some n → tally.produced ≤ n)
    (hfull : tally.isFull = false) (n : Nat) (htarget : tally.target = some n) :
    tally.produced < n := by
  refine Nat.lt_of_le_of_ne (h n htarget) ?_
  intro heq
  subst heq
  simp [isFull, htarget] at hfull

theorem missing_start (c : Collector ε ρ) (target : Option Nat) :
    (start c target).missing = target :=
  Option.map_id'

theorem missing_add (c : Collector ε ρ) (tally : Tally c.Container) (element : ε) :
    (tally.add c element).missing = tally.missing.map (· - 1) := by
  rw [missing, missing, Option.map_map]
  rfl

theorem container_foldl (c : Collector ε ρ) (elements : List ε) (tally : Tally c.Container) :
    (elements.foldl (add c) tally).container =
      (elements.zipIdx tally.produced).foldl (fun container e => c.accumulate container e.1 e.2)
        tally.container := by
  induction elements generalizing tally with
  | nil => rfl
  | cons element elements ih =>
      rw [List.zipIdx_cons, List.foldl_cons, List.foldl_cons]
      exact ih (tally.add c element)

theorem finish_foldl_start (c : Collector ε ρ) (target : Option Nat) (elements : List ε) :
    (elements.foldl (add c) (.start c target)).finish c = c.collect target elements :=
  congrArg c.finish (container_foldl c elements (.start c target))

end Tally

/-! ## Recipes -/

namespace Recipe

variable {whole : ValueType κ}

/-- The stack that a beginning of a recipe leaves, while so many scopes are active.  Recursions
evaluate their instance by `nested`. -/
def evaluate (limit fuel : Nat) (nested : Nat → Bytes → Run Unit Bytes whole.Carrier) :
    Recipe κ whole → Nat → Bytes → Run Unit Bytes (List (Cell κ))
  | first type decoder, _, bytes => (Action.decode type decoder).evaluate fuel [] bytes
  | act before action, active, bytes =>
      (before.evaluate limit fuel nested active bytes).bind fun stack rest =>
        action.evaluate fuel stack rest
  | skip before n, active, bytes =>
      (before.evaluate limit fuel nested active bytes).bind fun stack rest =>
        if rest.length < n then .reached .pending () [] else .answer stack (rest.drop n)
  | recur before flag, active, bytes =>
      (before.evaluate limit fuel nested active bytes).bind fun stack rest =>
        .within limit active rest <| (flag.evaluate fuel rest).bind fun present rest =>
          if present then
            (nested (active + 1) rest).map fun value => ⟨.option whole, some value⟩ :: stack
          else .answer (⟨.option whole, none⟩ :: stack) rest
  | optional body type flag, active, bytes =>
      .within limit active bytes <| (flag.evaluate fuel bytes).bind fun present rest =>
        if present then
          ((body.evaluate limit fuel nested (active + 1) rest).bind (latest type)).map
            fun value => [⟨.option type, some value⟩]
        else .answer [⟨.option type, none⟩] rest
  | repetition body element result bound collector, active, bytes =>
      .within limit active bytes <| (bound.evaluate fuel bytes).bind fun target rest =>
        (bound.elements (fun bytes =>
          (body.evaluate limit fuel nested (active + 1) bytes).bind (latest element)) fuel target
            rest).map fun elements => [⟨result, collector.collect target elements⟩]

/-- The value of a whole recipe, while so many scopes are active. -/
def value (root : Recipe κ whole) (limit fuel active : Nat) (bytes : Bytes) :
    Run Unit Bytes whole.Carrier :=
  match fuel with
  | 0 => .exhausted
  | fuel + 1 =>
      (root.evaluate limit fuel (root.value limit fuel) active bytes).bind (latest whole)

end Recipe

end Piecemeal
