/-
# Binary trees

A format that nests in itself: a node is a byte and two children, each of them a flag and, if the
flag is set, a node.  The recipe says just that, and refers to itself for the children.

What a decoder of the format answers is settled in both directions.  It answers a tree exactly to
the encoding of the tree, with anything behind it, and only if the tree is no higher than the
scopes that may be active at once; the encoding of a higher tree is rejected.

    (decoder m).Answers bytes (.done t) rest ↔ bytes = t.encode ++ rest ∧ t.height ≤ m
    m < t.height → ∃ left, (decoder m).Answers (t.encode ++ rest) (.failed (.depthLimit m)) left

The number of nodes does not matter.  All of it is proved of the evaluation of the recipe, with
`active` scopes around the tree and steps enough for the limit.

  * `value_succ`: a tree is a byte and two children, read with one scope more.
  * By induction on the tree, an encoding is read if there is room for its height, `value_encode`,
    and rejected if there is not, `tooDeep_value`.
  * By induction on the steps, what is read is an encoding, `eq_encode_of_value`, and the
    evaluation comes to an end, `value_ne_exhausted`.
-/
import Piecemeal.Proofs.Answers

namespace Piecemeal

/-- A binary tree with a byte at each node. -/
inductive Tree where
  | node (value : UInt8) (left right : Option Tree)

namespace Tree

/-- A property of trees holds if it comes from the children that are there. -/
@[elab_as_elim]
theorem induct {motive : Tree → Prop}
    (node : ∀ value left right, (∀ t ∈ left, motive t) → (∀ t ∈ right, motive t) →
      motive (.node value left right)) (t : Tree) : motive t :=
  @Tree.rec motive (fun child => ∀ t ∈ child, motive t) node (fun _ h => nomatch h)
    (fun t ht _ h => by cases h; exact ht) t

mutual

/-- The nodes in preorder. -/
def encode : Tree → Bytes
  | node value left right => value :: (encodeChild left ++ encodeChild right)

/-- A flag, and the child if there is one. -/
def encodeChild : Option Tree → Bytes
  | none => [0]
  | some t => 1 :: t.encode

end

mutual

/-- The number of nodes on the longest way down. -/
def height : Tree → Nat
  | node _ left right => 1 + max (childHeight left) (childHeight right)

def childHeight : Option Tree → Nat
  | none => 0
  | some t => t.height

end

end Tree

namespace Trees

/-- Trees are the only values that the format adds. -/
inductive Kind where
  | tree
deriving DecidableEq

instance : Atom Kind where
  decEq := inferInstance
  Carrier _ := Tree
  name _ := "Node"

/-- The type of trees. -/
abbrev tree : ValueType Kind := .atom .tree

/-- How to decode a tree. -/
def recipe : Recipe Kind tree :=
  Recipe.first .uint8 (.number UInt8 .big)
    |>.recur .bool
    |>.recur .bool
    |>.act (.reduce 3 tree (.row [.uint8, .option tree, .option tree]
        fun (value, left, right, _) => Tree.node value left right))

theorem recipe_accepted : recipe.Accepted :=
  .reduceRow [.uint8, .option tree, .option tree] tree _
    (.recur .bool (.recur .bool (.first .uint8 (.number UInt8 .big)))) rfl

def program (maxDepth : Nat) : Program Kind tree := recipe.program rfl maxDepth

/-- Decodes trees, with at most so many children one inside another. -/
def decoder (maxDepth : Nat) : Decoder Tree := (program maxDepth).decoder

/-! ## The evaluation of the recipe -/

section Evaluation

variable {limit fuel active : Nat} {nested : Bytes → Run Unit Bytes Tree}

/-- A child, where `nested` reads the tree behind a flag that is set. -/
def readChild (limit fuel active : Nat) (nested : Bytes → Run Unit Bytes Tree) (bytes : Bytes) :
    Run Unit Bytes (Option Tree) :=
  .within limit active bytes <| (Decoder.bool.evaluate fuel bytes).bind fun present rest =>
    if present then (nested rest).map some else .answer none rest

theorem evaluate_recur (before : Recipe Kind tree)
    (nested : Nat → Bytes → Run Unit Bytes tree.Carrier) (bytes : Bytes) :
    (before.recur .bool).evaluate limit fuel nested active bytes =
      (before.evaluate limit fuel nested active bytes).bind fun stack rest =>
        (readChild limit fuel active (nested (active + 1)) rest).map fun child =>
          ⟨.option tree, child⟩ :: stack := by
  rw [Recipe.evaluate]
  congr 1
  funext stack rest
  unfold readChild Run.within
  split
  next =>
    rw [Run.map, Run.bind_assoc]
    congr 1
    funext present rest
    cases present with
    | false => rfl
    | true =>
        rw [if_pos rfl, if_pos rfl]
        exact (Run.map_map (nested (active + 1) rest) some
          fun child => (⟨.option tree, child⟩ : Cell Kind) :: stack).symm
  next => rfl

theorem value_succ (bytes : Bytes) :
    recipe.value limit (fuel + 1) active bytes =
      ((Decoder.number UInt8 .big).evaluate fuel bytes).bind fun value rest =>
        (readChild limit fuel active (recipe.value limit fuel (active + 1)) rest).bind
          fun left rest =>
            (readChild limit fuel active (recipe.value limit fuel (active + 1)) rest).bind
              fun right rest => .answer (.node value left right) rest := by
  rw [Recipe.value, recipe, Recipe.evaluate, evaluate_recur, evaluate_recur]
  unfold Recipe.evaluate
  simp only [Action.evaluate, Run.bind_assoc, Run.map_bind]
  rfl

/-! ## Reading what was written -/

theorem readChild_encodeChild {child : Option Tree} {rest : Bytes} (hactive : active < limit)
    (hnested : ∀ t ∈ child, nested (t.encode ++ rest) = .answer t rest) :
    readChild limit (fuel + 2) active nested (Tree.encodeChild child ++ rest) =
      .answer child rest := by
  rw [readChild, Run.within, if_pos hactive]
  cases child with
  | none =>
      show (Decoder.bool.evaluate (fuel + 2) (0 :: rest)).bind _ = _
      rw [Decoder.evaluate_bool, if_pos rfl]
      rfl
  | some t =>
      show (Decoder.bool.evaluate (fuel + 2) (1 :: (t.encode ++ rest))).bind _ = _
      rw [Decoder.evaluate_bool, if_neg (by decide), if_pos rfl, Run.answer_bind, if_pos rfl,
        hnested t rfl]
      rfl

/-- What the evaluation of a tree that is nested too deep comes to. -/
def TooDeep {α : Type} (limit : Nat) (run : Run Unit Bytes α) : Prop :=
  ∃ rest, run = .reached (.failed (.depthLimit limit)) () rest

theorem TooDeep.bind {α β : Type} {run : Run Unit Bytes α} (h : TooDeep limit run)
    (f : α → Bytes → Run Unit Bytes β) : TooDeep limit (run.bind f) := by
  obtain ⟨rest, rfl⟩ := h
  exact ⟨rest, rfl⟩

/-- A child is nested too deep if it has no room itself or if a tree below it has none. -/
theorem tooDeep_readChild {child : Option Tree} {rest : Bytes}
    (hdeep : limit < active + 1 + Tree.childHeight child)
    (hnested : ∀ t ∈ child, active < limit → limit < active + 1 + t.height →
      TooDeep limit (nested (t.encode ++ rest))) :
    TooDeep limit (readChild limit (fuel + 2) active nested (Tree.encodeChild child ++ rest)) := by
  rw [readChild, Run.within]
  by_cases hactive : active < limit
  · rw [if_pos hactive]
    cases child with
    | none =>
        -- an empty child needs no more room than its flag
        rw [Tree.childHeight] at hdeep
        omega
    | some t =>
        show TooDeep limit ((Decoder.bool.evaluate (fuel + 2) (1 :: (t.encode ++ rest))).bind _)
        rw [Decoder.evaluate_bool, if_neg (by decide), if_pos rfl, Run.answer_bind, if_pos rfl]
        exact (hnested t rfl hactive hdeep).bind _
  · rw [if_neg hactive]
    exact ⟨_, rfl⟩

theorem readChild_value (fuel : Nat) (child : Option Tree) (rest : Bytes)
    (hroom : active + 1 + Tree.childHeight child ≤ limit)
    (hnested : ∀ t ∈ child, active + 1 + t.height ≤ limit →
      recipe.value limit (fuel + 2) (active + 1) (t.encode ++ rest) = .answer t rest) :
    readChild limit (fuel + 2) active (recipe.value limit (fuel + 2) (active + 1))
      (Tree.encodeChild child ++ rest) = .answer child rest := by
  refine readChild_encodeChild (by omega) ?_
  intro t ht
  subst ht
  exact hnested t rfl hroom

/-- An encoding is read, whatever stands behind it, if there is room for the height of the tree. -/
theorem value_encode (t : Tree) (rest : Bytes) (hroom : active + t.height ≤ limit)
    (hfuel : limit + 3 ≤ fuel + active) :
    recipe.value limit fuel active (t.encode ++ rest) = .answer t rest := by
  induction t using Tree.induct generalizing fuel active rest with
  | node value left right ihleft ihright =>
      rw [Tree.height] at hroom
      obtain ⟨fuel, rfl⟩ : ∃ k, fuel = k + 3 := ⟨fuel - 3, by omega⟩
      have hleft : active + 1 + Tree.childHeight left ≤ limit := by omega
      have hright : active + 1 + Tree.childHeight right ≤ limit := by omega
      rw [Tree.encode, List.cons_append, List.append_assoc, value_succ, Decoder.evaluate_byte,
        Run.answer_bind,
        readChild_value fuel left _ hleft fun t ht hroom => ihleft t ht _ hroom (by omega),
        Run.answer_bind,
        readChild_value fuel right _ hright fun t ht hroom => ihright t ht _ hroom (by omega)]
      rfl

theorem tooDeep_value (t : Tree) (rest : Bytes) (hactive : active ≤ limit)
    (hdeep : limit < active + t.height) (hfuel : limit + 3 ≤ fuel + active) :
    TooDeep limit (recipe.value limit fuel active (t.encode ++ rest)) := by
  induction t using Tree.induct generalizing fuel active rest with
  | node value left right ihleft ihright =>
      rw [Tree.height] at hdeep
      obtain ⟨fuel, rfl⟩ : ∃ k, fuel = k + 3 := ⟨fuel - 3, by omega⟩
      rw [Tree.encode, List.cons_append, List.append_assoc, value_succ, Decoder.evaluate_byte,
        Run.answer_bind]
      by_cases hroom : active + 1 + Tree.childHeight left ≤ limit
      · -- the left child is read, so the right one is too high
        rw [readChild_value fuel left _ hroom fun t ht hroom => value_encode t _ hroom (by omega),
          Run.answer_bind]
        refine TooDeep.bind (tooDeep_readChild (by omega) ?_) _
        intro t ht hactive hdeep
        exact ihright t ht _ hactive hdeep (by omega)
      · refine TooDeep.bind (tooDeep_readChild (by omega) ?_) _
        intro t ht hactive hdeep
        exact ihleft t ht _ hactive hdeep (by omega)

/-! ## Nothing else is read -/

theorem eq_encodeChild_of_readChild {child : Option Tree} {bytes rest : Bytes}
    (h : readChild limit (fuel + 2) active nested bytes = .answer child rest)
    (hnested : active < limit → ∀ t bytes, nested bytes = .answer t rest →
      bytes = t.encode ++ rest ∧ active + 1 + t.height ≤ limit) :
    bytes = Tree.encodeChild child ++ rest ∧ active + 1 + Tree.childHeight child ≤ limit := by
  rw [readChild, Run.within] at h
  split at h
  next hactive =>
    cases bytes with
    | nil => cases h
    | cons flag bytes =>
        rw [Decoder.evaluate_bool] at h
        split at h
        next hzero =>
          subst hzero
          obtain ⟨rfl, rfl⟩ := Run.answer_inj.1 h
          exact ⟨rfl, hactive⟩
        next =>
          split at h
          next hone =>
            subst hone
            rw [Run.answer_bind, if_pos rfl] at h
            obtain ⟨t, rest', ht, hsome⟩ := Run.exists_of_bind_eq_answer h
            obtain ⟨rfl, rfl⟩ := Run.answer_inj.1 hsome
            obtain ⟨rfl, hroom⟩ := hnested hactive t bytes ht
            exact ⟨rfl, hroom⟩
          next => cases h
  next => cases h

/-- What is read as a tree is the encoding of the tree, and there was room for it. -/
theorem eq_encode_of_value {t : Tree} {bytes rest : Bytes} (hactive : active ≤ limit)
    (hfuel : limit + 3 ≤ fuel + active)
    (h : recipe.value limit fuel active bytes = .answer t rest) :
    bytes = t.encode ++ rest ∧ active + t.height ≤ limit := by
  -- on the fuel, because the trees below come out of the evaluation only
  induction fuel generalizing active t bytes rest with
  | zero => cases h
  | succ fuel ih =>
      obtain ⟨fuel, rfl⟩ : ∃ k, fuel = k + 2 := ⟨fuel - 2, by omega⟩
      rw [value_succ] at h
      cases bytes with
      | nil => cases h
      | cons value bytes =>
          rw [Decoder.evaluate_byte, Run.answer_bind] at h
          obtain ⟨left, middle, hleft, h⟩ := Run.exists_of_bind_eq_answer h
          obtain ⟨right, last, hright, h⟩ := Run.exists_of_bind_eq_answer h
          obtain ⟨rfl, rfl⟩ := Run.answer_inj.1 h
          obtain ⟨rfl, hleft⟩ := eq_encodeChild_of_readChild hleft
            fun hactive t bytes ht => ih hactive (by omega) ht
          obtain ⟨rfl, hright⟩ := eq_encodeChild_of_readChild hright
            fun hactive t bytes ht => ih hactive (by omega) ht
          constructor
          · rw [Tree.encode, List.cons_append, List.append_assoc]
          · rw [Tree.height]
            omega

/-! ## There is an answer -/

theorem readChild_ne_exhausted (bytes : Bytes)
    (hnested : active < limit → ∀ bytes, nested bytes ≠ .exhausted) :
    readChild limit (fuel + 2) active nested bytes ≠ .exhausted := by
  rw [readChild, Run.within]
  split
  next hactive =>
    refine Run.bind_ne_exhausted ?_ ?_
    · cases bytes with
      | nil => exact Run.reached_ne_exhausted
      | cons flag bytes =>
          rw [Decoder.evaluate_bool]
          split
          next => exact Run.reached_ne_exhausted
          next =>
            split
            next => exact Run.reached_ne_exhausted
            next => exact Run.reached_ne_exhausted
    · intro present rest
      split
      next =>
        refine Run.bind_ne_exhausted (hnested hactive rest) ?_
        exact fun value rest => Run.reached_ne_exhausted
      next => exact Run.reached_ne_exhausted
  next => exact Run.reached_ne_exhausted

theorem value_ne_exhausted (bytes : Bytes) (hactive : active ≤ limit)
    (hfuel : limit + 3 ≤ fuel + active) :
    recipe.value limit fuel active bytes ≠ .exhausted := by
  induction fuel generalizing active bytes with
  | zero => omega
  | succ fuel ih =>
      obtain ⟨fuel, rfl⟩ : ∃ k, fuel = k + 2 := ⟨fuel - 2, by omega⟩
      have hchild : ∀ bytes, readChild limit (fuel + 2) active
          (recipe.value limit (fuel + 2) (active + 1)) bytes ≠ .exhausted := by
        intro bytes
        exact readChild_ne_exhausted bytes fun hactive bytes => ih bytes hactive (by omega)
      rw [value_succ]
      refine Run.bind_ne_exhausted ?_ fun value rest => ?_
      · rw [Decoder.evaluate_number _ Nat.one_pos]
        split
        next => exact Run.reached_ne_exhausted
        next => exact Run.reached_ne_exhausted
      · refine Run.bind_ne_exhausted (hchild rest) fun left rest => ?_
        refine Run.bind_ne_exhausted (hchild rest) fun right rest => ?_
        exact Run.reached_ne_exhausted

end Evaluation

/-! ## The property -/

theorem ofRecipe (maxDepth : Nat) : (program maxDepth).OfRecipe recipe :=
  recipe_accepted.ofRecipe rfl

theorem answers_iff_value {maxDepth : Nat} (hdepth : 1 ≤ maxDepth) {bytes rest : Bytes}
    {outcome : Outcome Tree} :
    (decoder maxDepth).Answers bytes outcome rest ↔
      recipe.value maxDepth (maxDepth + 3) 0 bytes = .reached outcome () rest := by
  have hmax : (program maxDepth).maxDepth = maxDepth := Nat.max_eq_left hdepth
  have hfinite : recipe.value (program maxDepth).maxDepth (maxDepth + 3) 0 bytes ≠ .exhausted := by
    rw [hmax]
    exact value_ne_exhausted bytes (Nat.zero_le _) (Nat.le_refl _)
  exact (Machine.answers_iff (ofRecipe maxDepth) hfinite).trans (by rw [hmax])

/-- Trees come back from their encodings, if they are no higher than scopes may be nested, and from
nothing else; higher trees are rejected for their depth. -/
theorem answers_tree_iff {maxDepth : Nat} (hdepth : 1 ≤ maxDepth) (t : Tree) :
    (∀ bytes rest, (decoder maxDepth).Answers bytes (.done t) rest ↔
      bytes = t.encode ++ rest ∧ t.height ≤ maxDepth) ∧
    ∀ rest, maxDepth < t.height →
      ∃ left, (decoder maxDepth).Answers (t.encode ++ rest) (.failed (.depthLimit maxDepth))
        left := by
  have hstart : 0 + t.height = t.height := Nat.zero_add _
  constructor
  · intro bytes rest
    rw [answers_iff_value hdepth]
    constructor
    · intro h
      have hread := eq_encode_of_value (Nat.zero_le _) (Nat.le_refl _) h
      rwa [hstart] at hread
    · rintro ⟨rfl, hheight⟩
      exact value_encode t rest (hstart.symm ▸ hheight) (Nat.le_refl _)
  · intro rest hdeep
    obtain ⟨left, hleft⟩ :=
      tooDeep_value t rest (Nat.zero_le _) (hstart.symm ▸ hdeep) (Nat.le_refl _)
    exact ⟨left, (answers_iff_value hdepth).2 hleft⟩

/-- A chain of two nodes, where two scopes may be nested and where only one may. -/
theorem answers_chain :
    let t := Tree.node 7 none (some (.node 8 none none))
    (decoder 2).Answers [7, 0, 1, 8, 0, 0, 9] (.done t) [9] ∧
      ∃ left, (decoder 1).Answers [7, 0, 1, 8, 0, 0, 9] (.failed (.depthLimit 1)) left := by
  intro t
  have hbytes : ([7, 0, 1, 8, 0, 0, 9] : Bytes) = t.encode ++ [9] := rfl
  exact ⟨((answers_tree_iff (by decide) t).1 _ [9]).2 ⟨hbytes, by decide⟩,
    (answers_tree_iff (by decide) t).2 [9] (by decide)⟩

end Trees

end Piecemeal
