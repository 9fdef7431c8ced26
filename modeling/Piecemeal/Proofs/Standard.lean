/-
# Decoders made from parts

What can be said of every decoder is said of the decoders that are made from the library's own
parts: the primitive ones, adapters and repetitions of such decoders, and the programs of recipes
that use such decoders.  `Decoder.Standard` is that closure, so a property of all of them is an
induction with one case for each way of making a decoder.  Decoders that are defined by others, as
byte strings behind their length and texts are, have no case of their own: `Standard.prefixed`,
`Standard.utf8`.

A recipe is one that can be built if it passed the checks of every part on the way:
`Recipe.Accepted` follows the functions that add a part, and its programs are those that `assemble`
hands out.  `Recipe.Uses` are the decoders that a recipe runs.  The steps of its program run these,
and two more that the layout adds, one that drops bytes and one that reads nothing: `all_of_uses`.
-/
import Piecemeal.Decoder.ByteString
import Piecemeal.Recipe.Builder
import Piecemeal.Program.Machine

namespace Piecemeal

namespace Recipe

variable {κ : Type} [Atom κ] {whole : ValueType κ}

/-- The recipes that pass every check while they are built. -/
inductive Accepted : Recipe κ whole → Prop
  | first (type : ValueType κ) (decoder : Decoder type.Carrier) : Accepted (.first type decoder)
  | decode {r : Recipe κ whole} (type : ValueType κ) (decoder : Decoder type.Carrier) :
      Accepted r → Accepted (r.decode type decoder)
  | replace {r r' : Recipe κ whole} (source type : ValueType κ)
      (choose : source.Carrier → Decoder type.Carrier) :
      Accepted r → r.replace source type choose = .ok r' → Accepted r'
  | follow {r r' : Recipe κ whole} (source type : ValueType κ)
      (choose : source.Carrier → Decoder type.Carrier) :
      Accepted r → r.follow source type choose = .ok r' → Accepted r'
  | reduce {r r' : Recipe κ whole} (arity : Nat) (type : ValueType κ)
      (reading : Reading κ type.Carrier) :
      Accepted r → r.reduce arity type reading = .ok r' → Accepted r'
  | reduceRow {r r' : Recipe κ whole} (types : List (ValueType κ)) (type : ValueType κ)
      (f : Row types → type.Carrier) :
      Accepted r → r.reduceRow types type f = .ok r' → Accepted r'
  | skip {r : Recipe κ whole} (n : Nat) : Accepted r → Accepted (r.skip n)
  | recur {r : Recipe κ whole} (flag : Decoder Bool) : Accepted r → Accepted (r.recur flag)
  | optionally {r r' : Recipe κ whole} (type : ValueType κ) (flag : Decoder Bool) :
      Accepted r → r.optionally type flag = .ok r' → Accepted r'
  | repeated {r r' : Recipe κ whole} (element result : ValueType κ)
      (bound : Bound element.Carrier) (collector : Collector element.Carrier result.Carrier) :
      Accepted r → r.repeated element result bound collector = .ok r' → Accepted r'

/-- The decoders that a recipe runs. -/
inductive Uses : Recipe κ whole → {α : Type} → Decoder α → Prop
  | first {type : ValueType κ} {decoder : Decoder type.Carrier} :
      Uses (.first type decoder) decoder
  | decode {before : Recipe κ whole} {type : ValueType κ} {decoder : Decoder type.Carrier} :
      Uses (before.act (.decode type decoder)) decoder
  | replace {before : Recipe κ whole} {source type : ValueType κ}
      {choose : source.Carrier → Decoder type.Carrier} (value : source.Carrier) :
      Uses (before.act (.replace source type choose)) (choose value)
  | follow {before : Recipe κ whole} {source type : ValueType κ}
      {choose : source.Carrier → Decoder type.Carrier} (value : source.Carrier) :
      Uses (before.act (.follow source type choose)) (choose value)
  | recur {before : Recipe κ whole} {flag : Decoder Bool} : Uses (before.recur flag) flag
  | optional {body : Recipe κ whole} {type : ValueType κ} {flag : Decoder Bool} :
      Uses (body.optional type flag) flag
  | repetition {body : Recipe κ whole} {element result : ValueType κ} {size : Decoder Nat}
      {collector : Collector element.Carrier result.Carrier} :
      Uses (body.repetition element result (.prefixed size) collector) size
  | beforeAct {before : Recipe κ whole} {action : Action κ} {α : Type} {d : Decoder α} :
      Uses before d → Uses (before.act action) d
  | beforeSkip {before : Recipe κ whole} {n : Nat} {α : Type} {d : Decoder α} :
      Uses before d → Uses (before.skip n) d
  | beforeRecur {before : Recipe κ whole} {flag : Decoder Bool} {α : Type} {d : Decoder α} :
      Uses before d → Uses (before.recur flag) d
  | inOptional {body : Recipe κ whole} {type : ValueType κ} {flag : Decoder Bool} {α : Type}
      {d : Decoder α} : Uses body d → Uses (body.optional type flag) d
  | inRepetition {body : Recipe κ whole} {element result : ValueType κ}
      {bound : Bound element.Carrier} {collector : Collector element.Carrier result.Carrier}
      {α : Type} {d : Decoder α} :
      Uses body d → Uses (body.repetition element result bound collector) d

end Recipe

/-- All decoders that an action may run have a property. -/
def Action.All {κ : Type} [Atom κ] (P : ∀ {α : Type}, Decoder α → Prop) : Action κ → Prop
  | .decode _ decoder => P decoder
  | .replace _ _ choose | .follow _ _ choose => ∀ value, P (choose value)
  | .reduce .. => True

namespace Recipe

variable {κ : Type} [Atom κ] {whole : ValueType κ}

/-- What holds of the decoders that a recipe runs, and of the two that its layout adds, holds in
every step. -/
theorem all_of_uses {P : ∀ {α : Type}, Decoder α → Prop} (hskip : ∀ n, P (Decoder.skipBytes n))
    (hunit : P (Decoder.constant ())) {r : Recipe κ whole}
    (h : ∀ {α : Type} (d : Decoder α), r.Uses d → P d) (start : Nat) :
    ∀ stage ∈ r.stages start, stage.action.All P := by
  induction r generalizing start with
  | first type decoder =>
      intro stage hstage
      obtain rfl := List.mem_singleton.1 hstage
      exact h decoder .first
  | act before action ih =>
      intro stage hstage
      rcases List.mem_append.1 hstage with hstage | hstage
      · exact ih (fun d hd => h d (.beforeAct hd)) start stage hstage
      · obtain rfl := List.mem_singleton.1 hstage
        cases action with
        | decode type decoder => exact h decoder .decode
        | replace source type choose => exact fun value => h _ (.replace value)
        | follow source type choose => exact fun value => h _ (.follow value)
        | reduce arity type reading => trivial
  | skip before n ih =>
      intro stage hstage
      rcases List.mem_append.1 hstage with hstage | hstage
      · exact ih (fun d hd => h d (.beforeSkip hd)) start stage hstage
      · obtain rfl := List.mem_singleton.1 hstage
        exact hskip n
  | recur before flag ih =>
      intro stage hstage
      rcases List.mem_append.1 hstage with hstage | hstage
      · exact ih (fun d hd => h d (.beforeRecur hd)) start stage hstage
      · obtain rfl := List.mem_singleton.1 hstage
        exact h flag .recur
  | optional body type flag ih =>
      intro stage hstage
      rcases List.mem_cons.1 hstage with rfl | hstage
      · exact h flag .optional
      · exact ih (fun d hd => h d (.inOptional hd)) (start + 1) stage hstage
  | repetition body element result bound collector ih =>
      intro stage hstage
      rcases List.mem_cons.1 hstage with rfl | hstage
      · cases bound with
        | times n => exact hunit
        | prefixed size => exact h size .repetition
        | whileHolds predicate addLast => exact hunit
      · exact ih (fun d hd => h d (.inRepetition hd)) (start + 1) stage hstage

theorem exists_eq_program {r : Recipe κ whole} {maxDepth : Nat} {p : Program κ whole}
    (h : r.assemble maxDepth = .ok p) : ∃ hp : r.pending = [whole], p = r.program hp maxDepth := by
  unfold assemble at h
  split at h
  next hp => exact ⟨hp, by cases h; rfl⟩
  next => cases h

theorem stage_mem_stages {r : Recipe κ whole} {maxDepth : Nat} {p : Program κ whole}
    (h : r.assemble maxDepth = .ok p) (index : Fin p.size) : p.stage index ∈ r.stages 0 := by
  obtain ⟨hp, rfl⟩ := exists_eq_program h
  exact List.getElem_mem _

/-! ## An example -/

instance : Atom Empty where
  decEq := inferInstance
  Carrier := nofun
  name := nofun

/-- The number of nodes of a tree with subtrees of so many. -/
def nodesAbove (left right : Option Nat) : Nat := 1 + left.getD 0 + right.getD 0

/-- How to decode a binary tree into its number of nodes: a node is a byte and two flags, each with
a subtree behind it if it is set. -/
def nodeCount : Recipe Empty .size :=
  first .uint8 (.number UInt8 .big)
    |>.recur .bool
    |>.recur .bool
    |>.act (.reduce 3 .size (.row [.uint8, .option .size, .option .size]
        fun (_, left, right, _) => nodesAbove left right))

theorem nodeCount_accepted : nodeCount.Accepted :=
  .reduceRow [.uint8, .option .size, .option .size] .size _
    (.recur .bool (.recur .bool (.first .uint8 (.number UInt8 .big)))) rfl

end Recipe

namespace Decoder

/-- The decoders that are made from the library's parts. -/
inductive Standard : {α : Type} → Decoder α → Prop
  | number (α : Type) [FixedWidth α] (order : ByteOrder) : Standard (number α order)
  | bool : Standard bool
  | constant {α : Type} (value : α) : Standard (constant value)
  | reject {α : Type} (error : DecodeError) : Standard (reject error : Decoder α)
  | bytes (n : Nat) : Standard (bytes n)
  | terminated {marker : Bytes} {d : Decoder Bytes} :
      terminated? marker = .ok d → Standard d
  | skipBytes (n : Nat) : Standard (skipBytes n)
  | map {α β : Type} {d : Decoder α} (f : α → β) : Standard d → Standard (d.map f)
  | tryMap {α β : Type} {d : Decoder α} (f : α → Except DecodeError β) :
      Standard d → Standard (d.tryMap f)
  | andThen {α β : Type} {d : Decoder α} {f : α → Decoder β} :
      Standard d → (∀ value, Standard (f value)) → Standard (d.andThen f)
  | both {α β : Type} {a : Decoder α} {b : Decoder β} :
      Standard a → Standard b → Standard (a.both b)
  | skipAfter {α : Type} {d : Decoder α} (n : Nat) : Standard d → Standard (d.skipAfter n)
  | repeated {ε ρ : Type} {d : Decoder ε} {bound : Bound ε} (c : Collector ε ρ) :
      Standard d → (∀ size, bound = .prefixed size → Standard size) →
      Standard (d.repeated bound c)
  | composed {κ : Type} [Atom κ] {whole : ValueType κ} {r : Recipe κ whole} {maxDepth : Nat}
      {p : Program κ whole} :
      r.Accepted → r.assemble maxDepth = .ok p →
      (∀ {α : Type} (d : Decoder α), r.Uses d → Standard d) → Standard p.decoder

namespace Standard

theorem prefixed {α : Type} [CountPrefix α] {length : Decoder α} (h : Standard length)
    (max : Option Nat) : Standard (length.prefixed max) :=
  .andThen (.tryMap _ h) fun n => .bytes n

theorem utf8 {d : Decoder Bytes} (h : Standard d) : Standard d.utf8 :=
  .tryMap _ h

end Standard

end Decoder

end Piecemeal
