/-
# Recipes as decoders made of adapters

A recipe can be put together without a program: each part is an adapter around the parts before it,
a decoder of the stack of values that they leave.

    before.act action       (composite before).andThen fun stack => action.composite stack
    before.skip n           (composite before).andThen fun stack => (skipBytes n).map fun _ => stack
    before.recur flag       (composite before).andThen fun stack =>
                              roomed limit room (flagged flag whole (compositeValue …) stack)
    body.optional t flag    roomed limit room (flagged flag t (compositeValue …) [])
    body.repetition … b c   roomed limit room (((compositeValue …).afresh.repeated b c).map …)

A recursion is a decoder of the whole recipe once more.  As only so many scopes may be active at
once, that unfolds to a decoder which is finite: `composite` is built up layer by layer, what
stands inside a scope has room for one scope less, and behind the last one all data is rejected.
The lines above are `composite_act` and its siblings.

The decoder of a program does what the composite of its recipe does, `Piecemeal.Proofs.Adequacy`.
So what is to be said of programs can be said of adapters, and adapters are compared part by part.
-/
import Piecemeal.Proofs.Enactments
import Piecemeal.Proofs.Layers
import Piecemeal.Recipe

namespace Piecemeal

variable {κ : Type} [Atom κ]

/-! ## Actions -/

/-- Answers the latest value of a stack. -/
def Decoder.topmost (type : ValueType κ) : List (Cell κ) → Decoder type.Carrier
  | [] => .unmade (.popEmpty type.name)
  | cell :: _ =>
      match cell.read type with
      | .ok value => .constant value
      | .error misuse => .unmade misuse

theorem Decoder.topmost_mk (type : ValueType κ) (value : type.Carrier) (stack : List (Cell κ)) :
    topmost type (⟨type, value⟩ :: stack) = .constant value := by
  simp only [topmost, Cell.read_mk]

/-- Decodes the stack that an action leaves. -/
def Action.composite (stack : List (Cell κ)) : Action κ → Decoder (List (Cell κ))
  | .decode type decoder => decoder.map fun value => ⟨type, value⟩ :: stack
  | .replace source type choose =>
      (Decoder.topmost source stack).andThen fun value =>
        (choose value).map fun result => ⟨type, result⟩ :: stack.tail
  | .follow source type choose =>
      (Decoder.topmost source stack).andThen fun value =>
        (choose value).map fun result => ⟨type, result⟩ :: stack
  | .reduce arity type reading =>
      match reading.evaluate (stack.take arity).reverse with
      | .ok (value, _) => .constant (⟨type, value⟩ :: stack.drop arity)
      | .error misuse => .unmade misuse

theorem Action.composite_reduce {arity : Nat} {type : ValueType κ}
    {reading : Reading κ type.Carrier} {stack rest : List (Cell κ)} {value : type.Carrier}
    (h : reading.evaluate (stack.take arity).reverse = .ok (value, rest)) :
    (Action.reduce arity type reading).composite stack =
      .constant (⟨type, value⟩ :: stack.drop arity) := by
  simp only [composite, h]

/-! ## Adapters of stacks -/

namespace Decoder

/-- The stack that a decoder decodes behind another one. -/
def behind (C : Decoder (List (Cell κ))) (type : ValueType κ) (d : Decoder type.Carrier) :
    Decoder (List (Cell κ)) :=
  C.andThen fun stack => (Action.decode type d).composite stack

section Behind

variable {C : Decoder (List (Cell κ))} {type : ValueType κ} {d : Decoder type.Carrier}
  (last : C.State) (stack : List (Cell κ))

theorem hosts_behind : (C.behind type d).Hosts d fun t => ⟨last, some ⟨stack, t⟩⟩ := by
  have hmap : ((Action.decode type d).composite stack).Hosts d fun t => t := hosts_map _ d
  exact hmap.trans
    (hosts_second C (fun stack => (Action.decode type d).composite stack) last stack)

theorem step_behind {t next : d.State} {value : type.Carrier} (h : d.step t = .done value next) :
    (C.behind type d).step ⟨last, some ⟨stack, t⟩⟩ = .done (⟨type, value⟩ :: stack) ⟨last, none⟩ := by
  have hmap := step_map (fun value => Cell.mk type value :: stack) h
  exact step_second last hmap

end Behind

/-- Decodes inside a scope, if there is room for one. -/
def roomed {α : Type} (limit room : Nat) (d : Decoder α) : Decoder α :=
  match room with
  | 0 => .reject (.depthLimit limit)
  | _ + 1 => d

/-- Puts a value on the stack that may be absent, behind a flag that says so. -/
def flagged (flag : Decoder Bool) (type : ValueType κ) (d : Decoder type.Carrier)
    (stack : List (Cell κ)) : Decoder (List (Cell κ)) :=
  flag.andThen fun present =>
    if present then d.map fun value => ⟨.option type, some value⟩ :: stack
    else .constant (⟨.option type, none⟩ :: stack)

end Decoder

/-! ## Recipes -/

namespace Recipe

variable {whole : ValueType κ}

/-- Decodes the stack that a beginning of a recipe leaves, with room for so many scopes.  What stands
inside a scope is decoded by `inner`. -/
def layer (root : Recipe κ whole) (limit room : Nat)
    (inner : Recipe κ whole → Decoder (List (Cell κ))) : Recipe κ whole → Decoder (List (Cell κ))
  | first type decoder =>
      (Decoder.constant []).andThen fun stack => (Action.decode type decoder).composite stack
  | act before action => (layer root limit room inner before).andThen fun stack =>
      action.composite stack
  | skip before n => (layer root limit room inner before).andThen fun stack =>
      (Decoder.skipBytes n).map fun _ => stack
  | recur before flag => (layer root limit room inner before).andThen fun stack =>
      .roomed limit room <|
        .flagged flag whole ((inner root).andThen (Decoder.topmost whole)) stack
  | optional body type flag =>
      .roomed limit room <| .flagged flag type ((inner body).andThen (Decoder.topmost type)) []
  | repetition body element result bound collector =>
      .roomed limit room <|
        ((((inner body).andThen (Decoder.topmost element)).afresh).repeated bound collector).map
          fun value => [⟨result, value⟩]

/-- The same, where what stands inside a scope is decoded with room for one scope less. -/
def composite (root : Recipe κ whole) (limit : Nat) : Nat → Recipe κ whole → Decoder (List (Cell κ))
  | 0 => root.layer limit 0 fun _ => .reject (.depthLimit limit)
  | room + 1 => root.layer limit (room + 1) (composite root limit room)

/-- Decodes the one value that a recipe leaves. -/
def compositeValue (root : Recipe κ whole) (limit room : Nat) (r : Recipe κ whole)
    (type : ValueType κ) : Decoder type.Carrier :=
  (root.composite limit room r).andThen (Decoder.topmost type)

section Equations

variable (root before body : Recipe κ whole) (limit room : Nat)

theorem composite_first (type : ValueType κ) (decoder : Decoder type.Carrier) :
    root.composite limit room (.first type decoder) =
      (Decoder.constant []).andThen fun stack => (Action.decode type decoder).composite stack := by
  cases room <;> rfl

theorem composite_act (action : Action κ) :
    root.composite limit room (before.act action) =
      (root.composite limit room before).andThen fun stack => action.composite stack := by
  cases room <;> rfl

theorem composite_skip (n : Nat) :
    root.composite limit room (before.skip n) =
      (root.composite limit room before).andThen fun stack =>
        (Decoder.skipBytes n).map fun _ => stack := by
  cases room <;> rfl

theorem composite_recur (flag : Decoder Bool) :
    root.composite limit room (before.recur flag) =
      (root.composite limit room before).andThen fun stack =>
        .roomed limit room <|
          .flagged flag whole (root.compositeValue limit (room - 1) root whole) stack := by
  cases room <;> rfl

theorem composite_optional (type : ValueType κ) (flag : Decoder Bool) :
    root.composite limit room (body.optional type flag) =
      .roomed limit room
        (.flagged flag type (root.compositeValue limit (room - 1) body type) []) := by
  cases room <;> rfl

theorem composite_repetition (element result : ValueType κ) (bound : Bound element.Carrier)
    (collector : Collector element.Carrier result.Carrier) :
    root.composite limit room (body.repetition element result bound collector) =
      .roomed limit room
        (((root.compositeValue limit (room - 1) body element).afresh.repeated bound collector).map
          fun value => [⟨result, value⟩]) := by
  cases room <;> rfl

end Equations

end Recipe

end Piecemeal
