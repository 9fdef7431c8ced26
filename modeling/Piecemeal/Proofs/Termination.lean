/-
# Every call returns

Two things in a decoder may go on without end: a recursion, and a repetition of which nobody knows
how many elements it has.  A recursion ends because only so many scopes may be active, whatever the
flags say.  A repetition ends if every element takes a byte, and nothing else has to take one.

For recipes that is a matter of their composites, which are adapters, layer by layer around layers
with room for a scope less:

    root.Reached limit room r →
      (root.composite limit room r).ReturnsWith fun stack => stack.map Cell.type = r.pending

by `Recipe.returns_composite`, an induction on the room around one on the recipe,
`returns_of_inner`.  What a part of a recipe has to satisfy it has to satisfy only where it is come
to, `Recipe.Reached`, and for the values that are there by then.  And as programs do what
composites do, they return as well, `Bisimulation.returns`.

That an element takes a byte is `Decoder.Consumes`: every value leaves fewer bytes.  It is enough
that the recipe of the element begins with a decoder that takes one, `BeginsWith.consumes`, as the
elements are decoded each by a new decoder.

`Decoder.Terminating` is the closure of decoders for which that adds up.
-/
import Piecemeal.Proofs.Adequacy
import Piecemeal.Proofs.Returns

namespace Piecemeal

variable {κ : Type} [Atom κ]

/-! ## Stacks -/

/-- The decoders that an action may run on this stack. -/
inductive Action.Runs (stack : List (Cell κ)) : Action κ → {α : Type} → Decoder α → Prop
  | decode {type : ValueType κ} {decoder : Decoder type.Carrier} :
      Runs stack (.decode type decoder) decoder
  | replace {source type : ValueType κ} {choose : source.Carrier → Decoder type.Carrier}
      {value : source.Carrier} {rest : List (Cell κ)} :
      stack = ⟨source, value⟩ :: rest → Runs stack (.replace source type choose) (choose value)
  | follow {source type : ValueType κ} {choose : source.Carrier → Decoder type.Carrier}
      {value : source.Carrier} {rest : List (Cell κ)} :
      stack = ⟨source, value⟩ :: rest → Runs stack (.follow source type choose) (choose value)

section Stacks

variable {stack : List (Cell κ)} {types : List (ValueType κ)} {type : ValueType κ}

theorem Action.returns_composite {action : Action κ} (hfits : action.Fits (stack.map Cell.type))
    (hreads : action.ReadsPending (stack.map Cell.type))
    (h : ∀ {α : Type} (d : Decoder α), action.Runs stack d → d.Returns) :
    (action.composite stack).ReturnsWith fun cells =>
      cells.map Cell.type = action.type :: action.leaves (stack.map Cell.type) := by
  cases action with
  | decode type decoder => exact (h decoder .decode).anything.map _ fun _ _ => rfl
  | replace source type choose =>
      obtain ⟨value, rest, rfl⟩ := Cell.exists_of_head? hfits
      simp only [composite, Decoder.topmost_mk]
      refine (Decoder.returnsWith_constant (Q := (· = value)) rfl).andThen ?_
      rintro _ rfl
      exact (h _ (.replace rfl)).anything.map _ fun _ _ => rfl
  | follow source type choose =>
      obtain ⟨value, rest, rfl⟩ := Cell.exists_of_head? hfits
      simp only [composite, Decoder.topmost_mk]
      refine (Decoder.returnsWith_constant (Q := (· = value)) rfl).andThen ?_
      rintro _ rfl
      exact (h _ (.follow rfl)).anything.map _ fun _ _ => rfl
  | reduce arity type reading =>
      rw [ReadsPending, ← List.map_take, ← List.map_reverse] at hreads
      obtain ⟨value, rest, hvalue⟩ := hreads.exists_evaluate
      rw [composite_reduce hvalue]
      refine Decoder.returnsWith_constant ?_
      rw [List.map_cons, List.map_drop]
      rfl

namespace Decoder

theorem ReturnsWith.topmost {C : Decoder (List (Cell κ))}
    (h : C.ReturnsWith fun stack => stack.map Cell.type = [type]) :
    (C.andThen (topmost type)).Returns := by
  refine (h.andThen (R := fun _ => True) ?_).returns
  intro stack htypes
  obtain ⟨value, rfl⟩ := Cell.exists_of_single htypes
  rw [topmost_mk]
  exact returnsWith_constant trivial

theorem ReturnsWith.roomed {α : Type} {Q : α → Prop} {limit room : Nat} {d : Decoder α}
    (h : ∀ inner, room = inner + 1 → d.ReturnsWith Q) : (roomed limit room d).ReturnsWith Q := by
  cases room with
  | zero =>
      intro state _ bytes
      exact ⟨_, _, _, (ends_of_fail rfl).2 rfl, nofun⟩
  | succ room => exact h room rfl

theorem returnsWith_flagged {flag : Decoder Bool} {d : Decoder type.Carrier}
    (hflag : flag.Returns) (h : flag.Yields true → d.Returns) :
    (flagged flag type d stack).ReturnsWith fun cells =>
      cells.map Cell.type = .option type :: stack.map Cell.type := by
  refine hflag.yields.andThen ?_
  intro present hpresent
  cases present with
  | false => exact returnsWith_constant rfl
  | true => exact (h hpresent).anything.map _ fun _ _ => rfl

theorem Returns.afresh {α : Type} {d : Decoder α} (h : d.Returns) : d.afresh.Returns :=
  (returnsWith_constant (Q := fun _ => True) trivial).returns.andThen fun _ _ => h

end Decoder

end Stacks

/-! ## Values that take bytes -/

namespace Decoder

variable {α β γ : Type}

/-- A value that is decoded from its beginning takes a byte at least. -/
def Consumes (d : Decoder α) : Prop :=
  ∀ (bytes : Bytes) value next rest,
    d.Ends d.start bytes (.reached (.done value) next rest) → rest.length < bytes.length

/-- Where a decoder around another one answers a value the inner one has answered one before. -/
theorem Ends.exists_inner (outer : Decoder β) (inner : Decoder α)
    (wrap : inner.State → outer.State) {spoiled : inner.State → outer.State}
    {finished : α → inner.State → Step outer.State β}
    (hstep : ∀ state, outer.step (wrap state) = (inner.step state).embed wrap spoiled finished)
    {state : inner.State} {next : outer.State} {bytes rest : Bytes} {value : β}
    (h : outer.Ends (wrap state) bytes (.reached (.done value) next rest)) :
    ∃ result last left, inner.Ends state bytes (.reached (.done result) last left) ∧
      outer.EndsBy (finished result last) left (.reached (.done value) next rest) := by
  obtain ⟨run, hrun, hgoes⟩ := (ends_embed outer inner wrap spoiled finished hstep).1 h
  cases run with
  | reached outcome last left =>
      cases outcome with
      | done result => exact ⟨result, last, left, hrun, hgoes⟩
      | pending => cases hgoes
      | failed error => cases hgoes
  | broken misuse => cases hgoes
  | exhausted => exact hgoes.elim

theorem consumes_of_asks {d : Decoder α} (h : (d.step d.start).Asks) : d.Consumes := by
  obtain ⟨n, resume, hreq, hn⟩ := h
  intro bytes value next rest hrun
  rw [ends_of_request hreq] at hrun
  split at hrun
  next => cases hrun
  next hle =>
    have hlen := hrun.suffix.length_le
    rw [List.length_drop] at hlen
    omega

theorem consumes_reject (error : DecodeError) : (reject error : Decoder α).Consumes := by
  intro bytes value next rest hrun
  cases (ends_of_fail rfl).1 hrun

theorem Consumes.map {d : Decoder α} (h : d.Consumes) (f : α → β) : (d.map f).Consumes := by
  intro bytes value next rest hrun
  obtain ⟨result, last, left, hinner, hby⟩ :=
    Ends.exists_inner (d.map f) d id (fun _ => rfl) hrun
  cases hby
  exact h _ _ _ _ hinner

theorem Consumes.andThen {d : Decoder α} (h : d.Consumes) (f : α → Decoder β) :
    (d.andThen f).Consumes := by
  intro bytes value next rest hrun
  obtain ⟨result, last, left, hinner, hby⟩ :=
    Ends.exists_inner (d.andThen f) d (⟨·, none⟩) (fun _ => rfl) hrun
  exact Nat.lt_of_le_of_lt (Ends.suffix (d := d.andThen f) hby).length_le (h _ _ _ _ hinner)

theorem consumes_andThen {d : Decoder α} {f : α → Decoder β} (h : ∀ value, (f value).Consumes) :
    (d.andThen f).Consumes := by
  intro bytes value next rest hrun
  obtain ⟨result, last, left, hinner, hby⟩ :=
    Ends.exists_inner (d.andThen f) d (⟨·, none⟩) (fun _ => rfl) hrun
  obtain ⟨_, _, _, hsecond, hdone⟩ := Ends.exists_inner (d.andThen f) (f result)
    (fun second => ⟨last, some ⟨result, second⟩⟩) (fun _ => rfl) hby
  cases hdone
  exact Nat.lt_of_lt_of_le (h result _ _ _ _ hsecond) hinner.suffix.length_le

theorem consumes_repeated {d : Decoder α} {bound : Bound α} (h : bound.target.Consumes)
    (c : Collector α β) : (d.repeated bound c).Consumes := by
  intro bytes value next rest hrun
  obtain ⟨result, last, left, hinner, hby⟩ :=
    Ends.exists_inner (d.repeated bound c) bound.target (⟨·, d.start, none⟩) (fun _ => rfl) hrun
  exact Nat.lt_of_le_of_lt (Ends.suffix (d := d.repeated bound c) hby).length_le (h _ _ _ _ hinner)

theorem Consumes.roomed {d : Decoder α} (h : d.Consumes) (limit room : Nat) :
    (roomed limit room d).Consumes := by
  cases room with
  | zero => exact consumes_reject _
  | succ room => exact h

theorem Consumes.consumesEach {d : Decoder α} (h : d.Consumes) : d.afresh.ConsumesEach := by
  intro state _ bytes value next rest hrun value' next' rest' hrun'
  obtain ⟨last, hlast⟩ := hrun.exists_done
  rw [renews_afresh last value next hlast] at hrun'
  exact consumes_andThen (d := constant ()) (fun _ => h) _ _ _ _ hrun'

end Decoder

/-! ## Recipes -/

namespace Recipe

variable {whole : ValueType κ} {root : Recipe κ whole} {limit : Nat}

/-- The part of a recipe is come to with room for so many more scopes. -/
inductive Reached (root : Recipe κ whole) (limit : Nat) : Nat → Recipe κ whole → Prop
  | whole : Reached root limit limit root
  | beforeAct {room : Nat} {before : Recipe κ whole} {action : Action κ} :
      Reached root limit room (before.act action) → Reached root limit room before
  | beforeSkip {room n : Nat} {before : Recipe κ whole} :
      Reached root limit room (before.skip n) → Reached root limit room before
  | beforeRecur {room : Nat} {before : Recipe κ whole} {flag : Decoder Bool} :
      Reached root limit room (before.recur flag) → Reached root limit room before
  | again {room : Nat} {before : Recipe κ whole} {flag : Decoder Bool} {stack : List (Cell κ)} :
      Reached root limit (room + 1) (before.recur flag) →
      (root.composite limit (room + 1) before).Yields stack → flag.Yields true →
      Reached root limit room root
  | inOptional {room : Nat} {body : Recipe κ whole} {type : ValueType κ} {flag : Decoder Bool} :
      Reached root limit (room + 1) (body.optional type flag) → flag.Yields true →
      Reached root limit room body
  | inRepetition {room : Nat} {body : Recipe κ whole} {element result : ValueType κ}
      {bound : Bound element.Carrier} {collector : Collector element.Carrier result.Carrier}
      {target : Option Nat} :
      Reached root limit (room + 1) (body.repetition element result bound collector) →
      bound.target.Yields target → target ≠ some 0 → Reached root limit room body

/-- The decoders that a recipe comes to run. -/
inductive Runs (root : Recipe κ whole) (limit : Nat) : {α : Type} → Decoder α → Prop
  | first {room : Nat} {type : ValueType κ} {decoder : Decoder type.Carrier} :
      Reached root limit room (.first type decoder) → Runs root limit decoder
  | act {room : Nat} {before : Recipe κ whole} {action : Action κ} {stack : List (Cell κ)}
      {α : Type} {d : Decoder α} :
      Reached root limit room (before.act action) →
      (root.composite limit room before).Yields stack → action.Runs stack d → Runs root limit d
  | recur {room : Nat} {before : Recipe κ whole} {flag : Decoder Bool} {stack : List (Cell κ)} :
      Reached root limit (room + 1) (before.recur flag) →
      (root.composite limit (room + 1) before).Yields stack → Runs root limit flag
  | optional {room : Nat} {body : Recipe κ whole} {type : ValueType κ} {flag : Decoder Bool} :
      Reached root limit (room + 1) (body.optional type flag) → Runs root limit flag
  | repetition {room : Nat} {body : Recipe κ whole} {element result : ValueType κ}
      {size : Decoder Nat} {collector : Collector element.Carrier result.Carrier} :
      Reached root limit (room + 1) (body.repetition element result (.prefixed size) collector) →
      Runs root limit size

/-- Wherever a repetition is come to that goes on while its elements say so, the body takes a byte at
least each time it is decoded to its end. -/
def Progresses (root : Recipe κ whole) (limit : Nat) : Prop :=
  ∀ room body element result predicate addLast
    (collector : Collector element.Carrier result.Carrier),
    root.Reached limit (room + 1)
      (body.repetition element result (.whileHolds predicate addLast) collector) →
    (root.compositeValue limit room body element).Consumes

section Reached

variable {r : Recipe κ whole} {room : Nat}

theorem Reached.fits (h : root.Reached limit room r) (hroot : root.Fits) : r.Fits := by
  induction h with
  | whole => exact hroot
  | beforeAct _ ih => exact ih.1
  | beforeSkip _ ih => exact ih
  | beforeRecur _ ih => exact ih
  | again => exact hroot
  | inOptional _ _ ih => exact ih.1
  | inRepetition _ _ _ ih => exact ih.1

theorem Reached.readsPending (h : root.Reached limit room r) (hroot : root.ReadsPending) :
    r.ReadsPending := by
  induction h with
  | whole => exact hroot
  | beforeAct _ ih => exact ih.1
  | beforeSkip _ ih => exact ih
  | beforeRecur _ ih => exact ih
  | again => exact hroot
  | inOptional _ _ ih => exact ih
  | inRepetition _ _ _ ih => exact ih

theorem Reached.uses {α : Type} {d : Decoder α} (h : root.Reached limit room r) (hd : r.Uses d) :
    root.Uses d := by
  induction h with
  | whole => exact hd
  | beforeAct _ ih => exact ih (.beforeAct hd)
  | beforeSkip _ ih => exact ih (.beforeSkip hd)
  | beforeRecur _ ih => exact ih (.beforeRecur hd)
  | again => exact hd
  | inOptional _ _ ih => exact ih (.inOptional hd)
  | inRepetition _ _ _ ih => exact ih (.inRepetition hd)

end Reached

theorem Runs.uses {α : Type} {d : Decoder α} (h : root.Runs limit d) : root.Uses d := by
  cases h with
  | first hreached => exact hreached.uses .first
  | act hreached _ haction =>
      cases haction with
      | decode => exact hreached.uses .decode
      | replace => exact hreached.uses (.replace _)
      | follow => exact hreached.uses (.follow _)
  | recur hreached => exact hreached.uses .recur
  | optional hreached => exact hreached.uses .optional
  | repetition hreached => exact hreached.uses .repetition

/-! ### Recipes that begin with a byte -/

/-- The decoder that a recipe runs first. -/
inductive BeginsWith : Recipe κ whole → {α : Type} → Decoder α → Prop
  | first {type : ValueType κ} {decoder : Decoder type.Carrier} :
      BeginsWith (.first type decoder) decoder
  | act {before : Recipe κ whole} {action : Action κ} {α : Type} {d : Decoder α} :
      BeginsWith before d → BeginsWith (before.act action) d
  | skip {before : Recipe κ whole} {n : Nat} {α : Type} {d : Decoder α} :
      BeginsWith before d → BeginsWith (before.skip n) d
  | recur {before : Recipe κ whole} {flag : Decoder Bool} {α : Type} {d : Decoder α} :
      BeginsWith before d → BeginsWith (before.recur flag) d
  | optional {body : Recipe κ whole} {type : ValueType κ} {flag : Decoder Bool} :
      BeginsWith (body.optional type flag) flag
  | repetition {body : Recipe κ whole} {element result : ValueType κ} {size : Decoder Nat}
      {collector : Collector element.Carrier result.Carrier} :
      BeginsWith (body.repetition element result (.prefixed size) collector) size

theorem BeginsWith.consumes {r : Recipe κ whole} {α : Type} {d : Decoder α} (h : r.BeginsWith d)
    (hd : d.Consumes) (room : Nat) : (root.composite limit room r).Consumes := by
  induction h with
  | first =>
      rw [composite_first]
      exact Decoder.consumes_andThen fun _ => hd.map _
  | act _ ih =>
      rw [composite_act]
      exact (ih hd).andThen _
  | skip _ ih =>
      rw [composite_skip]
      exact (ih hd).andThen _
  | recur _ ih =>
      rw [composite_recur]
      exact (ih hd).andThen _
  | optional =>
      rw [composite_optional]
      exact Decoder.Consumes.roomed (hd.andThen _) limit room
  | @repetition body element result size collector =>
      have htarget : (Bound.prefixed size : Bound element.Carrier).target.Consumes := hd.map some
      rw [composite_repetition]
      exact Decoder.Consumes.roomed ((Decoder.consumes_repeated htarget _).map _) limit room

/-- A repetition that goes on while its elements say so has elements that begin with a byte. -/
def BytesEach : Recipe κ whole → Prop
  | first .. => True
  | act before _ | skip before _ | recur before _ => before.BytesEach
  | optional body _ _ => body.BytesEach
  | repetition body _ _ bound _ => body.BytesEach ∧
      ∀ predicate addLast, bound = .whileHolds predicate addLast →
        ∃ α, ∃ d : Decoder α, body.BeginsWith d ∧ d.Consumes

theorem Reached.bytesEach {r : Recipe κ whole} {room : Nat} (h : root.Reached limit room r)
    (hroot : root.BytesEach) : r.BytesEach := by
  induction h with
  | whole => exact hroot
  | beforeAct _ ih => exact ih
  | beforeSkip _ ih => exact ih
  | beforeRecur _ ih => exact ih
  | again => exact hroot
  | inOptional _ _ ih => exact ih
  | inRepetition _ _ _ ih => exact ih.1

/-- Elements that begin with a byte take one wherever they are come to. -/
theorem BytesEach.progresses (h : root.BytesEach) (limit : Nat) : root.Progresses limit := by
  intro room body element result predicate addLast collector hreached
  obtain ⟨α, d, hbegins, hd⟩ := (hreached.bytesEach h).2 predicate addLast rfl
  exact (hbegins.consumes hd room).andThen _

/-! ### Composites return -/

section Composites

variable {room : Nat} (hfits : root.Fits) (hsingle : root.pending = [whole])
  (hreads : root.ReadsPending)
  (hruns : ∀ {α : Type} (d : Decoder α), root.Runs limit d → d.Returns)
  (hprogresses : root.Progresses limit)

section Scopes

-- with room for a scope less
variable (hinner : ∀ inner, room = inner + 1 → ∀ r, root.Reached limit inner r →
  (root.composite limit inner r).ReturnsWith fun stack => stack.map Cell.type = r.pending)

include hinner

theorem returns_compositeValue {inner : Nat} (hroom : room = inner + 1) {r : Recipe κ whole}
    (h : root.Reached limit inner r) {type : ValueType κ} (htype : r.pending = [type]) :
    (root.compositeValue limit inner r type).Returns := by
  have hr := hinner inner hroom r h
  rw [htype] at hr
  exact hr.topmost

include hruns

theorem returns_recur {before : Recipe κ whole} {flag : Decoder Bool} {stack : List (Cell κ)}
    (hsingle : root.pending = [whole]) (h : root.Reached limit room (before.recur flag))
    (hyields : (root.composite limit room before).Yields stack) :
    (Decoder.roomed limit room <| .flagged flag whole
        (root.compositeValue limit (room - 1) root whole) stack).ReturnsWith fun cells =>
      cells.map Cell.type = .option whole :: stack.map Cell.type := by
  refine Decoder.ReturnsWith.roomed ?_
  rintro inner rfl
  refine Decoder.returnsWith_flagged (hruns flag (.recur h hyields)) fun htrue => ?_
  exact returns_compositeValue hinner rfl (.again h hyields htrue) hsingle

theorem returns_optional {body : Recipe κ whole} {type : ValueType κ} {flag : Decoder Bool}
    (htype : body.pending = [type]) (h : root.Reached limit room (body.optional type flag)) :
    (root.composite limit room (body.optional type flag)).ReturnsWith fun stack =>
      stack.map Cell.type = [.option type] := by
  rw [composite_optional]
  refine Decoder.ReturnsWith.roomed ?_
  rintro inner rfl
  refine Decoder.returnsWith_flagged (hruns flag (.optional h)) fun htrue => ?_
  exact returns_compositeValue hinner rfl (.inOptional h htrue) htype

include hprogresses

theorem returns_repetition {body : Recipe κ whole} {element result : ValueType κ}
    {bound : Bound element.Carrier} {collector : Collector element.Carrier result.Carrier}
    (htype : body.pending = [element])
    (h : root.Reached limit room (body.repetition element result bound collector)) :
    (root.composite limit room
        (body.repetition element result bound collector)).ReturnsWith fun stack =>
      stack.map Cell.type = [result] := by
  rw [composite_repetition]
  refine Decoder.ReturnsWith.roomed ?_
  rintro inner rfl
  refine (Decoder.Returns.anything ?_).map _ fun _ _ => rfl
  refine Decoder.Returns.repeated ?_ ?_ ?_ collector
  · refine Decoder.returns_target ?_
    rintro size rfl
    exact hruns size (.repetition h)
  · intro target htarget hne
    exact (returns_compositeValue hinner rfl (.inRepetition h htarget hne) htype).afresh
  · rintro predicate addLast rfl
    exact (hprogresses inner body element result predicate addLast collector h).consumesEach

end Scopes

include hfits hsingle hreads hruns hprogresses

/-- A part returns with values of its types if everything inside its scopes does. -/
theorem returns_of_inner
    (hinner : ∀ inner, room = inner + 1 → ∀ r, root.Reached limit inner r →
      (root.composite limit inner r).ReturnsWith fun stack => stack.map Cell.type = r.pending)
    {r : Recipe κ whole} (h : root.Reached limit room r) :
    (root.composite limit room r).ReturnsWith fun stack => stack.map Cell.type = r.pending := by
  induction r with
  | first type decoder =>
      rw [composite_first]
      refine (Decoder.returnsWith_constant (Q := (· = [])) rfl).andThen ?_
      rintro _ rfl
      refine Action.returns_composite trivial trivial ?_
      intro α d hd
      cases hd
      exact hruns decoder (.first h)
  | act before action ih =>
      rw [composite_act, pending_act]
      refine (ih h.beforeAct).yields.andThen ?_
      rintro stack ⟨htypes, hyields⟩
      rw [← htypes]
      have hpart := h.fits hfits
      have hreading := h.readsPending hreads
      refine Action.returns_composite (htypes ▸ hpart.2) (htypes ▸ hreading.2) ?_
      exact fun d hd => hruns d (.act h hyields hd)
  | skip before n ih =>
      rw [composite_skip]
      refine (ih h.beforeSkip).andThen ?_
      intro stack htypes
      exact (Decoder.returns_skipBytes n).anything.map _ fun _ _ => htypes
  | recur before flag ih =>
      rw [composite_recur]
      refine (ih h.beforeRecur).yields.andThen ?_
      rintro stack ⟨htypes, hyields⟩
      refine (returns_recur hruns hinner hsingle h hyields).mono ?_
      intro cells hcells
      rw [hcells, htypes]
      rfl
  | optional body type flag => exact returns_optional hruns hinner (h.fits hfits).2 h
  | repetition body element result bound collector =>
      exact returns_repetition hruns hprogresses hinner (h.fits hfits).2 h

theorem returns_composite {r : Recipe κ whole} (h : root.Reached limit room r) :
    (root.composite limit room r).ReturnsWith fun stack => stack.map Cell.type = r.pending := by
  induction room generalizing r with
  | zero =>
      refine returns_of_inner hfits hsingle hreads hruns hprogresses ?_ h
      rintro inner ⟨⟩
  | succ room ih =>
      refine returns_of_inner hfits hsingle hreads hruns hprogresses ?_ h
      rintro inner ⟨⟩ r hr
      exact ih hr

end Composites

end Recipe

/-! ## Programs -/

namespace Decoder

/-- A decoder returns if one does that cannot be told from it, and if it starts again when it is
reset or copied. -/
theorem Bisimulation.returns {α : Type} {a b : Decoder α} {P : a.State → b.State → Prop}
    (h : Bisimulation a b P) (hstart : P a.start b.start) (hreset : ∀ s, a.reset s = a.start)
    (hcopy : ∀ s, a.copy s = a.start) (hb : b.Returns) : a.Returns := by
  have hreachable : ∀ s, a.Reachable s → ∃ t, b.Reachable t ∧ P s t := by
    intro s hs
    induction hs with
    | fresh => exact ⟨b.start, .fresh, hstart⟩
    | decoded hι _ hrun hok ih =>
        obtain ⟨t, ht, hst⟩ := ih
        obtain ⟨bytes, left, hslice⟩ := hrun.exists_on_slice hι
        obtain ⟨run, hrun', hagrees⟩ := h.ends hst hslice
        cases hagrees with
        | reached _ hnext => exact ⟨_, .decoded bounded_slice ht hrun' hok, hnext hok⟩
    | rejected =>
        rw [hreset]
        exact ⟨b.start, .fresh, hstart⟩
    | reset =>
        rw [hreset]
        exact ⟨b.start, .fresh, hstart⟩
    | copied =>
        rw [hcopy]
        exact ⟨b.start, .fresh, hstart⟩
  intro s hs bytes
  obtain ⟨t, ht, hst⟩ := hreachable s hs
  obtain ⟨outcome, next, rest, hrun⟩ := hb t ht bytes
  obtain ⟨run, hrun', hagrees⟩ := h.symm.ends hst hrun
  cases hagrees with
  | reached => exact ⟨_, _, _, hrun'⟩

end Decoder

theorem Program.OfRecipe.returns {whole : ValueType κ} {p : Program κ whole}
    {root : Recipe κ whole} (hp : p.OfRecipe root) (hreads : root.ReadsPending)
    (hruns : ∀ {α : Type} (d : Decoder α), root.Runs p.maxDepth d → d.Returns)
    (hprogresses : root.Progresses p.maxDepth) : p.decoder.Returns := by
  have hcomposite :=
    Recipe.returns_composite hp.fits hp.single hreads hruns hprogresses .whole
  rw [hp.single] at hcomposite
  obtain ⟨P, hbisim, hstart⟩ := hp.exists_bisimulation
  exact hbisim.returns hstart (fun _ => rfl) (fun _ => rfl) hcomposite.topmost.afresh

/-! ## The property -/

namespace Decoder

/-- The decoders that are made from the library's parts, and from decoders of the user's `Own`, in
such a way that every call returns. -/
inductive Terminating (Own : ∀ {α : Type}, Decoder α → Prop) : {α : Type} → Decoder α → Prop
  | own {α : Type} {d : Decoder α} : Own d → Terminating Own d
  | number (α : Type) [FixedWidth α] (order : ByteOrder) : Terminating Own (number α order)
  | bool : Terminating Own bool
  | constant {α : Type} (value : α) : Terminating Own (constant value)
  | reject {α : Type} (error : DecodeError) : Terminating Own (reject error : Decoder α)
  | bytes (n : Nat) : Terminating Own (bytes n)
  | terminated {marker : Bytes} {d : Decoder Bytes} :
      terminated? marker = .ok d → Terminating Own d
  | skipBytes (n : Nat) : Terminating Own (skipBytes n)
  | map {α β : Type} {d : Decoder α} (f : α → β) : Terminating Own d → Terminating Own (d.map f)
  | tryMap {α β : Type} {d : Decoder α} (f : α → Except DecodeError β) :
      Terminating Own d → Terminating Own (d.tryMap f)
  | andThen {α β : Type} {d : Decoder α} {f : α → Decoder β} :
      Terminating Own d → (∀ value, d.Yields value → Terminating Own (f value)) →
      Terminating Own (d.andThen f)
  | both {α β : Type} {a : Decoder α} {b : Decoder β} :
      Terminating Own a → (∀ left, a.Yields left → Terminating Own b) →
      Terminating Own (a.both b)
  | skipAfter {α : Type} {d : Decoder α} (n : Nat) :
      Terminating Own d → Terminating Own (d.skipAfter n)
  | repeated {ε ρ : Type} {d : Decoder ε} {bound : Bound ε} (c : Collector ε ρ) :
      (∀ size, bound = .prefixed size → Terminating Own size) →
      (∀ target, bound.target.Yields target → target ≠ some 0 → Terminating Own d) →
      (∀ predicate addLast, bound = .whileHolds predicate addLast → d.ConsumesEach) →
      Terminating Own (d.repeated bound c)
  | composed {κ : Type} [Atom κ] {whole : ValueType κ} {r : Recipe κ whole} {maxDepth : Nat}
      {p : Program κ whole} :
      r.Accepted → r.ReadsPending → r.assemble maxDepth = .ok p →
      (∀ {α : Type} (d : Decoder α), r.Runs p.maxDepth d → Terminating Own d) →
      r.Progresses p.maxDepth → Terminating Own p.decoder

variable {Own : ∀ {α : Type}, Decoder α → Prop}
  (hown : ∀ {α : Type} (d : Decoder α), Own d → d.Returns)

include hown

theorem Terminating.returns {α : Type} {d : Decoder α} (h : d.Terminating Own) : d.Returns := by
  induction h with
  | own hd => exact hown _ hd
  | number α order => exact returns_number α order
  | bool => exact returns_bool
  | constant value => exact (returnsWith_constant (Q := fun _ => True) trivial).returns
  | reject error => exact returns_reject error
  | bytes n => exact returns_bytes n
  | @terminated marker d h =>
      unfold terminated? at h
      split at h
      next => cases h
      next => cases h; exact returns_terminated marker
  | skipBytes n => exact returns_skipBytes n
  | map f _ ih => exact ih.map f
  | tryMap f _ ih => exact ih.tryMap f
  | andThen _ _ ih ihf => exact ih.andThen ihf
  | both _ _ ih ihb => exact ih.both ihb
  | skipAfter n _ ih => exact ih.skipAfter n
  | repeated c _ _ hwhile ihsize ih => exact Returns.repeated (returns_target ihsize) ih hwhile c
  | composed haccepted hreads hp _ hprogresses ih =>
      exact (haccepted.ofRecipe hp).returns hreads ih hprogresses

/-- A call on a slice comes to an outcome within finitely many steps, whatever calls, resets and
copies came before, if rejections were followed by resets; the calls may have been on any sources that
give no more than they are asked for.  Nothing has to take a byte but the elements of repetitions of
unknown length. -/
theorem Terminating.exists_outcome {α : Type} {d : Decoder α} (h : d.Terminating Own)
    {state : d.State} (hstate : d.Reachable state) (bytes : Bytes) :
    ∃ budget outcome next rest, d.run budget state bytes = .reached outcome next rest := by
  obtain ⟨outcome, next, rest, -, budget, hrun⟩ := h.returns hown state hstate bytes
  exact ⟨budget, outcome, next, rest, hrun⟩

end Decoder

/-- So many of one list, and of those behind it. -/
def sumOf (n : Nat) (more : Option Nat) : Nat := n + more.getD 0

/-- Counts the bytes in front of a zero, then those in front of the next one, and so on: the flag in
front of each list but the first takes no byte and is always set. -/
def Recipe.endless : Recipe Empty .size :=
  (first .uint8 (.number UInt8 .big)).repetition .uint8 .size
      (.whileHolds (fun b : UInt8 => b != 0) false) .counting
    |>.recur (.constant true)
    |>.act (.reduce 2 .size (.row [.size, .option .size] fun (n, more, _) => sumOf n more))

theorem Recipe.endless_accepted : endless.Accepted :=
  .reduceRow [.size, .option .size] .size (fun (n, more, _) => sumOf n more)
    (.recur (.constant true)
      (.repeated .uint8 .size (.whileHolds (fun b : UInt8 => b != 0) false) .counting
        (.first .uint8 (.number UInt8 .big)) rfl)) rfl

/-- It ends all the same, where no further scope may be active, and so does every call; here those
behind one that a stalling stream has cut short. -/
theorem Recipe.endless_ends :
    ∃ p, endless.assemble 2 = .ok p ∧ p.decoder.Terminating (fun _ => False) ∧
      ∃ waiting rest, p.decoder.run 40 p.decoder.start
          (Reader.ofScript [.data [7, 0, 4], .stalled]) = .reached .pending waiting rest ∧
        (∃ last, p.decoder.run 40 waiting ([0, 9] : Bytes) =
          .reached (.failed (.depthLimit 2)) last [9]) ∧
        ∀ bytes : Bytes, ∃ budget outcome next rest,
          p.decoder.run budget waiting bytes = .reached outcome next rest := by
  obtain ⟨p, hp, waiting, rest, hcut, hrun⟩ : ∃ p, endless.assemble 2 = .ok p ∧
      ∃ waiting rest, p.decoder.run 40 p.decoder.start
          (Reader.ofScript [.data [7, 0, 4], .stalled]) = .reached .pending waiting rest ∧
        ∃ last, p.decoder.run 40 waiting ([0, 9] : Bytes) =
          .reached (.failed (.depthLimit 2)) last [9] := ⟨_, rfl, _, _, rfl, _, rfl⟩
  have hbytes : endless.BytesEach := by
    refine ⟨trivial, ?_⟩
    rintro predicate addLast ⟨⟩
    exact ⟨UInt8, .number UInt8 .big, .first, Decoder.consumes_of_asks ⟨1, _, rfl, Nat.one_pos⟩⟩
  have hruns : ∀ {α : Type} (d : Decoder α), endless.Runs p.maxDepth d →
      d.Terminating fun _ => False := by
    intro α d hd
    cases hd.uses with
    | beforeAct hd =>
      cases hd with
      | recur => exact .constant true
      | beforeRecur hd =>
        cases hd with
        | inRepetition hd =>
          cases hd with
          | first => exact .number UInt8 .big
  have hterminating : p.decoder.Terminating fun _ => False :=
    .composed endless_accepted ⟨trivial, Reading.reads_row _ _⟩ hp hruns (hbytes.progresses _)
  have hwaiting : p.decoder.Reachable waiting :=
    .decoded (Reader.delivery.bounded fun _ => trivial) .fresh ⟨by simp, 40, hcut⟩ (by simp)
  exact ⟨p, hp, hterminating, waiting, rest, hcut, hrun,
    hterminating.exists_outcome (fun _ h => h.elim) hwaiting⟩

end Piecemeal
