/-
# Parts that are interchangeable

What a recipe decodes is put together from what its parts decode.  So in the place of one beginning
of a recipe there can be another one that decodes the same stacks, whatever is added to it, and
however often recursions come back to it.  Let `Swap` be what is put in the place of what, and
`Alongside Swap` the recipes that differ in nothing else.  Then `Alongside.resembles` is

    (∀ b b', Swap b b' → Interchange E b b') → Alongside Swap root root' → Alongside Swap r r'
      → Resembles E (root.composite limit room r) (root'.composite limit' room' r')

and so the programs of `root` and `root'` cannot be told apart, `Program.OfRecipe.shows_iff`.

  * The beginnings are compared as composites.  A recursion in what stands before them leads to a
    nested instance of the whole recipe, and so the comparison is by induction on the room that is
    left for scopes.  At each stage it is assumed of `Interchange` that equal parts decode alike,
    although the recipes that are nested in them differ.
  * The limits of the two need not be the same.  `SameLimit` asks for equal limits and room, or for
    both errors to be in `E`; in the latter case the programs are the same until one of them gives
    up, `Program.OfRecipe.sameUnless`.
-/
import Piecemeal.Proofs.Additions
import Piecemeal.Proofs.Adequacy

namespace Piecemeal

variable {κ : Type} [Atom κ] {E : DecodeError → Prop} {limit limit' room room' : Nat}

/-- Both have the same limit, and the same room, or it is no matter what comes of exceeding them. -/
def SameLimit (E : DecodeError → Prop) (limit room limit' room' : Nat) : Prop :=
  (limit = limit' ∧ room = room') ∨ E (.depthLimit limit) ∧ E (.depthLimit limit')

namespace Decoder

variable {α : Type} {d d' : Decoder α}

theorem Resembles.roomed (hlimit : SameLimit E limit room limit' room')
    (h : ∀ inner inner', room = inner + 1 → room' = inner' + 1 →
      SameLimit E limit inner limit' inner' → Resembles E d d') :
    Resembles E (.roomed limit room d) (.roomed limit' room' d') := by
  cases room with
  | zero =>
      rcases hlimit with ⟨rfl, rfl⟩ | ⟨hup, -⟩
      · exact .refl _
      · exact enacts_of_tracks (.first ⟨(), _, (), .here _, rfl, hup⟩)
  | succ inner =>
      cases room' with
      | zero =>
          rcases hlimit with ⟨-, hroom⟩ | ⟨-, hup⟩
          · cases hroom
          · exact enacts_of_tracks (.second ⟨(), _, (), .here _, rfl, hup⟩)
      | succ inner' =>
          refine h inner inner' rfl rfl ?_
          rcases hlimit with ⟨rfl, hroom⟩ | hups
          · exact .inl ⟨rfl, Nat.succ.inj hroom⟩
          · exact .inr hups

theorem Resembles.flagged (flag : Decoder Bool) {type : ValueType κ} {d d' : Decoder type.Carrier}
    (h : Resembles E d d') (stack : List (Cell κ)) :
    Resembles E (.flagged flag type d stack) (.flagged flag type d' stack) := by
  refine (Resembles.refl flag).andThen ?_
  intro present
  cases present with
  | true => exact h.map _
  | false => exact .refl _

end Decoder

namespace Recipe

variable {whole : ValueType κ} {root root' r r' : Recipe κ whole}
  {Swap Swap' : Recipe κ whole → Recipe κ whole → Prop}

theorem resembles_compositeValue
    (h : Decoder.Resembles E (root.composite limit room r) (root'.composite limit' room' r'))
    (type : ValueType κ) : Decoder.Resembles E (root.compositeValue limit room r type)
      (root'.compositeValue limit' room' r' type) :=
  h.andThen fun _ => .refl _

/-- The two decode the same stacks, if equal parts before them do. -/
def Interchange (E : DecodeError → Prop) (b b' : Recipe κ whole) : Prop :=
  ∀ (root root' : Recipe κ whole) (limit room limit' room' : Nat),
    SameLimit E limit room limit' room' →
    (∀ r, Decoder.Resembles E (root.composite limit room r) (root'.composite limit' room' r)) →
    Decoder.Resembles E (root.composite limit room b) (root'.composite limit' room' b')

namespace Alongside

/-- Inside scopes, parts side by side decode the same stacks. -/
def InnerResemble (E : DecodeError → Prop) (Swap : Recipe κ whole → Recipe κ whole → Prop)
    (root root' : Recipe κ whole) (limit room limit' room' : Nat) : Prop :=
  ∀ inner inner', room = inner + 1 → room' = inner' + 1 → SameLimit E limit inner limit' inner' →
    ∀ body body', Alongside Swap body body' →
      Decoder.Resembles E (root.composite limit inner body) (root'.composite limit' inner' body')

/-- Parts side by side decode the same stacks, if what is swapped in them does. -/
theorem resembles_of_swapped (hroot : Alongside Swap' root root')
    (hlimit : SameLimit E limit room limit' room')
    (hinner : InnerResemble E Swap' root root' limit room limit' room')
    (hle : ∀ b b', Swap b b' → Swap' b b')
    (hswap : ∀ b b', Swap b b' →
      Decoder.Resembles E (root.composite limit room b) (root'.composite limit' room' b'))
    (h : Alongside Swap r r') :
    Decoder.Resembles E (root.composite limit room r) (root'.composite limit' room' r') := by
  have hvalue : ∀ inner inner', room = inner + 1 → room' = inner' + 1 →
      SameLimit E limit inner limit' inner' → ∀ body body' type, Alongside Swap' body body' →
      Decoder.Resembles E (root.compositeValue limit (room - 1) body type)
        (root'.compositeValue limit' (room' - 1) body' type) := by
    rintro inner inner' rfl rfl hlimit body body' type hbody
    exact resembles_compositeValue (hinner inner inner' rfl rfl hlimit body body' hbody) type
  induction h with
  | swap h => exact hswap _ _ h
  | first type decoder =>
      rw [composite_first, composite_first]
      exact .refl _
  | act action _ ih =>
      rw [composite_act, composite_act]
      exact ih.andThen fun _ => .refl _
  | skip n _ ih =>
      rw [composite_skip, composite_skip]
      exact ih.andThen fun _ => .refl _
  | recur flag _ ih =>
      rw [composite_recur, composite_recur]
      refine ih.andThen fun stack => .roomed hlimit ?_
      intro inner inner' hroom hroom' hlimit
      exact .flagged flag (hvalue inner inner' hroom hroom' hlimit root root' whole hroot) stack
  | optional type flag hbody _ =>
      rw [composite_optional, composite_optional]
      refine .roomed hlimit ?_
      intro inner inner' hroom hroom' hlimit
      exact .flagged flag (hvalue inner inner' hroom hroom' hlimit _ _ type (hbody.mono hle)) []
  | repetition element result bound collector hbody _ =>
      rw [composite_repetition, composite_repetition]
      refine .roomed hlimit ?_
      intro inner inner' hroom hroom' hlimit
      have helement := hvalue inner inner' hroom hroom' hlimit _ _ element (hbody.mono hle)
      exact (helement.repeated bound collector).map _

section Interchange

variable (hswap : ∀ b b', Swap b b' → Interchange E b b') (hroot : Alongside Swap root root')

include hswap hroot

theorem resembles_of_inner (hlimit : SameLimit E limit room limit' room')
    (hinner : InnerResemble E Swap root root' limit room limit' room') (h : Alongside Swap r r') :
    Decoder.Resembles E (root.composite limit room r) (root'.composite limit' room' r') := by
  -- nothing is swapped in what stands before a swapped part
  have hsame : ∀ r, Decoder.Resembles E (root.composite limit room r)
      (root'.composite limit' room' r) := by
    intro r
    have hr : Alongside (fun _ _ => False) r r := .refl r
    exact resembles_of_swapped hroot hlimit hinner nofun nofun hr
  exact resembles_of_swapped hroot hlimit hinner (fun _ _ h => h)
    (fun b b' hb => hswap b b' hb root root' _ _ _ _ hlimit hsame) h

/-- Recipes side by side decode the same stacks, if what is swapped in them is interchangeable. -/
theorem resembles (hlimit : SameLimit E limit room limit' room') (h : Alongside Swap r r') :
    Decoder.Resembles E (root.composite limit room r) (root'.composite limit' room' r') := by
  induction room generalizing room' r r' with
  | zero => exact resembles_of_inner hswap hroot hlimit nofun h
  | succ room ih =>
      refine resembles_of_inner hswap hroot hlimit ?_ h
      rintro inner inner' hroom - hlimit body body' hbody
      cases hroom
      exact ih hlimit hbody

end Interchange

end Alongside

end Recipe

/-! ## Programs -/

section Programs

variable {whole : ValueType κ} {root root' : Recipe κ whole} {p p' : Program κ whole}
  (hp : p.OfRecipe root) (hp' : p'.OfRecipe root')

include hp hp'

theorem Program.OfRecipe.sameUnless
    (h : Decoder.Resembles E (root.compositeValue p.maxDepth p.maxDepth root whole)
      (root'.compositeValue p'.maxDepth p'.maxDepth root' whole)) :
    p.decoder.SameUnless E p'.decoder where
  sameUntil {slices ends ends'} hshows hshows' :=
    h.sameUnless.sameUntil ((hp.shows_iff_composite slices ends).1 hshows)
      ((hp'.shows_iff_composite slices ends').1 hshows')
  second {slices ends} hshows hE := by
    obtain ⟨ends', hends'⟩ := h.sameUnless.second ((hp.shows_iff_composite slices ends).1 hshows) hE
    exact ⟨ends', (hp'.shows_iff_composite slices ends').2 hends'⟩
  first {slices ends'} hshows hE := by
    obtain ⟨ends, hends⟩ := h.sameUnless.first ((hp'.shows_iff_composite slices ends').1 hshows) hE
    exact ⟨ends, (hp.shows_iff_composite slices ends).2 hends⟩

theorem Program.OfRecipe.shows_iff
    (h : Decoder.Resembles (fun _ => False) (root.compositeValue p.maxDepth p.maxDepth root whole)
      (root'.compositeValue p'.maxDepth p'.maxDepth root' whole)) (slices : List Bytes)
    (ends : List (Run Unit Bytes whole.Carrier)) :
    p.decoder.Shows p.decoder.start slices ends ↔
      p'.decoder.Shows p'.decoder.start slices ends :=
  (hp.shows_iff_composite slices ends).trans
    ((h.shows_iff slices ends).trans (hp'.shows_iff_composite slices ends).symm)

end Programs

end Piecemeal
