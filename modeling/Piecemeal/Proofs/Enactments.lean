/-
# Decoders that enact others

`a.Enacts E b after s t`: from `s` on the decoder `a` does what `b` does from `t` on, until `b`
answers a value, and is then in a state that is right `after` this value.  In between `a` need not
be a decoder that answers, so what it does can be told part by part:

    a.Enacts E b after s b.start
      → (∀ value s, after value s → a.Enacts E (f value) after' s (f value).start)
      → a.Enacts E (b.andThen f) after' s (b.andThen f).start               (`Enacts.andThen`)

and what goes round and enacts an element each time enacts a repetition, `enacts_elements`,
provided that it takes a step of its own in every round.

  * The relation is the greatest one that steps allow.  `Tracks` says what comes next: a step that
    both take, an answer of `b`, or an error in `E` with which one of the two gives up; both may go
    on for finitely many steps without the source before that.  `Enacts.tracks` opens the relation
    and `enacts_of_tracks` closes it again, so no invariant has to be given by hand.
  * A decoder `Hosts` a guest if it does what the guest does as long as the guest is at work.  If
    the guest enacts something, so does the host, `Enacts.hosted`.  Every adapter is the host of
    what it is applied to, and the machine is the host of an action in flight.
  * `Resembles E a b` is the case in which `a` answers the value, too.  It is a congruence for
    `map`, `andThen`, `afresh` and `repeated`, and what resembles cannot be told apart by calls
    until one of the two gives up, `Resembles.sameUnless`.
  * `d.afresh` is made anew for each value.  What enacts `d` and concludes with its value is
    bisimilar to `d.afresh`, `bisimulation_afresh`: this is how programs, which are used for value
    after value, come to be compared with composites, which are not.
-/
import Piecemeal.Decoder.Repeat
import Piecemeal.Proofs.Bisimulation

namespace Piecemeal.Decoder

variable {α β γ δ : Type}

/-! ## Hosts -/

/-- In these states the decoder does what its guest does, until the guest answers a value. -/
structure Hosts (d : Decoder β) (guest : Decoder α) (wrap : guest.State → d.State) : Prop where
  request {state : guest.State} {n : Nat} {resume : Bytes → guest.State} :
    (guest.step state).request? = some (n, resume) →
      (d.step (wrap state)).request? = some (n, fun bytes => wrap (resume bytes))
  tick {state next : guest.State} {events : List Event} :
    guest.step state = .tick next events → d.step (wrap state) = .tick (wrap next) events
  fail {state next : guest.State} {error : DecodeError} : guest.step state = .fail error next →
    ∃ last next', d.Idles (wrap state) last ∧ d.step last = .fail error next'
  broken {state : guest.State} {misuse : Misuse} :
    guest.step state = .broken misuse → d.step (wrap state) = .broken misuse

section Hosts

variable {d : Decoder β} {guest : Decoder α} {wrap : guest.State → d.State}

theorem hosts_of_graft {finished : α → guest.State → Step d.State β}
    {rejected : DecodeError → guest.State → Step d.State β}
    (hstep : ∀ state, d.step (wrap state) = (guest.step state).graft wrap finished rejected)
    (hrejected : ∀ state error next, d.step (wrap state) = rejected error next →
      ∃ last next', d.Idles (wrap state) last ∧ d.step last = .fail error next') :
    d.Hosts guest wrap where
  request h := by rw [hstep]; exact Step.request?_graft h ..
  tick h := by rw [hstep, h]; rfl
  fail {state next error} h := hrejected state error next (by rw [hstep, h]; rfl)
  broken h := by rw [hstep, h]; rfl

theorem hosts_of_embed {spoiled : guest.State → d.State}
    {finished : α → guest.State → Step d.State β}
    (hstep : ∀ state, d.step (wrap state) = (guest.step state).embed wrap spoiled finished) :
    d.Hosts guest wrap :=
  hosts_of_graft (fun state => (hstep state).trans (Step.embed_eq_graft ..))
    fun _ _ _ h => ⟨_, _, .here _, h⟩

theorem Hosts.refl (d : Decoder α) : d.Hosts d fun state => state where
  request h := h
  tick h := h
  fail h := ⟨_, _, .here _, h⟩
  broken h := h

theorem Hosts.idles (h : d.Hosts guest wrap) {state next : guest.State}
    (hidles : guest.Idles state next) : d.Idles (wrap state) (wrap next) := by
  induction hidles with
  | here state => exact .here _
  | tick hs _ ih => exact .tick (h.tick hs) ih

theorem Hosts.trans {e : Decoder γ} {wrap' : d.State → e.State} (h : d.Hosts guest wrap)
    (h' : e.Hosts d wrap') : e.Hosts guest fun state => wrap' (wrap state) where
  request hreq := h'.request (h.request hreq)
  tick hs := h'.tick (h.tick hs)
  fail hs := by
    obtain ⟨last, next, hidles, hfail⟩ := h.fail hs
    obtain ⟨last', next', hidles', hfail'⟩ := h'.fail hfail
    exact ⟨last', next', (h'.idles hidles).trans hidles', hfail'⟩
  broken hs := h'.broken (h.broken hs)

theorem Hosts.givesUp (h : d.Hosts guest wrap) {E : DecodeError → Prop} {state : guest.State}
    (hup : guest.GivesUp E state) : d.GivesUp E (wrap state) := by
  obtain ⟨last, error, next, hidles, hfail, herror⟩ := hup
  obtain ⟨last', next', hidles', hfail'⟩ := h.fail hfail
  exact ⟨last', error, next', (h.idles hidles).trans hidles', hfail', herror⟩

theorem GivesUp.of_idles {d : Decoder α} {E : DecodeError → Prop} {s t : d.State}
    (h : d.GivesUp E t) (hidles : d.Idles s t) : d.GivesUp E s := by
  obtain ⟨last, error, next, hidles', hfail, herror⟩ := h
  exact ⟨last, error, next, hidles.trans hidles', hfail, herror⟩

end Hosts

theorem hosts_map (f : α → β) (d : Decoder α) : (d.map f).Hosts d fun state => state :=
  hosts_of_embed fun _ => rfl

/-- A decoder does what it does with its values transformed. -/
theorem hosts_untransformed (f : α → β) (d : Decoder α) :
    d.Hosts (d.map f) fun state => state where
  request {state n resume} h := by
    simp only [Decoder.map] at h
    cases hs : d.step state <;> rw [hs] at h <;> cases h <;> rfl
  tick {state next events} h := by
    simp only [Decoder.map] at h
    cases hs : d.step state <;> rw [hs] at h <;> cases h
    rfl
  fail {state next error} h := by
    simp only [Decoder.map] at h
    cases hs : d.step state <;> rw [hs] at h <;> cases h
    exact ⟨_, _, .here _, hs⟩
  broken {state misuse} h := by
    simp only [Decoder.map] at h
    cases hs : d.step state <;> rw [hs] at h <;> cases h
    rfl

theorem hosts_first (d : Decoder α) (f : α → Decoder β) : (d.andThen f).Hosts d (⟨·, none⟩) :=
  hosts_of_embed fun _ => rfl

theorem hosts_second (d : Decoder α) (f : α → Decoder β) (first : d.State) (value : α) :
    (d.andThen f).Hosts (f value) fun second => ⟨first, some ⟨value, second⟩⟩ :=
  hosts_of_embed fun _ => rfl

theorem hosts_target (d : Decoder α) (bound : Bound α) (c : Collector α β) (element : d.State) :
    (d.repeated bound c).Hosts bound.target (⟨·, element, none⟩) :=
  hosts_of_embed fun _ => rfl

theorem step_missing (d : Decoder α) (bound : Bound α) (c : Collector α β)
    (target : bound.target.State) {tally : Tally c.Container} (hfull : tally.isFull = false)
    (state : d.State) : (d.repeated bound c).step ⟨target, state, some tally⟩ =
      (d.step state).embed (⟨target, ·, some tally⟩) (⟨target, ·, some tally⟩)
        fun value element => if bound.endsAt value then
            .done ((if bound.keepsLast then tally.add c value else tally).finish c)
              ⟨target, element, none⟩
          else .tick ⟨target, element, some (tally.add c value)⟩ [] := by
  simp only [repeated, hfull, Bool.false_eq_true, if_false]

theorem hosts_element (d : Decoder α) (bound : Bound α) (c : Collector α β)
    (target : bound.target.State) {tally : Tally c.Container} (hfull : tally.isFull = false) :
    (d.repeated bound c).Hosts d (⟨target, ·, some tally⟩) :=
  hosts_of_embed (step_missing d bound c target hfull)

/-! ### Where the guest answers -/

theorem step_map {d : Decoder α} (f : α → β) {state next : d.State} {value : α}
    (h : d.step state = .done value next) : (d.map f).step state = .done (f value) next := by
  simp only [Decoder.map, h]
  rfl

theorem step_first {d : Decoder α} (f : α → Decoder β) {state next : d.State} {value : α}
    (h : d.step state = .done value next) : (d.andThen f).step ⟨state, none⟩ =
      .tick ⟨next, some ⟨value, (f value).start⟩⟩ (f value).startEvents := by
  simp only [andThen, h]
  rfl

theorem step_second {d : Decoder α} {f : α → Decoder β} (first : d.State) {value : α}
    {state next : (f value).State} {result : β} (h : (f value).step state = .done result next) :
    (d.andThen f).step ⟨first, some ⟨value, state⟩⟩ = .done result ⟨first, none⟩ := by
  simp only [andThen, h]
  rfl

theorem step_target {d : Decoder α} {bound : Bound α} (c : Collector α β) (element : d.State)
    {state next : bound.target.State} {n : Option Nat}
    (h : bound.target.step state = .done n next) : (d.repeated bound c).step ⟨state, element, none⟩ =
      .tick ⟨next, element, some (.start c n)⟩ [] := by
  simp only [repeated, h]
  rfl

theorem step_full {d : Decoder α} {bound : Bound α} {c : Collector α β}
    (target : bound.target.State) (element : d.State) {tally : Tally c.Container}
    (hfull : tally.isFull = true) : (d.repeated bound c).step ⟨target, element, some tally⟩ =
      .done (tally.finish c) ⟨target, element, none⟩ := by
  simp only [repeated, hfull, if_true]

theorem step_element {d : Decoder α} {bound : Bound α} {c : Collector α β}
    (target : bound.target.State) {tally : Tally c.Container} (hfull : tally.isFull = false)
    {state next : d.State} {value : α} (h : d.step state = .done value next) :
    (d.repeated bound c).step ⟨target, state, some tally⟩ =
      if bound.endsAt value then
        .done ((if bound.keepsLast then tally.add c value else tally).finish c)
          ⟨target, next, none⟩
      else .tick ⟨target, next, some (tally.add c value)⟩ [] := by
  rw [step_missing d bound c target hfull, h]
  rfl

/-! ## Enacting -/

section Enacts

variable {E : DecodeError → Prop} {a : Decoder α} {b : Decoder β} {after : β → a.State → Prop}

/-- Without the source both decoders come to steps that agree, and lead to states related by `R`, or
`b` to one that answers a value, and `a` to a state that is right after it.  Or one of them gives up.
-/
inductive Tracks (E : DecodeError → Prop) (a : Decoder α) (b : Decoder β)
    (after : β → a.State → Prop) (R : a.State → b.State → Prop) (s : a.State) (t : b.State) : Prop
  | goes {s' : a.State} {t' : b.State} : a.Idles s s' → b.Idles t t' →
      (a.step s').Agrees (fun _ _ => False) R (fun _ _ => False) (b.step t') →
      Tracks E a b after R s t
  | answers {s' : a.State} {t' last : b.State} {value : β} : a.Idles s s' → b.Idles t t' →
      b.step t' = .done value last → after value s' → Tracks E a b after R s t
  | first : a.GivesUp E s → Tracks E a b after R s t
  | second : b.GivesUp E t → Tracks E a b after R s t

/-- From `s` on `a` does what `b` does from `t` on, and is in a state that is right `after` the value
that `b` answers. -/
def Enacts (E : DecodeError → Prop) (a : Decoder α) (b : Decoder β)
    (after : β → a.State → Prop) (s : a.State) (t : b.State) : Prop :=
  ∃ R : a.State → b.State → Prop, R s t ∧ ∀ s t, R s t → Tracks E a b after R s t

theorem Tracks.mono {R R' : a.State → b.State → Prop} {s : a.State} {t : b.State}
    (h : Tracks E a b after R s t) (hR : ∀ s t, R s t → R' s t) : Tracks E a b after R' s t := by
  cases h with
  | goes hs ht hagrees => exact .goes hs ht (hagrees.mono (fun _ _ h => h) hR fun _ _ h => h)
  | answers hs ht hdone hafter => exact .answers hs ht hdone hafter
  | first hup => exact .first hup
  | second hup => exact .second hup

theorem Tracks.of_idles {R : a.State → b.State → Prop} {s s' : a.State} {t t' : b.State}
    (h : Tracks E a b after R s' t') (hs : a.Idles s s') (ht : b.Idles t t') :
    Tracks E a b after R s t := by
  cases h with
  | goes hs' ht' hagrees => exact .goes (hs.trans hs') (ht.trans ht') hagrees
  | answers hs' ht' hdone hafter => exact .answers (hs.trans hs') (ht.trans ht') hdone hafter
  | first hup => exact .first (hup.of_idles hs)
  | second hup => exact .second (hup.of_idles ht)

theorem Enacts.tracks {s : a.State} {t : b.State} (h : Enacts E a b after s t) :
    Tracks E a b after (Enacts E a b after) s t := by
  obtain ⟨R, hR, hstep⟩ := h
  exact (hstep s t hR).mono fun s t hst => ⟨R, hst, hstep⟩

/-- It is enough to look at what follows up to the next step that both take. -/
theorem enacts_of_tracks {s : a.State} {t : b.State}
    (h : Tracks E a b after (Enacts E a b after) s t) : Enacts E a b after s t :=
  ⟨Tracks E a b after (Enacts E a b after), h, fun _ _ hst => hst.mono fun _ _ h => h.tracks⟩

theorem Enacts.of_idles {s s' : a.State} {t t' : b.State} (h : Enacts E a b after s' t')
    (hs : a.Idles s s') (ht : b.Idles t t') : Enacts E a b after s t :=
  enacts_of_tracks (h.tracks.of_idles hs ht)

theorem enacts_of_done {s : a.State} {t last : b.State} {value : β}
    (hdone : b.step t = .done value last) (h : after value s) : Enacts E a b after s t :=
  enacts_of_tracks (.answers (.here s) (.here t) hdone h)

/-- A step that `a` takes on its own is no matter, if no value has been answered in front of it. -/
theorem Enacts.of_tick {s next : a.State} {t : b.State} (h : Enacts E a b after s t)
    {events : List Event} (hs : a.step s = .tick next events)
    (hafter : ∀ value, ¬ after value s) : Enacts E a b after next t := by
  refine enacts_of_tracks ?_
  cases h.tracks with
  | goes hidles hidles' hagrees =>
      cases hidles with
      | here =>
          rw [hs] at hagrees
          generalize hy : b.step _ = y at hagrees
          cases hagrees with
          | request hreq => cases hreq
          | tick events events' hnext =>
              exact hnext.tracks.of_idles (.here next) (hidles'.trans (.single hy))
      | tick hs' hidles =>
          cases hs.symm.trans hs'
          exact .goes hidles hidles' hagrees
  | answers hidles hidles' hdone hvalue =>
      cases hidles with
      | here => exact absurd hvalue (hafter _)
      | tick hs' hidles =>
          cases hs.symm.trans hs'
          exact .answers hidles hidles' hdone hvalue
  | first hup =>
      obtain ⟨last, error, next', hidles, hfail, herror⟩ := hup
      cases hidles with
      | here => cases hs.symm.trans hfail
      | tick hs' hidles =>
          cases hs.symm.trans hs'
          exact .first ⟨last, error, next', hidles, hfail, herror⟩
  | second hup => exact .second hup

section Hosted

variable {d : Decoder γ} {e : Decoder δ} {wrap : a.State → d.State} {wrap' : b.State → e.State}
    {after' : δ → d.State → Prop} (hd : d.Hosts a wrap) (he : e.Hosts b wrap')

include hd he

theorem Tracks.hosted {R : a.State → b.State → Prop} {R' : d.State → e.State → Prop}
    {s : a.State} {t : b.State} (h : Tracks E a b after R s t)
    (hR : ∀ s t, R s t → R' (wrap s) (wrap' t))
    (hdone : ∀ value s t last, after value s → b.step t = .done value last →
      Tracks E d e after' R' (wrap s) (wrap' t)) : Tracks E d e after' R' (wrap s) (wrap' t) := by
  cases h with
  | @goes s' t' hs ht hagrees =>
      have hs' := hd.idles hs
      have ht' := he.idles ht
      generalize hx : a.step s' = x at hagrees
      generalize hy : b.step t' = y at hagrees
      cases hagrees with
      | request hreq hreq' hnext =>
          subst hx hy
          exact .goes hs' ht' (.request (hd.request hreq) (he.request hreq')
            fun bytes hlen => hR _ _ (hnext bytes hlen))
      | tick events events' hnext =>
          refine .goes hs' ht' ?_
          rw [hd.tick hx, he.tick hy]
          exact .tick events events' (hR _ _ hnext)
      | done hnever => exact hnever.elim
      | fail error =>
          obtain ⟨_, _, hidles, hfail⟩ := hd.fail hx
          obtain ⟨_, _, hidles', hfail'⟩ := he.fail hy
          refine .goes (hs'.trans hidles) (ht'.trans hidles') ?_
          rw [hfail, hfail']
          exact .fail error _ _
      | broken misuse =>
          refine .goes hs' ht' ?_
          rw [hd.broken hx, he.broken hy]
          exact .broken misuse
  | answers hs ht hb hafter =>
      exact (hdone _ _ _ _ hafter hb).of_idles (hd.idles hs) (he.idles ht)
  | first hup => exact .first (hd.givesUp hup)
  | second hup => exact .second (he.givesUp hup)

/-- If a guest enacts another guest, then so do the decoders around them, as long as they are at work.
-/
theorem Enacts.hosted {s : a.State} {t : b.State} (h : Enacts E a b after s t)
    (hdone : ∀ value s t last, after value s → b.step t = .done value last →
      Enacts E d e after' (wrap s) (wrap' t)) : Enacts E d e after' (wrap s) (wrap' t) := by
  refine ⟨fun x y => (∃ s t, x = wrap s ∧ y = wrap' t ∧ Enacts E a b after s t) ∨
    Enacts E d e after' x y, .inl ⟨s, t, rfl, rfl, h⟩, ?_⟩
  rintro x y (⟨s, t, rfl, rfl, h⟩ | h)
  · refine h.tracks.hosted hd he (fun s t hst => .inl ⟨s, t, rfl, rfl, hst⟩) ?_
    intro value s t last hvalue hb
    exact (hdone value s t last hvalue hb).tracks.mono fun _ _ => .inr
  · exact h.tracks.mono fun _ _ => .inr

end Hosted

theorem enacts_self {d : Decoder α} {after : α → d.State → Prop}
    (hafter : ∀ s value last, d.step s = .done value last → after value s) (s : d.State) :
    Enacts E d d after s s := by
  refine ⟨Eq, rfl, ?_⟩
  rintro s _ rfl
  cases hs : d.step s using Step.casesRequest with
  | request step n resume hreq =>
      subst hs
      exact .goes (.here s) (.here s) (.request hreq hreq fun _ _ => rfl)
  | tick state events =>
      refine .goes (.here s) (.here s) ?_
      rw [hs]
      exact .tick events events rfl
  | done value state => exact .answers (.here s) (.here s) hs (hafter _ _ _ hs)
  | fail error state =>
      refine .goes (.here s) (.here s) ?_
      rw [hs]
      exact .fail error _ _
  | broken misuse =>
      refine .goes (.here s) (.here s) ?_
      rw [hs]
      exact .broken misuse

theorem Enacts.mono {after' : β → a.State → Prop} {s : a.State} {t : b.State}
    (h : Enacts E a b after s t)
    (hafter : ∀ value s, after value s → ∃ s', a.Idles s s' ∧ after' value s') :
    Enacts E a b after' s t := by
  refine Enacts.hosted (.refl a) (.refl b) h ?_
  intro value s t last hvalue hdone
  obtain ⟨s', hidles, hvalue'⟩ := hafter value s hvalue
  exact (enacts_of_done hdone hvalue').of_idles hidles (.here t)

theorem Enacts.host {d : Decoder γ} {wrap : a.State → d.State} (hd : d.Hosts a wrap) {s : a.State}
    {t : b.State} (h : Enacts E a b after s t) :
    Enacts E d b (fun value s => ∃ s', s = wrap s' ∧ after value s') (wrap s) t := by
  refine Enacts.hosted hd (.refl b) h ?_
  intro value s t last hvalue hdone
  exact enacts_of_done hdone ⟨s, rfl, hvalue⟩

/-! ### The adapters -/

theorem enacts_constant {value : β} {s : a.State} (h : after value s) (t : Unit) :
    Enacts E a (constant value) after s t := enacts_of_done rfl h

theorem enacts_reject {error : DecodeError} {s s' next : a.State} (hidles : a.Idles s s')
    (hfail : a.step s' = .fail error next) (t : (reject error : Decoder β).State) :
    Enacts E a (reject error) after s t := by
  refine enacts_of_tracks (.goes hidles (.here t) ?_)
  rw [hfail]
  exact .fail error next t

theorem enacts_unmade {misuse : Misuse} {s s' : a.State} (hidles : a.Idles s s')
    (hbroken : a.step s' = .broken misuse) (t : (unmade misuse : Decoder β).State) :
    Enacts E a (unmade misuse) after s t := by
  refine enacts_of_tracks (.goes hidles (.here t) ?_)
  rw [hbroken]
  exact .broken misuse

theorem Enacts.map {f : β → γ} {after' : γ → a.State → Prop} {s : a.State} {t : b.State}
    (h : Enacts E a b after s t)
    (hf : ∀ value s, after value s → ∃ s', a.Idles s s' ∧ after' (f value) s') :
    Enacts E a (b.map f) after' s t := by
  refine Enacts.hosted (.refl a) (hosts_map f b) h ?_
  intro value s t last hvalue hdone
  obtain ⟨s', hidles, hresult⟩ := hf value s hvalue
  exact (enacts_of_done (step_map f hdone) hresult).of_idles hidles (.here _)

theorem Enacts.of_map {f : β → γ} {after : γ → a.State → Prop} {s : a.State} {t : b.State}
    (h : Enacts E a (b.map f) after s t) :
    Enacts E a b (fun value => after (f value)) s t := by
  refine Enacts.hosted (.refl a) (hosts_untransformed f b) h ?_
  intro result s t last hresult hdone
  simp only [Decoder.map] at hdone
  obtain ⟨value, state, ht, hvalue⟩ := Step.exists_of_embed_eq_done hdone
  cases hvalue
  exact enacts_of_done ht hresult

theorem Enacts.andThen {f : β → Decoder γ} {after' : γ → a.State → Prop} {s : a.State}
    {t : b.State} (h : Enacts E a b after s t)
    (hf : ∀ value s, after value s → Enacts E a (f value) after' s (f value).start) :
    Enacts E a (b.andThen f) after' s ⟨t, none⟩ := by
  refine Enacts.hosted (.refl a) (hosts_first b f) h ?_
  intro value s t last hvalue hdone
  refine Enacts.of_idles ?_ (.here s) (.single (step_first f hdone))
  refine Enacts.hosted (.refl a) (hosts_second b f last value) (hf value s hvalue) ?_
  intro result s t _ hresult hdone'
  exact enacts_of_done (step_second last hdone') hresult

theorem enacts_constant_andThen {value : β} {f : β → Decoder γ} {after : γ → a.State → Prop}
    {s : a.State} (h : Enacts E a (f value) after s (f value).start) :
    Enacts E a ((constant value).andThen f) after s ((constant value).andThen f).start := by
  have hvalue : Enacts E a (constant value) (fun value' s' => value' = value ∧ s' = s) s () :=
    enacts_constant ⟨rfl, rfl⟩ ()
  refine hvalue.andThen ?_
  rintro _ _ ⟨rfl, rfl⟩
  exact h

/-- What goes round and enacts an element each time enacts a repetition, if the elements are decoded
each by a decoder that starts anew.  In every round it takes a step of its own. -/
theorem enacts_elements {b : Decoder β} {bound : Bound β} {c : Collector β γ}
    {after : γ → a.State → Prop} (collecting : Tally c.Container → a.State → Prop)
    (hrenews : ∀ t value last, b.step t = .done value last → last = b.start)
    (hfull : ∀ tally s, collecting tally s → tally.isFull = true → after (tally.finish c) s)
    (helement : ∀ tally s, collecting tally s → tally.isFull = false →
      Enacts E a b (fun value s =>
        if bound.endsAt value then
          after ((if bound.keepsLast then tally.add c value else tally).finish c) s
        else ∃ next events, a.step s = .tick next events ∧ collecting (tally.add c value) next)
        s b.start)
    (target : bound.target.State) {tally : Tally c.Container} {s : a.State}
    (h : collecting tally s) :
    Enacts E a (b.repeated bound c) after s ⟨target, b.start, some tally⟩ := by
  let round (tally : Tally c.Container) (value : β) (s : a.State) : Prop :=
    if bound.endsAt value then
      after ((if bound.keepsLast then tally.add c value else tally).finish c) s
    else ∃ next events, a.step s = .tick next events ∧ collecting (tally.add c value) next
  let R : a.State → (b.repeated bound c).State → Prop := fun s u =>
    (∃ tally, collecting tally s ∧ u = ⟨target, b.start, some tally⟩) ∨
      ∃ tally t, tally.isFull = false ∧ Enacts E a b (round tally) s t ∧
        u = ⟨target, t, some tally⟩
  -- inside an element, where the next one is reached by a step that both take
  have hinside : ∀ tally s t, tally.isFull = false → Enacts E a b (round tally) s t →
      Tracks E a (b.repeated bound c) after R s ⟨target, t, some tally⟩ := by
    intro tally s t hroom h
    refine h.tracks.hosted (.refl a) (hosts_element b bound c target hroom)
      (fun s t hst => .inr ⟨tally, t, hroom, hst, rfl⟩) ?_
    intro value s t last hround hdone
    have hstep := step_element target hroom hdone
    cases hends : bound.endsAt value with
    | true =>
        rw [hends, if_pos rfl] at hstep
        simp only [round, hends, if_true] at hround
        exact .answers (.here s) (.here _) hstep hround
    | false =>
        rw [hends, if_neg Bool.false_ne_true] at hstep
        simp only [round, hends, Bool.false_eq_true, if_false] at hround
        obtain ⟨next, events, hs, hcollecting⟩ := hround
        refine .goes (.here s) (.here _) ?_
        rw [hs, hstep, hrenews t value last hdone]
        exact .tick _ _ (.inl ⟨_, hcollecting, rfl⟩)
  refine ⟨R, .inl ⟨tally, h, rfl⟩, ?_⟩
  rintro s _ (⟨tally, hcollecting, rfl⟩ | ⟨tally, t, hroom, h, rfl⟩)
  · cases hroom : tally.isFull with
    | true =>
        exact .answers (.here s) (.here _) (step_full target b.start hroom)
          (hfull tally s hcollecting hroom)
    | false => exact hinside tally s b.start hroom (helement tally s hcollecting hroom)
  · exact hinside tally s t hroom h

theorem enacts_repeated {b : Decoder β} {bound : Bound β} {c : Collector β γ}
    {after : γ → a.State → Prop} {s : a.State}
    (htarget : Enacts E a bound.target (fun n s => ∀ target,
        Enacts E a (b.repeated bound c) after s ⟨target, b.start, some (.start c n)⟩)
      s bound.target.start) :
    Enacts E a (b.repeated bound c) after s (b.repeated bound c).start := by
  refine Enacts.hosted (.refl a) (hosts_target b bound c b.start) htarget ?_
  intro n s t last hnext hdone
  exact (hnext last).of_idles (.here s) (.single (step_target c b.start hdone))

end Enacts

/-! ## Decoders that resemble each other -/

section Resembles

variable {E : DecodeError → Prop}

/-- Made anew, both decoders decode one value alike, unless one of them gives up. -/
def Resembles (E : DecodeError → Prop) (a b : Decoder α) : Prop :=
  Enacts E a b (fun value s => ∃ last, a.step s = .done value last) a.start b.start

theorem Resembles.refl (d : Decoder α) : Resembles E d d :=
  enacts_self (fun _ _ last hdone => ⟨last, hdone⟩) d.start

theorem Resembles.hosted {a b : Decoder α} (h : Resembles E a b) {d : Decoder γ} {e : Decoder δ}
    {wrap : a.State → d.State} {wrap' : b.State → e.State} {after : δ → d.State → Prop}
    (hd : d.Hosts a wrap) (he : e.Hosts b wrap')
    (hdone : ∀ value s t last last', a.step s = .done value last → b.step t = .done value last' →
      Enacts E d e after (wrap s) (wrap' t)) :
    Enacts E d e after (wrap a.start) (wrap' b.start) := by
  refine Enacts.hosted hd he h ?_
  rintro value s t last' ⟨last, hs⟩ ht
  exact hdone value s t last last' hs ht

/-- What chains decoders enacts the first one, and comes to the one that is chosen for its value. -/
theorem Resembles.first {a b : Decoder α} (h : Resembles E a b) (f : α → Decoder β) :
    Enacts E (a.andThen f) b (fun value s => ∃ last, s = ⟨last, some ⟨value, (f value).start⟩⟩)
      (a.andThen f).start b.start := by
  refine h.hosted (hosts_first a f) (.refl b) ?_
  intro value s t last last' hs ht
  exact (enacts_of_done ht ⟨last, rfl⟩).of_idles (.single (step_first f hs)) (.here t)

theorem Resembles.map {a b : Decoder α} (h : Resembles E a b) (f : α → β) :
    Resembles E (a.map f) (b.map f) := by
  refine h.hosted (hosts_map f a) (hosts_map f b) ?_
  intro value s t last last' hs ht
  exact enacts_of_done (step_map f ht) ⟨last, step_map f hs⟩

theorem Resembles.andThen {a b : Decoder α} {f g : α → Decoder β} (h : Resembles E a b)
    (hfg : ∀ value, Resembles E (f value) (g value)) :
    Resembles E (a.andThen f) (b.andThen g) := by
  refine h.hosted (hosts_first a f) (hosts_first b g) ?_
  intro value s t last last' hs ht
  refine Enacts.of_idles ?_ (.single (step_first f hs)) (.single (step_first g ht))
  refine (hfg value).hosted (hosts_second a f last value) (hosts_second b g last' value) ?_
  intro result s t _ _ hs ht
  exact enacts_of_done (step_second last' ht) ⟨_, step_second last hs⟩

/-! ### A decoder for each value -/

/-- Decodes each value by a decoder that is made for it. -/
def afresh (d : Decoder α) : Decoder α := (constant ()).andThen fun _ => d

/-- The decoder in the middle of a value. -/
def within (d : Decoder α) (state : d.State) : d.afresh.State := ⟨(), some ⟨(), state⟩⟩

theorem hosts_within (d : Decoder α) : d.afresh.Hosts d d.within :=
  hosts_second (constant ()) (fun _ => d) () ()

theorem idles_within (d : Decoder α) : d.afresh.Idles d.afresh.start (d.within d.start) :=
  .single rfl

theorem step_within {d : Decoder α} {state next : d.State} {value : α}
    (h : d.step state = .done value next) :
    d.afresh.step (d.within state) = .done value d.afresh.start :=
  step_second (d := constant ()) (f := fun _ => d) () h

theorem renews_afresh {d : Decoder α} (state : d.afresh.State) (value : α) (next : d.afresh.State)
    (h : d.afresh.step state = .done value next) : next = d.afresh.start := by
  obtain ⟨_, _ | ⟨_, second⟩⟩ := state
  · cases h
  · simp only [afresh, andThen] at h
    obtain ⟨_, _, _, hdone⟩ := Step.exists_of_embed_eq_done h
    cases hdone
    rfl

/-- The decoder answers the value here, and is at its start. -/
def Concludes (d : Decoder α) (value : α) (state : d.State) : Prop :=
  d.step state = .done value d.start

variable {a b : Decoder α}

theorem Tracks.meets {P : a.State → b.State → Prop} {s : a.State} {t : b.State}
    (h : Tracks E a b a.Concludes P s t)
    (hdone : ∀ t value last, b.step t = .done value last → P a.start last) :
    Meets a b P s t ∨ a.GivesUp E s ∨ b.GivesUp E t := by
  cases h with
  | goes hs ht hagrees =>
      refine .inl (.now hs ht ?_)
      exact hagrees.mono (fun _ _ h => h.elim) (fun _ _ h => h) fun _ _ h => h.elim
  | @answers s' t' last value hs ht hb hafter =>
      refine .inl (.now hs ht ?_)
      rw [hb, show a.step s' = .done value a.start from hafter]
      exact .done rfl (hdone t' value last hb)
  | first hup => exact .inr (.inl hup)
  | second hup => exact .inr (.inr hup)

/-- What decodes value after value as new decoders do cannot be told from a decoder that is made anew
for each. -/
theorem bisimulation_afresh (h : Enacts E a b a.Concludes a.start b.start) :
    BisimulationUnless E E a b.afresh fun s u =>
      ∃ t, Enacts E a b a.Concludes s t ∧ b.afresh.Idles u (b.within t) := by
  rintro s u ⟨t, hst, hu⟩
  refine Tracks.meets ?_ ?_
  · refine Tracks.of_idles ?_ (.here s) hu
    refine hst.tracks.hosted (.refl a) (hosts_within b) (fun s t hst => ⟨t, hst, .here _⟩) ?_
    intro value s t last hvalue hdone
    exact .answers (.here s) (.here _) (step_within hdone) hvalue
  · intro u value last hdone
    rw [renews_afresh u value last hdone]
    exact ⟨b.start, h, idles_within b⟩

theorem Resembles.afresh (h : Resembles E a b) :
    Enacts E a.afresh b a.afresh.Concludes a.afresh.start b.start := by
  refine Enacts.of_idles ?_ (idles_within a) (.here _)
  refine h.hosted (hosts_within a) (.refl b) ?_
  intro value s t _ _ hs ht
  exact enacts_of_done ht (step_within hs)

theorem Resembles.sameUnless (h : Resembles E a b) : SameUnless E a.afresh b.afresh :=
  (bisimulation_afresh h.afresh).sameUnless ⟨b.start, h.afresh, idles_within b⟩

theorem Resembles.shows_iff {a b : Decoder α} (h : Resembles (fun _ => False) a b)
    (slices : List Bytes) (ends : List (Run Unit Bytes α)) :
    a.afresh.Shows a.afresh.start slices ends ↔ b.afresh.Shows b.afresh.start slices ends := by
  have hbisim := Bisimulation.of_unless (bisimulation_afresh h.afresh)
  exact hbisim.shows_iff ⟨b.start, h.afresh, idles_within b⟩ slices ends

theorem Resembles.repeated {a b : Decoder β} (h : Resembles E a b) (bound : Bound β)
    (c : Collector β γ) : Resembles E (a.afresh.repeated bound c) (b.afresh.repeated bound c) := by
  let collecting (tally : Tally c.Container) (s : (a.afresh.repeated bound c).State) : Prop :=
    ∃ target, s = ⟨target, a.afresh.start, some tally⟩
  have helements : ∀ target target' (tally : Tally c.Container),
      Enacts E (a.afresh.repeated bound c) (b.afresh.repeated bound c)
        (fun value s => ∃ last, (a.afresh.repeated bound c).step s = .done value last)
        ⟨target, a.afresh.start, some tally⟩ ⟨target', b.afresh.start, some tally⟩ := by
    intro target target' tally
    refine enacts_elements collecting renews_afresh ?_ ?_ target' ⟨target, rfl⟩
    · rintro tally _ ⟨target, rfl⟩ hfull
      exact ⟨_, step_full target _ hfull⟩
    · rintro tally _ ⟨target, rfl⟩ hroom
      have hhost := hosts_element a.afresh bound c target hroom
      refine Enacts.of_idles ?_ (hhost.idles (idles_within a)) (idles_within b)
      refine h.hosted ((hosts_within a).trans hhost) (hosts_within b) ?_
      intro value s t _ _ hs ht
      have hstep := step_element (c := c) target hroom (step_within hs)
      refine enacts_of_done (step_within ht) ?_
      cases hends : bound.endsAt value with
      | true =>
          rw [hends, if_pos rfl] at hstep
          rw [if_pos rfl]
          exact ⟨_, hstep⟩
      | false =>
          rw [hends, if_neg Bool.false_ne_true] at hstep
          rw [if_neg Bool.false_ne_true]
          exact ⟨_, _, hstep, target, rfl⟩
  refine Resembles.hosted (Resembles.refl bound.target)
    (hosts_target a.afresh bound c a.afresh.start) (hosts_target b.afresh bound c b.afresh.start) ?_
  intro n s t last last' hs ht
  refine (helements last last' (.start c n)).of_idles ?_ ?_
  · exact .single (step_target c _ hs)
  · exact .single (step_target c _ ht)

end Resembles

end Piecemeal.Decoder
