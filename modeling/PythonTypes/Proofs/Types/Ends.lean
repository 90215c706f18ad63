import PythonTypes.Proofs.Types.Redirection
import PythonTypes.Proofs.Types.Termination

/-!
# What lazy types end at

A lazy type is resolved to the end of a chain, and never to itself. So whatever is resolved to what,
chains end, and where a chain ends later is where its end leads to later (`chains_end_for_good`).

An instance that is taken through a pending lazy type keeps the slot that waits for that type. The
slot is redirected once, to what the lazy type is resolved to, which may be pending itself. If no
circles are closed, the canonical type of the instance is nevertheless found and is the instance of
the class at the end of the chain (`instances_survive_resolution`).
-/

set_option autoImplicit false

namespace PythonTypes.TypeStore

variable {depth : Nat} {s : TypeStore} {l o : TypeId} {s0 : TypeStore} {c : TypeId}

/-! ## Chains -/

theorem ChainsEnd.wellFounded (h : s.ChainsEnd) (hs : s.WellFormed) : WellFounded fun u t => s.Links t u :=
  Subrelation.wf (ncard_ahead_lt hs.target_known h) (measure fun t => { u | Relation.TransGen s.Links t u }.ncard).wf

theorem WellFormed.performAll (h : s.WellFormed) {as : List StoreAction} (has : s.ValidAll as) (hchains : s.ChainsEnd) :
    (s.performAll as).WellFormed ∧ (s.performAll as).ChainsEnd ∧ s.Links ≤ (s.performAll as).Links := by
  induction as generalizing s with
  | nil => exact ⟨h, hchains, fun _ _ hlink => hlink⟩
  | cons a rest ih =>
    obtain ⟨hwell, hends, hlinks⟩ := ih (StoreAction.perform_sound h has.1).1 has.2 (hchains.perform h has.1)
    have hstep := (StoreAction.evolves_perform h has.1).target_eq
    exact ⟨hwell, hends, fun t u hlink => hlinks t u (hstep t u hlink)⟩

/-- Whatever lazy types are resolved to, and in whatever order, following what they are resolved to
comes to an end. The end is not resolved to anything by then, and where the chain ends later
is where its end leads to later. -/
theorem chains_end_for_good (as bs : List StoreAction) (has : ValidAll {} as)
    (hbs : (performAll {} as).ValidAll bs) : (WellFounded fun u t => (performAll {} as).Links t u) ∧
      ∀ t, Relation.ReflTransGen (performAll {} as).Links t ((performAll {} as).derefLazy t) ∧
        (performAll {} as).lazyTarget? ((performAll {} as).derefLazy t) = none ∧
        ((performAll {} as).performAll bs).derefLazy t =
          ((performAll {} as).performAll bs).derefLazy ((performAll {} as).derefLazy t) := by
  obtain ⟨hwell, hends, -⟩ := wellFormed_new.performAll has chainsEnd_new
  obtain ⟨hwell', hends', hlinks⟩ := hwell.performAll hbs hends
  refine ⟨hends.wellFounded hwell, fun t => ⟨links_derefLazy _ t, hends.derefLazy_target hwell t, ?_⟩⟩
  exact hends'.derefLazy_eq hwell' (Relation.ReflTransGen.mono hlinks _ _ (links_derefLazy _ t))

/-- One lazy type is resolved to another that is pending, and one to itself. -/
def resolvedInCircles : List StoreAction :=
  [.alloc (.lazy "a" (.pending [])), .alloc (.lazy "b" (.pending [])),
    .alloc (.lazy "c" (.pending [])), .resolveLazy ⟨1⟩ ⟨2⟩, .resolveLazy ⟨3⟩ ⟨3⟩]

/-- The lazy type at the end of the chain is then resolved to the one at its beginning. -/
theorem chains_end_for_good_resolvedInCircles :
    let s := performAll {} resolvedInCircles
    let s' := s.performAll [.resolveLazy ⟨2⟩ ⟨1⟩]
    s.derefLazy ⟨1⟩ = ⟨2⟩ ∧ s.derefLazy ⟨3⟩ = .unknown ∧ s'.derefLazy ⟨2⟩ = .unknown ∧
    s'.derefLazy ⟨1⟩ = s'.derefLazy ⟨2⟩ := by
  have hvalid : ValidAll {} resolvedInCircles := of_decide_eq_true (by cbv)
  have hlater : (performAll {} resolvedInCircles).ValidAll [.resolveLazy ⟨2⟩ ⟨1⟩] := of_decide_eq_true (by cbv)
  have hend : (performAll {} resolvedInCircles).derefLazy ⟨1⟩ = ⟨2⟩ := by cbv
  obtain ⟨-, hends⟩ := chains_end_for_good resolvedInCircles [.resolveLazy ⟨2⟩ ⟨1⟩] hvalid hlater
  refine ⟨hend, by cbv, by cbv, ?_⟩
  have hlast := (hends ⟨1⟩).2.2
  rwa [hend] at hlast

/-! ## Runs without circles -/

/-- A store that actions have led to which leave slots to their lazy types and close no circles, and
the instances that were taken on the way through lazy types that were pending. -/
inductive InstanceLog : TypeStore → List (TypeId × TypeId) → Prop
  | new : InstanceLog {} []
  | perform {s : TypeStore} {log : List (TypeId × TypeId)} (h : InstanceLog s log) (a : StoreAction) (ha : a.InRange s)
      (hprotocol : a.FollowsProtocol) (hcircle : a.ClosesNoCircle s) : InstanceLog (a.perform s) log
  | take {s : TypeStore} {log : List (TypeId × TypeId)} (h : InstanceLog s log) {l : TypeId} (hl : s.isPending l = true) :
      InstanceLog (instanceOf (wrap l s).1 (wrap l s).2).2 ((l, (instanceOf (wrap l s).1 (wrap l s).2).1) :: log)

/-- A store in which every type can be followed to its end, and slots follow their lazy types. -/
structure Followable (s : TypeStore) : Prop where
  intact : s.Intact
  inStep : s.InStep
  acyclic : s.Acyclic

theorem Followable.perform (h : s.Followable) {a : StoreAction} (ha : a.InRange s)
    (hprotocol : a.FollowsProtocol) (hcircle : a.ClosesNoCircle s) : (a.perform s).Followable ∧
      ∀ l o, s.lazyInstances.get? l = some o → (a.perform s).lazyInstances.get? l = some o := by
  have hs := h.intact.wellFormed
  refine ⟨⟨h.intact.perform ha, h.inStep.perform hs hprotocol, h.acyclic.perform hs ha.valid hcircle⟩, ?_⟩
  cases a with
  | alloc form => exact fun _ _ ho => ho
  | resolveSlot id target => exact hprotocol.elim
  | resolveLazy lazy target =>
    cases hl : s.isPending lazy with
    | false =>
      rw [show (StoreAction.resolveLazy lazy target).perform s = s from resolveLazy_of_not_pending hl target]
      exact fun _ _ ho => ho
    | true => exact fun l o ho => ((h.inStep.looksUp hl target).lazyInstances_eq ▸ ho)
  | _ => exact ((StoreAction.perform_sound hs ha.valid).2 (by simp [StoreAction.OffersCandidates]) fun h => h).lazyInstances

theorem followable_new : Followable {} where
  intact := intact_new
  inStep := inStep_new
  acyclic := acyclic_new

theorem InstanceLog.followable {log : List (TypeId × TypeId)} (h : InstanceLog s log) :
    s.Followable ∧ ∀ l o, (l, o) ∈ log → s.lazyInstances.get? l = some o := by
  induction h with
  | new => exact ⟨followable_new, by simp⟩
  | perform _ a ha hprotocol hcircle ih =>
    obtain ⟨h, hkeeps⟩ := ih.1.perform ha hprotocol hcircle
    exact ⟨h, fun l o ho => hkeeps l o (ih.2 l o ho)⟩
  | @take s log _ l hl ih =>
    obtain ⟨h, hlog⟩ := ih
    have hatom := Atom.of_isPending hl
    obtain ⟨h1, hkeeps1⟩ := h.perform (a := .wrap l) hatom.known trivial trivial
    obtain ⟨cls, s1, hwrap, hs1, hgrows1, hcls, hawaited⟩ := wrap_spec h.intact.wellFormed hatom.known
    have hperform : (StoreAction.wrap l).perform s = s1 := congrArg Prod.snd hwrap
    rw [hperform] at h1 hkeeps1
    rw [derefLazy_of_no_target hatom.no_target] at hawaited
    obtain ⟨w, rfl, -, rfl⟩ := awaited?_eq_some (hawaited hl)
    obtain ⟨h2, hkeeps2⟩ := h1.perform (a := .instanceOf (.slot w)) hcls trivial trivial
    have htaken : (instanceOf (.slot w) s1).2.lazyInstances.get? (s1.slot w).lazy = some (instanceOf (.slot w) s1).1 := by
      refine (Runs.within (Q := fun x s' => s'.lazyInstances.get? (s1.slot w).lazy = some x)
        (instanceOfAt · (.slot w)) hs1 False.elim ?_).2.2
      show Runs False s1 (instanceOfAt (8 * s1.size + 7 + 1) (.slot w)) _
      rw [instanceOfAt]
      unfold instanceStep
      refine .get_bind ?_
      rw [hawaited hl]
      exact runs_internLazyInstance hs1 hcls
    rw [hwrap]
    refine ⟨h2, fun l' o ho => ?_⟩
    rcases List.mem_cons.1 ho with heq | ho
    · cases heq
      exact htaken
    · exact hkeeps2 l' o (hkeeps1 l' o (hlog l' o ho))

/-! ## Instances after a resolution -/

theorem WellFormed.lazyInstance_lazy_known (hs : s.WellFormed) (ho : s.lazyInstances.get? l = some o) : s.Known l := by
  obtain ⟨w, -, rfl⟩ := hs.lazyInstances l o ho
  exact (hs.slot_known w).1

theorem instanceOfAt_congr {t t' : TypeId} (h : s.derefLazy t = s.derefLazy t') (depth : Nat) :
    instanceOfAt depth (.direct t) s = instanceOfAt depth (.direct t') s := by
  cases depth with
  | zero => rw [instanceOfAt, instanceOfAt]
  | succ depth =>
    rw [instanceOfAt, instanceOfAt]
    unfold instanceStep
    rw [get_bind_apply, get_bind_apply]
    dsimp only [awaited?, target]
    rw [h]

/-- The slot of an instance that was taken through a lazy type leads where that leads. -/
theorem Followable.slot_of_taken (h : s.Followable) (ho : s.lazyInstances.get? l = some o) (hl : s.isPending l = false) :
    ∃ w, s.shape o = .object (.slot w) ∧ (s.slot w).isResolved = true ∧ s.derefLazy (s.slot w).target = s.derefLazy l := by
  have hs := h.intact.wellFormed
  obtain ⟨w, hshape, rfl⟩ := hs.lazyInstances l o ho
  have hw := hs.object_known o w hshape
  have hlink := h.inStep.target_eq w hw hl
  refine ⟨w, hshape, ?_, (h.intact.chainsEnd.derefLazy_eq hs (.single hlink)).symm⟩
  have hne := (h.intact.chainsEnd.not_self hlink)
  simpa [Slot.isResolved] using hne

/-- The instances of a class are found, and are where the class led when nothing had been added
since. -/
theorem Followable.runs_instanceOf (h0 : s0.Intact) (h : s.Followable) (hsince : Since s0 s)
    (hc : s0.Known c) (hdepth : s.size + 6 ≤ depth) :
    Runs False s (instanceOfAt depth (.direct c)) fun u s' => s'.Answers (s0.leadsTo (.instances c)) u := by
  have hs := h.intact.wellFormed
  have hfollowed : s.Followed := ⟨hs, h.intact.chainsEnd, h.inStep.slotsFollow⟩
  have hfound : Runs False s (instanceOfAt depth (.direct c)) _ :=
    hfollowed.runs_instanceOf (hsince.grows.known hc) (fun _ => ⟨h.acyclic.heightLe_size hs c, hdepth⟩) hs (.refl s)
  exact (hfound.and ((follows h0 depth).instances hsince hc fun hstop : ¬ True =>
    absurd trivial hstop)).imp fun _ _ _ _ hu => hu.2

/-- The canonical type of an instance that was taken through a lazy type is found, and is where that
lazy type led when nothing had been added since. -/
theorem Followable.runs_canonical_taken (h0 : s0.Intact) (h : s.Followable) (hsince : Since s0 s)
    (ho : s.lazyInstances.get? l = some o) (hl : s.isPending l = false) (hknown : s0.Known l) (hdepth : s.size + 7 ≤ depth) :
    Runs False s (canonicalAt depth o) fun u s' => s'.Answers (s0.leadsTo (.instances (s0.derefLazy l))) u := by
  obtain ⟨w, hshape, hw, hleads⟩ := h.slot_of_taken ho hl
  have hs := h.intact.wellFormed
  obtain ⟨depth, rfl⟩ : ∃ k, depth = k + 1 := ⟨depth - 1, by omega⟩
  have hend : s.derefLazy (s0.derefLazy l) = s.derefLazy l := by
    rw [← hsince.grows.derefLazy_eq h0.wellFormed h0.chainsEnd hknown]
    exact derefLazy_of_no_target (h.intact.chainsEnd.derefLazy_target hs l)
  unfold Runs
  rw [canonicalAt_object hshape hw, instanceOfAt_congr (hleads.trans hend.symm)]
  exact h.runs_instanceOf h0 hsince (h0.wellFormed.derefLazy_known hknown) (by omega)

/-- A store in which nothing has been resolved since the first one. -/
structure Continues (s s' : TypeStore) : Prop where
  followable : s'.Followable
  since : Since s s'

theorem Continues.instanceOf (h0 : s0.Intact) (h : s0.Continues s) (hc : s0.Known c) :
    s0.Continues (instanceOf (.direct c) s).2 ∧ s.Grows (instanceOf (.direct c) s).2 ∧
      (instanceOf (.direct c) s).2.Answers (s0.leadsTo (.instances c)) (instanceOf (.direct c) s).1 := by
  have hs := h.followable.intact.wellFormed
  have hknown : s.RefKnown (.direct c) := h.since.grows.known hc
  have hruns : Runs False s (instanceOfAt s.depthBound (.direct c)) fun u s' => s'.Answers (s0.leadsTo (.instances c)) u :=
    h.followable.runs_instanceOf h0 h.since hc (by unfold depthBound; omega)
  obtain ⟨-, hgrows, hanswers⟩ := Runs.within (instanceOfAt · (.direct c)) hs False.elim hruns
  exact ⟨⟨(h.followable.perform (a := .instanceOf (.direct c)) hknown trivial trivial).1,
    ((kept_since s0).instanceOf h.since hknown).1⟩, hgrows, hanswers⟩

theorem Continues.canonical (h0 : s0.Intact) (h : s0.Continues s) (ho : s0.lazyInstances.get? l = some o)
    (hl : s0.isPending l = false) :
    s0.Continues (canonical o s).2 ∧ s.Grows (canonical o s).2 ∧
    s.GivesCanonical o (canonical o s).1 (canonical o s).2 ∧
      (canonical o s).2.Answers (s0.leadsTo (.instances (s0.derefLazy l))) (canonical o s).1 := by
  have hs := h.followable.intact.wellFormed
  have hknown : s.Known o := h.since.grows.known (h0.wellFormed.lazyInstance_known ho)
  have hlazy := h0.wellFormed.lazyInstance_lazy_known ho
  have hruns : Runs False s (canonicalAt s.depthBound o) fun u s' =>
      s'.Answers (s0.leadsTo (.instances (s0.derefLazy l))) u :=
    h.followable.runs_canonical_taken h0 h.since (h.since.grows.lazyInstances l o ho)
      ((isPending_congr (h.since.grows.shape_eq l hlazy)).trans hl) hlazy (by unfold depthBound; omega)
  obtain ⟨-, hgrows, hanswers⟩ := Runs.within (canonicalAt · o) hs False.elim hruns
  exact ⟨⟨(h.followable.perform (a := .canonical o) hknown trivial trivial).1,
    ((kept_since s0).canonical h.since hknown).1⟩, hgrows,
    ⟨_, Runs.within_eq (canonicalAt · o) hruns⟩, hanswers⟩

/-- An instance is taken through a lazy type that is pending. When that has been resolved, if only
to another lazy type, what it ends at is the class of the instance, and the canonical type of
the instance is the instance of that class. So instances that were taken through lazy types with the
same end have the same canonical type. -/
theorem instances_survive_resolution {log : List (TypeId × TypeId)} (hlog : InstanceLog s log) :
    (∀ l o, (l, o) ∈ log → s.isPending l = false → s.classOf? o = some (s.derefLazy l) ∧
      s.GivesCanonical o (canonical o s).1 (canonical o s).2 ∧
      (instanceOf (.direct (s.derefLazy l)) (canonical o s).2).1 = (canonical o s).1 ∧
      (canonical o (instanceOf (.direct (s.derefLazy l)) s).2).1 = (instanceOf (.direct (s.derefLazy l)) s).1) ∧
    ∀ l o l' o', (l, o) ∈ log → (l', o') ∈ log → s.isPending l = false → s.isPending l' = false →
      s.derefLazy l = s.derefLazy l' → (canonical o' (canonical o s).2).1 = (canonical o s).1 := by
  obtain ⟨h, htaken⟩ := hlog.followable
  have hstart : s.Continues s := ⟨h, .refl h.intact⟩
  refine ⟨fun l o ho hl => ?_, fun l o l' o' ho ho' hl hl' heq => ?_⟩
  · obtain ⟨w, hshape, hw, hleads⟩ := h.slot_of_taken (htaken l o ho) hl
    obtain ⟨hcanonical, hgrows₁, hgives, hanswer₁⟩ := hstart.canonical h.intact (htaken l o ho) hl
    have hc := h.intact.wellFormed.derefLazy_known (h.intact.wellFormed.lazyInstance_lazy_known (htaken l o ho))
    obtain ⟨-, hgrows₂, hanswer₂⟩ := hcanonical.instanceOf h.intact hc
    obtain ⟨hinstance, hgrows₃, hanswer₃⟩ := hstart.instanceOf h.intact hc
    obtain ⟨-, hgrows₄, -, hanswer₄⟩ := hinstance.canonical h.intact (htaken l o ho) hl
    refine ⟨?_, hgives, hanswer₂.eq_later hanswer₁ (.refl _) hgrows₂, hanswer₄.eq_later hanswer₃ (.refl _) hgrows₄⟩
    rw [classOf?, form_of_shape (by simp) hshape]
    exact congrArg some hleads
  · obtain ⟨hcanonical, -, -, hanswer₁⟩ := hstart.canonical h.intact (htaken l o ho) hl
    obtain ⟨-, hgrows₂, -, hanswer₂⟩ := hcanonical.canonical h.intact (htaken l' o' ho') hl'
    rw [← heq] at hanswer₂
    exact hanswer₂.eq_later hanswer₁ (.refl _) hgrows₂

/-- A store with two pending lazy types, through both of which an instance has been taken, and a
class. -/
def takenThroughBoth : TypeStore :=
  performAll {} [.alloc (.lazy "m.L" (.pending [])), .alloc (.lazy "m.M" (.pending [])), .wrap ⟨1⟩, .instanceOf (.slot ⟨0⟩),
    .wrap ⟨2⟩, .instanceOf (.slot ⟨1⟩), .alloc (.ofClass ⟨"T", none, {}, [], false, .project⟩)]

theorem instanceLog_takenThroughBoth : InstanceLog takenThroughBoth [(⟨2⟩, ⟨4⟩), (⟨1⟩, ⟨3⟩)] := by
  have hlazies :=
    (InstanceLog.new.perform (.alloc (.lazy "m.L" (.pending []))) (by decide)
    (by simp [StoreAction.FollowsProtocol]) trivial).perform
    (.alloc (.lazy "m.M" (.pending []))) (by decide) (by simp [StoreAction.FollowsProtocol]) trivial
  have htaken := (hlazies.take (l := ⟨1⟩) (by decide +kernel)).take (l := ⟨2⟩) (by decide +kernel)
  exact htaken.perform (.alloc (.ofClass ⟨"T", none, {}, [], false, .project⟩)) (by decide) trivial trivial

/-- The first lazy type is resolved to the second, and then that to the class: both instances become
the instance of the class. -/
theorem instances_survive_resolution_takenThroughBoth :
    let s := takenThroughBoth.performAll [.resolveLazy ⟨1⟩ ⟨2⟩, .resolveLazy ⟨2⟩ ⟨5⟩]
    s.derefLazy ⟨1⟩ = ⟨5⟩ ∧ s.classOf? ⟨3⟩ = some ⟨5⟩ ∧ (canonical ⟨4⟩ (canonical ⟨3⟩ s).2).1 = (canonical ⟨3⟩ s).1 := by
  intro s
  have hclass : ((StoreAction.resolveLazy ⟨1⟩ ⟨2⟩).perform takenThroughBoth).Atom ⟨5⟩ := trivial
  have hlog : InstanceLog s [(⟨2⟩, ⟨4⟩), (⟨1⟩, ⟨3⟩)] :=
    (instanceLog_takenThroughBoth.perform (.resolveLazy ⟨1⟩ ⟨2⟩) (by decide +kernel) trivial
      fun _ => (Atom.of_isPending (by decide +kernel)).not_reaches (by decide)).perform
        (.resolveLazy ⟨2⟩ ⟨5⟩) (by decide +kernel) trivial
      fun _ => hclass.not_reaches (by decide)
  have hend : s.derefLazy ⟨1⟩ = ⟨5⟩ ∧ s.derefLazy ⟨1⟩ = s.derefLazy ⟨2⟩ ∧ s.isPending ⟨1⟩ = false ∧
      s.isPending ⟨2⟩ = false := by
    decide +kernel
  obtain ⟨hdone, hsame, hfirst, hsecond⟩ := hend
  obtain ⟨hinstances, hpairs⟩ := instances_survive_resolution hlog
  refine ⟨hdone, ?_, hpairs ⟨1⟩ ⟨3⟩ ⟨2⟩ ⟨4⟩ (by simp) (by simp) hfirst hsecond hsame⟩
  rw [(hinstances ⟨1⟩ ⟨3⟩ (by simp) hfirst).1, hdone]

/-- A pending lazy type with two slots, of which the first is registered once more. An instance is
taken through the second one, and the lazy type is resolved to a class. -/
def slotRegisteredTwice : List StoreAction :=
  [.alloc (.lazy "m.L" (.pending [])), .wrap ⟨1⟩, .watch ⟨1⟩ (.slot ⟨0⟩), .wrap ⟨1⟩, .instanceOf (.slot ⟨1⟩),
    .alloc (.ofClass ⟨"T", none, {}, [], false, .project⟩), .resolveLazy ⟨1⟩ ⟨3⟩]

/-- The resolution stops at the slot that is told twice, so the instance keeps waiting and is not
the instance of the class. -/
theorem instance_left_behind_slotRegisteredTwice :
    let s := performAll {} slotRegisteredTwice
    ValidAll {} slotRegisteredTwice ∧ s.lazyInstances.get? ⟨1⟩ = some ⟨2⟩ ∧ s.isPending ⟨1⟩ = false ∧ s.derefLazy ⟨1⟩ = ⟨3⟩ ∧
      (canonical ⟨2⟩ s).1 = ⟨2⟩ ∧ (instanceOf (.direct ⟨3⟩) s).1 = ⟨4⟩ := by
  decide +kernel

end PythonTypes.TypeStore
