import PythonTypes.Proofs.Types.Flattening
import PythonTypes.Proofs.Types.Protocol

/-!
# What a type stands for after lazy types have been resolved

Resolving a lazy type changes that type and the slots that wait for it, and nothing else. Chains of
lazy types still end (`Reached.chainsEnd`), and if the target does not lead to the lazy type, no way
leads back to where it started (`Acyclic.resolveLazy`).

A part that a type had before may have become other parts (`Becomes`): a lazy type has become what
it was resolved to, and the instance of a pending class the instances of what was found. The parts
of a type are then what its parts from before have become (`LooksUp.hasPart_iff`). So if a type was
the union of others, it still has the same parts as they have (`LooksUp.same_parts`), though it may
not be their union any more.
-/

set_option autoImplicit false

namespace PythonTypes.TypeStore

variable {l target : TypeId} {s : TypeStore} {form : TypeForm}

/-! ## One resolution -/

section ResolveLazy

variable {u : TypeId} {t : TypeId}

theorem store_resolveLazy (hl : s.isPending l = true) (target : TypeId) :
    ∃ path slots, s.form l = .lazy path (.pending (s.watchers l)) ∧ slots.size = s.slots.size ∧
      (s.resolveLazy l target).store = { s.setForm l (.lazy path (.resolved (s.lazyGoal l target))) with slots } := by
  obtain ⟨path, _, _, hform, -, htells⟩ := tells_resolveLazy hl target
  exact ⟨path, _, hform, htells.slots_eq, htells.store_eq⟩

theorem shape_resolveLazy (hl : s.isPending l = true) (target : TypeId) (hu : u ≠ l) :
    (s.resolveLazy l target).store.shape u = s.shape u := by
  obtain ⟨path, slots, -, -, hstore⟩ := store_resolveLazy hl target
  rw [hstore]
  exact s.shape_setForm_of_ne _ hu

theorem lazyTarget?_resolveLazy (hl : s.isPending l = true) (target : TypeId) :
    (s.resolveLazy l target).store.lazyTarget? l = some (s.lazyGoal l target) := by
  obtain ⟨path, slots, hform, -, hstore⟩ := store_resolveLazy hl target
  rw [hstore]
  exact lazyTarget?_eq_some_iff.2 ⟨path, s.shape_setForm_self _ (known_of_form hform)⟩

theorem no_target_of_shape {f : TypeForm} (h : s.shape l = f)
    (hf : ∀ path state, f ≠ .lazy path state) : s.lazyTarget? l = none := by
  refine Option.eq_none_iff_forall_not_mem.2 fun t ht => ?_
  simp_all [lazyTarget?_eq_some_iff]

theorem not_unfolds_of_isPending (hl : s.isPending l = true) (u : TypeId) : ¬ s.Unfolds l u := by
  obtain ⟨path, hshape⟩ := isPending_iff.1 hl
  rintro (hu | ⟨cs, hcs, -⟩)
  · grind [lazyTarget?_eq_some_iff]
  · grind [candidates?_eq_some_iff]

theorem Unfolds.resolveLazy (htu : s.Unfolds t u) (hl : s.isPending l = true) (target : TypeId) :
    (s.resolveLazy l target).store.Unfolds t u := by
  grind [not_unfolds_of_isPending, unfolds_congr, shape_resolveLazy]

theorem unfolds_resolveLazy (hs : s.WellFormed) (hl : s.isPending l = true) (htarget : s.Known target)
    (htu : (s.resolveLazy l target).store.Unfolds t u) : s.Unfolds t u ∨ t = l ∧ u = s.lazyGoal l target := by
  by_cases ht : t = l
  · subst ht
    rcases htu with htu | ⟨cs, hcs, hmem⟩
    · grind [lazyTarget?_resolveLazy]
    · exact .inl (.inr ⟨cs, (hs.resolveLazy t htarget).2 t ▸ hcs, hmem⟩)
  · grind [unfolds_congr, shape_resolveLazy]

end ResolveLazy

/-! ## Chains and circles -/

/-- A lazy type is resolved to the end of a chain, so that the chains that ended with it now end
there. -/
theorem ChainsEnd.resolveLazy (h : s.ChainsEnd) (hs : s.WellFormed) (l target : TypeId) :
    (s.resolveLazy l target).store.ChainsEnd := by
  cases hl : s.isPending l with
  | false => rwa [resolveLazy_of_not_pending hl]
  | true =>
    set s' := (s.resolveLazy l target).store
    set goal := s.lazyGoal l target with hgoal
    have hlink : ∀ t u, s'.Links t u → s.Links t u ∨ t = l ∧ u = goal := by
      intro t u htu
      by_cases ht : t = l
      · subst ht
        exact .inr ⟨rfl, Option.some.inj (htu.symm.trans (lazyTarget?_resolveLazy hl target))⟩
      · exact .inl ((lazyTarget?_congr (shape_resolveLazy hl target ht)).symm.trans htu)
    have hend : ∀ u, ¬ s'.Links goal u := by
      have hnone : s.lazyTarget? goal = none := by
        rw [hgoal]
        unfold lazyGoal
        dsimp only
        split
        · exact no_target_of_shape hs.unknown_first (by simp)
        · exact h.derefLazy_target hs target
      intro u hu
      rcases hlink goal u hu with hu | ⟨hu, -⟩
      · exact absurd (hu.symm.trans hnone) (by simp)
      · exact hs.lazyGoal_ne hl target hu
    -- a way that takes the new link ends with it
    have hpath : ∀ t u, Relation.TransGen s'.Links t u → Relation.TransGen s.Links t u ∨ u = goal := by
      intro t u htu
      induction htu with
      | single hstep => exact (hlink _ _ hstep).imp .single And.right
      | tail _ hstep ih =>
        grind
    intro t hloop
    rcases hpath t t hloop with hloop | rfl
    · exact h t hloop
    · obtain ⟨u, hstep, -⟩ := Relation.TransGen.head'_iff.1 hloop
      exact hend u hstep

theorem unfolds_added (hs : s.WellFormed) (hform : s.Admits form) {t u : TypeId}
    (htu : (s.added form).Unfolds t u) : s.Known u := by
  by_cases ht : t = s.fresh
  · exact known_of_unfolds_fresh hform (ht ▸ htu)
  · exact hs.unfolds_known ((unfolds_congr (s.shape_added_of_ne form ht)).1 htu)

/-- A new type leads to types that were there before, and none of them leads to it. -/
theorem transGen_added {R R' : TypeId → TypeId → Prop} (hR : ∀ t u, R' t u → s.Known u ∧ (s.Known t → R t u)) {t : TypeId}
    (hloop : Relation.TransGen R' t t) : Relation.TransGen R t t := by
  have hpath : ∀ u, Relation.TransGen R' t u → s.Known u ∧ (s.Known t → Relation.TransGen R t u) := by
    intro u htu
    induction htu with
    | single hstep => exact ⟨(hR _ _ hstep).1, fun ht => .single ((hR _ _ hstep).2 ht)⟩
    | tail _ hstep ih => exact ⟨(hR _ _ hstep).1, fun ht => (ih.2 ht).tail ((hR _ _ hstep).2 ih.1)⟩
  exact (hpath t hloop).2 (hpath t hloop).1

theorem ChainsEnd.added (h : s.ChainsEnd) (hs : s.WellFormed) (hform : s.Admits form) : (s.added form).ChainsEnd :=
  fun t hloop => h t (transGen_added (fun _ _ hlink => ⟨unfolds_added hs hform (.inl hlink), fun ht =>
    (lazyTarget?_congr (s.shape_added_of_known form ht)).symm.trans hlink⟩) hloop)

theorem Acyclic.added (h : s.Acyclic) (hs : s.WellFormed) (hform : s.Admits form) : (s.added form).Acyclic :=
  fun l _ hl hback => h.not_transGen_self hs l (transGen_added (fun _ _ hstep => ⟨unfolds_added hs hform hstep, fun ht =>
    (unfolds_congr (s.shape_added_of_known form ht)).1 hstep⟩) (.head' (.inl hl) hback))

theorem ChainsEnd.perform (h : s.ChainsEnd) (hs : s.WellFormed) {a : StoreAction} (ha : a.Valid s) :
    (a.perform s).ChainsEnd := by
  cases a with
  | alloc form => exact h.added hs ha
  | resolveSlot id target => exact StoreAction.perform_resolveSlot h h
  | resolveLazy l target => exact h.resolveLazy hs l target
  | _ => exact h.grows hs ((StoreAction.perform_sound hs ha).2 (by simp [StoreAction.OffersCandidates]) fun h => h)

theorem chainsEnd_new : ChainsEnd {} := by
  intro t hloop
  obtain ⟨u, hstep, -⟩ := Relation.TransGen.head'_iff.1 hloop
  obtain ⟨path, hshape⟩ := lazyTarget?_eq_some_iff.1 hstep
  rw [shape_new] at hshape
  contradiction

theorem Reached.chainsEnd {allowed : StoreAction → Prop} (h : Reached allowed s) : s.ChainsEnd := by
  induction h with
  | new => exact chainsEnd_new
  | perform a hreached hvalid _ ih => exact ih.perform hreached.wellFormed hvalid

theorem links_derefLazy (s : TypeStore) (t : TypeId) : Relation.ReflTransGen s.Links t (s.derefLazy t) := by
  unfold derefLazy
  generalize s.size = fuel
  induction fuel generalizing t with
  | zero => exact .refl
  | succ fuel ih =>
    unfold derefWithin
    split
    · exact .refl
    · rename_i u htarget
      split
      · exact .refl
      · exact .head htarget (ih u)

theorem reaches_derefLazy (s : TypeStore) (t : TypeId) : Relation.ReflTransGen s.Unfolds t (s.derefLazy t) :=
  Relation.ReflTransGen.mono s.links_le_unfolds t _ (s.links_derefLazy t)

/-- Resolving a lazy type to a type that does not lead to it closes no circle. -/
theorem Acyclic.resolveLazy (h : s.Acyclic) (hs : s.WellFormed)
    (hl : s.isPending l = true) (htarget : s.Known target) (hreach : ¬ Relation.ReflTransGen s.Unfolds target l) :
    (s.resolveLazy l target).store.Acyclic := by
  set s' := (s.resolveLazy l target).store
  set goal := s.lazyGoal l target with hgoal
  have hstep : ∀ t u, s'.Unfolds t u → s.Unfolds t u ∨ t = l ∧ u = goal := fun t u => unfolds_resolveLazy hs hl htarget
  -- a new way comes to the lazy type by an old one, and goes on from its target
  have hsplit : ∀ t u, Relation.ReflTransGen s'.Unfolds t u → Relation.ReflTransGen s.Unfolds t u ∨
      Relation.ReflTransGen s.Unfolds t l ∧ Relation.ReflTransGen s'.Unfolds goal u := by
    intro t u htu
    induction htu using Relation.ReflTransGen.head_induction_on with
    | refl => exact .inl .refl
    | head hfirst hrest ih =>
      rcases hstep _ _ hfirst with hold | ⟨rfl, rfl⟩
      · exact ih.imp (.head hold) fun h => ⟨.head hold h.1, h.2⟩
      · exact .inr ⟨.refl, hrest⟩
  have hnot : ¬ Relation.ReflTransGen s.Unfolds goal l := by
    have hderef : s.derefLazy target ≠ l := fun heq => hreach (heq ▸ s.reaches_derefLazy target)
    have hgoal : goal = s.derefLazy target := by
      rw [hgoal, lazyGoal]
      exact if_neg hderef
    exact fun hback => hreach ((s.reaches_derefLazy target).trans (hgoal ▸ hback))
  have hnot' : ¬ Relation.ReflTransGen s'.Unfolds goal l := fun hback =>
    hnot ((hsplit goal l hback).elim (fun h => h) And.left)
  intro k t hk hback
  by_cases hkl : k = l
  · grind [lazyTarget?_resolveLazy]
  · have hk' : s.lazyTarget? k = some t := (lazyTarget?_congr (shape_resolveLazy hl target hkl)).symm.trans hk
    rcases hsplit t k hback with hold | ⟨htl, hgk⟩
    · exact h k t hk' hold
    -- the way back goes on from the target to where it started, and then to the lazy type
    · have hkept : s.Unfolds ≤ s'.Unfolds := fun a b hab => hab.resolveLazy hl target
      have htl' : Relation.ReflTransGen s'.Unfolds t l := Relation.ReflTransGen.mono hkept t l htl
      exact hnot' ((hgk.tail (.inl hk)).trans htl')

theorem InStep.slotsFollow (h : s.InStep) : s.SlotsFollow := by
  intro w hw
  grind [Slot.isResolved, waits_iff, slot_of_not_known]

theorem Orderly.resolveLazy (h : s.Orderly) (hin : s.InStep) (l : TypeId)
    (htarget : s.Known target) : (s.resolveLazy l target).store.Orderly := by
  obtain ⟨hwell, hunions⟩ := h.wellFormed.resolveLazy l htarget
  refine ⟨hwell, fun t cs hcs => ?_, h.chainsEnd.resolveLazy h.wellFormed l target,
    (hin.resolveLazy h.wellFormed l target).slotsFollow⟩
  exact h.noEmptyUnion t cs (hunions t ▸ hcs)

theorem ChainsEnd.derefLazy_eq (h : s.ChainsEnd) (hs : s.WellFormed) {t u : TypeId}
    (htu : Relation.ReflTransGen s.Links t u) : s.derefLazy t = s.derefLazy u := by
  induction htu using Relation.ReflTransGen.head_induction_on with
  | refl => rfl
  | @head t v hlink _ ih =>
    have hlong := (h.derefWithin hs t (Nat.le_succ s.size)).1
    rw [TypeStore.derefWithin, hlink] at hlong
    simp only [if_neg (h.not_self hlink)] at hlong
    exact hlong.symm.trans ih

theorem ChainsEnd.derefLazy_resolveLazy (h : s.ChainsEnd) (hs : s.WellFormed)
    (hl : s.isPending l = true) (htarget : s.Known target) :
    (s.resolveLazy l target).store.derefLazy l = (s.resolveLazy l target).store.derefLazy target := by
  have hwell := (hs.resolveLazy l htarget).1
  have hend := h.resolveLazy hs l target
  have hlink := lazyTarget?_resolveLazy hl target
  set s' := (s.resolveLazy l target).store
  have hkept : s.Links ≤ s'.Links := by
    intro t u htu
    have ht : t ≠ l := by
      rintro rfl
      exact absurd ((isPending_eq_false_of_target htu).symm.trans hl) (by simp)
    exact (lazyTarget?_congr (shape_resolveLazy hl target ht)).trans htu
  have hpath := hend.derefLazy_eq hwell (Relation.ReflTransGen.mono hkept _ _ (s.links_derefLazy target))
  by_cases heq : s.derefLazy target = l
  · rw [hpath, heq]
  · have hgoal : s.lazyGoal l target = s.derefLazy target := if_neg heq
    rw [hpath, ← hgoal]
    exact hend.derefLazy_eq hwell (.single hlink)

/-! ## Parts after a resolution -/

/-- What a part from before stands for now. -/
def Becomes (s : TypeStore) : Part → Part → Prop
  | .unknown, q => q = .unknown
  | .type t, q => s.HasPart t q
  | .instanceOf cls, q => q = .instanceOf cls
  | .pendingInstanceOf l, q => s.InstancePart l q

/-- One store has become the other by resolving pending lazy types and redirecting slots that
waited. -/
structure LooksUp (s s' : TypeStore) : Prop where
  shape_eq : ∀ t, s.isPending t = false → s'.shape t = s.shape t
  slot_eq : ∀ w, (s.slot w).isResolved = true → s'.slot w = s.slot w
  lazy_eq : ∀ w, (s'.slot w).lazy = (s.slot w).lazy
  slots_eq : s'.slots.size = s.slots.size
  instances_eq : s'.instances = s.instances
  lazyInstances_eq : s'.lazyInstances = s.lazyInstances
  unions_eq : s'.unions = s.unions

theorem InStep.looksUp (h : s.InStep) (hl : s.isPending l = true) (target : TypeId) :
    s.LooksUp (s.resolveLazy l target).store := by
  have htells := h.tellsAll hl target
  obtain ⟨path, slots, -, -, hstore⟩ := store_resolveLazy hl target
  refine ⟨fun t ht => ?_, fun w hw => ?_, fun w => ?_, htells.slots_eq, ?_, ?_, ?_⟩
  · grind [shape_resolveLazy]
  · rw [htells.slot_eq w]
    split
    · rename_i hmem
      rw [htells.waits w hmem] at hw
      simp [Slot.isResolved] at hw
    · rfl
  · rw [htells.slot_eq w]
    split
    · rename_i hmem
      rw [htells.waits w hmem]
    · rfl
  · rw [hstore]
    rfl
  · rw [hstore]
    rfl
  · rw [hstore]
    rfl

theorem Atom.of_isPending (hl : s.isPending l = true) : s.Atom l := by
  grind [isPending_iff, eq_1]

section NotPending

variable {t : TypeId}

theorem isPending_of_shape_eq {f : TypeForm} (h : s.shape t = f)
    (hf : ∀ path state, f ≠ .lazy path state) : s.isPending t = false := by
  grind [isPending_iff]

theorem isPending_of_isUnknown (h : (s.shape t).isUnknown = true) : s.isPending t = false := by
  refine isPending_of_shape_eq rfl fun path state hshape => ?_
  rw [hshape] at h
  contradiction

theorem isPending_of_not_atom (h : ¬ s.Atom t) : s.isPending t = false :=
  Bool.eq_false_iff.2 fun hpending => h (.of_isPending hpending)

end NotPending

theorem not_atom_of_unfolds {t u : TypeId} (h : s.Unfolds t u) : ¬ s.Atom t := by
  grind [Atom, Unfolds, lazyTarget?_eq_some_iff, candidates?_eq_some_iff]

/-- The parts of a type are what its parts from before have become, if the types that stood for
others still stand for the same. -/
theorem hasPart_becomes_iff {s' : TypeStore} {K : TypeId → Prop} (hK : ∀ {t u}, s.Unfolds t u → K u)
    (hshape : ∀ t, K t → ¬ s.Atom t → s'.shape t = s.shape t)
    (hslot : ∀ w, (s.slot w).isResolved = true → s'.slot w = s.slot w)
    (hinstances : ∀ w, (s.slot w).isResolved = true → ∀ q,
      s'.InstancePart (s.slot w).target q ↔ ∃ p, s.InstancePart (s.slot w).target p ∧ s'.Becomes p q)
    {t : TypeId} {q : Part} (ht : K t) : s'.HasPart t q ↔ ∃ p, s.HasPart t p ∧ s'.Becomes p q := by
  constructor
  · intro hq
    -- a type that stood for itself has become whatever it stands for; the others stand for the same
    -- as before
    induction hq with
    | @target t u q htarget hq ih =>
      by_cases hatom : s.Atom t
      · exact ⟨_, .atom hatom, .target htarget hq⟩
      · have htarget' := (lazyTarget?_congr (hshape t ht hatom)).symm.trans htarget
        obtain ⟨p, hp, hpq⟩ := ih (hK (.inl htarget'))
        exact ⟨p, .target htarget' hp, hpq⟩
    | @candidate t c cs q hcs hc hq ih =>
      by_cases hatom : s.Atom t
      · exact ⟨_, .atom hatom, .candidate hcs hc hq⟩
      · have hcs' := (candidates?_congr (hshape t ht hatom)).symm.trans hcs
        obtain ⟨p, hp, hpq⟩ := ih (hK (.inr ⟨cs, hcs', hc⟩))
        exact ⟨p, .candidate hcs' hc hp, hpq⟩
    | @unknown t hunknown =>
      by_cases hatom : s.Atom t
      · exact ⟨_, .atom hatom, .unknown hunknown⟩
      · exact ⟨_, .unknown (hshape t ht hatom ▸ hunknown), rfl⟩
    | @instances t w q hobject hw hq =>
      by_cases hatom : s.Atom t
      · exact ⟨_, .atom hatom, .instances hobject hw hq⟩
      · have hobject' := (hshape t ht hatom).symm.trans hobject
        have hw' : (s.slot w).isResolved = true := by grind [Atom]
        rw [hslot w hw'] at hq
        obtain ⟨p, hp, hpq⟩ := (hinstances w hw' q).1 hq
        exact ⟨p, .instances hobject' hw' hp, hpq⟩
    | @atom t hatom' =>
      by_cases hatom : s.Atom t
      · exact ⟨_, .atom hatom, .atom hatom'⟩
      · grind [Atom]
  · rintro ⟨p, hp, hpq⟩
    induction hp with
    | @target t u p htarget _ ih =>
      have hunfolds : s.Unfolds t u := .inl htarget
      exact .target ((lazyTarget?_congr (hshape t ht (not_atom_of_unfolds hunfolds))).trans htarget) (ih (hK hunfolds) hpq)
    | @candidate t c cs p hcs hc _ ih =>
      have hunfolds : s.Unfolds t c := .inr ⟨cs, hcs, hc⟩
      exact .candidate ((candidates?_congr (hshape t ht (not_atom_of_unfolds hunfolds))).trans hcs) hc (ih (hK hunfolds) hpq)
    | @unknown t hunknown =>
      obtain rfl : q = .unknown := hpq
      exact .unknown (by rwa [hshape t ht (by grind [Atom, TypeForm.isUnknown])])
    | @instances t w p hobject hw hp =>
      refine .instances ((hshape t ht (by grind [Atom])).trans hobject) (by rwa [hslot w hw]) ?_
      rw [hslot w hw]
      exact (hinstances w hw q).2 ⟨p, hp, hpq⟩
    | atom => exact hpq

namespace LooksUp

variable {s' : TypeStore} {t : TypeId} {q : Part}

theorem instancePart_iff (h : s.LooksUp s') : s'.InstancePart t q ↔ ∃ p, s.InstancePart t p ∧ s'.Becomes p q := by
  constructor
  · intro hq
    -- what a pending type stands for now is what its instances have become
    have hbefore : ∀ {c q}, s'.InstancePart c q → (s.isPending c = false → ∃ p, s.InstancePart c p ∧ s'.Becomes p q) →
        ∃ p, s.InstancePart c p ∧ s'.Becomes p q := by
      intro c q hq hfound
      cases hpending : s.isPending c with
      | true => exact ⟨_, .pending hpending, hq⟩
      | false => exact hfound hpending
    induction hq with
    | @target c u q htarget hq ih =>
      refine hbefore (.target htarget hq) fun hpending => ?_
      obtain ⟨p, hp, hpq⟩ := ih
      exact ⟨p, .target ((lazyTarget?_congr (h.shape_eq c hpending)).symm.trans htarget) hp, hpq⟩
    | @candidate c d cs q hcs hd hq ih =>
      refine hbefore (.candidate hcs hd hq) fun hpending => ?_
      obtain ⟨p, hp, hpq⟩ := ih
      exact ⟨p, .candidate ((h.shape_eq c hpending).symm.trans hcs) hd hp, hpq⟩
    | @unknown c hunknown =>
      exact hbefore (.unknown hunknown) fun hpending => ⟨_, .unknown (h.shape_eq c hpending ▸ hunknown), rfl⟩
    | @pending c hc =>
      refine hbefore (.pending hc) fun hpending => ?_
      exact absurd ((isPending_congr (h.shape_eq c hpending)).symm.trans hc) (by simp [hpending])
    | @known c hknown =>
      exact hbefore (.known hknown) fun hpending => ⟨_, .known (h.shape_eq c hpending ▸ hknown), rfl⟩
  · rintro ⟨p, hp, hpq⟩
    induction hp with
    | target htarget _ ih =>
      have hpending := isPending_eq_false_of_target htarget
      exact .target ((lazyTarget?_congr (h.shape_eq _ hpending)).trans htarget) (ih hpq)
    | candidate hcs hd _ ih =>
      have hpending := isPending_of_shape_eq hcs (by simp)
      exact .candidate ((h.shape_eq _ hpending).trans hcs) hd (ih hpq)
    | @unknown c hunknown =>
      have hpending := isPending_of_isUnknown hunknown
      exact (show q = .unknown from hpq) ▸ .unknown ((h.shape_eq c hpending).symm ▸ hunknown)
    | pending _ => exact hpq
    | @known c hknown =>
      have hpending : s.isPending c = false := by
        refine isPending_of_shape_eq rfl fun path state hshape => ?_
        rw [hshape] at hknown
        exact hknown
      exact (show q = .instanceOf c from hpq) ▸ .known ((h.shape_eq c hpending).symm ▸ hknown)

theorem hasPart_iff (h : s.LooksUp s') : s'.HasPart t q ↔ ∃ p, s.HasPart t p ∧ s'.Becomes p q :=
  hasPart_becomes_iff (K := fun _ => True) (fun _ => trivial)
    (fun t _ hatom => h.shape_eq t (isPending_of_not_atom hatom)) h.slot_eq
    (fun _ _ _ => h.instancePart_iff) trivial

/-- A part that was a type has become what that type stands for, or has stayed a part that is this
type. -/
theorem becomes_cases (h : s.LooksUp s') (hs : s.WellFormed) (hin : s'.InStep) {p : Part} (hp : p ≠ .unknown) {x : TypeId}
    (hx : s.typeOf? p = some x) : (∀ q, s'.Becomes p q ↔ s'.HasPart x q) ∨
      (∀ q, s'.Becomes p q ↔ q = p) ∧ (∀ q, s'.HasPart x q ↔ q = .type x) ∧ s'.typeOf? p = some x := by
  cases p with
  | unknown => exact absurd rfl hp
  | type t =>
    obtain rfl : t = x := Option.some.inj hx
    exact .inl fun q => .rfl
  | instanceOf cls =>
    have hshape := hs.instances cls x hx
    have hatom : s'.Atom x := by
      rw [Atom, h.shape_eq x (isPending_of_shape_eq hshape (by simp)), hshape]
      trivial
    refine .inr ⟨fun q => .rfl, fun q => hasPart_of_atom hatom, ?_⟩
    rw [typeOf?, h.instances_eq]
    exact hx
  | pendingInstanceOf l =>
    obtain ⟨w, hshape, rfl⟩ := hs.lazyInstances l x hx
    have hshape' := (h.shape_eq x (isPending_of_shape_eq hshape (by simp))).trans hshape
    have hw : s'.SlotKnown w := Nat.lt_of_lt_of_eq (hs.object_known x w hshape) h.slots_eq.symm
    have hwaits := hin.waits_iff w hw
    rw [h.lazy_eq w] at hwaits
    cases hresolved : (s'.slot w).isResolved with
    | true =>
      -- the slot has been redirected with its lazy type, to the same target
      have hne : (s'.slot w).target ≠ (s.slot w).lazy := by
        rw [← h.lazy_eq w]
        simpa [Slot.isResolved] using hresolved
      have htarget := hin.target_eq w hw (Bool.eq_false_iff.2 fun hpending => hne (hwaits.2 (h.lazy_eq w ▸ hpending)))
      rw [h.lazy_eq w] at htarget
      refine .inl fun q => ?_
      rw [TypeStore.hasPart_iff, hshape']
      simp only [hresolved, if_true]
      exact instancePart_of_target htarget
    | false =>
      have heq : (s'.slot w).target = (s.slot w).lazy := by
        rw [← h.lazy_eq w]
        simpa [Slot.isResolved] using hresolved
      obtain ⟨path, hpending⟩ := isPending_iff.1 (hwaits.1 heq)
      have hatom : s'.Atom x := by
        rw [Atom, hshape']
        exact hresolved
      refine .inr ⟨fun q => ?_, fun q => hasPart_of_atom hatom, ?_⟩
      · show s'.InstancePart _ q ↔ _
        rw [TypeStore.instancePart_iff, hpending]
      · rw [typeOf?, h.lazyInstances_eq]
        exact hx

/-- A type that was the same as other parts stands for what they have become, once all of this is
types. -/
theorem same_parts {s'' : TypeStore} (h : s.LooksUp s') (hs : s.WellFormed) (hin : s'.InStep) {P : Part → Prop} {u : TypeId}
    (hu : s.Settled u) (hsame : s.Same P (s.HasPart u)) (hgrows : s'.Grows s'')
    (hsome : ¬ (∃ p, P p ∧ s'.Becomes p .unknown) → ∀ q, (∃ p, P p ∧ s'.Becomes p q) → ∃ y, s''.typeOf? q = some y) :
    s''.Same (fun q => ∃ p, P p ∧ s'.Becomes p q) (s'.HasPart u) := by
  have hparts : s'.HasPart u = fun q => ∃ p, s.HasPart u p ∧ s'.Becomes p q := by
    funext q
    exact propext h.hasPart_iff
  by_cases hunknown : P .unknown
  · refine .of_unknown ⟨_, hunknown, rfl⟩ (h.hasPart_iff.2 ⟨_, hsame.unknown_iff.1 hunknown, rfl⟩)
  have hcases : ∀ p x, P p → s.typeOf? p = some x → _ := fun p x hp hx =>
    h.becomes_cases hs hin (fun heq => hunknown (heq ▸ hp)) hx
  -- the type of a part is a part of the union itself
  have htype : ∀ q x, s.HasPart u q → s.typeOf? q = some x → q = .type x := by
    intro q x hq hx
    rcases hu.eq_unknown_or_type hq with rfl | ⟨c, rfl⟩
    · exact absurd (hsame.unknown_iff.2 hq) hunknown
    · exact congrArg Part.type (Option.some.inj hx)
  have hleft : ∀ p, P p → ∃ x, s.typeOf? p = some x ∧ s.HasPart u (.type x) := by
    intro p hp
    obtain ⟨x, hx, q, hq, hqx⟩ := hsame.left hunknown p hp
    exact ⟨x, hx, htype q x hq hqx ▸ hq⟩
  by_cases hbecomes : ∃ p, P p ∧ s'.Becomes p .unknown
  · obtain ⟨p, hp, hpu⟩ := hbecomes
    obtain ⟨x, hx, hux⟩ := hleft p hp
    refine .of_unknown ⟨p, hp, hpu⟩ (h.hasPart_iff.2 ⟨_, hux, ?_⟩)
    rcases hcases p x hp hx with hiff | ⟨hself, -, -⟩
    · exact (hiff _).1 hpu
    · simp_all
  have hpair : ∀ p x, P p → s.typeOf? p = some x → s''.Same (s'.Becomes p) (s'.Becomes (.type x)) := by
    intro p x hp hx
    rcases hcases p x hp hx with hiff | ⟨hself, hother, hx'⟩
    · have heq : s'.Becomes p = s'.Becomes (.type x) := funext fun q => propext (hiff q)
      exact heq ▸ .refl fun _ q hq => hsome hbecomes q ⟨p, hp, hq⟩
    · have hp' : s'.Becomes p = (· = p) := funext fun q => propext (hself q)
      have hx'' : s'.Becomes (.type x) = (· = .type x) := funext fun q => propext (hother q)
      rw [hp', hx'']
      exact .single (fun heq => hunknown (heq ▸ hp)) (by simp) (hgrows.typeOf? hx') rfl
  rw [hparts]
  refine .biUnion (fun p hp => ?_) fun q hq => ?_
  · grind
  · obtain ⟨x, hqx, p, hp, hpx⟩ := hsame.right hunknown q hq
    exact ⟨p, hp, htype q x hq hqx ▸ hpair p x hp hpx⟩

end LooksUp

end PythonTypes.TypeStore
