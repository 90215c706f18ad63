import PythonTypes.Proofs.Types.Registration

/-!
# The protocol of lazy types

Slots are made by wrapping a pending lazy type, and redirected when that type is resolved. As long
as nobody else registers or redirects them, they stay in step with their lazy types (`InStep`).
Resolving a lazy type then succeeds and tells all that have been registered with it, in order of
registration (`lazy_types_tell_watchers`).
-/

set_option autoImplicit false

namespace PythonTypes

/-- The tag of a listener. -/
def Watcher.tag? : Watcher → Option String
  | .slot _ => none
  | .listener tag => some tag

namespace TypeStore

variable {l : TypeId} {s s' : TypeStore} {w : SlotId} {u : TypeId}

/-! ## Slots in step with their lazy types -/

/-- Every slot waits as long as its lazy type is pending and then points to what that was resolved
to; while it waits it is registered once, and only with its own lazy type. -/
structure InStep (s : TypeStore) : Prop where
  waits_iff : ∀ w, s.SlotKnown w → ((s.slot w).target = (s.slot w).lazy ↔ s.isPending (s.slot w).lazy = true)
  target_eq : ∀ w, s.SlotKnown w → s.isPending (s.slot w).lazy = false →
    s.lazyTarget? (s.slot w).lazy = some (s.slot w).target
  registered : ∀ w, s.SlotKnown w → s.isPending (s.slot w).lazy = true →
    (s.watchers (s.slot w).lazy).count (.slot w) = 1
  owned : ∀ l w, .slot w ∈ s.watchers l → s.SlotKnown w ∧ (s.slot w).lazy = l

theorem inStep_new : InStep {} where
  waits_iff w hw := absurd hw (Nat.not_lt_zero _)
  target_eq w hw := absurd hw (Nat.not_lt_zero _)
  registered w hw := absurd hw (Nat.not_lt_zero _)
  owned l w hw := by
    grind [isPending_iff, shape_new, watchers_eq_nil]

theorem InStep.registers (h : s.InStep) (hr : s.Registers s') : s'.InStep := by
  have howned : ∀ l w, .slot w ∈ s'.watchers l → s'.SlotKnown w ∧ (s'.slot w).lazy = l := by
    intro l w hw
    rw [hr.watchers_eq, List.mem_append] at hw
    rcases hw with hw | hw
    · grind [owned, Registers.slotKnown, Registers.slot_eq]
    · grind [mem_newSlots]
  refine ⟨fun w hw => ?_, fun w hw hpending => ?_, fun w hw hpending => ?_, howned⟩
  · rw [hr.isPending_eq]
    by_cases hold : s.SlotKnown w
    · rw [hr.slot_eq w hold]
      exact h.waits_iff w hold
    · grind [Registers.fresh_waits]
  · rw [hr.isPending_eq] at hpending
    rw [hr.lazyTarget?_eq]
    by_cases hold : s.SlotKnown w
    · rw [hr.slot_eq w hold] at hpending ⊢
      exact h.target_eq w hold hpending
    · grind [Registers.fresh_waits]
  · rw [hr.isPending_eq] at hpending
    rw [hr.watchers_eq, List.count_append]
    grind [mem_newSlots, Registers.slot_eq, registered, owned, nodup_newSlots]

theorem InStep.lazy_known (h : s.InStep) (hw : s.SlotKnown w) : s.Known (s.slot w).lazy := by
  cases hpending : s.isPending (s.slot w).lazy with
  | true =>
    grind [isPending_iff, known_of_shape]
  | false => exact known_of_unfolds (.inl (h.target_eq w hw hpending))

theorem InStep.slot_mem_watchers (h : s.InStep) (hl : s.isPending l = true)
    (hw : s.SlotKnown w) : .slot w ∈ s.watchers l ↔ (s.slot w).lazy = l := by
  grind [owned, registered]

theorem InStep.of_slots (h : s.InStep) (hslots : s'.slots = s.slots) (hshape : ∀ t, s.Known t → s'.shape t = s.shape t)
    (hwatchers : ∀ l w, (s'.watchers l).count (.slot w) = (s.watchers l).count (.slot w)) : s'.InStep := by
  have hslot : ∀ w, s'.slot w = s.slot w := by
    intro w
    unfold slot
    rw [hslots]
  have hknown : ∀ w, s'.SlotKnown w → s.SlotKnown w := by
    intro w hw
    unfold SlotKnown at hw ⊢
    rwa [hslots] at hw
  refine ⟨fun w hw => ?_, fun w hw hpending => ?_, fun w hw hpending => ?_, fun l w hw => ?_⟩
  · grind [lazy_known, isPending_congr, waits_iff]
  · grind [lazy_known, isPending_congr, lazyTarget?_congr, target_eq]
  · grind [lazy_known, isPending_congr, registered]
  · have hbefore : .slot w ∈ s.watchers l := by
      rw [← List.count_pos_iff, ← hwatchers, List.count_pos_iff]
      exact hw
    grind [SlotKnown, owned]

/-! ## Resolution -/

/-- Watchers are told in turn, up to a slot that has been redirected before its turn: there the
resolution fails, those that are `done` have been told, and those that are `lost` have not. -/
structure Tells (goal : TypeId) (r r' : Resolution) (done lost : List Watcher) : Prop where
  told_eq : r'.told = r.told ++ (done.filterMap Watcher.tag?).map (·, goal)
  store_eq : r'.store = { r.store with slots := r'.store.slots }
  slots_eq : r'.store.slots.size = r.store.slots.size
  slot_eq : ∀ w, r'.store.slot w =
    if .slot w ∈ done ∧ r.store.SlotKnown w then { r.store.slot w with target := goal } else r.store.slot w
  error_eq : lost = [] ∧ r'.error? = r.error? ∨
    ∃ w rest, lost = .slot w :: rest ∧ (r'.store.slot w).isResolved = true ∧ r'.error? ≠ none

theorem tells_notify (goal : TypeId) (ws : List Watcher) (r : Resolution) :
    ∃ done lost, ws = done ++ lost ∧ Tells goal r (notify goal ws r) done lost := by
  induction ws generalizing r with
  | nil => exact ⟨[], [], rfl, by simp [notify], rfl, rfl, by simp [notify], .inl ⟨rfl, rfl⟩⟩
  | cons watcher rest ih =>
    cases watcher with
    | listener tag =>
      obtain ⟨done, lost, rfl, h⟩ := ih { r with told := r.told ++ [(tag, goal)] }
      refine ⟨.listener tag :: done, lost, rfl, ?_, h.store_eq, h.slots_eq, fun w => ?_, h.error_eq⟩
      · rw [notify, h.told_eq]
        simp [Watcher.tag?]
      · rw [notify, h.slot_eq]
        simp
    | slot id =>
      cases hresolved : (r.store.slot id).isResolved with
      | true =>
        have hstop : ∃ e, notify goal (.slot id :: rest) r = { r with error? := some e } := by
          rw [notify, resolveSlot, if_pos hresolved]
          exact ⟨_, rfl⟩
        obtain ⟨e, hstop⟩ := hstop
        rw [hstop]
        exact ⟨[], _, rfl, by simp, rfl, rfl, by simp, .inr ⟨id, rest, rfl, hresolved, by simp⟩⟩
      | false =>
        have hstep : notify goal (.slot id :: rest) r = notify goal rest { r with store := r.store.redirected id goal } := by
          rw [notify, resolveSlot, hresolved]
          rfl
        obtain ⟨done, lost, rfl, h⟩ := ih { r with store := r.store.redirected id goal }
        rw [hstep]
        have hsize : (r.store.redirected id goal).slots.size = r.store.slots.size := Array.size_setIfInBounds
        have hknown : ∀ w, (r.store.redirected id goal).SlotKnown w ↔ r.store.SlotKnown w := fun w => by
          rw [SlotKnown, hsize, SlotKnown]
        refine ⟨.slot id :: done, lost, rfl, ?_, h.store_eq, h.slots_eq.trans hsize, fun w => ?_, h.error_eq⟩
        · rw [h.told_eq, List.filterMap_cons_none rfl]
        -- a slot that is told again later on already points to the target
        · rw [h.slot_eq]
          simp only [slot_redirected, hknown]
          by_cases hw : w = id
          · subst hw
            by_cases hw : r.store.SlotKnown w <;> simp [hw]
          · simp [hw]

theorem tells_resolveLazy (hl : s.isPending l = true) (target : TypeId) : ∃ path done lost,
    s.form l = .lazy path (.pending (s.watchers l)) ∧ s.watchers l = done ++ lost ∧
      Tells (s.lazyGoal l target) { store := s.setForm l (.lazy path (.resolved (s.lazyGoal l target))) }
        (s.resolveLazy l target) done lost := by
  obtain ⟨path, hform⟩ := form_of_isPending hl
  obtain ⟨done, lost, hws, htells⟩ := tells_notify (s.lazyGoal l target) (s.watchers l)
    { store := s.setForm l (.lazy path (.resolved (s.lazyGoal l target))) }
  refine ⟨path, done, lost, hform, hws, ?_⟩
  unfold resolveLazy
  rw [hform]
  exact htells

/-- A lazy type that is not pending cannot be resolved, and the attempt changes nothing. A pending
one is resolved whatever happens: its watchers are told in order, and if a slot among them has been
redirected before its turn then the resolution fails there, with the watchers in front of it told
and the others lost. So a failure leaves the store as it was exactly if the type was not pending. -/
theorem resolveLazy_refused_or_interrupted (s : TypeStore) (l target : TypeId) :
    let r := s.resolveLazy l target
    let goal := s.lazyGoal l target
    s.isPending l = false ∧ r.error? ≠ none ∧ r.store = s ∧ r.told = [] ∨
      s.isPending l = true ∧ r.store ≠ s ∧ ∃ path done lost, s.form l = .lazy path (.pending (done ++ lost)) ∧
        Tells goal { store := s.setForm l (.lazy path (.resolved goal)) } r done lost := by
  intro r goal
  cases hl : s.isPending l with
  | false =>
    have hrefused : ∃ e, r = { store := s, error? := some e } := by
      show ∃ e, s.resolveLazy l target = _
      unfold resolveLazy
      unfold isPending at hl
      split <;> simp_all
    obtain ⟨e, he⟩ := hrefused
    exact .inl ⟨rfl, by simp [he]⟩
  | true =>
    obtain ⟨path, done, lost, hform, hws, htells⟩ := tells_resolveLazy hl target
    refine .inr ⟨rfl, fun hsame => ?_, path, done, lost, hws ▸ hform, htells⟩
    have hafter : r.store.form l = .lazy path (.resolved goal) := by
      rw [htells.store_eq]
      exact form_setForm_self _ (known_of_form hform)
    rw [hsame, hform] at hafter
    cases hafter

/-- A slot that is registered a second time has been redirected when its second turn comes: the
listener in front of it has been told, the one behind it has not, and the lazy type is resolved
though its resolution failed. -/
theorem resolveLazy_interrupted_registeredTwice :
    let as : List StoreAction :=
      [.alloc (.lazy "m.A" (.pending [])), .wrap ⟨1⟩, .watch ⟨1⟩ (.listener "a"),
      .watch ⟨1⟩ (.slot ⟨0⟩),
      .watch ⟨1⟩ (.listener "b"), .alloc (.ofClass ⟨"A", none, ∅, [], false, .project⟩)]
    let s := performAll {} as
    let r := s.resolveLazy ⟨1⟩ ⟨2⟩
    ValidAll {} as ∧ s.isPending ⟨1⟩ = true ∧ r.error? ≠ none ∧ r.told = [("a", ⟨2⟩)] ∧ r.store.isPending ⟨1⟩ = false := by
  decide +kernel

/-- Resolving a lazy type succeeds and tells the target to watchers, in their order: listeners are
told it, and slots, which have waited till then, are redirected to it. Nothing else changes but the
lazy type. -/
structure TellsAll (s : TypeStore) (l target : TypeId) (ws : List Watcher) : Prop where
  succeeds : (s.resolveLazy l target).error? = none
  told_eq : (s.resolveLazy l target).told = (ws.filterMap Watcher.tag?).map (·, s.lazyGoal l target)
  waits : ∀ w, .slot w ∈ ws → s.slot w = ⟨l, l⟩
  slot_eq : ∀ w, (s.resolveLazy l target).store.slot w = if .slot w ∈ ws then ⟨l, s.lazyGoal l target⟩ else s.slot w
  target_eq : (s.resolveLazy l target).store.lazyTarget? l = some (s.lazyGoal l target)
  path_eq : (s.resolveLazy l target).store.lazyPath? l = s.lazyPath? l
  form_eq : ∀ u, u ≠ l → (s.resolveLazy l target).store.form u = s.form u
  slots_eq : (s.resolveLazy l target).store.slots.size = s.slots.size
  size_eq : (s.resolveLazy l target).store.size = s.size

theorem InStep.tellsAll (h : s.InStep) (hl : s.isPending l = true) (target : TypeId) : s.TellsAll l target (s.watchers l) := by
  obtain ⟨path, done, lost, hform, hws, htells⟩ := tells_resolveLazy hl target
  have hwaits : ∀ w, .slot w ∈ s.watchers l → s.SlotKnown w ∧ s.slot w = ⟨l, l⟩ := by
    intro w hw
    obtain ⟨hknown, hlazy⟩ := h.owned l w hw
    have htarget := (h.waits_iff w hknown).2 (hlazy.symm ▸ hl)
    refine ⟨hknown, ?_⟩
    rw [hlazy] at htarget
    calc s.slot w = ⟨(s.slot w).lazy, (s.slot w).target⟩ := rfl
      _ = ⟨l, l⟩ := by rw [hlazy, htarget]
  set goal := s.lazyGoal l target
  set r := s.resolveLazy l target
  have hslot : ∀ w, r.store.slot w = if .slot w ∈ done then ⟨l, goal⟩ else s.slot w := by
    intro w
    by_cases hw : .slot w ∈ done
    · obtain ⟨hknown, hslot⟩ := hwaits w (hws ▸ List.mem_append_left _ hw)
      rw [if_pos hw, htells.slot_eq, if_pos ⟨hw, hknown⟩]
      show { s.slot w with target := goal } = _
      rw [hslot]
    · rw [if_neg hw, htells.slot_eq, if_neg fun h => hw h.1]
      rfl
  -- each slot is registered once, so none has been redirected before its turn
  have hlost : lost = [] ∧ r.error? = none := by
    rcases htells.error_eq with hdone | ⟨w, rest, rfl, hresolved, -⟩
    · exact hdone
    · have hw : .slot w ∈ s.watchers l := by simp [hws]
      obtain ⟨hknown, hlazy⟩ := h.owned l w hw
      have hcount := h.registered w hknown (hlazy.symm ▸ hl)
      rw [hlazy, hws, List.count_append, List.count_cons_self] at hcount
      have hnot : .slot w ∉ done := List.count_eq_zero.1 (by omega)
      rw [hslot, if_neg hnot, (hwaits w hw).2] at hresolved
      simp [Slot.isResolved] at hresolved
  rw [hlost.1, List.append_nil] at hws
  subst hws
  have hforms : ∀ u, r.store.form u = (s.setForm l (.lazy path (.resolved goal))).form u := by
    intro u
    rw [htells.store_eq]
    rfl
  have hnew : r.store.form l = .lazy path (.resolved goal) := (hforms l).trans (form_setForm_self _ (known_of_form hform))
  refine ⟨hlost.2, htells.told_eq, fun w hw => (hwaits w hw).2, hslot, ?_, ?_, fun u hu => ?_, htells.slots_eq, ?_⟩
  · unfold lazyTarget?
    rw [hnew]
  · unfold lazyPath?
    rw [hnew, hform]
  · exact (hforms u).trans (s.form_setForm_of_ne _ hu)
  · rw [htells.store_eq]
    exact s.size_setForm l _

theorem WellFormed.lazyGoal_ne (hs : s.WellFormed) (hl : s.isPending l = true) (target : TypeId) :
    s.lazyGoal l target ≠ l := by
  grind [lazyGoal, isPending_iff, unknown_first]

theorem resolveLazy_of_not_pending (hl : s.isPending l = false) (target : TypeId) : (s.resolveLazy l target).store = s := by
  grind [resolveLazy, isPending]

theorem isPending_of_form_eq (h : s'.form u = s.form u) : s'.isPending u = s.isPending u := by
  unfold isPending
  rw [h]

theorem lazyTarget?_of_form_eq (h : s'.form u = s.form u) : s'.lazyTarget? u = s.lazyTarget? u := by
  unfold lazyTarget?
  rw [h]

theorem isPending_eq_false_of_target {t : TypeId} (h : s.lazyTarget? l = some t) : s.isPending l = false := by
  grind [lazyTarget?, isPending]

theorem InStep.resolveLazy (h : s.InStep) (hs : s.WellFormed) (l target : TypeId) : (s.resolveLazy l target).store.InStep := by
  cases hl : s.isPending l with
  | false => rwa [resolveLazy_of_not_pending hl]
  | true =>
    have htells := h.tellsAll hl target
    have hgoal := hs.lazyGoal_ne hl target
    set s' := (s.resolveLazy l target).store
    have hdone : s'.isPending l = false := isPending_eq_false_of_target htells.target_eq
    have hknown : ∀ w, s'.SlotKnown w → s.SlotKnown w := fun w hw => Nat.lt_of_lt_of_eq hw htells.slots_eq
    have hslot : ∀ w, s.SlotKnown w → s'.slot w = if (s.slot w).lazy = l then ⟨l, s.lazyGoal l target⟩ else s.slot w := by
      intro w hw
      rw [htells.slot_eq w]
      exact if_congr (h.slot_mem_watchers hl hw) rfl rfl
    refine ⟨fun w hw => ?_, fun w hw hpending => ?_, fun w hw hpending => ?_, fun l' w hw => ?_⟩
    · grind [isPending_of_form_eq, TellsAll.form_eq, waits_iff]
    · grind [TellsAll.target_eq, isPending_of_form_eq, TellsAll.form_eq, lazyTarget?_of_form_eq, target_eq]
    · rw [hslot w (hknown w hw)] at hpending ⊢
      split at hpending
      · exact absurd (hpending.symm.trans hdone) (by simp)
      · rename_i hne
        rw [isPending_of_form_eq (htells.form_eq _ hne)] at hpending
        rw [if_neg hne, watchers_eq_of_form (htells.form_eq _ hne)]
        exact h.registered w (hknown w hw) hpending
    · have hne : l' ≠ l := by
        rintro rfl
        rw [watchers_eq_nil hdone] at hw
        contradiction
      rw [watchers_eq_of_form (htells.form_eq _ hne)] at hw
      obtain ⟨hw, hlazy⟩ := h.owned l' w hw
      refine ⟨Nat.lt_of_lt_of_eq hw htells.slots_eq.symm, ?_⟩
      simp_all

end TypeStore

/-! ## Runs -/

namespace StoreAction

open TypeStore

/-- Whether an action leaves it to `wrap` to register slots, and to the resolution of their lazy
types to redirect them. -/
def FollowsProtocol : StoreAction → Prop
  | alloc (.lazy _ (.pending ws)) => ∀ w, .slot w ∉ ws
  | watch _ w => ∀ id, w ≠ .slot id
  | resolveSlot _ _ => False
  | _ => True

/-- The watchers that an action registers with a lazy type, in order: those that a new one is added
with, the one that is registered, or the slots that are made. -/
def registered (a : StoreAction) (s : TypeStore) (l : TypeId) : List Watcher :=
  match a with
  | alloc (.lazy _ (.pending ws)) => if l = s.fresh then ws else []
  | watch t w => if l = t ∧ s.isPending t = true then [w] else []
  | _ => newSlots s (a.perform s) l

/-- What a protocol action is for lazy types: it adds one, registers one watcher, resolves one, or
makes some slots. -/
theorem FollowsProtocol.cases {a : StoreAction} (ha : a.FollowsProtocol) (s : TypeStore) :
    (∃ path state, a = alloc (.lazy path state)) ∨ (∃ t w, a = watch t w) ∨ (∃ l target, a = resolveLazy l target) ∨
      s.Registers (a.perform s) ∧ ∀ l, a.registered s l = newSlots s (a.perform s) l := by
  have hkeeps := framed_registers.keeps s.depthBound
  cases a with
  | watch t w => exact .inr (.inl ⟨t, w, rfl⟩)
  | resolveSlot id target => exact ha.elim
  | resolveLazy l target => exact .inr (.inr (.inl ⟨l, target, rfl⟩))
  | alloc form =>
    cases form with
    | lazy path state => exact .inl ⟨path, state, rfl⟩
    | _ => exact .inr (.inr (.inr ⟨registers_of_push rfl rfl (by simp), fun _ => rfl⟩))
  | unresolvedImport path =>
    refine .inr (.inr (.inr ⟨?_, fun _ => rfl⟩))
    show s.Registers (TypeStore.unresolvedImport path s).2
    rw [unresolvedImport_apply]
    split
    · exact .refl s
    · exact registers_of_push rfl rfl (by simp)
  | wrap t => exact .inr (.inr (.inr ⟨registers_wrap t s, fun _ => rfl⟩))
  | instanceOf cls => exact .inr (.inr (.inr ⟨framed_registers.within (hkeeps.instanceOf s cls), fun _ => rfl⟩))
  | canonical t => exact .inr (.inr (.inr ⟨framed_registers.within (hkeeps.canonical s t), fun _ => rfl⟩))
  | union left right =>
    refine .inr (.inr (.inr ⟨?_, fun _ => rfl⟩))
    show s.Registers (TypeStore.union left right s).2
    unfold TypeStore.union
    split
    · exact .refl s
    · exact framed_registers.within (hkeeps.unionOf s [left, right])
  | unionOf ts => exact .inr (.inr (.inr ⟨framed_registers.within (hkeeps.unionOf s ts), fun _ => rfl⟩))

theorem perform_watch_eq (s : TypeStore) (t : TypeId) (w : Watcher) :
    (watch t w).perform s = if s.isPending t = true then s.addWatcher t w else s := by
  show (s.watch t w).toOption.getD s = _
  unfold TypeStore.watch isPending
  cases s.form t with
  | lazy path state => cases state <;> rfl
  | _ => rfl

/-- What an action adds to the watchers of a lazy type, unless it resolves it. -/
theorem watchers_perform {s : TypeStore} (h : s.InStep) {a : StoreAction} (ha : a.FollowsProtocol) {l : TypeId}
    (hl : s.isPending l = true → (a.perform s).isPending l = true) :
    (a.perform s).watchers l = s.watchers l ++ a.registered s l := by
  rcases ha.cases s with ⟨path, state, rfl⟩ | ⟨t, w, rfl⟩ | ⟨l', target, rfl⟩ | ⟨hr, hregistered⟩
  · have hpush : ((alloc (.lazy path state)).perform s).types = s.types.push (.lazy path state) := rfl
    by_cases hfresh : l = s.fresh
    · subst hfresh
      have hbefore : s.watchers s.fresh = [] := by rw [watchers, form_fresh]
      rw [watchers, form_fresh_of_push hpush, hbefore, List.nil_append]
      cases state with
      | pending ws => exact (if_pos rfl).symm
      | resolved t => exact (newSlots_of_eq rfl _).symm
    · have hnone : (alloc (.lazy path state)).registered s l = [] := by
        cases state with
        | pending ws => exact if_neg hfresh
        | resolved t => exact newSlots_of_eq rfl l
      grind [watchers_eq_of_form, form_eq_of_push]
  · grind [registered, perform_watch_eq, watchers_addWatcher]
  · show (s.resolveLazy l' target).store.watchers l = s.watchers l ++ newSlots s (s.resolveLazy l' target).store l
    cases hpending : s.isPending l' with
    | false => grind [resolveLazy_of_not_pending, newSlots_of_eq]
    | true =>
      have htells := h.tellsAll hpending target
      have hne : l ≠ l' := by
        rintro rfl
        have hdone := isPending_eq_false_of_target htells.target_eq
        exact absurd (hdone.symm.trans (hl hpending)) (by simp)
      rw [watchers_eq_of_form (htells.form_eq l hne), newSlots_of_eq htells.slots_eq, List.append_nil]
  · rw [hr.watchers_eq, hregistered]

end StoreAction

namespace TypeStore

open StoreAction

variable {a : StoreAction} {as : List StoreAction} {l : TypeId} {s : TypeStore}

theorem InStep.perform (h : s.InStep) (hs : s.WellFormed) (ha : a.FollowsProtocol) : (a.perform s).InStep := by
  rcases ha.cases s with ⟨path, state, rfl⟩ | ⟨t, w, rfl⟩ | ⟨l, target, rfl⟩ | ⟨hr, -⟩
  · have hpush : ((StoreAction.alloc (.lazy path state)).perform s).types = s.types.push (.lazy path state) := rfl
    refine h.of_slots rfl (fun t ht => s.shape_added_of_known _ ht) fun l w => ?_
    by_cases hl : l = s.fresh
    · subst hl
      have hbefore : (s.watchers s.fresh).count (.slot w) = 0 := by
        rw [watchers, form_fresh]
        rfl
      rw [hbefore, watchers, form_fresh_of_push hpush]
      cases state with
      | pending ws => exact List.count_eq_zero.2 (ha w)
      | resolved t => rfl
    · rw [watchers_eq_of_form (form_eq_of_push hpush hl)]
  · rw [perform_watch_eq]
    split
    · rename_i hpending
      refine h.of_slots (slots_addWatcher s t w) (fun u _ => s.shape_addWatcher t w u) fun l id => ?_
      rw [watchers_addWatcher w hpending, List.count_append]
      split
      · simp [ha id]
      · rfl
    · exact h
  · exact h.resolveLazy hs l target
  · exact h.registers hr

/-- The watchers that actions register with a lazy type, one after the other. -/
def registeredBy (s : TypeStore) : List StoreAction → TypeId → List Watcher
  | [], _ => []
  | a :: rest, l => a.registered s l ++ (a.perform s).registeredBy rest l

section

variable (h : s.InStep) (ha : a.FollowsProtocol)

include h ha

theorem InStep.shape_perform {path : String} {state : LazyState} (hl : s.shape l = .lazy path state) :
    (a.perform s).shape l = .lazy path state ∨ ∃ target, a = .resolveLazy l target ∧ s.isPending l = true := by
  rcases ha.cases s with ⟨path', state', rfl⟩ | ⟨t, w, rfl⟩ | ⟨l', target, rfl⟩ | ⟨hr, -⟩
  · have hknown : s.Known l := known_of_shape (by rw [hl]; simp)
    exact .inl ((s.shape_added_of_known _ hknown).trans hl)
  · grind [perform_watch_eq, shape_addWatcher]
  · cases hpending : s.isPending l' with
    | false => exact .inl ((congrArg (shape · l) (resolveLazy_of_not_pending hpending target)).trans hl)
    | true =>
      by_cases hne : l = l'
      · simp_all
      · have hform := (h.tellsAll hpending target).form_eq l hne
        exact .inl ((congrArg TypeForm.unwatched hform).trans hl)
  · exact .inl ((hr.lazy_iff l path state).2 hl)

theorem InStep.lazyTarget?_perform {t : TypeId} (hl : s.lazyTarget? l = some t) : (a.perform s).lazyTarget? l = some t := by
  grind [lazyTarget?_eq_some_iff, shape_perform, isPending_eq_false_of_target]

theorem InStep.isPending_perform (hl : s.isPending l = true) :
    (a.perform s).isPending l = true ∨ ∃ t, (a.perform s).lazyTarget? l = some t := by
  obtain ⟨path, hshape⟩ := isPending_iff.1 hl
  rcases h.shape_perform ha hshape with hsame | ⟨target, rfl, -⟩
  · exact .inl (isPending_iff.2 ⟨path, hsame⟩)
  · exact .inr ⟨_, (h.tellsAll hl target).target_eq⟩

end

section

variable (h : s.InStep) (hs : s.WellFormed) (hvalid : s.ValidAll as) (hfollows : ∀ a ∈ as, a.FollowsProtocol)

include h hs hvalid hfollows

theorem InStep.performAll : (s.performAll as).InStep := by
  induction as generalizing s with
  | nil => exact h
  | cons a rest ih =>
    exact ih (h.perform hs (hfollows a (by simp))) (perform_sound hs hvalid.1).1 hvalid.2
      fun b hb => hfollows b (by simp [hb])

theorem InStep.lazyTarget?_performAll {t : TypeId} (hl : s.lazyTarget? l = some t) :
    (s.performAll as).lazyTarget? l = some t := by
  induction as generalizing s with
  | nil => exact hl
  | cons a rest ih =>
    have ha := hfollows a (by simp)
    exact ih (h.perform hs ha) (perform_sound hs hvalid.1).1 hvalid.2
      (fun b hb => hfollows b (by simp [hb])) (h.lazyTarget?_perform ha hl)

/-- Who waits for a lazy type has been registered with it, in that order. -/
theorem InStep.watchers_performAll
    (hl : (s.performAll as).isPending l = true) : (s.performAll as).watchers l = s.watchers l ++ s.registeredBy as l := by
  induction as generalizing s with
  | nil => exact (List.append_nil _).symm
  | cons a rest ih =>
    have ha := hfollows a (by simp)
    have hrest : ∀ b ∈ rest, b.FollowsProtocol := fun b hb => hfollows b (by simp [hb])
    have h' := h.perform hs ha
    have hs' := (perform_sound hs hvalid.1).1
    have hstep : (a.perform s).watchers l = s.watchers l ++ a.registered s l := by
      refine watchers_perform h ha fun hpending => ?_
      rcases h.isPending_perform ha hpending with hstill | ⟨t, htarget⟩
      · exact hstill
      -- had it been resolved, it would still be
      · have hend := isPending_eq_false_of_target (h'.lazyTarget?_performAll hs' hvalid.2 hrest htarget)
        exact absurd (hend.symm.trans hl) (by simp)
    calc ((a.perform s).performAll rest).watchers l
        = (a.perform s).watchers l ++ (a.perform s).registeredBy rest l := ih h' hs' hvalid.2 hrest hl
      _ = s.watchers l ++ (a.registered s l ++ (a.perform s).registeredBy rest l) := by
        rw [hstep, List.append_assoc]

end

/-- In every store that protocol actions lead to: a slot waits exactly as long as its lazy type is
pending, and has then that type's target; while it waits, it is registered once, and only there. A
pending lazy type can be resolved to anything, which tells everybody registered so far. A resolved
one can neither be resolved nor watched any more. -/
theorem lazy_types_tell_watchers (as : List StoreAction) (hvalid : ValidAll {} as)
    (hfollows : ∀ a ∈ as, a.FollowsProtocol) :
    let s := performAll {} as
    (∀ w, s.SlotKnown w →
      ((s.slot w).target = (s.slot w).lazy ↔ s.isPending (s.slot w).lazy = true) ∧
      (s.isPending (s.slot w).lazy = false → s.lazyTarget? (s.slot w).lazy = some (s.slot w).target) ∧
      (s.isPending (s.slot w).lazy = true →
        ∀ l, (s.watchers l).count (.slot w) = if l = (s.slot w).lazy then 1 else 0)) ∧
    (∀ l target, s.isPending l = true → s.TellsAll l target (registeredBy {} as l)) ∧
    ∀ l path t, s.form l = .lazy path (.resolved t) →
      (∀ target, s.resolveLazy l target = { store := s, error? := some (.alreadyResolved path) }) ∧
      ∀ w, s.watch l w = .error (.watchedTooLate path) := by
  intro s
  have h : s.InStep := inStep_new.performAll wellFormed_new hvalid hfollows
  refine ⟨fun w hw => ⟨h.waits_iff w hw, h.target_eq w hw, fun hpending l => ?_⟩, fun l target hl => ?_, ?_⟩
  · split
    · rename_i heq
      rw [heq]
      exact h.registered w hw hpending
    · rename_i hne
      exact List.count_eq_zero.2 fun hmem => hne (h.owned l w hmem).2.symm
  · have hnone : watchers {} l = [] := by
      have hform : form {} l = .unknown := by
        rcases l with ⟨_ | i⟩ <;> rfl
      rw [watchers, hform]
    have hall := inStep_new.watchers_performAll wellFormed_new hvalid hfollows hl
    rw [hnone, List.nil_append] at hall
    exact hall ▸ h.tellsAll hl target
  · intro l path t hform
    refine ⟨fun target => ?_, fun w => ?_⟩
    · unfold TypeStore.resolveLazy
      rw [hform]
    · unfold TypeStore.watch
      rw [hform]

/-- A listener, two slots that are made on the way, and a listener between them. -/
theorem lazy_types_tell_watchers_interleaved :
    let as : List StoreAction := [.alloc (.lazy "m.A" (.pending [.listener "first"])), .instanceOf (.direct ⟨1⟩),
      .watch ⟨1⟩ (.listener "second"), .wrap ⟨1⟩, .alloc (.lazy "m.B" (.pending [])), .resolveLazy ⟨3⟩ ⟨1⟩, .wrap ⟨3⟩]
    ValidAll {} as ∧ (∀ a ∈ as, a.FollowsProtocol) ∧ (performAll {} as).TellsAll ⟨1⟩ ⟨2⟩
      [.listener "first", .slot ⟨0⟩, .listener "second", .slot ⟨1⟩, .slot ⟨2⟩] := by
  intro as
  have hvalid : ValidAll {} as := by decide +kernel
  have hfollows : ∀ a ∈ as, a.FollowsProtocol := by simp [as, FollowsProtocol]
  refine ⟨hvalid, hfollows, ?_⟩
  exact (lazy_types_tell_watchers as hvalid hfollows).2.1 ⟨1⟩ ⟨2⟩ (by decide +kernel)

end TypeStore

end PythonTypes
