import Mathlib.Data.List.Nodup
import PythonTypes.Proofs.Types.Frame

/-!
# Registering slots

Who waits for a lazy type (`watchers`), and what happens to it while types are only looked up and
added: slots are made for pending lazy types and registered with them, in order, and nothing else
happens to lazy types (`Registers`).
-/

set_option autoImplicit false

namespace PythonTypes.TypeStore

variable {form : TypeForm} {l t : TypeId} {s s' : TypeStore}

/-- Who waits for a lazy type, in order of registration. -/
def watchers (s : TypeStore) (l : TypeId) : List Watcher :=
  match s.form l with
  | .lazy _ (.pending ws) => ws
  | _ => []

/-- The slots for a lazy type that the second store has in addition, oldest first. -/
def newSlots (s s' : TypeStore) (l : TypeId) : List Watcher :=
  ((List.range' s.slots.size (s'.slots.size - s.slots.size)).filter fun i => (s'.slot ⟨i⟩).lazy =
    l).map fun i => .slot ⟨i⟩

theorem mem_newSlots {w : SlotId} : .slot w ∈ newSlots s s' l ↔ ¬ s.SlotKnown w ∧ s'.SlotKnown w ∧ (s'.slot w).lazy = l := by
  obtain ⟨i⟩ := w
  grind [newSlots, SlotKnown]

theorem nodup_newSlots (s s' : TypeStore) (l : TypeId) : (newSlots s s' l).Nodup := by
  refine List.Nodup.map ?_ (List.Nodup.filter _ List.nodup_range')
  intro i j hij
  simpa using hij

theorem newSlots_of_eq (h : s'.slots.size = s.slots.size) (l : TypeId) : newSlots s s' l = [] := by
  unfold newSlots
  rw [h, Nat.sub_self]
  rfl

/-- The slots of two stretches, one after the other, are those of the whole. -/
theorem newSlots_append {s'' : TypeStore} (h : s.slots.size ≤ s'.slots.size) (h' : s'.slots.size ≤ s''.slots.size)
    (hslot : ∀ w, s'.SlotKnown w → s''.slot w = s'.slot w) (l : TypeId) :
    newSlots s s'' l = newSlots s s' l ++ newSlots s' s'' l := by
  have hrange : List.range' s.slots.size (s''.slots.size - s.slots.size) =
      List.range' s.slots.size (s'.slots.size - s.slots.size) ++
        List.range' s'.slots.size (s''.slots.size - s'.slots.size) := by
    have hstart : s'.slots.size = s.slots.size + (s'.slots.size - s.slots.size) := by omega
    have hlength : s''.slots.size - s.slots.size =
        (s'.slots.size - s.slots.size) + (s''.slots.size - s'.slots.size) := by omega
    conv => rhs; rhs; rw [hstart]
    rw [List.range'_append_1, hlength]
    congr 2
    omega
  unfold newSlots
  rw [hrange, List.filter_append, List.map_append]
  congr 2
  refine List.filter_congr fun i hi => ?_
  have hknown : s'.SlotKnown ⟨i⟩ := by
    have := (List.mem_range'_1.1 hi).2
    show i < s'.slots.size
    omega
  rw [hslot ⟨i⟩ hknown]

/-- One store becomes the other while slots are made for pending lazy types and nothing else happens
to lazy types. -/
structure Registers (s s' : TypeStore) : Prop where
  slots_le : s.slots.size ≤ s'.slots.size
  slot_eq : ∀ w, s.SlotKnown w → s'.slot w = s.slot w
  fresh_waits : ∀ w, ¬ s.SlotKnown w → s'.SlotKnown w →
    (s'.slot w).target = (s'.slot w).lazy ∧ s.isPending (s'.slot w).lazy = true
  lazy_iff : ∀ l path state, s'.shape l = .lazy path state ↔ s.shape l = .lazy path state
  watchers_eq : ∀ l, s'.watchers l = s.watchers l ++ newSlots s s' l

namespace Registers

theorem refl (s : TypeStore) : s.Registers s where
  slots_le := Nat.le_refl _
  slot_eq _ _ := rfl
  fresh_waits w hold hnew := absurd hnew hold
  lazy_iff _ _ _ := .rfl
  watchers_eq l := by rw [newSlots_of_eq rfl, List.append_nil]

theorem isPending_eq (h : s.Registers s') (l : TypeId) : s'.isPending l = s.isPending l := by
  grind [isPending_iff, lazy_iff]

theorem lazyTarget?_eq (h : s.Registers s') (l : TypeId) : s'.lazyTarget? l = s.lazyTarget? l := by
  refine Option.ext fun t => ?_
  grind [lazyTarget?_eq_some_iff, lazy_iff]

theorem slotKnown (h : s.Registers s') {w : SlotId} (hw : s.SlotKnown w) : s'.SlotKnown w :=
  Nat.lt_of_lt_of_le hw h.slots_le

theorem trans {s'' : TypeStore} (h : s.Registers s') (h' : s'.Registers s'') : s.Registers s'' where
  slots_le := Nat.le_trans h.slots_le h'.slots_le
  slot_eq w hw := (h'.slot_eq w (h.slotKnown hw)).trans (h.slot_eq w hw)
  fresh_waits w hold hnew := by
    by_cases hw : s'.SlotKnown w
    · rw [h'.slot_eq w hw]
      exact h.fresh_waits w hold hw
    · obtain ⟨htarget, hpending⟩ := h'.fresh_waits w hw hnew
      exact ⟨htarget, (h.isPending_eq _).symm.trans hpending⟩
  lazy_iff l path state := (h'.lazy_iff l path state).trans (h.lazy_iff l path state)
  watchers_eq l := by
    rw [h'.watchers_eq, h.watchers_eq, List.append_assoc, newSlots_append h.slots_le h'.slots_le h'.slot_eq]

end Registers

/-! ## Each step -/

theorem form_eq_of_push (htypes : s'.types = s.types.push form) (ht : t ≠ s.fresh) : s'.form t = s.form t := by
  have hindex : t.index ≠ s.types.size := fun h => ht (congrArg TypeId.mk h)
  unfold TypeStore.form
  rw [htypes, Array.getD_eq_getD_getElem?, Array.getD_eq_getD_getElem?, Array.getElem?_push, if_neg hindex]

theorem form_fresh_of_push (htypes : s'.types = s.types.push form) : s'.form s.fresh = form := by
  unfold TypeStore.form fresh size
  simp_all

theorem form_fresh (s : TypeStore) : s.form s.fresh = .unknown := by
  simp_all [form, fresh, size]

theorem form_setForm_of_ne (s : TypeStore) {u : TypeId} (form : TypeForm) (hu : u ≠ t) :
    (s.setForm t form).form u = s.form u := by
  have hindex : t.index ≠ u.index := fun h => hu (congrArg TypeId.mk h.symm)
  unfold TypeStore.form setForm
  simp_all

theorem form_setForm_self (form : TypeForm) (ht : s.Known t) : (s.setForm t form).form t = form := by
  unfold TypeStore.form setForm
  rw [Array.getD_eq_getD_getElem?, Array.getElem?_setIfInBounds_self_of_lt ht]
  rfl

theorem watchers_eq_of_form (h : s'.form l = s.form l) : s'.watchers l = s.watchers l := by
  unfold watchers
  rw [h]

theorem watchers_eq_nil (h : s.isPending l = false) : s.watchers l = [] := by
  grind [watchers, isPending]

theorem form_of_isPending (h : s.isPending l = true) : ∃ path, s.form l = .lazy path (.pending (s.watchers l)) := by
  grind [isPending, watchers]

theorem registers_of_push (htypes : s'.types = s.types.push form)
    (hslots : s'.slots = s.slots) (hform : ∀ path state, form ≠ .lazy path state) : s.Registers s' := by
  have hslot : ∀ w, s'.slot w = s.slot w := by
    intro w
    unfold slot
    rw [hslots]
  refine ⟨Nat.le_of_eq (hslots ▸ rfl), fun w _ => hslot w, fun w hold hnew => ?_, fun l path state => ?_, fun l => ?_⟩
  · exact absurd (show s.SlotKnown w by unfold SlotKnown at hnew; rwa [hslots] at hnew) hold
  · by_cases hl : l = s.fresh
    · subst hl
      have hnew : s'.shape s.fresh = form := by
        unfold shape
        rw [form_fresh_of_push htypes]
        exact (TypeForm.unwatched_eq_iff fun path ws => hform path (.pending ws)).2 rfl
      grind [shape_of_not_known, not_known_fresh]
    · unfold shape
      rw [form_eq_of_push htypes hl]
  · grind [newSlots_of_eq, form_fresh_of_push, watchers, form_fresh, watchers_eq_of_form, form_eq_of_push]

theorem watchers_addWatcher (w : Watcher) (ht : s.isPending t = true) (l : TypeId) :
    (s.addWatcher t w).watchers l = s.watchers l ++ if l = t then [w] else [] := by
  obtain ⟨path, hform⟩ := form_of_isPending ht
  simp_all [addWatcher]
  grind [watchers, form_setForm_self, known_of_form, form_setForm_of_ne]

theorem slots_addWatcher (s : TypeStore) (t : TypeId) (w : Watcher) : (s.addWatcher t w).slots = s.slots := by
  unfold addWatcher
  split <;> rfl

theorem registers_wrap (t : TypeId) (s : TypeStore) : s.Registers (wrap t s).2 := by
  rw [wrap_apply]
  split
  · rename_i hpending
    set l := s.derefLazy t
    set s' := (s.waiting l).addWatcher l (.slot ⟨s.slots.size⟩) with hs'
    have hslots : s'.slots = s.slots.push ⟨l, l⟩ := slots_addWatcher _ _ _
    have hsize : s'.slots.size = s.slots.size + 1 := by rw [hslots, Array.size_push]
    have hslot : ∀ w, s'.slot w = if w.index = s.slots.size then ⟨l, l⟩ else s.slot w := by
      intro w
      rw [← slot_waiting s l w, hs']
      unfold slot
      rw [slots_addWatcher]
    have hnew : ∀ l', newSlots s s' l' = if l' = l then [.slot ⟨s.slots.size⟩] else [] := by
      intro l'
      have hone : List.range' s.slots.size 1 = [s.slots.size] := rfl
      unfold newSlots
      rw [hsize, Nat.add_sub_cancel_left, hone]
      by_cases hl : l' = l
      · simp [hslot, hl]
      · simp [hslot, hl, Ne.symm hl]
    show s.Registers s'
    refine ⟨by omega, fun w hw => ?_, fun w hold hw => ?_, fun l' path state => ?_, fun l' => ?_⟩
    · rw [hslot, if_neg (Nat.ne_of_lt hw)]
    · have hindex : w.index = s.slots.size := by
        unfold SlotKnown at hold hw
        omega
      rw [hslot, if_pos hindex]
      exact ⟨rfl, hpending⟩
    · rw [hs', shape_addWatcher]
      exact .rfl
    · rw [hnew, hs', watchers_addWatcher _ (s := s.waiting l) hpending]
      rfl
  · exact .refl s

/-- Looking types up and adding them does nothing to lazy types but register slots. -/
theorem framed_registers : Framed Registers :=
  .of_push .refl .trans registers_wrap fun {_ _ form} htypes hslots hform =>
    registers_of_push htypes hslots (by cases form <;> simp_all [isDerived])

end PythonTypes.TypeStore
