import Mathlib.Logic.Relation
import Mathlib.Tactic.Set
import PythonTypes.Types.Union
import PythonTypes.Proofs.Data.OrderedMap

/-!
# What holds of every store of types

A store is well formed if the ids in it exist, unions are built from earlier types, and the tables
lead to the types they were made for. It grows (`Grows`) when types, slots and entries of the tables
are added and nothing is resolved: what a type is then stays as it was, except that more may wait
for it.
-/

set_option autoImplicit false

namespace PythonTypes

/-- What a type is, whoever waits for it. -/
def TypeForm.unwatched : TypeForm → TypeForm
  | .lazy path (.pending _) => .lazy path (.pending [])
  | form => form

theorem TypeForm.unwatched_eq_iff {f g : TypeForm} (hg : ∀ path ws, g ≠ .lazy path (.pending ws)) :
    f.unwatched = g ↔ f = g := by
  cases f with
  | lazy path state =>
    cases state with
    | pending ws =>
      constructor
      · intro h
        exact absurd h.symm (hg path [])
      · grind
    | resolved target => rfl
  | _ => rfl

namespace TypeStore

variable {cs : List TypeId} {path : String} {s s' : TypeStore} {t target u : TypeId}
variable {w : SlotId} {form : TypeForm} {state old : LazyState}

/-- Whether a type exists. -/
def Known (s : TypeStore) (t : TypeId) : Prop := t.index < s.size

/-- Whether a slot exists. -/
def SlotKnown (s : TypeStore) (w : SlotId) : Prop := w.index < s.slots.size

instance (s : TypeStore) (t : TypeId) : Decidable (s.Known t) := inferInstanceAs (Decidable (_ < _))

instance (s : TypeStore) (w : SlotId) : Decidable (s.SlotKnown w) := inferInstanceAs (Decidable (_ < _))

/-- What a type is, whoever waits for it. -/
def shape (s : TypeStore) (t : TypeId) : TypeForm := (s.form t).unwatched

theorem shape_eq_iff {f : TypeForm} (hf : ∀ path ws, f ≠ .lazy path (.pending ws)) : s.shape t = f ↔ s.form t = f :=
  TypeForm.unwatched_eq_iff hf

theorem isPending_iff : s.isPending t = true ↔ ∃ path, s.shape t = .lazy path (.pending []) := by
  unfold isPending shape TypeForm.unwatched
  cases s.form t with
  | lazy path state => cases state <;> simp
  | _ => simp

theorem isPending_of_shape {ws : List Watcher} (h : s.shape t = .lazy path (.pending ws)) : s.isPending t = true := by
  grind [shape, TypeForm.unwatched, isPending]

theorem lazyTarget?_eq_some_iff : s.lazyTarget? t = some u ↔ ∃ path, s.shape t = .lazy path (.resolved u) := by
  unfold lazyTarget? shape TypeForm.unwatched
  cases s.form t with
  | lazy path state => cases state <;> simp
  | _ => simp

theorem candidates?_eq_some_iff : s.candidates? t = some cs ↔ s.shape t = .union cs ∨ s.shape t = .lazyUnion cs := by
  unfold candidates? shape TypeForm.unwatched
  cases s.form t with
  | lazy path state => cases state <;> simp
  | _ => simp

section Congruence

theorem isPending_congr (h : s'.shape t = s.shape t) : s'.isPending t = s.isPending t := by
  grind [isPending_iff]

theorem lazyTarget?_congr (h : s'.shape t = s.shape t) : s'.lazyTarget? t = s.lazyTarget? t := by
  refine Option.ext fun u => ?_
  grind [lazyTarget?_eq_some_iff]

theorem candidates?_congr (h : s'.shape t = s.shape t) : s'.candidates? t = s.candidates? t := by
  refine Option.ext fun cs => ?_
  grind [candidates?_eq_some_iff]

end Congruence

/-- Whether a type is resolved to another, or is a union with the other as a candidate. -/
def Unfolds (s : TypeStore) (t u : TypeId) : Prop :=
  s.lazyTarget? t = some u ∨ ∃ cs, s.candidates? t = some cs ∧ u ∈ cs

theorem unfolds_congr (h : s'.shape t = s.shape t) : s'.Unfolds t u ↔ s.Unfolds t u := by
  unfold Unfolds
  rw [lazyTarget?_congr h, candidates?_congr h]

/-- Whether the ids by which a new type refers to others exist, as far as they are ever followed. -/
def Admits (s : TypeStore) : TypeForm → Prop
  | .union cs => ∀ c ∈ cs, s.Known c
  | .lazyUnion cs => ∀ c ∈ cs, s.Known c
  | .lazy _ (.resolved target) => s.Known target
  | .object (.slot w) => s.SlotKnown w
  | _ => True

instance (s : TypeStore) (form : TypeForm) : Decidable (s.Admits form) := by
  unfold Admits
  split <;> infer_instance

/-- The candidates of a union in increasing order, by which it is interned. -/
def unionKey (cs : List TypeId) : List TypeId := cs.mergeSort fun a b => a.index ≤ b.index

/-- A store whose ids exist, whose unions are built from earlier types, and whose tables lead to the
types that they were made for. -/
structure WellFormed (s : TypeStore) : Prop where
  size_pos : 0 < s.size
  unknown_first : s.shape .unknown = .unknown
  candidates_descend : ∀ t cs, s.candidates? t = some cs → ∀ c ∈ cs, c.index < t.index
  target_known : ∀ t u, s.lazyTarget? t = some u → s.Known u
  slot_known : ∀ w, s.Known (s.slot w).lazy ∧ s.Known (s.slot w).target
  object_known : ∀ t w, s.shape t = .object (.slot w) → s.SlotKnown w
  instances : ∀ c x, s.instances.get? c = some x → s.shape x = .object (.direct c)
  lazyInstances : ∀ l x, s.lazyInstances.get? l = some x →
    ∃ w, s.shape x = .object (.slot w) ∧ (s.slot w).lazy = l
  unions : ∀ key u, s.unions.get? key = some u →
    ∃ cs, s.candidates? u = some cs ∧ unionKey cs = key ∧ cs.Nodup ∧ 2 ≤ cs.length ∧
      (s.shape u = .lazyUnion cs → ∃ c ∈ cs, ∃ path state, s.shape c = .lazy path state)
  imports : ∀ path x, s.imports.get? path = some x → s.shape x = .unresolvedImport path

/-- One store has grown to the other, with nothing resolved in between. -/
structure Grows (s s' : TypeStore) : Prop where
  size_le : s.size ≤ s'.size
  slots_le : s.slots.size ≤ s'.slots.size
  shape_eq : ∀ t, s.Known t → s'.shape t = s.shape t
  slot_eq : ∀ w, s.SlotKnown w → s'.slot w = s.slot w
  instances : ∀ c x, s.instances.get? c = some x → s'.instances.get? c = some x
  lazyInstances : ∀ l x, s.lazyInstances.get? l = some x → s'.lazyInstances.get? l = some x
  unions : ∀ key u, s.unions.get? key = some u → s'.unions.get? key = some u
  fresh_descends : ∀ t u, ¬ s.Known t → s'.Unfolds t u → u.index < t.index
  fresh_offers : ∀ t cs, ¬ s.Known t → s'.candidates? t = some cs → cs ≠ []
  fresh_waits : ∀ w, ¬ s.SlotKnown w → (s'.slot w).isResolved = false

theorem shape_of_not_known (h : ¬ s.Known t) : s.shape t = .unknown := by
  have hform : s.form t = .unknown := by
    unfold form
    rw [Array.getD_eq_getD_getElem?, Array.getElem?_eq_none (Nat.le_of_not_lt h)]
    rfl
  rw [shape, hform]
  rfl

theorem known_of_shape (h : s.shape t ≠ .unknown) : s.Known t :=
  Decidable.not_not.1 fun hnot => h (shape_of_not_known hnot)

theorem slot_of_not_known (h : ¬ s.SlotKnown w) : s.slot w = ⟨.unknown, .unknown⟩ := by
  unfold slot
  rw [Array.getD_eq_getD_getElem?, Array.getElem?_eq_none (Nat.le_of_not_lt h)]
  rfl

theorem known_of_candidates (h : s.candidates? t = some cs) : s.Known t := by
  rcases candidates?_eq_some_iff.1 h with h | h <;> exact known_of_shape (by rw [h]; simp)

theorem known_of_unfolds (h : s.Unfolds t u) : s.Known t := by
  rcases h with h | ⟨cs, h, -⟩
  · grind [lazyTarget?_eq_some_iff, known_of_shape]
  · exact known_of_candidates h

theorem WellFormed.unknown_known (h : s.WellFormed) : s.Known .unknown := h.size_pos

theorem WellFormed.unfolds_known (h : s.WellFormed) (htu : s.Unfolds t u) : s.Known u := by
  rcases htu with htarget | ⟨cs, hcs, hu⟩
  · exact h.target_known t u htarget
  · exact Nat.lt_trans (h.candidates_descend t cs hcs u hu) (known_of_candidates hcs)

namespace Grows

theorem refl (s : TypeStore) : s.Grows s where
  size_le := Nat.le_refl _
  slots_le := Nat.le_refl _
  shape_eq _ _ := rfl
  slot_eq _ _ := rfl
  instances _ _ h := h
  lazyInstances _ _ h := h
  unions _ _ h := h
  fresh_descends _ _ hnot h := absurd (known_of_unfolds h) hnot
  fresh_offers _ _ hnot h := absurd (known_of_candidates h) hnot
  fresh_waits w hnot := by
    rw [slot_of_not_known hnot]
    rfl

theorem known (h : s.Grows s') {t : TypeId} (ht : s.Known t) : s'.Known t :=
  Nat.lt_of_lt_of_le ht h.size_le

theorem slotKnown (h : s.Grows s') (hw : s.SlotKnown w) : s'.SlotKnown w :=
  Nat.lt_of_lt_of_le hw h.slots_le

theorem trans {s'' : TypeStore} (h : s.Grows s') (h' : s'.Grows s'') : s.Grows s'' where
  size_le := Nat.le_trans h.size_le h'.size_le
  slots_le := Nat.le_trans h.slots_le h'.slots_le
  shape_eq t ht := (h'.shape_eq t (h.known ht)).trans (h.shape_eq t ht)
  slot_eq w hw := (h'.slot_eq w (h.slotKnown hw)).trans (h.slot_eq w hw)
  instances c x hx := h'.instances c x (h.instances c x hx)
  lazyInstances l x hx := h'.lazyInstances l x (h.lazyInstances l x hx)
  unions key u hu := h'.unions key u (h.unions key u hu)
  fresh_descends t u hnot hu := by
    by_cases ht : s'.Known t
    · exact h.fresh_descends t u hnot ((unfolds_congr (h'.shape_eq t ht)).1 hu)
    · exact h'.fresh_descends t u ht hu
  fresh_offers t cs hnot hcs := by
    grind [fresh_offers, candidates?_congr, shape_eq]
  fresh_waits w hnot := by
    by_cases hw : s'.SlotKnown w
    · rw [h'.slot_eq w hw]
      exact h.fresh_waits w hnot
    · exact h'.fresh_waits w hw

end Grows

/-- The store with one more type. -/
def added (s : TypeStore) (form : TypeForm) : TypeStore := { s with types := s.types.push form }

/-- The id of the next type. -/
def fresh (s : TypeStore) : TypeId := ⟨s.size⟩

@[simp] theorem size_added (s : TypeStore) (form : TypeForm) : (s.added form).size = s.size + 1 :=
  Array.size_push form

theorem not_known_fresh (s : TypeStore) : ¬ s.Known s.fresh := Nat.lt_irrefl _

theorem known_added_iff : (s.added form).Known t ↔ s.Known t ∨ t = s.fresh := by
  obtain ⟨i⟩ := t
  grind [Known, fresh, size_added]

@[simp] theorem shape_added_fresh (s : TypeStore) (form : TypeForm) : (s.added form).shape s.fresh = form.unwatched := by
  unfold shape TypeStore.form added fresh size
  rw [Array.getD_eq_getD_getElem?, Array.getElem?_push_size]
  rfl

theorem shape_added_of_ne (s : TypeStore) (form : TypeForm) (ht : t ≠ s.fresh) : (s.added form).shape t = s.shape t := by
  have hindex : t.index ≠ s.types.size := fun h => ht (congrArg TypeId.mk h)
  unfold shape TypeStore.form added
  rw [Array.getD_eq_getD_getElem?, Array.getD_eq_getD_getElem?, Array.getElem?_push, if_neg hindex]

theorem shape_added_of_known (s : TypeStore) (form : TypeForm) (ht : s.Known t) : (s.added form).shape t = s.shape t :=
  shape_added_of_ne s form fun h => s.not_known_fresh (h ▸ ht)

theorem known_of_unfolds_fresh (hform : s.Admits form) (h : (s.added form).Unfolds s.fresh u) : s.Known u := by
  have hshape := s.shape_added_fresh form
  rcases h with h | ⟨cs, h, hu⟩
  · obtain ⟨path, h⟩ := lazyTarget?_eq_some_iff.1 h
    rw [hshape, TypeForm.unwatched_eq_iff (by simp)] at h
    subst h
    exact hform
  · rw [candidates?_eq_some_iff, hshape, TypeForm.unwatched_eq_iff (by simp), TypeForm.unwatched_eq_iff (by simp)] at h
    rcases h with rfl | rfl <;> exact hform u hu

theorem WellFormed.added (h : s.WellFormed) (form : TypeForm) (hform : s.Admits form) : (s.added form).WellFormed := by
  have hknown : ∀ {t}, s.Known t → (s.added form).Known t := fun ht => known_added_iff.2 (.inl ht)
  -- what the tables lead to exists, so it is not the new type
  have hkept : ∀ {t f}, f ≠ .unknown → s.shape t = f → (s.added form).shape t = f := fun hf ht =>
    (s.shape_added_of_known form (known_of_shape (ht ▸ hf))).trans ht
  refine ⟨by rw [size_added]; omega, ?_, fun t cs hcs c hc => ?_, fun t u hu => ?_, fun w => ?_,
    fun t w ht => ?_, fun c x hx => hkept (by simp) (h.instances c x hx), fun l x hx => ?_,
    fun key u hu => ?_, fun path x hx => hkept (by simp) (h.imports path x hx)⟩
  · rw [s.shape_added_of_known form h.unknown_known]
    exact h.unknown_first
  · by_cases ht : t = s.fresh
    · subst ht
      exact known_of_unfolds_fresh hform (.inr ⟨cs, hcs, hc⟩)
    · rw [candidates?_congr (s.shape_added_of_ne form ht)] at hcs
      exact h.candidates_descend t cs hcs c hc
  · by_cases ht : t = s.fresh
    · subst ht
      exact hknown (known_of_unfolds_fresh hform (.inl hu))
    · rw [lazyTarget?_congr (s.shape_added_of_ne form ht)] at hu
      exact hknown (h.target_known t u hu)
  · exact ⟨hknown (h.slot_known w).1, hknown (h.slot_known w).2⟩
  · by_cases hfresh : t = s.fresh
    · subst hfresh
      rw [shape_added_fresh, TypeForm.unwatched_eq_iff (by simp)] at ht
      subst ht
      exact hform
    · rw [s.shape_added_of_ne form hfresh] at ht
      exact h.object_known t w ht
  · obtain ⟨w, hw, hlazy⟩ := h.lazyInstances l x hx
    exact ⟨w, hkept (by simp) hw, hlazy⟩
  · obtain ⟨cs, hcs, hkey, hnodup, hlength, hlazy⟩ := h.unions key u hu
    grind [shape_added_of_known, known_of_candidates, candidates?_congr]

theorem grows_added (form : TypeForm) (hform : s.Admits form) (hunion : form ≠ .union [])
    (hlazyUnion : form ≠ .lazyUnion []) : s.Grows (s.added form) where
  size_le := by rw [size_added]; omega
  slots_le := Nat.le_refl _
  shape_eq _ ht := s.shape_added_of_known form ht
  slot_eq _ _ := rfl
  instances _ _ h := h
  lazyInstances _ _ h := h
  unions _ _ h := h
  fresh_descends t u hnot hu := by
    obtain rfl : t = s.fresh := (known_added_iff.1 (known_of_unfolds hu)).resolve_left hnot
    exact known_of_unfolds_fresh hform hu
  fresh_offers t cs hnot hcs := by
    obtain rfl : t = s.fresh := (known_added_iff.1 (known_of_candidates hcs)).resolve_left hnot
    rw [candidates?_eq_some_iff, shape_added_fresh, TypeForm.unwatched_eq_iff (by simp),
      TypeForm.unwatched_eq_iff (by simp)] at hcs
    rintro rfl
    exact hcs.elim hunion hlazyUnion
  fresh_waits w hnot := (Grows.refl s).fresh_waits w hnot

/-! ## The tables -/

theorem grows_of_shapes (hsize : s'.size = s.size) (hslots : s'.slots = s.slots) (hshape : ∀ t, s'.shape t = s.shape t)
    (hinstances : ∀ c x, s.instances.get? c = some x → s'.instances.get? c = some x)
    (hlazyInstances : ∀ l x, s.lazyInstances.get? l = some x → s'.lazyInstances.get? l = some x)
    (hunions : ∀ key u, s.unions.get? key = some u → s'.unions.get? key = some u) : s.Grows s' := by
  have hslot : ∀ w, s'.slot w = s.slot w := fun w => by
    unfold slot
    rw [hslots]
  refine ⟨Nat.le_of_eq hsize.symm, Nat.le_of_eq (hslots ▸ rfl), fun t _ => hshape t,
    fun w _ => hslot w, hinstances, hlazyInstances, hunions, ?_, ?_, ?_⟩
  · intro t u hnot hu
    exact absurd (known_of_unfolds ((unfolds_congr (hshape t)).1 hu)) hnot
  · grind [known_of_candidates, candidates?_congr]
  · intro w hnot
    rw [hslot]
    exact (Grows.refl s).fresh_waits w hnot

theorem internInstance_apply (cls : TypeId) (s : TypeStore) :
    internInstance cls s = match s.instances.get? cls with
      | some x => (x, s)
      | none => (s.fresh, { s.added (.object (.direct cls)) with instances := s.instances.insert cls s.fresh }) := by
  show (match s.instances.get? cls with | some _ => _ | none => _ : StoreM TypeId) s = _
  cases s.instances.get? cls <;> rfl

theorem internLazyInstance_apply (lazy : TypeId) (cls : TypeRef) (s : TypeStore) :
    internLazyInstance lazy cls s = match s.lazyInstances.get? lazy with
      | some x => (x, s)
      | none => (s.fresh, { s.added (.object cls) with lazyInstances := s.lazyInstances.insert lazy s.fresh }) := by
  show (match s.lazyInstances.get? lazy with | some _ => _ | none => _ : StoreM TypeId) s = _
  cases s.lazyInstances.get? lazy <;> rfl

/-- The new union of candidates of which there are at least two. -/
def unionForm (s : TypeStore) (cs : List TypeId) : TypeForm := if cs.any s.isPending then .lazyUnion cs else .union cs

theorem internUnion_apply (c d : TypeId) (rest : List TypeId) (s : TypeStore) :
    internUnion (c :: d :: rest) s = match s.unions.get? (unionKey (c :: d :: rest)) with
      | some u => (u, s)
      | none => (s.fresh, { s.added (s.unionForm (c :: d :: rest)) with
          unions := s.unions.insert (unionKey (c :: d :: rest)) s.fresh }) := by
  show (match s.unions.get? (unionKey (c :: d :: rest)) with | some _ => _ | none => _ : StoreM TypeId) s = _
  cases s.unions.get? (unionKey (c :: d :: rest)) <;> rfl

theorem internInstance_spec (h : s.WellFormed) (cls : TypeId) :
    ∃ x s', internInstance cls s = (x, s') ∧ s'.WellFormed ∧ s.Grows s' ∧ s'.instances.get? cls = some x := by
  rw [internInstance_apply]
  cases hget : s.instances.get? cls with
  | some x => exact ⟨x, s, rfl, h, .refl s, hget⟩
  | none =>
    have hadded := h.added (.object (.direct cls)) trivial
    refine ⟨_, _, rfl, ?_, ?_, OrderedMap.get?_insert_self _ _ _⟩
    · refine { hadded with instances := fun c x hx => ?_ }
      rcases OrderedMap.get?_insert_cases hx with ⟨rfl, rfl⟩ | hx
      · exact s.shape_added_fresh _
      · exact hadded.instances c x hx
    · exact (grows_added (.object (.direct cls)) trivial (by simp) (by simp)).trans
        (grows_of_shapes rfl rfl (fun _ => rfl) (fun c x => OrderedMap.get?_insert_of_absent hget)
          (fun _ _ h => h) fun _ _ h => h)

theorem internLazyInstance_spec (h : s.WellFormed) (hw : s.SlotKnown w) :
    ∃ x s', internLazyInstance (s.slot w).lazy (.slot w) s = (x, s') ∧ s'.WellFormed ∧ s.Grows s' ∧
      s'.lazyInstances.get? (s.slot w).lazy = some x := by
  rw [internLazyInstance_apply]
  cases hget : s.lazyInstances.get? (s.slot w).lazy with
  | some x => exact ⟨x, s, rfl, h, .refl s, hget⟩
  | none =>
    have hadded := h.added (.object (.slot w)) hw
    refine ⟨_, _, rfl, ?_, ?_, OrderedMap.get?_insert_self _ _ _⟩
    · refine { hadded with lazyInstances := fun l x hx => ?_ }
      rcases OrderedMap.get?_insert_cases hx with ⟨rfl, rfl⟩ | hx
      · exact ⟨w, s.shape_added_fresh _, rfl⟩
      · exact hadded.lazyInstances l x hx
    · exact (grows_added (.object (.slot w)) hw (by simp) (by simp)).trans
        (grows_of_shapes rfl rfl (fun _ => rfl) (fun _ _ h => h)
          (fun l x => OrderedMap.get?_insert_of_absent hget) fun _ _ h => h)

/-- Whether a type is what types without repetitions, none of them a union or unknown, are joined
to. -/
def Joins (s : TypeStore) : List TypeId → TypeId → Prop
  | [], u => u = .unknown
  | [x], u => u = x
  | cs, u => s.unions.get? (unionKey cs) = some u

theorem unionForm_cases (s : TypeStore) (cs : List TypeId) :
    s.unionForm cs = .union cs ∨ s.unionForm cs = .lazyUnion cs ∧ ∃ c ∈ cs, s.isPending c = true := by
  grind [unionForm]

theorem internUnion_spec (h : s.WellFormed) (hknown : ∀ c ∈ cs, s.Known c)
    (hnodup : cs.Nodup) : ∃ u s', internUnion cs s = (u, s') ∧ s'.WellFormed ∧ s.Grows s' ∧ s'.Joins cs u := by
  rcases cs with _ | ⟨c, _ | ⟨d, rest⟩⟩
  · exact ⟨.unknown, s, rfl, h, .refl s, rfl⟩
  · exact ⟨c, s, rfl, h, .refl s, rfl⟩
  · have hform := s.unionForm_cases (c :: d :: rest)
    rw [internUnion_apply]
    cases hget : s.unions.get? (unionKey (c :: d :: rest)) with
    | some u => exact ⟨u, s, rfl, h, .refl s, hget⟩
    | none =>
      have hadmits : s.Admits (s.unionForm (c :: d :: rest)) := by
        rcases hform with hform | ⟨hform, -⟩ <;> rw [hform] <;> exact hknown
      have hadded := h.added _ hadmits
      have hshape : (s.added (s.unionForm (c :: d :: rest))).shape s.fresh = s.unionForm (c :: d :: rest) := by
        rw [shape_added_fresh]
        rcases hform with hform | ⟨hform, -⟩ <;> rw [hform] <;> rfl
      refine ⟨_, _, rfl, ?_, ?_, OrderedMap.get?_insert_self _ _ _⟩
      · refine { hadded with unions := fun key u hu => ?_ }
        rcases OrderedMap.get?_insert_cases hu with ⟨rfl, rfl⟩ | hu
        · refine ⟨c :: d :: rest, candidates?_eq_some_iff.2 ?_, rfl, hnodup, by simp, fun hlazy => ?_⟩
          · rcases hform with hform | ⟨hform, -⟩
            · exact .inl (hshape.trans hform)
            · exact .inr (hshape.trans hform)
          · rcases hform with hform | ⟨-, x, hx, hpending⟩
            · exact absurd (hlazy.symm.trans (hshape.trans hform)) (by simp)
            · obtain ⟨path, hpath⟩ := isPending_iff.1 hpending
              exact ⟨x, hx, path, _, (s.shape_added_of_known _ (hknown x hx)).trans hpath⟩
        · exact hadded.unions key u hu
      · refine (grows_added _ hadmits ?_ ?_).trans (grows_of_shapes rfl rfl (fun _ => rfl)
          (fun _ _ h => h) (fun _ _ h => h) fun key u => OrderedMap.get?_insert_of_absent hget)
        · rcases hform with hform | ⟨hform, -⟩ <;> rw [hform] <;> simp
        · rcases hform with hform | ⟨hform, -⟩ <;> rw [hform] <;> simp

/-! ## Lazy types and slots -/

theorem WellFormed.derefLazy_known (h : s.WellFormed) (ht : s.Known t) : s.Known (s.derefLazy t) := by
  unfold derefLazy
  generalize s.size = fuel
  induction fuel generalizing t with
  | zero => exact ht
  | succ fuel ih =>
    grind [derefWithin, target_known]

theorem size_setForm (s : TypeStore) (t : TypeId) (form : TypeForm) : (s.setForm t form).size = s.size :=
  Array.size_setIfInBounds

theorem shape_setForm_of_ne (s : TypeStore) (form : TypeForm) (hu : u ≠ t) : (s.setForm t form).shape u = s.shape u := by
  have hindex : t.index ≠ u.index := fun h => hu (congrArg TypeId.mk h.symm)
  unfold shape TypeStore.form setForm
  simp_all

theorem shape_setForm_self (s : TypeStore) (form : TypeForm) (ht : s.Known t) :
    (s.setForm t form).shape t = form.unwatched := by
  unfold shape TypeStore.form setForm
  rw [Array.getD_eq_getD_getElem?, Array.getElem?_setIfInBounds_self_of_lt ht]
  rfl

theorem known_of_form (h : s.form t = .lazy path state) : s.Known t := by
  refine known_of_shape ?_
  unfold shape
  rw [h]
  cases state <;> simp [TypeForm.unwatched]

/-- Whether a form stays as it is: lazy types are resolved, and modules and classes get members. -/
def isFixed : TypeForm → Bool
  | .lazy _ _ | .ofModule _ | .ofClass _ => false
  | _ => true

/-- A type may get another form, as long as forms that stay as they are do so, and no lazy type is
resolved to a type that does not exist. -/
theorem WellFormed.setForm (h : s.WellFormed)
    (hshape : ∀ u f, isFixed f = true → ((s.setForm t form).shape u = f ↔ s.shape u = f))
    (htarget : ∀ u v, (s.setForm t form).lazyTarget? u = some v → s.Known v)
    (hlazy : ∀ u path state, s.shape u = .lazy path state → ∃ path state, (s.setForm t form).shape u = .lazy path state) :
    (s.setForm t form).WellFormed := by
  have hsize := s.size_setForm t form
  have hknown : ∀ {u}, s.Known u → (s.setForm t form).Known u := fun hu => Nat.lt_of_lt_of_eq hu hsize.symm
  have hcandidates : ∀ u, (s.setForm t form).candidates? u = s.candidates? u := by
    intro u
    refine Option.ext fun cs => ?_
    rw [candidates?_eq_some_iff, candidates?_eq_some_iff, hshape u _ rfl, hshape u _ rfl]
  refine ⟨hsize ▸ h.size_pos, (hshape _ _ rfl).2 h.unknown_first, fun u cs hcs =>
    h.candidates_descend u cs (hcandidates u ▸ hcs),
    fun u v hv => hknown (htarget u v hv), fun w => ⟨hknown (h.slot_known w).1, hknown (h.slot_known w).2⟩,
    fun u w hu => h.object_known u w ((hshape u _ rfl).1 hu), fun c x hx =>
      (hshape x _ rfl).2 (h.instances c x hx), fun l x hx => ?_,
    fun key u hu => ?_, fun path x hx => (hshape x _ rfl).2 (h.imports path x hx)⟩
  · obtain ⟨w, hw, hslot⟩ := h.lazyInstances l x hx
    exact ⟨w, (hshape x _ rfl).2 hw, hslot⟩
  · obtain ⟨cs, hcs, hkey, hnodup, hlength, hpending⟩ := h.unions key u hu
    refine ⟨cs, (hcandidates u).trans hcs, hkey, hnodup, hlength, fun hunion => ?_⟩
    obtain ⟨c, hc, path, state, hstate⟩ := hpending ((hshape u _ rfl).1 hunion)
    exact ⟨c, hc, hlazy c path state hstate⟩

/-- A lazy type may get another state, as long as it is not resolved to a type that does not
exist. -/
theorem WellFormed.setLazy (h : s.WellFormed)
    (ht : s.form t = .lazy path old) (state : LazyState) (hstate : ∀ u, state = .resolved u → s.Known u) :
    (s.setForm t (.lazy path state)).WellFormed := by
  have hself := s.shape_setForm_self (.lazy path state) (known_of_form ht)
  have hlazy : ∀ st : LazyState, ∃ st', (TypeForm.lazy path st).unwatched = .lazy path st' := fun st => by
    cases st <;> exact ⟨_, rfl⟩
  obtain ⟨st, hst⟩ := hlazy state
  obtain ⟨st', hst'⟩ := hlazy old
  refine h.setForm (fun u f hf => ?_) (fun u v hv => ?_) fun u p last hu => ?_ <;> by_cases heq : u = t
  · have hne : ∀ p st, f ≠ .lazy p st := by
      rintro p st rfl
      cases hf
    grind [shape]
  · rw [s.shape_setForm_of_ne _ heq]
  · simp_all [lazyTarget?_eq_some_iff, TypeForm.unwatched_eq_iff]
  · exact h.target_known u v (lazyTarget?_congr (s.shape_setForm_of_ne _ heq) ▸ hv)
  · exact ⟨path, st, by rw [heq, hself, hst]⟩
  · exact ⟨p, last, (s.shape_setForm_of_ne _ heq).trans hu⟩

theorem shape_addWatcher (s : TypeStore) (t : TypeId) (w : Watcher) (u : TypeId) : (s.addWatcher t w).shape u = s.shape u := by
  unfold addWatcher
  split
  · rename_i path watchers ht
    by_cases hu : u = t
    · rw [hu, s.shape_setForm_self _ (known_of_form ht), shape, ht]
      rfl
    · exact s.shape_setForm_of_ne _ hu
  · rfl

theorem WellFormed.addWatcher (h : s.WellFormed) (t : TypeId) (w : Watcher) : (s.addWatcher t w).WellFormed := by
  unfold TypeStore.addWatcher
  split
  · rename_i path watchers ht
    exact h.setLazy ht _ (by simp)
  · exact h

theorem grows_addWatcher (s : TypeStore) (t : TypeId) (w : Watcher) : s.Grows (s.addWatcher t w) := by
  have hshape := s.shape_addWatcher t w
  unfold TypeStore.addWatcher at hshape ⊢
  split at hshape
  · exact grows_of_shapes (s.size_setForm t _) rfl hshape (fun _ _ h => h) (fun _ _ h => h) fun _ _ h => h
  · exact .refl s

/-- The store with one more slot, which waits for a lazy type. -/
def waiting (s : TypeStore) (lazy : TypeId) : TypeStore := { s with slots := s.slots.push ⟨lazy, lazy⟩ }

theorem slot_waiting (s : TypeStore) (lazy : TypeId) (w : SlotId) :
    (s.waiting lazy).slot w = if w.index = s.slots.size then ⟨lazy, lazy⟩ else s.slot w := by
  unfold slot waiting
  rw [Array.getD_eq_getD_getElem?, Array.getD_eq_getD_getElem?, Array.getElem?_push]
  split <;> rfl

theorem grows_waiting (s : TypeStore) (lazy : TypeId) : s.Grows (s.waiting lazy) := by
  refine { Grows.refl s with slots_le := ?_, slot_eq := fun w hw => ?_, fresh_waits := fun w hnot => ?_ }
  · show s.slots.size ≤ (s.slots.push _).size
    rw [Array.size_push]
    omega
  · rw [slot_waiting, if_neg (Nat.ne_of_lt hw)]
  · rw [slot_waiting]
    split
    · simp [Slot.isResolved]
    · exact (Grows.refl s).fresh_waits w hnot

theorem WellFormed.waiting (h : s.WellFormed) {lazy : TypeId} (hlazy : s.Known lazy) : (s.waiting lazy).WellFormed := by
  refine { h with
    slot_known := fun w => ?_
    object_known := fun t w ht => (s.grows_waiting lazy).slotKnown (h.object_known t w ht)
    lazyInstances := fun l x hx => ?_ }
  · rw [slot_waiting]
    split
    · exact ⟨hlazy, hlazy⟩
    · exact h.slot_known w
  · obtain ⟨w, hw, hl⟩ := h.lazyInstances l x hx
    exact ⟨w, hw, ((s.grows_waiting lazy).slot_eq w (h.object_known x w hw)).symm ▸ hl⟩

/-- Whether a reference exists. -/
def RefKnown (s : TypeStore) : TypeRef → Prop
  | .direct t => s.Known t
  | .slot w => s.SlotKnown w

instance (s : TypeStore) : (cls : TypeRef) → Decidable (s.RefKnown cls)
  | .direct t => inferInstanceAs (Decidable (s.Known t))
  | .slot w => inferInstanceAs (Decidable (s.SlotKnown w))

theorem wrap_apply (t : TypeId) (s : TypeStore) : wrap t s = if s.isPending (s.derefLazy t) then
        (.slot ⟨s.slots.size⟩, (s.waiting (s.derefLazy t)).addWatcher (s.derefLazy t) (.slot ⟨s.slots.size⟩))
      else (.direct (s.derefLazy t), s) := by
  show (if s.isPending (s.derefLazy t) then _ else _ : StoreM TypeRef) s = _
  split <;> rfl

theorem wrap_spec (h : s.WellFormed) (ht : s.Known t) :
    ∃ cls s', wrap t s = (cls, s') ∧ s'.WellFormed ∧ s.Grows s' ∧ s'.RefKnown cls ∧
      (s.isPending (s.derefLazy t) = true → s'.awaited? cls = some (s.derefLazy t)) := by
  rw [wrap_apply]
  have hknown := h.derefLazy_known ht
  split
  · have hgrows := (s.waiting (s.derefLazy t)).grows_addWatcher (s.derefLazy t) (.slot ⟨s.slots.size⟩)
    have hnew : (s.waiting (s.derefLazy t)).SlotKnown ⟨s.slots.size⟩ := by
      show s.slots.size < (s.slots.push _).size
      rw [Array.size_push]
      omega
    refine ⟨_, _, rfl, (h.waiting hknown).addWatcher _ _, (s.grows_waiting _).trans hgrows,
      hgrows.slotKnown hnew, fun _ => ?_⟩
    unfold awaited?
    dsimp only
    rw [hgrows.slot_eq _ hnew, slot_waiting, if_pos rfl]
    simp [Slot.isResolved]
  · rename_i hpending
    exact ⟨_, _, rfl, h, .refl s, hknown, fun hp => absurd hp hpending⟩

/-! ## Resolution -/

/-- The store with a slot pointed at another type. -/
def redirected (s : TypeStore) (id : SlotId) (target : TypeId) : TypeStore :=
  { s with slots := s.slots.setIfInBounds id.index { s.slot id with target } }

theorem slot_redirected (s : TypeStore) (id w : SlotId) (target : TypeId) : (s.redirected id target).slot w =
      if w = id ∧ s.SlotKnown id then { s.slot id with target } else s.slot w := by
  obtain ⟨i⟩ := id
  obtain ⟨j⟩ := w
  unfold slot redirected SlotKnown
  rw [Array.getD_eq_getD_getElem?, Array.getD_eq_getD_getElem?, Array.getElem?_setIfInBounds]
  by_cases hij : i = j
  · subst hij
    by_cases hi : i < s.slots.size
    · simp [hi, slot]
    · simp [hi]
  · have hji : ¬ (SlotId.mk j = SlotId.mk i) := fun h => hij (SlotId.mk.inj h).symm
    simp [hij, hji]

theorem WellFormed.redirected (h : s.WellFormed) (id : SlotId) (htarget : s.Known target) :
    (s.redirected id target).WellFormed := by
  refine { h with
    slot_known := fun w => ?_
    object_known := fun t w ht => ?_
    lazyInstances := fun l x hx => ?_ }
  · rw [slot_redirected]
    split
    · exact ⟨(h.slot_known id).1, htarget⟩
    · exact h.slot_known w
  · have hw := h.object_known t w ht
    unfold SlotKnown TypeStore.redirected
    rwa [Array.size_setIfInBounds]
  · obtain ⟨w, hw, hl⟩ := h.lazyInstances l x hx
    refine ⟨w, hw, ?_⟩
    grind [slot_redirected]

theorem resolveSlot_eq_ok {id : SlotId} (h : s.resolveSlot id target = .ok s') : s' = s.redirected id target := by
  unfold resolveSlot at h
  dsimp only at h
  split at h
  · contradiction
  · exact (Except.ok.inj h).symm

theorem WellFormed.notify (target : TypeId) (watchers : List Watcher) {r : Resolution} (h : r.store.WellFormed)
    (htarget : r.store.Known target) : (TypeStore.notify target watchers r).store.WellFormed ∧
      (TypeStore.notify target watchers r).store.types = r.store.types := by
  induction watchers generalizing r with
  | nil => exact ⟨h, rfl⟩
  | cons w rest ih =>
    cases w with
    | listener tag => exact ih h htarget
    | slot id =>
      unfold TypeStore.notify
      split
      · rename_i store hstore
        obtain rfl := resolveSlot_eq_ok hstore
        exact ih (h.redirected id htarget) htarget
      · exact ⟨h, rfl⟩

theorem WellFormed.lazyGoal_known (h : s.WellFormed) (lazy : TypeId) (htarget : s.Known target) :
    s.Known (s.lazyGoal lazy target) := by
  grind [lazyGoal, unknown_known, derefLazy_known]

theorem candidates?_setForm {path' : String}
    (ht : s.form t = .lazy path old) (u : TypeId) : (s.setForm t (.lazy path' state)).candidates? u = s.candidates? u := by
  by_cases hu : u = t
  · subst hu
    have hbefore : s.candidates? u = none := by
      unfold candidates?
      rw [ht]
    have hafter : (s.setForm u (.lazy path' state)).shape u = _ := s.shape_setForm_self _ (known_of_form ht)
    rw [hbefore]
    refine Option.eq_none_iff_forall_not_mem.2 fun cs hcs => ?_
    rw [Option.mem_def, candidates?_eq_some_iff, hafter] at hcs
    cases state <;> rcases hcs with hcs | hcs <;> contradiction
  · exact candidates?_congr (s.shape_setForm_of_ne _ hu)

theorem WellFormed.resolveLazy (h : s.WellFormed) (lazy : TypeId) (htarget : s.Known target) :
    (s.resolveLazy lazy target).store.WellFormed ∧
      ∀ u, (s.resolveLazy lazy target).store.candidates? u = s.candidates? u := by
  unfold TypeStore.resolveLazy
  split
  · rename_i path watchers hform
    have hgoal := h.lazyGoal_known lazy htarget
    have hset := h.setLazy hform (.resolved (s.lazyGoal lazy target)) fun u hu => LazyState.resolved.inj hu ▸ hgoal
    obtain ⟨hstore, htypes⟩ := WellFormed.notify (s.lazyGoal lazy target) watchers
      (r := { store := s.setForm lazy (.lazy path (.resolved (s.lazyGoal lazy target))) }) hset
      (Nat.lt_of_lt_of_eq hgoal (s.size_setForm lazy _).symm)
    refine ⟨hstore, fun u => ?_⟩
    rw [← candidates?_setForm hform u]
    unfold candidates? TypeStore.form
    rw [htypes]
  · exact ⟨h, fun _ => rfl⟩
  · exact ⟨h, fun _ => rfl⟩

end TypeStore

end PythonTypes
