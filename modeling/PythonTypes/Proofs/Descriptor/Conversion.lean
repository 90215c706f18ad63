import PythonTypes.Descriptor.Convert
import PythonTypes.Proofs.Types.Following

/-!
# What descriptors call for

What converting a descriptor adds is known beforehand: lazy types for the paths that it refers to
(`Descriptor.paths`), and one class for each that it describes (`Descriptor.classCount`).
-/

set_option autoImplicit false

namespace PythonTypes

mutual

/-- The paths that a descriptor refers to. -/
def Descriptor.paths : Descriptor → List String
  | .ofClass _ path bases members _ _ => path.toList ++ bases ++ pathsAll members
  | .ofFunction f => f.path.toList ++ f.parameters.flatMap (·.hint.toList) ++ f.returns.toList ++ f.decorators
  | .ofVariable v => v.path.toList ++ v.hint.toList
  | .ambiguous _ path alternatives => path.toList ++ pathsAll alternatives
  | .unknown _ path => path.toList

/-- The paths that descriptors refer to. -/
def Descriptor.pathsAll : List Descriptor → List String
  | [] => []
  | d :: rest => d.paths ++ pathsAll rest

end

mutual

/-- Number of classes that a descriptor describes. -/
def Descriptor.classCount : Descriptor → Nat
  | .ofClass _ _ _ members _ _ => classCountAll members + 1
  | .ambiguous _ _ alternatives => classCountAll alternatives
  | _ => 0

/-- Number of classes that descriptors describe. -/
def Descriptor.classCountAll : List Descriptor → Nat
  | [] => 0
  | d :: rest => d.classCount + classCountAll rest

end

namespace TypeStore

variable {path : String} {s s' : TypeStore}

/-- The classes of a store. -/
def classes (s : TypeStore) : Finset TypeId :=
  ((Finset.range s.size).image TypeId.mk).filter fun t => (s.form t).isClass = true

/-- The paths of the lazy types of a store. -/
def lazyPaths (s : TypeStore) : Finset String := (Finset.range s.size).biUnion fun i => (s.lazyPath? ⟨i⟩).toFinset

theorem mem_classes {t : TypeId} : t ∈ s.classes ↔ (s.form t).isClass = true := by
  unfold classes
  rw [Finset.mem_filter, Finset.mem_image]
  refine ⟨fun h => h.2, fun h => ⟨⟨t.index, Finset.mem_range.2 ?_, rfl⟩, h⟩⟩
  have hknown : s.Known t := by
    refine known_of_shape fun hshape => ?_
    rw [form_of_shape (by simp) hshape] at h
    contradiction
  exact hknown

theorem known_of_lazyPath? {l : TypeId} (h : s.lazyPath? l = some path) : s.Known l := by
  grind [lazyPath?, known_of_form]

theorem mem_lazyPaths : path ∈ s.lazyPaths ↔ ∃ l, s.lazyPath? l = some path := by
  unfold lazyPaths
  simp only [Finset.mem_biUnion, Finset.mem_range, Option.mem_toFinset, Option.mem_def]
  exact ⟨fun ⟨i, _, h⟩ => ⟨⟨i⟩, h⟩, fun ⟨l, h⟩ => ⟨l.index, known_of_lazyPath? h, h⟩⟩

/-- The path of a lazy type, by its form. -/
def pathOf? : TypeForm → Option String
  | .lazy path _ => some path
  | _ => none

theorem lazyPath?_eq_outline (s : TypeStore) (l : TypeId) : s.lazyPath? l = pathOf? (s.shape l).outline := by
  unfold lazyPath? shape
  rw [TypeForm.outline_unwatched]
  cases s.form l <;> rfl

theorem Evolves.lazyPath?_eq (h : s.Evolves s') {l : TypeId} (hl : s.lazyPath? l = some path) :
    s'.lazyPath? l = some path := by
  grind [lazyPath?_eq_outline, outline_eq, known_of_lazyPath?]

/-- Neither a class nor a lazy type is added. -/
def Quiet (s s' : TypeStore) : Prop :=
  ∀ t, (s'.form t).isClass = (s.form t).isClass ∧ s'.lazyPath? t = s.lazyPath? t

theorem Quiet.classes_eq (h : s.Quiet s') : s'.classes = s.classes := by
  ext t
  rw [mem_classes, mem_classes, (h t).1]

theorem Quiet.lazyPaths_eq (h : s.Quiet s') : s'.lazyPaths = s.lazyPaths := by
  grind [Quiet, mem_lazyPaths]

theorem quiet_of_shape (h : ∀ t, s'.shape t = s.shape t) : s.Quiet s' := by
  intro t
  have hshape := h t
  unfold shape at hshape
  unfold lazyPath?
  cases hform : s.form t with
  | lazy path state =>
    cases hform' : s'.form t with
    | lazy path' state' => cases state <;> cases state' <;> simp_all [TypeForm.unwatched, TypeForm.isClass]
    | _ => cases state <;> simp_all [TypeForm.unwatched]
  | _ =>
    have hsame : s'.form t = s.form t := by
      rw [hform] at hshape ⊢
      exact (TypeForm.unwatched_eq_iff (by simp)).1 hshape
    rw [hsame, hform]
    exact ⟨rfl, rfl⟩

theorem quiet_of_push {form : TypeForm} (htypes : s'.types = s.types.push form)
    (hclass : form.isClass = false) (hlazy : ∀ path state, form ≠ .lazy path state) : s.Quiet s' := by
  intro t
  by_cases ht : t = s.fresh
  · subst ht
    unfold lazyPath?
    rw [form_fresh_of_push htypes, form_fresh, hclass]
    refine ⟨rfl, ?_⟩
    cases form with
    | lazy path state => exact absurd rfl (hlazy path state)
    | _ => rfl
  · grind [lazyPath?, form_eq_of_push]

theorem quiet_setScope (t : TypeId) (form : TypeForm) (hold : (s.form t).isScope = true)
    (houtline : form.outline = (s.form t).outline) : s.Quiet (s.setForm t form) := by
  intro u
  unfold lazyPath?
  by_cases hu : u = t
  · have hknown : s.Known t := by
      refine known_of_shape fun hshape => ?_
      rw [form_of_shape (by simp) hshape] at hold
      contradiction
    rw [hu, s.form_setForm_self _ hknown]
    cases hform : s.form t with
    | ofModule info | ofClass info =>
      rw [hform] at houtline
      cases form <;> first | exact ⟨rfl, rfl⟩ | cases houtline
    | _ =>
      rw [hform] at hold
      contradiction
  · grind [form_setForm_of_ne]

end TypeStore

namespace TypeSpace

open TypeStore

/-- A space whose store is tidy and whose registry leads to lazy types for the paths. -/
structure Tidy (space : TypeSpace) : Prop where
  store : space.store.Tidy
  registry : ∀ path l, space.registry.types.get? path = some l → space.store.lazyPath? l = some path

/-- The other space has more lazy types for some of the paths `U` only, and at most `n` more
classes. -/
structure Takes (space : TypeSpace) (U : Finset String) (n : Nat) (space' : TypeSpace) : Prop where
  lazyPaths_subset : space'.store.lazyPaths ⊆ space.store.lazyPaths ∪ U
  classes_le : space'.store.classes.card ≤ space.store.classes.card + n

namespace Takes

variable {space space' space'' : TypeSpace} {U : Finset String} {n m : Nat}

/-- Two conversions in a row take the paths and classes of both. -/
theorem trans (h : space.Takes U n space') (h' : space'.Takes U m space'') : space.Takes U (n + m) space'' := by
  refine ⟨h'.lazyPaths_subset.trans (Finset.union_subset h.lazyPaths_subset Finset.subset_union_right), ?_⟩
  have hfirst := h.classes_le
  have hthen := h'.classes_le
  omega

theorem of_quiet (h : space.store.Quiet space'.store) : space.Takes U n space' :=
  ⟨by rw [h.lazyPaths_eq]; exact Finset.subset_union_left, by rw [h.classes_eq]; exact Nat.le_add_right _ _⟩

theorem refl (space : TypeSpace) : space.Takes U n space := .of_quiet fun _ => ⟨rfl, rfl⟩

theorem of_push {form : TypeForm} (htypes : space'.store.types = space.store.types.push form)
    (hlazy : ∀ path state, form = .lazy path state → path ∈ U)
    (hclass : form.isClass = true → 0 < n) : space.Takes U n space' := by
  have hsame : ∀ t, t ≠ space.store.fresh → space'.store.form t = space.store.form t := fun t ht =>
    form_eq_of_push htypes ht
  have hnew : space'.store.form space.store.fresh = form := form_fresh_of_push htypes
  refine ⟨fun path hpath => ?_, ?_⟩
  · obtain ⟨l, hl⟩ := mem_lazyPaths.1 hpath
    rw [Finset.mem_union, mem_lazyPaths]
    unfold lazyPath? at hl ⊢
    by_cases hfresh : l = space.store.fresh
    · grind
    · exact .inl ⟨l, hsame l hfresh ▸ hl⟩
  · have hsubset : space'.store.classes ⊆ insert space.store.fresh space.store.classes := by
      intro t ht
      rw [Finset.mem_insert, mem_classes] at *
      exact or_iff_not_imp_left.2 fun hfresh => hsame t hfresh ▸ ht
    by_cases hform : form.isClass = true
    · exact (Finset.card_le_card hsubset).trans ((Finset.card_insert_le _ _).trans (Nat.add_le_add_left (hclass hform) _))
    · refine Nat.le_add_right_of_le (Finset.card_le_card fun t ht => ?_)
      grind [mem_classes]

end Takes

theorem Tidy.withStore {space : TypeSpace} (h : space.Tidy) {store : TypeStore} (htidy : store.Tidy)
    (hevolves : space.store.Evolves store) : ({ space with store } : TypeSpace).Tidy :=
  ⟨htidy, fun path l hl => hevolves.lazyPath?_eq (h.registry path l hl)⟩

end TypeSpace

namespace ModuleDescriptor

/-- The paths that the members of a module refer to. -/
def paths (m : ModuleDescriptor) : List String := Descriptor.pathsAll m.members.values

/-- Number of classes that the members of a module describe. -/
def classCount (m : ModuleDescriptor) : Nat := Descriptor.classCountAll m.members.values

end ModuleDescriptor

end PythonTypes
