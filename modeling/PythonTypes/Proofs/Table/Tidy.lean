import PythonTypes.Proofs.Table.Supply

/-!
# Tidy tables

In a tidy table the types are tidy, modules are modules, and paths lead to plain types. A table
bounds another one (`Bounds`) if whatever the other can still add it could add as well.
-/

set_option autoImplicit false

namespace PythonTypes

namespace TypeStore

variable {s s' : TypeStore} {t : TypeId} {m c l : TypeId}

/-- Whether a type exists and is neither lazy nor a lazy union. -/
def Plain (s : TypeStore) (u : TypeId) : Prop := s.Known u ∧ (s.shape u).isPlain = true

/-- Whether what has been found, if anything, is plain. -/
def FoundPlain (s : TypeStore) : Option TypeId → Prop
  | none => True
  | some u => s.Plain u

theorem Plain.isPlain_form {u : TypeId} (hu : s.Plain u) : (s.form u).isPlain = true := by
  rw [← TypeForm.isPlain_outline, ← TypeForm.outline_unwatched, TypeForm.isPlain_outline]
  exact hu.2

theorem Plain.evolves (h : s.Evolves s') {u : TypeId} (hu : s.Plain u) : s'.Plain u :=
  ⟨h.known hu.1, (h.isPlain_eq hu.1).trans hu.2⟩

theorem Tidy.unknown_plain (h : s.Tidy) : s.Plain .unknown :=
  ⟨h.wellFormed.unknown_known, by rw [h.wellFormed.unknown_first]; rfl⟩

theorem known_of_form_ne (h : s.form t ≠ .unknown) : s.Known t := by
  refine known_of_shape fun hshape => h ?_
  exact form_of_shape (by simp) hshape

theorem plain_of_isModule (h : (s.form m).isModule = true) : s.Plain m := by
  cases hform : s.form m with
  | ofModule info =>
    refine ⟨known_of_form_ne (by simp [hform]), ?_⟩
    rw [shape_of_form hform]
    rfl
  | _ =>
    rw [hform] at h
    contradiction

section

variable (h : s.Evolves s')

include h

theorem Evolves.form_outline_eq (ht : s.Known t) : (s'.form t).outline = (s.form t).outline := by
  have hsame := h.outline_eq t ht
  grind [shape, TypeForm.outline_unwatched]

theorem Evolves.isModule (hm : (s.form m).isModule = true) : (s'.form m).isModule = true := by
  rw [← TypeForm.isModule_outline, h.form_outline_eq (plain_of_isModule hm).1, TypeForm.isModule_outline]
  exact hm

theorem Evolves.form_congr {α : Type} {f : TypeForm → α} (hf : ∀ g, f g.outline = f g) {x : TypeId}
    (hx : s.Known x) : f (s'.form x) = f (s.form x) := by
  rw [← hf, h.form_outline_eq hx, hf]

theorem Evolves.isClass_eq (hc : s.Known c) : (s'.form c).isClass = (s.form c).isClass :=
  h.form_congr TypeForm.isClass_outline hc

theorem Evolves.isClass (hc : (s.form c).isClass = true) : (s'.form c).isClass = true := by
  have hknown : s.Known c := by
    refine known_of_form_ne fun hform => ?_
    rw [hform] at hc
    contradiction
  rwa [h.isClass_eq hknown]

end

theorem isPending_of_lazyPath? {path : String} (hpath : s.lazyPath? l = some path)
    (htarget : s.lazyTarget? l = none) : s.isPending l = true := by
  unfold lazyPath? at hpath
  unfold lazyTarget? at htarget
  unfold isPending
  cases hform : s.form l with
  | lazy path state => cases state <;> simp_all
  | _ => simp_all

theorem quiet_resolveLazy (h : s.InStep) (hl : s.isPending l = true) (target : TypeId) :
    s.Quiet (s.resolveLazy l target).store := by
  have htells := h.tellsAll hl target
  intro u
  by_cases hu : u = l
  · grind [lazyPath?, TypeForm.isClass, form_of_isPending, TellsAll.path_eq]
  · grind [lazyPath?, TellsAll.form_eq]

theorem Tidy.refKnown (h : s.Tidy) {ref : TypeRef} (href : ref ∈ (s.form t).refs) : s.RefKnown ref := by
  refine (h.fits t).1 ref ?_
  unfold shape
  cases hform : s.form t with
  | lazy path state =>
    simp_all [TypeForm.refs]
  | _ =>
    rw [hform] at href
    exact href

end TypeStore

namespace Table

/-- A table whose types are tidy and whose paths lead to plain types. -/
structure Tidy (t : Table) : Prop where
  space : t.space.Tidy
  root : (t.form t.root).isModule = true
  modules : ∀ path m, t.modules.get? path = some m → (t.form m).isModule = true
  cache : ∀ path id, t.cache.get? path = some id → t.store.Plain id

theorem Tidy.store {t : Table} (h : t.Tidy) : t.store.Tidy := h.space.store

/-- The other table has no more paths and no more capacity. -/
structure Bounds (t t' : Table) : Prop where
  paths_subset : t'.paths ⊆ t.paths
  capacity_le : t'.capacity ≤ t.capacity

namespace Bounds

variable {t t' t'' : Table}

theorem refl (t : Table) : t.Bounds t := ⟨Finset.Subset.refl _, Nat.le_refl _⟩

theorem trans (h : t.Bounds t') (h' : t'.Bounds t'') : t.Bounds t'' :=
  ⟨h'.paths_subset.trans h.paths_subset, Nat.le_trans h'.capacity_le h.capacity_le⟩

theorem of_takes (h : t.space.Takes t.sourcePaths.toFinset 0 t'.space) (hproject : t'.project = t.project)
    (hstubs : t'.stubs = t.stubs) (hmodules : t'.modules = t.modules) : t.Bounds t' := by
  constructor
  · unfold paths sourcePaths
    rw [hproject, hstubs]
    exact Finset.union_subset h.lazyPaths_subset Finset.subset_union_right
  · unfold capacity
    rw [hproject, hstubs, hmodules]
    exact Nat.add_le_add_right (Nat.add_le_add_right h.classes_le _) _

/-- A module that is loaded takes what was set aside for it. -/
theorem load {path : String} (hget : t.modules.get? path = none) {descriptor : ModuleDescriptor}
    {origin : Origin} (hsource : t.source? path = some (descriptor, origin)) {space : TypeSpace}
    (htakes : t.space.Takes t.sourcePaths.toFinset descriptor.classCount space) (m : TypeId) :
    t.Bounds { t with space, modules := t.modules.insert path m } := by
  have hloaded : ∀ p, t.modules.contains p = true → (t.modules.insert path m).contains p = true := by
    intro p hp
    rw [OrderedMap.contains_iff] at hp ⊢
    rw [OrderedMap.keys_insert]
    split
    · exact hp
    · exact List.mem_append_left _ hp
  have hpath : (t.modules.insert path m).contains path = true := by
    show ((t.modules.insert path m).get? path).isSome = true
    rw [OrderedMap.get?_insert_self]
    rfl
  refine ⟨Finset.union_subset htakes.lazyPaths_subset Finset.subset_union_right, ?_⟩
  have hleft := (source?_bounds hsource).2 _ hloaded (by simp [OrderedMap.contains, hget]) hpath
  have hclasses := htakes.classes_le
  show space.store.classes.card + unloaded (t.modules.insert path m).contains
    ModuleDescriptor.classCount t.project.modules.entries +
    unloaded (t.modules.insert path m).contains StubSymbol.classCountAll t.stubs.modules.entries ≤ t.capacity
  unfold capacity
  unfold Table.store
  omega

end Bounds

theorem Tidy.withSpace {t : Table} (h : t.Tidy) {space : TypeSpace} (htidy : space.Tidy)
    (hevolves : t.store.Evolves space.store) : ({ t with space } : Table).Tidy where
  space := htidy
  root := hevolves.isModule h.root
  modules path m hm := hevolves.isModule (h.modules path m hm)
  cache path id hid := (h.cache path id hid).evolves hevolves

/-- The member of a module is set among the types. -/
def bindMember (m : TypeId) (name : String) (ref : TypeRef) : StoreM Unit := modify fun s =>
  match s.form m with
  | .ofModule info => s.setForm m (.ofModule { info with members := info.members.insert name ref })
  | _ => s

theorem setModuleMember_eq (m : TypeId) (name : String) (ref : TypeRef) :
    setModuleMember m name ref = onStore (bindMember m name ref) := rfl

theorem bindMember_of_module {s : TypeStore} {m : TypeId} {info : ModuleType} (h : s.form m = .ofModule info) (name : String)
    (ref : TypeRef) :
    bindMember m name ref s = ((), s.setForm m (.ofModule { info with members := info.members.insert name ref })) := by
  unfold bindMember
  rw [modify_apply, h]
  rfl

end Table

end PythonTypes
