import PythonTypes.Proofs.Types.Resolution

/-!
# Tidy stores

In a tidy store lazy types are resolved to plain types, which are neither lazy nor lazy unions,
unions are flat, and those that are not lazy have plain candidates. Types can then be followed in a
few steps. Following them, adding types and resolving lazy types to plain ones keeps a store tidy.
-/

set_option autoImplicit false

namespace PythonTypes

namespace TypeForm

variable (f : TypeForm)

/-- Neither lazy nor a lazy union. -/
def isPlain : TypeForm → Bool
  | lazy _ _ => false
  | lazyUnion _ => false
  | _ => true

/-- No union, lazy or not. -/
def isSingle : TypeForm → Bool
  | union _ => false
  | lazyUnion _ => false
  | _ => true

/-- How many steps a form may be away from types that lead nowhere. -/
def level : TypeForm → Nat
  | lazyUnion _ => 3
  | lazy _ _ => 2
  | union _ => 1
  | _ => 0

/-- The references of a module or class to its members and bases, of a function to what it returns,
and of an instance to its class. -/
def refs : TypeForm → List TypeRef
  | ofModule m => m.members.values
  | ofClass c => c.members.values ++ c.bases
  | ofFunction f => [f.returns]
  | object cls => [cls]
  | _ => []

/-- A module or class. -/
def isScope : TypeForm → Bool
  | ofModule _ => true
  | ofClass _ => true
  | _ => false

/-- An instance of a class that is known. -/
def isDirect : TypeForm → Bool
  | object (.direct _) => true
  | _ => false

/-- What stays of a form for good: a lazy type is resolved one day, and modules and classes get
members. -/
def outline : TypeForm → TypeForm
  | ofModule m => ofModule { m with members := ∅ }
  | ofClass c => ofClass { c with members := ∅ }
  | lazy path _ => lazy path (.pending [])
  | form => form

theorem isPlain_outline : f.outline.isPlain = f.isPlain := by cases f <;> rfl

theorem isSingle_outline : f.outline.isSingle = f.isSingle := by cases f <;> rfl

theorem isModule_outline : f.outline.isModule = f.isModule := by cases f <;> rfl

theorem isClass_outline : f.outline.isClass = f.isClass := by cases f <;> rfl

theorem outline_unwatched : f.unwatched.outline = f.outline := by
  cases f with
  | lazy path state => cases state <;> rfl
  | _ => rfl

end TypeForm

namespace TypeStore

variable {s s' : TypeStore} {t : TypeId} {form : TypeForm} {l target : TypeId}

/-- One store becomes the other while types are added and lazy types resolved, and modules and
classes get members. -/
structure Evolves (s s' : TypeStore) : Prop where
  size_le : s.size ≤ s'.size
  slots_le : s.slots.size ≤ s'.slots.size
  outline_eq : ∀ t, s.Known t → (s'.shape t).outline = (s.shape t).outline
  target_eq : ∀ l t, s.lazyTarget? l = some t → s'.lazyTarget? l = some t

namespace Evolves

variable {s'' : TypeStore}

theorem refl (s : TypeStore) : s.Evolves s := ⟨Nat.le_refl _, Nat.le_refl _, fun _ _ => rfl, fun _ _ h => h⟩

section

variable (h : s.Evolves s')

include h

theorem known (ht : s.Known t) : s'.Known t := Nat.lt_of_lt_of_le ht h.size_le

theorem refKnown {ref : TypeRef} (href : s.RefKnown ref) : s'.RefKnown ref := by
  cases ref with
  | direct t => exact h.known href
  | slot w => exact Nat.lt_of_lt_of_le href h.slots_le

theorem trans (h' : s'.Evolves s'') : s.Evolves s'' where
  size_le := Nat.le_trans h.size_le h'.size_le
  slots_le := Nat.le_trans h.slots_le h'.slots_le
  outline_eq t ht := (h'.outline_eq t (h.known ht)).trans (h.outline_eq t ht)
  target_eq l t hl := h'.target_eq l t (h.target_eq l t hl)

theorem isPlain_eq (ht : s.Known t) : (s'.shape t).isPlain = (s.shape t).isPlain := by
  grind [TypeForm.isPlain_outline, outline_eq]

theorem isSingle_eq (ht : s.Known t) : (s'.shape t).isSingle = (s.shape t).isSingle := by
  grind [TypeForm.isSingle_outline, outline_eq]

end

end Evolves

theorem Grows.evolves (h : s.Grows s') : s.Evolves s' where
  size_le := h.size_le
  slots_le := h.slots_le
  outline_eq t ht := congrArg TypeForm.outline (h.shape_eq t ht)
  target_eq l _ hl := (lazyTarget?_congr (h.shape_eq l (known_of_unfolds (.inl hl)))).trans hl

/-- Whether a form may stand in a tidy store. -/
def Fits (s : TypeStore) (f : TypeForm) : Prop :=
  (∀ ref ∈ f.refs, s.RefKnown ref) ∧
    match f with
    | .union cs => cs ≠ [] ∧ ∀ c ∈ cs, (s.shape c).isSingle = true ∧ (s.shape c).isPlain = true
    | .lazyUnion cs => cs ≠ [] ∧ ∀ c ∈ cs, (s.shape c).isSingle = true
    | .lazy _ (.resolved t) => (s.shape t).isPlain = true
    | _ => True

/-- A store in which every type can be followed in a few steps. -/
structure Tidy (s : TypeStore) : Prop where
  wellFormed : s.WellFormed
  inStep : s.InStep
  fits : ∀ t, s.Fits (s.shape t)

theorem lazyTarget?_of_isPlain (h : (s.shape t).isPlain = true) : s.lazyTarget? t = none := by
  refine Option.eq_none_iff_forall_not_mem.2 fun u hu => ?_
  obtain ⟨path, hshape⟩ := lazyTarget?_eq_some_iff.1 hu
  rw [hshape] at h
  contradiction

theorem lazyPath?_of_shape {path : String} {state : LazyState} (h : s.shape t = .lazy path state) :
    s.lazyPath? t = some path := by
  unfold shape at h
  unfold lazyPath?
  cases hform : s.form t with
  | lazy path' state' =>
    rw [hform] at h
    cases state' <;> cases h <;> rfl
  | _ =>
    rw [hform] at h
    contradiction

theorem isPlain_of_isSingle (hsingle : (s.shape t).isSingle = true)
    (htarget : s.lazyTarget? t = none) (hpending : s.isPending t = false) : (s.shape t).isPlain = true := by
  cases hshape : s.shape t with
  | lazy path state =>
    cases state with
    | pending ws => grind [isPending_of_shape]
    | resolved u => exact absurd ((lazyTarget?_eq_some_iff.2 ⟨path, hshape⟩).symm.trans htarget) (by simp)
  | lazyUnion cs =>
    rw [hshape] at hsingle
    contradiction
  | _ => rfl

namespace Tidy

variable {c : TypeId} {cs : List TypeId}

section

variable (h : s.Tidy)

include h

theorem target_plain (hl : s.lazyTarget? l = some t) : (s.shape t).isPlain = true := by
  obtain ⟨path, hshape⟩ := lazyTarget?_eq_some_iff.1 hl
  have hfits := (h.fits l).2
  rw [hshape] at hfits
  exact hfits

theorem noEmptyUnion : s.NoEmptyUnion := by
  intro t cs hcs
  have hfits := (h.fits t).2
  rcases candidates?_eq_some_iff.1 hcs with hshape | hshape <;> rw [hshape] at hfits <;> exact hfits.1

theorem single (hcs : s.candidates? t = some cs) (hc : c ∈ cs) : (s.shape c).isSingle = true := by
  have hfits := (h.fits t).2
  grind [candidates?_eq_some_iff]

theorem plain (ht : s.shape t = .union cs) (hc : c ∈ cs) : (s.shape c).isPlain = true := by
  have hfits := (h.fits t).2
  rw [ht] at hfits
  exact (hfits.2 c hc).2

/-- Lazy unions lead to lazy types, lazy types to unions, and unions to types that lead nowhere. -/
theorem level_lt {u : TypeId} (htu : s.Unfolds t u) : (s.shape u).level < (s.shape t).level := by
  rcases htu with hu | ⟨cs, hcs, hmem⟩
  · obtain ⟨path, hshape⟩ := lazyTarget?_eq_some_iff.1 hu
    have hplain := h.target_plain hu
    rw [hshape]
    cases hform : s.shape u <;> simp_all [TypeForm.isPlain, TypeForm.level]
  · have hsingle := h.single hcs hmem
    rcases candidates?_eq_some_iff.1 hcs with hshape | hshape
    · have hplain := h.plain hshape hmem
      rw [hshape]
      cases hform : s.shape u <;> simp_all [TypeForm.isPlain, TypeForm.isSingle, TypeForm.level]
    · rw [hshape]
      cases hform : s.shape u <;> simp_all [TypeForm.isSingle, TypeForm.level]

theorem acyclic : s.Acyclic :=
  acyclic_of_rank (fun t => (s.shape t).level) fun i _ u hu => h.level_lt <| (List.mem_append.1 hu).elim
    (fun hu => .inl (by simpa using hu)) fun hu => .inr (by cases hcs : s.candidates? ⟨i⟩ <;> simp_all)

theorem slotsFollow : s.SlotsFollow := h.inStep.slotsFollow

theorem good : s.Good := ⟨h.wellFormed, h.noEmptyUnion, h.acyclic, h.slotsFollow⟩

theorem slot_plain {w : SlotId} (hw : (s.slot w).isResolved = true) : (s.shape (s.slot w).target).isPlain = true := by
  by_cases hknown : s.SlotKnown w
  · exact h.target_plain (h.inStep.target_eq w hknown (h.slotsFollow w hw))
  · rw [slot_of_not_known hknown] at hw
    contradiction

theorem derefLazy_eq (t : TypeId) : s.derefLazy t = (s.lazyTarget? t).getD t := by
  cases htarget : s.lazyTarget? t with
  | none => exact derefLazy_of_no_target htarget
  | some u =>
    have hu : s.lazyTarget? u = none := lazyTarget?_of_isPlain (h.target_plain htarget)
    have hne : u ≠ t := by
      rintro rfl
      rw [htarget] at hu
      contradiction
    obtain ⟨n, hn⟩ := Nat.exists_eq_add_one_of_ne_zero (Nat.ne_of_gt h.wellFormed.size_pos)
    have hrest : s.derefWithin n u = u := by
      cases n with
      | zero => rfl
      | succ n => rw [derefWithin, hu]
    simp_all [derefLazy, derefWithin]

theorem derefLazy_target (t : TypeId) : s.lazyTarget? (s.derefLazy t) = none := by
  rw [h.derefLazy_eq]
  cases htarget : s.lazyTarget? t with
  | none => exact htarget
  | some u => exact lazyTarget?_of_isPlain (h.target_plain htarget)

end

end Tidy

/-! ## Steps that keep a store tidy -/

theorem Fits.evolves (hs : s.WellFormed) (h : s.Evolves s') (ht : s.Fits (s.shape t)) : s'.Fits (s.shape t) := by
  refine ⟨fun ref href => h.refKnown (ht.1 ref href), ?_⟩
  have hfits := ht.2
  cases hshape : s.shape t with
  | union cs =>
    rw [hshape] at hfits
    refine ⟨hfits.1, fun c hc => ?_⟩
    have hknown := hs.unfolds_known (.inr ⟨cs, candidates?_eq_some_iff.2 (.inl hshape), hc⟩)
    grind [Evolves.isSingle_eq, Evolves.isPlain_eq]
  | lazyUnion cs =>
    rw [hshape] at hfits
    refine ⟨hfits.1, fun c hc => ?_⟩
    have hknown := hs.unfolds_known (.inr ⟨cs, candidates?_eq_some_iff.2 (.inr hshape), hc⟩)
    rw [h.isSingle_eq hknown]
    exact hfits.2 c hc
  | lazy path state =>
    cases state with
    | pending ws => trivial
    | resolved u =>
      rw [hshape] at hfits
      have hknown := hs.target_known t u (lazyTarget?_eq_some_iff.2 ⟨path, hshape⟩)
      exact (h.isPlain_eq hknown).trans hfits
  | _ => trivial

theorem Tidy.evolves (h : s.Tidy) (hs' : s'.WellFormed) (hin : s'.InStep) (he : s.Evolves s')
    (hfits : ∀ t, s'.shape t ≠ s.shape t → s'.Fits (s'.shape t)) : s'.Tidy := by
  refine ⟨hs', hin, fun t => ?_⟩
  grind [Fits.evolves, fits, wellFormed]

theorem Tidy.push (h : s.Tidy) (hs' : s'.WellFormed) (hin : s'.InStep) (hgrows : s.Grows s')
    (htypes : s'.types = s.types.push form) (hfits : s'.Fits form.unwatched) : s'.Tidy := by
  refine h.evolves hs' hin hgrows.evolves fun t ht => ?_
  have hfresh : t = s.fresh := by
    by_contra hne
    exact ht (congrArg TypeForm.unwatched (form_eq_of_push htypes hne))
  rw [hfresh, shape, form_fresh_of_push htypes]
  exact hfits

theorem lazyGoal_of_isPlain (hl : s.isPending l = true) (hplain : (s.shape target).isPlain = true) :
    s.lazyGoal l target = target := by
  have hderef : s.derefLazy target = target := derefLazy_of_no_target (lazyTarget?_of_isPlain hplain)
  have hne : target ≠ l := by
    rintro rfl
    obtain ⟨path, hshape⟩ := isPending_iff.1 hl
    rw [hshape] at hplain
    contradiction
  simp_all [lazyGoal]

theorem Tidy.resolveLazy (h : s.Tidy) (hl : s.isPending l = true)
    (htarget : s.Known target) (hplain : (s.shape target).isPlain = true) :
    (s.resolveLazy l target).store.Tidy ∧ s.Evolves (s.resolveLazy l target).store := by
  have htells := h.inStep.tellsAll hl target
  have hwell := (h.wellFormed.resolveLazy l htarget).1
  have hin := h.inStep.resolveLazy h.wellFormed l target
  obtain ⟨path, hbefore⟩ := isPending_iff.1 hl
  have hgoal := lazyGoal_of_isPlain hl hplain
  set s' := (s.resolveLazy l target).store
  have hother : ∀ u, u ≠ l → s'.shape u = s.shape u := fun u hu => congrArg TypeForm.unwatched (htells.form_eq u hu)
  obtain ⟨path', hafter⟩ := lazyTarget?_eq_some_iff.1 htells.target_eq
  have hpath : path' = path := by
    have hsame := htells.path_eq
    rw [lazyPath?_of_shape hafter, lazyPath?_of_shape hbefore] at hsame
    exact Option.some.inj hsame
  rw [hgoal, hpath] at hafter
  have hevolves : s.Evolves s' := by
    refine ⟨Nat.le_of_eq htells.size_eq.symm, Nat.le_of_eq htells.slots_eq.symm, fun u _ => ?_, fun u v hv => ?_⟩
    · by_cases hu : u = l
      · rw [hu, hafter, hbefore]
        rfl
      · rw [hother u hu]
    · grind [isPending_eq_false_of_target, lazyTarget?_congr]
  refine ⟨h.evolves hwell hin hevolves fun u hu => ?_, hevolves⟩
  have hu : u = l := by
    by_contra hne
    exact hu (hother u hne)
  rw [hu, hafter]
  exact ⟨by simp [TypeForm.refs], (hevolves.isPlain_eq htarget).trans hplain⟩

theorem WellFormed.setScope (h : s.WellFormed) (hold : (s.form t).isScope = true)
    (hnew : form.isScope = true) : (s.setForm t form).WellFormed ∧ s.Registers (s.setForm t form) ∧
      ∀ u f, f.isScope = false → ((s.setForm t form).shape u = f ↔ s.shape u = f) := by
  have hscope : ∀ g f : TypeForm, g.isScope = true → f.isScope = false → g.unwatched ≠ f := by
    rintro g f hg hf rfl
    cases g <;> simp_all [TypeForm.isScope, TypeForm.unwatched]
  have hknown : s.Known t := by
    refine known_of_shape fun hshape => ?_
    exact hscope _ _ hold rfl hshape
  have hshape : ∀ u f, f.isScope = false → ((s.setForm t form).shape u = f ↔ s.shape u = f) := by
    intro u f hf
    by_cases hu : u = t
    · rw [hu, s.shape_setForm_self form hknown]
      exact iff_of_false (hscope form f hnew hf) (hscope _ f hold hf)
    · rw [s.shape_setForm_of_ne form hu]
  have hlazy : ∀ u path state, (s.setForm t form).shape u = .lazy path state ↔
    s.shape u = .lazy path state := fun u _ _ => hshape u _ rfl
  refine ⟨h.setForm (fun u f hf => hshape u f (by cases f <;> first | rfl | cases hf))
      (fun u v hv => ?_) fun u path state hu =>
    ⟨path, state, (hlazy u path state).2 hu⟩,
      ⟨Nat.le_refl _, fun _ _ => rfl, fun w hold hw => absurd hw hold, hlazy, fun l => ?_⟩, hshape⟩
  · obtain ⟨path, hv⟩ := lazyTarget?_eq_some_iff.1 hv
    exact h.target_known u v (lazyTarget?_eq_some_iff.2 ⟨path, (hlazy u _ _).1 hv⟩)
  · rw [newSlots_of_eq (show (s.setForm t form).slots.size = s.slots.size from rfl), List.append_nil]
    by_cases hl : l = t
    · have hbefore : s.isPending t = false := by
        unfold isPending
        cases hform : s.form t <;> simp_all [TypeForm.isScope]
      have hafter : (s.setForm t form).isPending t = false := by
        rw [← hbefore, Bool.eq_iff_iff, isPending_iff, isPending_iff]
        exact exists_congr fun path => hshape t _ rfl
      grind [watchers_eq_nil]
    · exact watchers_eq_of_form (s.form_setForm_of_ne form hl)

theorem Tidy.setScope (h : s.Tidy) (t : TypeId) (form : TypeForm) (hold : (s.form t).isScope = true)
    (hnew : form.isScope = true) (houtline : form.outline = (s.form t).outline) (hrefs : ∀ ref ∈ form.refs, s.RefKnown ref) :
    (s.setForm t form).Tidy ∧ s.Evolves (s.setForm t form) := by
  obtain ⟨hwell, hr, hshape⟩ := h.wellFormed.setScope hold hnew
  have hself : ∀ u, (s.setForm t form).shape u ≠ s.shape u → (s.setForm t form).shape u = form := by
    intro u hu
    have heq : u = t := by
      by_contra hne
      exact hu (s.shape_setForm_of_ne form hne)
    have hscope : form.unwatched = form := by
      cases form with
      | lazy path state => contradiction
      | _ => rfl
    have hknown : s.Known t := by
      refine known_of_shape fun hunknown => ?_
      rw [shape] at hunknown
      cases hform : s.form t <;> simp_all [TypeForm.isScope, TypeForm.unwatched]
    grind [shape_setForm_self]
  have hevolves : s.Evolves (s.setForm t form) := by
    refine ⟨Nat.le_of_eq (s.size_setForm t form).symm, Nat.le_refl _, fun u _ => ?_, fun l u hl => ?_⟩
    · by_cases hu : (s.setForm t form).shape u = s.shape u
      · rw [hu]
      · grind [shape_setForm_of_ne, shape, TypeForm.outline_unwatched]
    · rw [hr.lazyTarget?_eq]
      exact hl
  refine ⟨h.evolves hwell (h.inStep.registers hr) hevolves fun u hu => ?_, hevolves⟩
  rw [hself u hu]
  refine ⟨fun ref href => hevolves.refKnown (hrefs ref href), ?_⟩
  cases form <;> trivial

theorem Tidy.alloc (h : s.Tidy) (form : TypeForm) (hform : form.isScope = true ∨ form.isFunction = true)
    (hrefs : ∀ ref ∈ form.refs, s.RefKnown ref) : (s.added form).Tidy ∧ s.Grows (s.added form) := by
  have hadmits : s.Admits form := by
    cases form <;> first | trivial | simp [TypeForm.isScope, TypeForm.isFunction] at hform
  have hgrows : s.Grows (s.added form) := by
    refine grows_added form hadmits ?_ ?_ <;> rintro rfl <;> simp [TypeForm.isScope, TypeForm.isFunction] at hform
  have hr : s.Registers (s.added form) := by
    refine registers_of_push rfl rfl ?_
    rintro path state rfl
    simp [TypeForm.isScope, TypeForm.isFunction] at hform
  refine ⟨h.push (h.wellFormed.added form hadmits) (h.inStep.registers hr) hgrows rfl ?_, hgrows⟩
  have hsame : form.unwatched = form := by
    cases form <;> first | rfl | simp [TypeForm.isScope, TypeForm.isFunction] at hform
  rw [hsame]
  refine ⟨fun ref href => hgrows.evolves.refKnown (hrefs ref href), ?_⟩
  cases form <;> first | trivial | simp [TypeForm.isScope, TypeForm.isFunction] at hform

theorem Tidy.allocLazy (h : s.Tidy) (path : String) :
    (s.added (.lazy path (.pending []))).Tidy ∧ s.Grows (s.added (.lazy path (.pending []))) := by
  have hgrows : s.Grows (s.added (.lazy path (.pending []))) := grows_added _ trivial (by simp) (by simp)
  have hin : (s.added (.lazy path (.pending []))).InStep := by
    have hfollows : (StoreAction.alloc (.lazy path (.pending []))).FollowsProtocol := by simp [StoreAction.FollowsProtocol]
    exact h.inStep.perform h.wellFormed hfollows
  refine ⟨h.push (h.wellFormed.added _ trivial) hin hgrows rfl ?_, hgrows⟩
  exact ⟨by simp [TypeForm.unwatched, TypeForm.refs], trivial⟩

theorem Tidy.unresolvedImport (h : s.Tidy) (path : String) :
    (TypeStore.unresolvedImport path s).2.Tidy ∧ s.Grows (TypeStore.unresolvedImport path s).2 := by
  obtain ⟨hwell, hgrows, -⟩ := unresolvedImport_sound h.wellFormed path
  have hin : (TypeStore.unresolvedImport path s).2.InStep :=
    h.inStep.perform (a := .unresolvedImport path) h.wellFormed trivial
  refine ⟨?_, hgrows⟩
  rw [unresolvedImport_apply] at hwell hgrows hin ⊢
  cases hget : s.imports.get? path with
  | some t => exact h
  | none =>
    rw [hget] at hwell hgrows hin
    exact h.push hwell hin hgrows rfl ⟨by simp [TypeForm.unwatched, TypeForm.refs], trivial⟩

theorem Tidy.wrap (h : s.Tidy) (ht : s.Known t) : (TypeStore.wrap t s).2.Tidy ∧ s.Grows (TypeStore.wrap t s).2 ∧
      (TypeStore.wrap t s).2.RefKnown (TypeStore.wrap t s).1 := by
  obtain ⟨cls, s', heq, hwell, hgrows, hcls, -⟩ := wrap_spec h.wellFormed ht
  have hin := h.inStep.registers (registers_wrap t s)
  have hshape : ∀ u, (TypeStore.wrap t s).2.shape u = s.shape u := by
    intro u
    rw [wrap_apply]
    split
    · exact shape_addWatcher _ _ _ u
    · rfl
  grind [evolves, Grows.evolves]

end TypeStore

end PythonTypes
