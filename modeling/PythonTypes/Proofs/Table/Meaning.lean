import PythonTypes.Proofs.Table.Tidy

/-!
# What a type means

`Means s x u` says that the type `x` stands for `u`, and that nothing has to be looked up to see it:
every lazy type on the way is resolved, and instances of a class that was looked up late are
replaced by those of the class that was found. A type has at most one meaning, and a type with a
meaning keeps it (`Means.retains`) as long as the store only retains what it has found: `Retains` is
what following types, loading modules, binding members and resolving lazy types have in common.
-/

set_option autoImplicit false

namespace PythonTypes

theorem TypeForm.eq_of_outline {f g : TypeForm} (h : g.outline = f.outline)
    (hscope : f.isScope = false) (hlazy : ∀ path state, f ≠ .lazy path state) : g = f := by
  cases f <;> cases g <;> simp_all [outline, isScope]

theorem TypeForm.isUnknown_outline (f : TypeForm) : f.outline.isUnknown = f.isUnknown := by cases f <;> rfl

namespace TypeStore

variable {s s' s'' : TypeStore}
variable {ref : TypeRef} {u v x : TypeId} {w : SlotId} {l c : TypeId} {p : Part}

/-- `s'` may have more types, more members of modules and fewer pending lazy types than `s`.
Classes, resolved lazy types, redirected slots and interned types stay. -/
structure Retains (s s' : TypeStore) : Prop extends s.Evolves s' where
  slot_eq : ∀ w, (s.slot w).isResolved = true → s'.slot w = s.slot w
  lazy_eq : ∀ w, s.SlotKnown w → (s'.slot w).lazy = (s.slot w).lazy
  instances : ∀ c x, s.instances.get? c = some x → s'.instances.get? c = some x
  unions : ∀ key u, s.unions.get? key = some u → s'.unions.get? key = some u
  class_eq : ∀ c info, s.form c = .ofClass info → s'.form c = .ofClass info

theorem slotKnown_of_isResolved (h : (s.slot w).isResolved = true) : s.SlotKnown w := by
  by_contra hw
  rw [slot_of_not_known hw] at h
  contradiction

namespace Retains

variable {t : TypeId}

theorem refl (s : TypeStore) : s.Retains s :=
  ⟨.refl s, fun _ _ => rfl, fun _ _ => rfl, fun _ _ h => h, fun _ _ h => h, fun _ _ h => h⟩

section

variable (h : s.Retains s')

include h

theorem trans (h' : s'.Retains s'') : s.Retains s'' where
  toEvolves := h.toEvolves.trans h'.toEvolves
  slot_eq w hw := by
    have hsame := h.slot_eq w hw
    exact (h'.slot_eq w (hsame ▸ hw)).trans hsame
  lazy_eq w hw := (h'.lazy_eq w (Nat.lt_of_lt_of_le hw h.slots_le)).trans (h.lazy_eq w hw)
  instances c x hx := h'.instances c x (h.instances c x hx)
  unions key u hu := h'.unions key u (h.unions key u hu)
  class_eq c info hc := h'.class_eq c info (h.class_eq c info hc)

theorem shape_eq (ht : s.Known t) (hscope : (s.shape t).isScope = false)
    (hlazy : ∀ path state, s.shape t ≠ .lazy path state) : s'.shape t = s.shape t :=
  TypeForm.eq_of_outline (h.outline_eq t ht) hscope hlazy

theorem shape_back (ht : s.Known t) {f : TypeForm} (hf : s'.shape t = f)
    (hscope : f.isScope = false) (hlazy : ∀ path state, f ≠ .lazy path state) : s.shape t = f := by
  have houtline := h.outline_eq t ht
  grind [TypeForm.eq_of_outline]

theorem shape_object {cls : TypeRef} (ht : s.shape t = .object cls) : s'.shape t = .object cls := by
  grind [TypeForm.isScope, shape_eq, known_of_shape]

theorem isUnknown_eq (ht : s.Known t) : (s'.shape t).isUnknown = (s.shape t).isUnknown := by
  rw [← TypeForm.isUnknown_outline, h.outline_eq t ht, TypeForm.isUnknown_outline]

end

end Retains

theorem Grows.retains (h : s.Grows s') : s.Retains s' where
  toEvolves := h.evolves
  slot_eq w hw := h.slot_eq w (slotKnown_of_isResolved hw)
  lazy_eq w hw := by rw [h.slot_eq w hw]
  instances := h.instances
  unions := h.unions
  class_eq c info hc := by
    have hshape : s.shape c = .ofClass info := (shape_eq_iff (by simp)).2 hc
    rw [← h.shape_eq c (known_of_shape (by simp [hshape]))] at hshape
    exact (shape_eq_iff (by simp)).1 hshape

theorem Tidy.retains_resolveLazy (h : s.Tidy) {target : TypeId} (hl : s.isPending l = true)
    (htarget : s.Plain target) : s.Retains (s.resolveLazy l target).store := by
  have hlooks := h.inStep.looksUp hl target
  have htells := h.inStep.tellsAll hl target
  refine ⟨(h.resolveLazy hl htarget.1 htarget.2).2, hlooks.slot_eq, fun w _ => hlooks.lazy_eq w,
    fun c x hx => ?_, fun key u hu => ?_, fun c info hc => ?_⟩
  · rw [hlooks.instances_eq, hx]
  · rw [hlooks.unions_eq, hu]
  · grind [isPending, TellsAll.form_eq]

theorem Tidy.retains_setModule (h : s.Tidy) {m : TypeId} {info : ModuleType} (hm : s.form m = .ofModule info)
    {members : OrderedMap String TypeRef} (hmembers : ∀ ref ∈ members.values, s.RefKnown ref) :
    (s.setForm m (.ofModule { info with members })).Tidy ∧ s.Retains (s.setForm m (.ofModule { info with members })) := by
  obtain ⟨htidy, hevolves⟩ := h.setScope m (.ofModule { info with members })
    (by simp [hm, TypeForm.isScope]) rfl (by simp [hm, TypeForm.outline]) hmembers
  refine ⟨htidy, hevolves, fun _ _ => rfl, fun _ _ => rfl, fun _ _ hx => hx, fun _ _ hu => hu, fun c cls hc => ?_⟩
  grind [form_setForm_of_ne]

/-! ## Meanings -/

/-- Nothing about the type can be found out by looking something up. -/
def Final (s : TypeStore) (u : TypeId) : Prop := s.Plain u ∧ ∀ w, s.shape u ≠ .object (.slot w)

theorem Final.retains (hretains : s.Retains s') (h : s.Final u) : s'.Final u := by
  refine ⟨h.1.evolves hretains.toEvolves, fun w hw => h.2 w ?_⟩
  have hsame := hretains.outline_eq u h.1.1
  rw [hw] at hsame
  exact TypeForm.eq_of_outline hsame.symm rfl (by simp)

theorem final_of_form {f : TypeForm} (h : s.form u = f) (hne : f ≠ .unknown)
    (hplain : f.isPlain = true) (hobject : ∀ w, f ≠ .object (.slot w)) : s.Final u := by
  have hshape : s.shape u = f := by
    rw [shape, h]
    cases f <;> first | rfl | contradiction
  exact ⟨⟨known_of_shape (by rwa [hshape]), by rwa [hshape]⟩, fun w hw => hobject w (hshape.symm.trans hw)⟩

/-- `x` stands for `u`, with nothing left to look up on the way. -/
inductive Means (s : TypeStore) : TypeId → TypeId → Prop
  | final {u : TypeId} : s.Final u → Means s u u
  /-- Instances of a class that has been looked up since. -/
  | awaited {x u : TypeId} {w : SlotId} : s.shape x = .object (.slot w) → (s.slot w).isResolved =
      true → s.Answers (s.InstancePart (s.slot w).target) u → Means s x u
  | target {l x u : TypeId} : s.lazyTarget? l = some x → Means s x u → Means s l u

theorem MadeOf.isPlain (h : s.MadeOf (·.isDirect = true) u) : (s.shape u).isPlain = true := by
  cases h with
  | unknown hu => cases hshape : s.shape u <;> simp_all [TypeForm.isUnknown, TypeForm.isPlain]
  | single hu => cases hshape : s.shape u <;> simp_all [TypeForm.isDirect, TypeForm.isPlain]
  | union hu _ =>
    rw [hu]
    rfl

section

variable (h : s.Tidy) (hc : (s.shape c).isPlain = true) (hu : s.Answers (s.InstancePart c) u)

include h hc hu

/-- The instances of a plain class are unknown or instances of classes that are known. -/
theorem Tidy.madeOf_of_answers : s.MadeOf (·.isDirect = true) u := by
  refine hu.madeOf h.wellFormed (fun f hf => ?_) fun p x hp hunknown hx => ?_
  · cases f <;> first | rfl | contradiction
  · rcases h.instancePart_of_isPlain hc hp with rfl | ⟨d, rfl⟩
    · exact absurd rfl hunknown
    · rw [h.wellFormed.instances d x hx]
      rfl

theorem Tidy.final_of_answers : s.Final u := by
  have hmade := h.madeOf_of_answers hc hu
  have hknown : s.Known u := by
    cases (hu.settled h.wellFormed h.slotsFollow fun p hp hne => hp.genuine hne).1 with
    | unknown hknown _ => exact hknown
    | atom hatom => exact hatom.known
    | union hcs _ _ => exact known_of_candidates hcs
  refine ⟨⟨hknown, hmade.isPlain⟩, fun w hw => ?_⟩
  cases hmade <;> simp_all [TypeForm.isUnknown, TypeForm.isDirect]

end

theorem Means.final_right (h : s.Tidy) (hx : s.Means x u) : s.Final u := by
  induction hx with
  | final hu => exact hu
  | awaited _ hw hu => exact h.final_of_answers (h.slot_plain hw) hu
  | target _ _ ih => exact ih

theorem Means.known (h : s.Means x u) : s.Known x := by
  cases h with
  | final hu => exact hu.1.1
  | awaited hshape _ _ => exact known_of_shape (by simp [hshape])
  | target hl _ => exact known_of_unfolds (.inl hl)

theorem not_means_of_isPending (hl : s.isPending l = true) : ¬ s.Means l u := by
  obtain ⟨path, hshape⟩ := isPending_iff.1 hl
  intro h
  cases h with
  | final hu =>
    have hplain := hu.1.2
    simp [hshape, TypeForm.isPlain] at hplain
  | awaited hobject _ _ => simp [hshape] at hobject
  | target htarget _ =>
    grind [lazyTarget?_eq_some_iff]

theorem not_means_of_waiting (hx : s.shape x = .object (.slot w)) (hw : (s.slot w).isResolved = false) : ¬ s.Means x u := by
  intro h
  cases h with
  | final hu => exact hu.2 w hx
  | awaited hobject hresolved _ =>
    simp_all
  | target htarget _ =>
    grind [lazyTarget?_eq_some_iff]

theorem Means.unique (h : s.Means x u) (h' : s.Means x v) : u = v := by
  induction h with
  | final hu =>
    cases h' with
    | final _ => rfl
    | awaited hshape _ _ => exact absurd hshape (hu.2 _)
    | target htarget _ => rw [lazyTarget?_of_isPlain hu.1.2] at htarget; contradiction
  | awaited hshape hw hu =>
    cases h' with
    | final hv => exact absurd hshape (hv.2 _)
    | awaited hshape' _ hv =>
      obtain rfl := TypeRef.slot.inj (TypeForm.object.inj (hshape.symm.trans hshape'))
      exact hu.unique (.refl hu.typeOf?) hv
    | target htarget _ => rw [lazyTarget?_of_isPlain (by rw [hshape]; rfl)] at htarget; contradiction
  | target htarget _ ih =>
    cases h' with
    | final hv => rw [lazyTarget?_of_isPlain hv.1.2] at htarget; contradiction
    | awaited hshape _ _ => rw [lazyTarget?_of_isPlain (by rw [hshape]; rfl)] at htarget; contradiction
    | target htarget' hv =>
      simp_all

theorem instancePart_of_isSingle {d : TypeId} (hsingle : (s.shape d).isSingle = true) (hplain : (s.shape d).isPlain = true) :
    s.InstancePart d p ↔ p = if (s.shape d).isUnknown then .unknown else .instanceOf d := by
  rw [instancePart_iff]
  split <;> simp_all [TypeForm.isUnknown, TypeForm.isSingle, TypeForm.isPlain]

theorem Retains.instancePart_iff (hretains : s.Retains s') (h : s.Tidy) (hc : s.Plain c) :
    s'.InstancePart c p ↔ s.InstancePart c p := by
  have hone : ∀ d, s.Known d → (s.shape d).isSingle = true → (s.shape d).isPlain = true →
      (s'.InstancePart d p ↔ s.InstancePart d p) := by
    intro d hd hsingle hplain
    rw [instancePart_of_isSingle hsingle hplain, instancePart_of_isSingle, hretains.isUnknown_eq hd]
    · rwa [hretains.isSingle_eq hd]
    · rwa [hretains.isPlain_eq hd]
  by_cases hsingle : (s.shape c).isSingle = true
  · exact hone c hc.1 hsingle hc.2
  · obtain ⟨cs, hcs⟩ : ∃ cs, s.shape c = .union cs := by
      have hplain := hc.2
      cases hshape : s.shape c <;> simp_all [TypeForm.isSingle, TypeForm.isPlain]
    have hcs' : s'.shape c = .union cs :=
      (hretains.shape_eq hc.1 (by simp [hcs, TypeForm.isScope]) (by simp [hcs])).trans hcs
    have hcandidates : s.candidates? c = some cs := candidates?_eq_some_iff.2 (.inl hcs)
    rw [TypeStore.instancePart_iff, hcs', TypeStore.instancePart_iff, hcs]
    refine exists_congr fun d => and_congr_right fun hd => ?_
    exact hone d (h.wellFormed.unfolds_known (.inr ⟨cs, hcandidates, hd⟩)) (h.single hcandidates hd) (h.plain hcs hd)

theorem Answers.retains (hretains : s.Retains s') {P : Part → Prop} (hP : ∀ p, P p → p = .unknown ∨ ∃ d, p = .instanceOf d)
    (h : s.Answers P u) : s'.Answers P u := by
  have htype : ∀ p x, P p → s.typeOf? p = some x → s'.typeOf? p = some x := by
    intro p x hp hx
    rcases hP p hp with rfl | ⟨d, rfl⟩
    · exact hx
    · exact hretains.instances d x hx
  cases h with
  | unknown hunknown => exact .unknown hunknown
  | @known cs _ hnot hleft hright hnodup hne hjoins =>
    refine .known hnot (fun p hp => ?_) (fun x hx => ?_) hnodup hne ?_
    · grind
    · obtain ⟨p, hp, hpx⟩ := hright x hx
      exact ⟨p, hp, htype p x hp hpx⟩
    · rcases cs with _ | ⟨x, _ | ⟨d, rest⟩⟩
      · exact hjoins
      · exact hjoins
      · exact hretains.unions _ u hjoins

theorem Means.retains (hretains : s.Retains s') (h : s.Tidy) (hx : s.Means x u) : s'.Means x u := by
  induction hx with
  | final hu => exact .final (hu.retains hretains)
  | @awaited x u w hshape hw hu =>
    have hplain : s.Plain (s.slot w).target := ⟨(h.wellFormed.slot_known w).2, h.slot_plain hw⟩
    refine .awaited (hretains.shape_object hshape) (by rwa [hretains.slot_eq w hw]) ?_
    rw [hretains.slot_eq w hw]
    exact (hu.retains hretains fun p hp => h.instancePart_of_isPlain hplain.2 hp).of_iff fun p =>
      (hretains.instancePart_iff h hplain).symm
  | target htarget _ ih => exact .target (hretains.target_eq _ _ htarget) ih

/-! ## Meanings of references -/

/-- A reference refers to something that means `u`. -/
def RefMeans (s : TypeStore) (ref : TypeRef) (u : TypeId) : Prop := s.Means (s.target ref) u

theorem RefMeans.unique (h : s.RefMeans ref u) (h' : s.RefMeans ref v) : u = v :=
  Means.unique h h'

theorem target_slot_of_waiting (hw : (s.slot w).isResolved = false) : s.target (.slot w) = (s.slot w).lazy := by
  simpa [Slot.isResolved, target] using hw

theorem Tidy.isPending_of_waiting (h : s.Tidy) (hknown : s.SlotKnown w)
    (hw : (s.slot w).isResolved = false) : s.isPending (s.slot w).lazy = true :=
  (h.inStep.waits_iff w hknown).1 (target_slot_of_waiting hw)

theorem Tidy.isResolved_of_refMeans (h : s.Tidy) (hknown : s.RefKnown ref) (hu : s.RefMeans ref u) :
    s.isResolved ref = true := by
  cases ref with
  | direct t => rfl
  | slot w =>
    by_contra hw
    have hwaits : (s.slot w).isResolved = false := by simpa [isResolved] using hw
    rw [RefMeans, target_slot_of_waiting hwaits] at hu
    exact not_means_of_isPending (h.isPending_of_waiting hknown hwaits) hu

section

variable (hretains : s.Retains s')

include hretains

theorem Retains.target_eq_of_isResolved (href : s.isResolved ref = true) : s'.target ref = s.target ref := by
  cases ref with
  | direct t => rfl
  | slot w => simp only [target, hretains.slot_eq w href]

theorem RefMeans.retains (h : s.Tidy) (hknown : s.RefKnown ref) (hu : s.RefMeans ref u) : s'.RefMeans ref u := by
  grind [eq_1, Retains.target_eq_of_isResolved, Tidy.isResolved_of_refMeans, Means.retains]

/-- What a reference refers to stays, or was a lazy type that has been resolved to it. -/
theorem Retains.target_cases (h' : s'.Tidy) (hknown : s.RefKnown ref) :
    s'.target ref = s.target ref ∨ s'.lazyTarget? (s.target ref) = some (s'.target ref) := by
  cases ref with
  | direct t => exact .inl rfl
  | slot w =>
    by_cases hw : (s.slot w).isResolved = true
    · exact .inl (congrArg Slot.target (hretains.slot_eq w hw))
    rw [target_slot_of_waiting (s := s) (by simpa using hw), ← hretains.lazy_eq w hknown]
    by_cases hw' : (s'.slot w).isResolved = true
    · exact .inr (h'.inStep.target_eq w (Nat.lt_of_lt_of_le hknown hretains.slots_le) (h'.slotsFollow w hw'))
    · exact .inl (target_slot_of_waiting (by simpa using hw'))

theorem Retains.refMeans (h' : s'.Tidy) (hknown : s.RefKnown ref) (hu : s'.Means (s.target ref) u) : s'.RefMeans ref u := by
  rcases hretains.target_cases h' hknown with heq | htarget
  · rwa [RefMeans, heq]
  · cases hu with
    | final hfinal => rw [lazyTarget?_of_isPlain hfinal.1.2] at htarget; contradiction
    | awaited hshape _ _ => rw [lazyTarget?_of_isPlain (by rw [hshape]; rfl)] at htarget; contradiction
    | target htarget' hx =>
      cases htarget.symm.trans htarget'
      exact hx

end

end TypeStore

end PythonTypes
