import PythonTypes.Proofs.Descriptor.Scope
import PythonTypes.Proofs.Table.Meaning

/-!
# Converting descriptors only adds types

Conversion always comes to an end. It leaves the types that were there as they were (`Gains`), so
whatever could be told about them stays true, and it adds no more than the descriptor calls for
(`Takes`). What it adds is solid: a member or base that does not wait in a slot is plain. Following
types adds no modules, classes or resolved lazy types at all (`framed_inert`), so it keeps a store
solid as well.
-/

set_option autoImplicit false

namespace PythonTypes

namespace TypeStore

variable {s s' : TypeStore}
variable {cls : TypeRef} {form : TypeForm} {x : TypeId} {ref : TypeRef} {t : TypeId}

/-- A reference to a plain type, or one that waits in a slot. -/
def RefPlain (s : TypeStore) : TypeRef → Prop
  | .direct u => s.Plain u
  | .slot w => s.SlotKnown w

theorem RefPlain.refKnown (h : s.RefPlain ref) : s.RefKnown ref := by
  cases ref with
  | direct u => exact h.1
  | slot w => exact h

theorem RefPlain.evolves (he : s.Evolves s') (h : s.RefPlain ref) : s'.RefPlain ref := by
  cases ref with
  | direct u => exact Plain.evolves he h
  | slot w => exact Nat.lt_of_lt_of_le h he.slots_le

/-- The members and bases of modules and classes are plain, unless they wait in a slot. -/
def Solid (s : TypeStore) : Prop := ∀ x, (s.form x).isScope = true → ∀ ref ∈ (s.form x).refs, s.RefPlain ref

/-- The modules and classes of `s'` are those of `s`. -/
def NoNewScope (s s' : TypeStore) : Prop := ∀ x, (s'.form x).isScope = true → s'.form x = s.form x

theorem Solid.noNewScope (h : s.Solid) (he : s.Evolves s') (hscope : s.NoNewScope s') : s'.Solid := by
  intro x hx ref href
  have hsame := hscope x hx
  grind [Solid, RefPlain.evolves]

theorem isScope_shape (s : TypeStore) (x : TypeId) : (s.shape x).isScope = (s.form x).isScope := by
  unfold shape
  cases s.form x with
  | lazy path state => cases state <;> rfl
  | _ => rfl

theorem form_eq_of_shape_eq (h : s'.shape x = s.shape x) (hx : (s'.form x).isScope = true) : s'.form x = s.form x := by
  have hlazy : ∀ path ws, s'.form x ≠ .lazy path (.pending ws) := by
    intro path ws hform
    rw [hform] at hx
    contradiction
  have hshape : s'.shape x = s'.form x := (shape_eq_iff hlazy).2 rfl
  exact ((shape_eq_iff hlazy).1 (h.symm.trans hshape)).symm

theorem form_setForm_cases (form : TypeForm) (hx : s.Known x) (y : TypeId) :
    (s.setForm x form).form y = form ∨ (s.setForm x form).form y = s.form y := by
  grind [form_setForm_self, form_setForm_of_ne]

/-- The lazy types that are resolved in `s'` are so in `s`. -/
def NoNewTarget (s s' : TypeStore) : Prop := ∀ l x, s'.lazyTarget? l = some x → s.lazyTarget? l = some x

theorem noNewTarget_of_form (form : TypeForm) (hform : ∀ path x, form ≠ .lazy path (.resolved x))
    (h : ∀ l, s'.form l = form ∨ s'.form l = s.form l) : s.NoNewTarget s' := by
  intro l x hl
  rcases h l with hnew | hsame
  · obtain ⟨path, hshape⟩ := lazyTarget?_eq_some_iff.1 hl
    exact absurd (hnew.symm.trans (form_of_shape (by simp) hshape)) (hform path x)
  · simp_all [lazyTarget?]

theorem noNewTarget_of_push (htypes : s'.types = s.types.push form)
    (hform : ∀ path x, form ≠ .lazy path (.resolved x)) : s.NoNewTarget s' := by
  refine noNewTarget_of_form form hform fun l => ?_
  grind [form_fresh_of_push, form_eq_of_push]

/-- A union and the instance of a class are the ones in the tables. -/
def InternedAt (s : TypeStore) (x : TypeId) : TypeForm → Prop
  | .union _ | .lazyUnion _ => ∃ key, s.unions.get? key = some x
  | .object (.direct c) => s.instances.get? c = some x
  | _ => True

/-- Every union and every instance of a class is interned. -/
def Interned (s : TypeStore) : Prop := ∀ x, s.InternedAt x (s.shape x)

theorem InternedAt.mono (h : s.InternedAt x form)
    (hinstances : ∀ c x, s.instances.get? c = some x → s'.instances.get? c = some x)
    (hunions : ∀ key u, s.unions.get? key = some u → s'.unions.get? key = some u) : s'.InternedAt x form := by
  unfold InternedAt at h ⊢
  split at h
  · exact h.imp fun key => hunions key x
  · exact h.imp fun key => hunions key x
  · exact hinstances _ x h
  · trivial

theorem Interned.of_new (h : s.Interned) (hinstances : ∀ c x, s.instances.get? c = some x → s'.instances.get? c = some x)
    (hunions : ∀ key u, s.unions.get? key = some u → s'.unions.get? key = some u)
    (hnew : ∀ x, s'.shape x = s.shape x ∨ s'.InternedAt x (s'.shape x)) : s'.Interned := by
  intro x
  rcases hnew x with hsame | hnew
  · rw [hsame]
    exact (h x).mono hinstances hunions
  · exact hnew

theorem Interned.union (h : s.Interned) {cs : List TypeId} (hx : s.candidates? x = some cs) :
    ∃ key, s.unions.get? key = some x := by
  have hinterned := h x
  rcases candidates?_eq_some_iff.1 hx with hshape | hshape <;> rwa [hshape] at hinterned

theorem shape_eq_of_form_eq (h : s'.form x = s.form x) : s'.shape x = s.shape x := by
  unfold shape
  rw [h]

section

variable (h : s.Interned) (hinstances : s'.instances = s.instances) (hunions : s'.unions = s.unions)

include h hinstances hunions

theorem Interned.of_form (form : TypeForm)
    (hform : isDerived form = false) (hforms : ∀ x, s'.form x = form ∨ s'.form x = s.form x) : s'.Interned := by
  refine h.of_new (fun _ _ hx => hinstances ▸ hx) (fun _ _ hu => hunions ▸ hu) fun x => ?_
  rcases hforms x with hnew | hsame
  · refine .inr ?_
    unfold shape
    rw [hnew]
    cases form with
    | lazy path state => cases state <;> trivial
    | _ => trivial
  · exact .inl (shape_eq_of_form_eq hsame)

theorem Interned.of_push (htypes : s'.types = s.types.push form) (hform : isDerived form = false) : s'.Interned := by
  refine h.of_form hinstances hunions form hform fun u => ?_
  grind [form_fresh_of_push, form_eq_of_push]

end

/-- No new modules, classes, lazy types and targets of lazy types, and no union or instance that is
not interned. -/
structure Inert (s s' : TypeStore) : Prop where
  quiet : s.Quiet s'
  instances : ∀ c x, s.instances.get? c = some x → s'.instances.get? c = some x
  unions : ∀ key u, s.unions.get? key = some u → s'.unions.get? key = some u
  new : ∀ x, s'.shape x = s.shape x ∨
    (s'.shape x).isScope = false ∧ s'.lazyTarget? x = none ∧ s'.InternedAt x (s'.shape x)

theorem Inert.scope (h : s.Inert s') : s.NoNewScope s' := by
  intro x hx
  rcases h.new x with hsame | ⟨hscope, -⟩
  · exact form_eq_of_shape_eq hsame hx
  · rw [isScope_shape, hx] at hscope
    contradiction

theorem Inert.target (h : s.Inert s') : s.NoNewTarget s' := by
  intro l x hl
  rcases h.new l with hsame | ⟨-, hnone, -⟩
  · exact (lazyTarget?_congr hsame).symm.trans hl
  · cases hnone.symm.trans hl

theorem Inert.interned (h : s.Inert s') (hs : s.Interned) : s'.Interned :=
  hs.of_new h.instances h.unions fun x => (h.new x).imp_right fun hnew => hnew.2.2

theorem Inert.refl (s : TypeStore) : s.Inert s :=
  ⟨fun _ => ⟨rfl, rfl⟩, fun _ _ hx => hx, fun _ _ hu => hu, fun _ => .inl rfl⟩

theorem inert_addWatcher (s : TypeStore) (t : TypeId) (w : Watcher) : s.Inert (s.addWatcher t w) :=
  ⟨quiet_of_shape (s.shape_addWatcher t w), (grows_addWatcher s t w).instances,
    (grows_addWatcher s t w).unions, fun x => .inl (s.shape_addWatcher t w x)⟩

theorem inert_of_push (hinstances : ∀ c x, s.instances.get? c = some x → s'.instances.get? c = some x)
    (hunions : ∀ key u, s.unions.get? key = some u → s'.unions.get? key = some u) (htypes : s'.types = s.types.push form)
    (hscope : form.isScope = false) (hlazy : ∀ path state, form ≠ .lazy path state)
    (hnew : s'.InternedAt s.fresh form) : s.Inert s' := by
  refine ⟨quiet_of_push htypes ?_ hlazy, hinstances, hunions, fun x => ?_⟩
  · cases form <;> first | rfl | cases hscope
  · by_cases hfresh : x = s.fresh
    · have hshape : s'.shape x = form := (shape_eq_iff fun path ws => hlazy path _).2 (hfresh ▸ form_fresh_of_push htypes)
      rw [hshape, hfresh]
      exact .inr ⟨hscope, no_target_of_shape (hfresh ▸ hshape) fun path target => hlazy path _, hnew⟩
    · exact .inl (shape_eq_of_form_eq (form_eq_of_push htypes hfresh))

theorem framed_inert : Framed Inert where
  refl := .refl
  trans h h' := by
    refine ⟨fun x => ⟨(h'.quiet x).1.trans (h.quiet x).1, (h'.quiet x).2.trans (h.quiet x).2⟩,
      fun c x hx => h'.instances c x (h.instances c x hx), fun key u hu => h'.unions key u (h.unions key u hu), fun x => ?_⟩
    rcases h'.new x with hsame | hnew
    · rw [hsame, lazyTarget?_congr hsame]
      exact (h.new x).imp_right fun hnew => ⟨hnew.1, hnew.2.1, hnew.2.2.mono h'.instances h'.unions⟩
    · exact .inr hnew
  wrap t s := by
    rw [wrap_apply]
    split
    · have h := inert_addWatcher (s.waiting (s.derefLazy t)) (s.derefLazy t) (.slot ⟨s.slots.size⟩)
      exact ⟨h.quiet, h.instances, h.unions, h.new⟩
    · exact .refl s
  internInstance cls s := by
    rw [internInstance_apply]
    split
    · exact .refl s
    · rename_i hnone
      exact inert_of_push (fun _ _ hx => OrderedMap.get?_insert_of_absent hnone hx)
        (fun _ _ hu => hu) rfl rfl (by simp) (OrderedMap.get?_insert_self ..)
  internLazyInstance lazy w s := by
    rw [internLazyInstance_apply]
    split
    · exact .refl s
    · exact inert_of_push (fun _ _ hx => hx) (fun _ _ hu => hu) rfl rfl (by simp) trivial
  internUnion cs s := by
    rcases cs with _ | ⟨c, _ | ⟨d, rest⟩⟩
    · exact .refl s
    · exact .refl s
    · rw [internUnion_apply]
      split
      · exact .refl s
      · rename_i hnone
        have hkey := OrderedMap.get?_insert_self s.unions (unionKey (c :: d :: rest)) s.fresh
        refine inert_of_push (fun _ _ hx => hx) (fun _ _ hu => OrderedMap.get?_insert_of_absent hnone hu) rfl ?_ ?_ ?_ <;>
          rcases s.unionForm_cases (c :: d :: rest) with hform | ⟨hform, -⟩ <;> rw [hform]
        · rfl
        · rfl
        · simp
        · simp
        · exact ⟨_, hkey⟩
        · exact ⟨_, hkey⟩

theorem Solid.added (h : s.Solid) (hgrows : s.Grows (s.added form))
    (hrefs : form.isScope = true → ∀ ref ∈ form.refs, s.RefPlain ref) : (s.added form).Solid := by
  intro x hx ref href
  by_cases hfresh : x = s.fresh
  · rw [hfresh, form_fresh_of_push rfl] at hx href
    exact (hrefs hx ref href).evolves hgrows.evolves
  · rw [form_eq_of_push rfl hfresh] at hx href
    exact (h x hx ref href).evolves hgrows.evolves

theorem Solid.setForm (h : s.Solid) (hevolves : s.Evolves (s.setForm x form))
    (hrefs : ∀ ref ∈ form.refs, s.RefPlain ref) : (s.setForm x form).Solid := by
  intro y hy ref href
  by_cases hyx : y = x ∧ s.Known x
  · rw [hyx.1, s.form_setForm_self form hyx.2] at href
    exact (hrefs ref href).evolves hevolves
  · have hsame : (s.setForm x form).form y = s.form y := by
      rcases not_and_or.1 hyx with hyx | hx
      · exact s.form_setForm_of_ne form hyx
      · have hout : s.types.size ≤ x.index := Nat.le_of_not_lt hx
        rw [TypeStore.setForm, Array.setIfInBounds, dif_neg (by omega)]
    rw [hsame] at hy href
    exact (h y hy ref href).evolves hevolves

theorem Grows.setClass {s1 : TypeStore} (h : s.Grows s1) {cls : TypeId} (hcls : ¬ s.Known cls)
    {c : ClassType} (hform : s1.form cls = .ofClass c) (members : OrderedMap String TypeRef) :
    s.Grows (s1.setForm cls (.ofClass { c with members })) := by
  set s2 := s1.setForm cls (.ofClass { c with members })
  have hshape : s1.shape cls = .ofClass c := (shape_eq_iff (by simp)).2 hform
  have hshape' : s2.shape cls = .ofClass { c with members } :=
    s1.shape_setForm_self _ (known_of_shape (by simp [hshape]))
  have hother : ∀ x, x ≠ cls → s2.shape x = s1.shape x := fun x hx => s1.shape_setForm_of_ne _ hx
  have hcandidates : ∀ x, s2.candidates? x = s1.candidates? x := by
    intro x
    by_cases hx : x = cls
    · have hnone : ∀ {s0 : TypeStore} {c' : ClassType}, s0.shape cls = .ofClass c' → s0.candidates? cls = none := by
        intro s0 c' hclass
        by_contra hne
        obtain ⟨cs, hcs⟩ := Option.ne_none_iff_exists'.1 hne
        rcases candidates?_eq_some_iff.1 hcs with hcs | hcs <;> simp [hclass] at hcs
      rw [hx, hnone hshape', hnone hshape]
    · exact candidates?_congr (hother x hx)
  have htarget : ∀ x, s2.lazyTarget? x = s1.lazyTarget? x := by
    intro x
    by_cases hx : x = cls
    · rw [hx, lazyTarget?_of_isPlain (by rw [hshape']; rfl), lazyTarget?_of_isPlain (by rw [hshape]; rfl)]
    · exact lazyTarget?_congr (hother x hx)
  refine ⟨h.size_le.trans (Nat.le_of_eq (s1.size_setForm cls _).symm), h.slots_le, fun x hx => ?_, h.slot_eq, h.instances,
    h.lazyInstances, h.unions, fun x u hx hu => ?_, fun x cs hx hcs => ?_, h.fresh_waits⟩
  · grind [shape_eq]
  · refine h.fresh_descends x u hx ?_
    simp_all [Unfolds]
  · grind [fresh_offers]

/-- A type that a reference may be made to: no lazy union. -/
def Wrappable (s : TypeStore) (t : TypeId) : Prop := s.Known t ∧ ∀ cs, s.shape t ≠ .lazyUnion cs

theorem Plain.wrappable (h : s.Plain t) : s.Wrappable t := by
  refine ⟨h.1, fun cs hcs => ?_⟩
  have hplain := h.2
  rw [hcs] at hplain
  contradiction

theorem wrappable_of_lazyPath? {l : TypeId} {path : String} (h : s.lazyPath? l = some path) : s.Wrappable l := by
  refine ⟨known_of_lazyPath? h, fun cs hcs => ?_⟩
  rw [lazyPath?, form_of_shape (by simp) hcs] at h
  contradiction

theorem Tidy.refPlain_wrap (h : s.Tidy) (ht : s.Wrappable t) : (TypeStore.wrap t s).2.RefPlain (TypeStore.wrap t s).1 := by
  have hknown := (h.wrap ht.1).2.2
  rw [wrap_apply] at hknown ⊢
  split at hknown
  · rename_i hpending
    rw [if_pos hpending]
    exact hknown
  · rename_i hpending
    rw [if_neg hpending]
    refine ⟨hknown, ?_⟩
    have htarget := h.derefLazy_target t
    rw [h.derefLazy_eq] at hpending htarget ⊢
    cases hl : s.lazyTarget? t with
    | some u => exact h.target_plain hl
    | none =>
      rw [hl, Option.getD_none] at hpending
      cases hshape : s.shape t with
      | lazyUnion cs => exact absurd hshape (ht.2 cs)
      | lazy path state =>
        cases state with
        | pending ws => grind [isPending_of_shape]
        | resolved u => rw [lazyTarget?_eq_some_iff.2 ⟨path, hshape⟩] at hl; contradiction
      | _ => simp [hshape, TypeForm.isPlain]

theorem instanceOfAt_of_not_awaited {depth : Nat} (h : s.awaited? cls = none) :
    instanceOfAt (depth + 1) cls s = instanceOfAt (depth + 1) (.direct (s.target cls)) s := by
  rw [instanceOfAt, instanceOfAt]
  unfold instanceStep
  rw [get_bind_apply, get_bind_apply, h]
  rfl

theorem isResolved_of_not_awaited (h : s.awaited? cls = none) : s.isResolved cls = true := by
  cases cls with
  | direct c => rfl
  | slot w =>
    simp_all [isResolved, awaited?]

theorem Tidy.runs_instanceOf_plain (h : s.Tidy) (hcls : s.RefPlain cls) :
    Runs False s (instanceOfAt s.depthBound cls) fun u s' => s'.Tidy ∧ s'.Plain u := by
  cases hawaited : s.awaited? cls with
  | some lazy =>
    obtain ⟨w, rfl, hwaits, rfl⟩ := awaited?_eq_some hawaited
    show Runs False s (instanceOfAt (8 * s.size + 7 + 1) (.slot w)) _
    rw [instanceOfAt]
    unfold instanceStep
    refine .get_bind ?_
    rw [hawaited]
    refine ((kept_tidy.runs_internLazyInstance h hcls hwaits).and (runs_internLazyInstance h.wellFormed hcls)).imp ?_
    intro u s' hwell _ hu
    obtain ⟨w', hshape, -⟩ := hwell.lazyInstances _ u hu.2
    exact ⟨hu.1.1, hu.1.2.1, by rw [hshape]; rfl⟩
  | none =>
    have hplain : s.Plain (s.target cls) := by
      cases cls with
      | direct c => exact hcls
      | slot w => exact ⟨(h.wellFormed.slot_known w).2, h.slot_plain (isResolved_of_not_awaited hawaited)⟩
    have hdepth : s.size + 6 ≤ 8 * s.size + 7 + 1 := by omega
    have hdirect := h.runs_instanceOf_direct hplain.1 hdepth
    show Runs False s (instanceOfAt (8 * s.size + 7 + 1) cls) _
    unfold Runs
    rw [instanceOfAt_of_not_awaited hawaited]
    refine hdirect.imp fun u s' _ hgrows hu => ⟨hu.1.1, ?_⟩
    have hanswers : s'.Answers (s'.InstancePart (s.target cls)) u :=
      hu.2.of_iff fun p => (hgrows.retains.instancePart_iff h hplain).symm
    exact (hu.1.1.final_of_answers (hplain.evolves hgrows.evolves).2 hanswers).1

end TypeStore

theorem Ensures.bind_of_eq {σ α β : Type} {mayStop : Prop} {s s' : σ} {action : StateT σ Option α}
    {a : α} {f : α → StateT σ Option β} {Q : β → σ → Prop} (h : action s = some (a, s'))
    (hf : Ensures mayStop s' (f a) Q) : Ensures mayStop s (action >>= f) Q :=
  Ensures.bind (P := fun b s'' => b = a ∧ s'' = s') (.of_eq_some h ⟨rfl, rfl⟩) fun _ _ hb => hb.1 ▸ hb.2 ▸ hf

/-! ## Type spaces -/

namespace TypeSpace

open TypeStore

/-- Tidy, with solid modules and classes, and all unions interned. -/
structure Sound (space : TypeSpace) : Prop extends space.Tidy where
  solid : space.store.Solid
  interned : space.store.Interned

/-- More types and lazy types, the others unchanged. -/
structure Gains (space space' : TypeSpace) : Prop where
  sound : space'.Sound
  grows : space.store.Grows space'.store
  inProgress_eq : space'.registry.inProgress = space.registry.inProgress
  target : space.store.NoNewTarget space'.store

theorem Gains.refl {space : TypeSpace} (h : space.Sound) : space.Gains space := ⟨h, .refl _, rfl, fun _ _ hl => hl⟩

theorem Gains.trans {space : TypeSpace} {space' space'' : TypeSpace} (h : space.Gains space')
    (h' : space'.Gains space'') : space.Gains space'' :=
  ⟨h'.sound, h.grows.trans h'.grows, h'.inProgress_eq.trans h.inProgress_eq, fun l x hl => h.target l x (h'.target l x hl)⟩

theorem Sound.gains_inert {space : TypeSpace} (h : space.Sound) {store : TypeStore} (htidy : store.Tidy)
    (hgrows : space.store.Grows store) (hinert : space.store.Inert store) : space.Gains { space with store } :=
  ⟨⟨h.toTidy.withStore htidy hgrows.evolves, h.solid.noNewScope hgrows.evolves hinert.scope,
    hinert.interned h.interned⟩, hgrows, rfl, hinert.target⟩

theorem Sound.gains_added {space : TypeSpace} (h : space.Sound) {form : TypeForm} (htidy : (space.store.added form).Tidy)
    (hgrows : space.store.Grows (space.store.added form)) (hform : form.isScope = true ∨ form.isFunction = true)
    (hrefs : form.isScope = true → ∀ ref ∈ form.refs, space.store.RefPlain ref) :
    space.Gains { space with store := space.store.added form } := by
  refine ⟨⟨h.toTidy.withStore htidy hgrows.evolves, h.solid.added hgrows hrefs, ?_⟩, hgrows, rfl, ?_⟩
  · refine h.interned.of_push rfl rfl rfl ?_
    cases form <;> simp_all [TypeForm.isScope, TypeForm.isFunction, isDerived]
  · refine noNewTarget_of_push rfl fun path x => ?_
    grind [TypeForm.isScope, TypeForm.isFunction]

/-- An action comes to an end having only added types, among them lazy types for some of the paths
`U` and at most `n` classes, and its answer has property `Q`. -/
def Adds {α : Type} (space : TypeSpace) (U : Finset String) (n : Nat) (action : SpaceM α) (Q : α → TypeStore → Prop) : Prop :=
  Ensures False space action fun a space' => space.Gains space' ∧ space.Takes U n space' ∧ Q a space'.store

namespace Adds

variable {α β : Type} {space : TypeSpace} {U : Finset String} {n m : Nat} {action : SpaceM α} {P : α → TypeStore → Prop}

theorem pure {a : α} (h : space.Sound) (ha : P a space.store) : space.Adds U n (Pure.pure a) P :=
  Ensures.pure ⟨.refl h, .refl space, ha⟩

theorem bind {f : α → SpaceM β} {Q : β → TypeStore → Prop} (h : space.Adds U n action P)
    (hf : ∀ a (space' : TypeSpace), space'.Sound → space.store.Grows space'.store →
      P a space'.store → space'.Adds U m (f a) Q) : space.Adds U (n + m) (action >>= f) Q :=
  Ensures.bind h fun a space' ha =>
    Ensures.imp (hf a space' ha.1.sound ha.1.grows ha.2.2) fun _ _ hb => ⟨ha.1.trans hb.1, ha.2.1.trans hb.2.1, hb.2.2⟩

theorem imp {Q : α → TypeStore → Prop} (h : space.Adds U n action P) (hPQ : ∀ a s, P a s → Q a s) : space.Adds U n action Q :=
  Ensures.imp h fun a space' ha => ⟨ha.1, ha.2.1, hPQ a space'.store ha.2.2⟩

theorem map {f : α → β} {Q : β → TypeStore → Prop}
    (h : space.Adds U n action fun a s => Q (f a) s) : space.Adds U n (f <$> action) Q :=
  Ensures.map h

theorem mapM {ι : Type} {f : ι → SpaceM α} (hstays : ∀ a s s', s.Evolves s' → P a s → P a s') (h : space.Sound)
    (xs : List ι) (hf : ∀ x ∈ xs, ∀ space' : TypeSpace, space'.Sound → space'.Adds U 0 (f x) P) :
    space.Adds U 0 (xs.mapM f) fun as s => ∀ a ∈ as, P a s := by
  induction xs generalizing space with
  | nil =>
    rw [List.mapM_nil]
    exact .pure h (by simp)
  | cons x rest ih =>
    rw [List.mapM_cons]
    refine (hf x (by simp) space h).bind (m := 0) fun a space1 h1 _ ha => ?_
    refine (ih h1 fun y hy => hf y (by simp [hy])).bind (m := 0) fun as space2 h2 hgrows has => .pure h2 ?_
    grind [Grows.evolves]

theorem follow {action : Nat → DeepM α} (h : space.Sound)
    (hinert : Ensures True space.store (action space.store.depthBound) fun _ s' => space.store.Inert s')
    (hruns : TypeStore.Runs False space.store (action space.store.depthBound) fun a s' => s'.Tidy ∧ P a s') :
    space.Adds U n (TypeSpace.follow action) P := by
  unfold TypeStore.Runs at hruns
  cases haction : action space.store.depthBound space.store with
  | none =>
    rw [haction] at hruns
    exact hruns.elim
  | some r =>
    obtain ⟨a, s'⟩ := r
    rw [haction] at hruns
    obtain ⟨-, hgrows, htidy, hP⟩ := hruns
    have hfollow : TypeSpace.follow action space = some (a, { space with store := s' }) := by
      unfold TypeSpace.follow
      rw [haction]
      rfl
    have hinert := hinert.apply_some haction
    exact Ensures.of_eq_some hfollow ⟨h.gains_inert htidy hgrows hinert, .of_quiet hinert.quiet, hP⟩

end Adds

variable {space : TypeSpace} {U : Finset String} {n : Nat} {path : String}

section

variable (h : space.Sound)

include h

theorem adds_lazyType (hpath : path ∈ U) : space.Adds U n (lazyType path) fun l s => s.lazyPath? l = some path := by
  unfold lazyType
  refine Ensures.get_bind ?_
  cases hget : space.registry.types.get? path with
  | some l => exact .pure ⟨.refl h, .refl space, h.registry path l hget⟩
  | none =>
    obtain ⟨htidy, hgrows⟩ := h.store.allocLazy path
    have hnew : (space.store.added (.lazy path (.pending []))).lazyPath? space.store.fresh = some path := by
      unfold lazyPath?
      rw [form_fresh_of_push rfl]
    have hsolid := h.solid.added hgrows (by simp [TypeForm.isScope])
    have htarget : space.store.NoNewTarget (space.store.added (.lazy path (.pending []))) :=
      noNewTarget_of_push rfl (by simp)
    have hinterned : (space.store.added (.lazy path (.pending []))).Interned :=
      h.interned.of_push rfl rfl rfl rfl
    refine Ensures.of_eq_some rfl ⟨⟨⟨⟨htidy, fun path' l hl => ?_⟩, hsolid, hinterned⟩, hgrows, rfl,
      htarget⟩, .of_push rfl ?_ (by simp [TypeForm.isClass]), hnew⟩
    · rcases OrderedMap.get?_insert_cases hl with ⟨rfl, rfl⟩ | hl
      · exact hnew
      · exact hgrows.evolves.lazyPath?_eq (h.registry path' l hl)
    · rintro _ _ ⟨⟩
      exact hpath

theorem adds_wrap {t : TypeId} (ht : space.store.Wrappable t) :
    space.Adds U n (onStore (TypeStore.wrap t)) fun ref s => s.RefPlain ref := by
  obtain ⟨htidy, hgrows, -⟩ := h.store.wrap ht.1
  have hinert := framed_inert.wrap t space.store
  exact Ensures.of_eq_some rfl ⟨h.gains_inert htidy hgrows hinert, .of_quiet hinert.quiet, h.store.refPlain_wrap ht⟩

theorem adds_lazyRef (hpath : path ∈ U) : space.Adds U 0 (lazyRef path) fun ref s => s.RefPlain ref :=
  (adds_lazyType (n := 0) h hpath).bind (m := 0) fun _ _ h' _ hl => adds_wrap h' (wrappable_of_lazyPath? hl)

theorem adds_lazyRefs {paths : List String} (hpaths : ∀ path ∈ paths, path ∈ U) :
    space.Adds U 0 (paths.mapM lazyRef) fun refs s => ∀ ref ∈ refs, s.RefPlain ref :=
  .mapM (P := fun ref s => s.RefPlain ref) (fun _ _ _ hevolves href => href.evolves hevolves) h
    paths fun path hpath _ h' => adds_lazyRef h' (hpaths path hpath)

theorem adds_lazyInstance (hpath : path ∈ U) : space.Adds U 0 (lazyInstance path) fun t s => s.Plain t := by
  refine (adds_lazyRef h hpath).bind (m := 0) fun cls space' h' _ hcls => ?_
  exact .follow h' ((framed_inert.keeps _).instanceOf _ cls)
    (h'.store.runs_instanceOf_plain hcls)

end

end TypeSpace

/-! ## Descriptors -/

namespace Descriptor

open TypeSpace TypeStore

variable {space : TypeSpace} {U : Finset String} {n : Nat} {c : ClassType} {d : Descriptor}

theorem adds_convertHint (h : space.Sound) {hint : Option String} (hhint : ∀ path ∈ hint, path ∈ U) :
    space.Adds U 0 (convertHint hint) fun r s => ∀ t ∈ r, s.Plain t := by
  cases hint with
  | none => exact .pure h (by simp)
  | some path =>
    refine .map ((adds_lazyInstance h (hhint path rfl)).imp fun t s ht => ?_)
    rintro _ ⟨⟩
    exact ht

theorem adds_allocFunction (h : space.Sound) {f : FunctionType} (hf : space.store.RefKnown f.returns) :
    space.Adds U n (onStore (TypeStore.alloc (.ofFunction f))) fun t s => s.Final t ∧ s.isUnknown t = false := by
  obtain ⟨htidy, hgrows⟩ := h.store.alloc (.ofFunction f) (.inr rfl) (by simpa [TypeForm.refs] using hf)
  have hform : (space.store.added (.ofFunction f)).form space.store.fresh = .ofFunction f := form_fresh_of_push rfl
  refine Ensures.of_eq_some rfl ⟨h.gains_added htidy hgrows (.inr rfl) (by simp [TypeForm.isScope]),
    .of_push rfl (by simp) (by simp [TypeForm.isClass]), ?_, ?_⟩
  · exact final_of_form hform (by simp) rfl (by simp)
  · exact congrArg TypeForm.isUnknown hform

theorem adds_convertFunction (h : space.Sound) (scope : ConversionScope) {f : FunctionDescriptor}
    (hf : ∀ path ∈ (Descriptor.ofFunction f).paths, path ∈ U) :
    space.Adds U 0 (convertFunction scope f) fun t s => s.Final t ∧ s.isUnknown t = false := by
  simp only [paths, List.mem_append, List.mem_flatMap, Option.mem_toList] at hf
  have hparameters : space.Adds U 0 (f.parameters.mapM convertParameter) fun as _ => ∀ a ∈ as, True := by
    refine .mapM (fun _ _ _ _ _ => trivial) h f.parameters fun p hp space' h' => ?_
    have hhint := adds_convertHint h' (U := U) fun path hpath => hf path (.inl (.inl (.inr ⟨p, hp, hpath⟩)))
    exact hhint.bind (m := 0) fun _ _ h'' _ _ => .pure h'' trivial
  refine hparameters.bind (m := 0) fun parameters space1 h1 _ _ => ?_
  have hreturns := adds_convertHint h1 (U := U) fun path hpath => hf path (.inl (.inr hpath))
  refine hreturns.bind (m := 0) fun returns space2 h2 _ hreturns => ?_
  have hdecorators := adds_lazyRefs h2 (U := U) fun path hpath => hf path (.inr hpath)
  refine hdecorators.bind (m := 0) fun decorators space3 h3 hgrows _ => adds_allocFunction h3 ?_
  cases returns with
  | none => exact h3.store.unknown_plain.1
  | some t => exact hgrows.known (hreturns t rfl).1

theorem adds_convertVariable (h : space.Sound) {v : VariableDescriptor}
    (hv : ∀ path ∈ (Descriptor.ofVariable v).paths, path ∈ U) :
    space.Adds U 0 (convertVariable v) fun t s => s.Plain t := by
  simp only [paths, List.mem_append, Option.mem_toList] at hv
  have hhint := adds_convertHint h (U := U) fun path hpath => hv path (.inr hpath)
  refine hhint.bind (m := 0) fun r space' h' _ hr => .pure h' ?_
  cases r with
  | none => exact h'.store.unknown_plain
  | some t => exact hr t rfl

theorem setClassMembers_of_class {s : TypeStore} {cls : TypeId} (h : s.form cls = .ofClass c)
    (members : OrderedMap String TypeRef) :
    setClassMembers cls members s = ((), s.setForm cls (.ofClass { c with members })) := by
  unfold setClassMembers
  rw [modify_apply, h]
  rfl

/-- A class is added before its members are converted, and gets them at the end. -/
theorem adds_class (h : space.Sound) (hrefs : ∀ ref ∈ c.members.values ++ c.bases, space.store.RefPlain ref)
    {members : TypeId → SpaceM (OrderedMap String TypeRef)}
    (hmembers : ∀ cls (space' : TypeSpace), space'.Sound →
      space'.Adds U n (members cls) fun ms s => ∀ ref ∈ ms.values, s.RefPlain ref) :
    space.Adds U (1 + n) (do
      let cls ← onStore (TypeStore.alloc (.ofClass c))
      let ms ← members cls
      onStore (setClassMembers cls ms)
      return cls) fun t s => s.Final t ∧ s.isUnknown t = false := by
  obtain ⟨htidy, hgrows⟩ := h.store.alloc (.ofClass c) (.inl rfl) fun ref href => (hrefs ref href).refKnown
  have hgains := h.gains_added htidy hgrows (.inl rfl) fun _ => hrefs
  have htakes : space.Takes U 1 { space with store := space.store.added (.ofClass c) } :=
    .of_push rfl (by simp) fun _ => Nat.one_pos
  have halloc : onStore (TypeStore.alloc (.ofClass c)) space =
      some (space.store.fresh, { space with store := space.store.added (.ofClass c) }) := rfl
  refine Ensures.bind_of_eq halloc (Ensures.bind (hmembers space.store.fresh _ hgains.sound) fun ms space2 hms => ?_)
  obtain ⟨hgains2, htakes2, hms⟩ := hms
  set cls := space.store.fresh
  set form := TypeForm.ofClass { c with members := ms }
  have hform : space2.store.form cls = .ofClass c := by
    have hnew : (space.store.added (.ofClass c)).form cls = .ofClass c := form_fresh_of_push rfl
    exact hgains2.grows.retains.class_eq _ c hnew
  have hbases : ∀ ref ∈ c.bases, space2.store.RefPlain ref := fun ref href =>
    (hrefs ref (List.mem_append_right _ href)).evolves (hgains.trans hgains2).grows.evolves
  have hall : ∀ ref ∈ form.refs, space2.store.RefPlain ref := fun ref href =>
    (List.mem_append.1 href).elim (hms ref) (hbases ref)
  have hscope : (space2.store.form cls).isScope = true := by rw [hform]; rfl
  have houtline : form.outline = (space2.store.form cls).outline := by
    rw [hform]; rfl
  obtain ⟨htidy3, hevolves⟩ := hgains2.sound.store.setScope cls form hscope rfl houtline
    fun ref href => (hall ref href).refKnown
  have hset : onStore (setClassMembers cls ms) space2 = some ((), { space2 with
      store := space2.store.setForm cls form }) := by
    unfold onStore
    rw [setClassMembers_of_class hform]
  have hknown : space2.store.Known cls := known_of_form_ne (by simp [hform])
  have hforms := form_setForm_cases form hknown
  have hsound : TypeSpace.Sound { space2 with store := space2.store.setForm cls form } :=
    ⟨hgains2.sound.toTidy.withStore htidy3 hevolves, hgains2.sound.solid.setForm hevolves hall,
      hgains2.sound.interned.of_form rfl rfl _ rfl hforms⟩
  refine Ensures.bind_of_eq hset
    (Ensures.pure
    ⟨⟨hsound, (hgains.trans hgains2).grows.setClass space.store.not_known_fresh hform ms,
    ?_, ?_⟩, (htakes.trans htakes2).trans (m := 0) (.of_quiet (quiet_setScope _ _ hscope houtline)), ?_⟩)
  · exact (hgains.trans hgains2).inProgress_eq
  · exact fun l x hl => (hgains.trans hgains2).target l x (noNewTarget_of_form _ (by simp) hforms l x hl)
  · have hset := form_setForm_self form hknown
    exact ⟨final_of_form hset (by simp) rfl (by simp), congrArg TypeForm.isUnknown hset⟩

theorem adds_liftM {α : Type} {P : α → TypeStore → Prop} {action : SpaceM α} (h : space.Adds U n action P) :
    space.Adds U n (liftM action : ConvertM α).run fun r s => ∃ a, r = .ok a ∧ P a s := by
  simp_all [Adds.map]

/-- A conversion that may fail only adds what it may in any case, and what it gives has property
`Q`. -/
def Gives {α : Type} (space : TypeSpace) (U : Finset String) (n : Nat) (action : ConvertM α)
    (Q : α → TypeStore → Prop) : Prop :=
  space.Adds U n action.run fun r s => ∀ a, r = .ok a → Q a s

namespace Gives

variable {α β : Type} {m : Nat} {P : α → TypeStore → Prop} {Q : β → TypeStore → Prop}

theorem lift {action : SpaceM α} (h : space.Adds U n action P) : Gives space U n (liftM action) P := by
  grind [Gives, Adds.imp, adds_liftM]

theorem bind {action : ConvertM α} {f : α → ConvertM β} (h : Gives space U n action P)
    (hf : ∀ a (space' : TypeSpace), space'.Sound → space.store.Grows space'.store →
      P a space'.store → Gives space' U m (f a) Q) : Gives space U (n + m) (action >>= f) Q := by
  grind [Gives, Adds.bind, Adds.pure]

theorem pure {a : α} (h : space.Sound) (ha : P a space.store) : Gives space U n (Pure.pure a) P := by
  refine Adds.pure h ?_
  rintro _ ⟨⟩
  exact ha

end Gives

theorem adds_convertClass (scope : ConversionScope) (name : String) (path : Option String) {bases : List String}
    {members : List Descriptor} (hasDecorators : Bool) (metaclass : Option String)
    (hd : ∀ p ∈ (Descriptor.ofClass name path bases members hasDecorators metaclass).paths, p ∈ U)
    (hmembers : ∀ cls (space' : TypeSpace), (∀ path ∈ pathsAll members, path ∈ U) → space'.Sound →
      space'.Adds U (classCountAll members) (convertMembers { scope with owner := some cls } members ∅)
        fun ms s => ∀ ref ∈ ms.values, s.RefPlain ref) (h : space.Sound) :
    space.Adds U (classCountAll members + 1) (convert scope (.ofClass name path bases members hasDecorators metaclass)).run
      fun r s => ∃ t, r = .ok t ∧ s.Final t ∧ s.isUnknown t = false := by
  simp only [paths, List.mem_append] at hd
  rw [convert_ofClass, convertClass, show classCountAll members + 1 = 0 + (1 + classCountAll members) by omega]
  refine adds_liftM ((adds_lazyRefs h fun path hpath => hd path (.inl (.inr hpath))).bind fun refs space1 h1 _ hrefs => ?_)
  exact adds_class h1 (by simpa using hrefs) fun cls space2 h2 =>
    hmembers cls space2 (fun path hpath => hd path (.inr hpath)) h2

mutual

theorem gives_convert (scope : ConversionScope) : (d : Descriptor) → (∀ path ∈ d.paths, path ∈ U) → (space : TypeSpace) →
    space.Sound → Gives space U d.classCount (convert scope d) fun t s => s.Plain t
  | .ofClass name path bases members hasDecorators metaclass => by
    intro hd space h
    refine (adds_convertClass scope name path hasDecorators metaclass hd (fun cls space' hmembers h' => ?_) h).imp ?_
    · exact adds_convertMembers { scope with owner := some cls } members ∅ hmembers space' h' (by simp)
    · rintro _ s ⟨t, rfl, ht⟩ _ ⟨⟩
      exact ht.1.1
  | .ofFunction f => by
    intro hd space h
    rw [convert_ofFunction]
    exact Gives.lift ((adds_convertFunction h scope hd).imp fun _ _ ht => ht.1.1)
  | .ofVariable v => by
    intro hd space h
    rw [convert_ofVariable]
    exact Gives.lift (adds_convertVariable h hd)
  | .ambiguous name path alternatives => by
    intro hd space h
    simp only [paths, List.mem_append] at hd
    rw [convert_ambiguous, classCount]
    refine (gives_convertAll scope alternatives (fun path hpath => hd path (.inr hpath)) space
      h).bind (m := 0) fun ts space' h' _ hts => ?_
    refine Gives.lift (.follow h' ((framed_inert.keeps _).unionOf _ ts) ?_)
    exact h'.store.runs_unionOf_plain (fun t ht => (hts t ht).1) fun t ht => (hts t ht).2
  | .unknown name path => by
    intro hd space h
    exact Adds.pure h (by simp)

theorem adds_convertMembers (scope : ConversionScope) : (ds : List Descriptor) → (acc : OrderedMap String TypeRef) →
    (∀ path ∈ pathsAll ds, path ∈ U) → (space : TypeSpace) → space.Sound → (∀ ref ∈ acc.values, space.store.RefPlain ref) →
    space.Adds U (classCountAll ds) (convertMembers scope ds acc) fun members s => ∀ ref ∈ members.values, s.RefPlain ref
  | [], acc => by
    intro hds space h hacc
    exact .pure h hacc
  | d :: rest, acc => by
    intro hds space h hacc
    simp only [pathsAll, List.mem_append] at hds
    rw [convertMembers_cons, classCountAll]
    have hfirst := gives_convert scope d (fun path hpath => hds path (.inl hpath)) space h
    refine Adds.bind hfirst fun r space1 h1 hgrows1 hr => ?_
    have hplain : space1.store.Plain (r.toOption.getD .unknown) := by
      cases r with
      | ok t => exact hr t rfl
      | error e => exact h1.store.unknown_plain
    rw [← Nat.zero_add (classCountAll rest)]
    refine (adds_wrap h1 hplain.wrappable).bind fun ref space2 h2 hgrows2 href => ?_
    refine adds_convertMembers scope rest _ (fun path hpath => hds path (.inr hpath)) space2 h2 fun ref' href' => ?_
    rcases OrderedMap.mem_values_insert href' with rfl | href'
    · exact href
    · exact (hacc ref' href').evolves (hgrows1.trans hgrows2).evolves

theorem gives_convertAll (scope : ConversionScope) : (ds : List Descriptor) → (∀ path ∈ pathsAll ds, path ∈ U) →
    (space : TypeSpace) → space.Sound → Gives space U (classCountAll ds) (convertAll scope ds) fun ts s => ∀ t ∈ ts, s.Plain t
  | [] => by
    intro hds space h
    exact .pure h (by simp)
  | d :: rest => by
    intro hds space h
    simp only [pathsAll, List.mem_append] at hds
    rw [convertAll_cons, classCountAll]
    refine (gives_convert scope d (fun path hpath => hds path (.inl hpath)) space h).bind fun t space1 h1 _ ht => ?_
    refine (gives_convertAll scope rest (fun path hpath => hds path (.inr hpath)) space1 h1).bind
      (m := 0) fun ts space2 h2 hgrows hts => .pure h2 ?_
    intro u hu
    rcases List.mem_cons.1 hu with rfl | hu
    · exact ht.evolves hgrows.evolves
    · exact hts u hu

end

/-- Whether a descriptor describes a function or a class. -/
def isDefinition : Descriptor → Bool
  | .ofClass .. => true
  | .ofFunction _ => true
  | _ => false

/-- Whatever its members are, a definition is converted to a type that is not unknown. -/
theorem adds_definition (scope : ConversionScope) (hd : d.isDefinition = true)
    (hpaths : ∀ path ∈ d.paths, path ∈ U) (h : space.Sound) :
    space.Adds U d.classCount (d.convert scope).run fun r s => ∃ t, r = .ok t ∧ s.Final t ∧ s.isUnknown t = false := by
  cases d with
  | ofClass name path bases members hasDecorators metaclass =>
    exact adds_convertClass scope name path hasDecorators metaclass hpaths
      (fun cls space' hmembers h' => adds_convertMembers _ members ∅ hmembers space' h' (by simp)) h
  | ofFunction f =>
    rw [convert_ofFunction]
    exact adds_liftM (adds_convertFunction h scope hpaths)
  | ofVariable v | ambiguous name path alternatives | unknown name path => cases hd

theorem adds_convertOrUnknown (scope : ConversionScope) (hd : ∀ path ∈ d.paths, path ∈ U) (h : space.Sound) :
    space.Adds U d.classCount (d.convertOrUnknownIn scope) fun t s => s.Plain t := by
  refine Adds.bind (m := 0) (gives_convert scope d hd space h) fun r space' h' _ hr => .pure h' ?_
  cases r with
  | ok t => exact hr t rfl
  | error e => exact h'.store.unknown_plain

end Descriptor

namespace ModuleDescriptor

open TypeSpace TypeStore

variable {space : TypeSpace} {U : Finset String}

theorem adds_convertMember (scope : ConversionScope) {d : Descriptor} (hd : ∀ path ∈ d.paths, path ∈ U) (h : space.Sound) :
    space.Adds U d.classCount (convertMemberIn scope d) fun t s => s.Wrappable t := by
  have hown := (Descriptor.adds_convertOrUnknown scope hd h).imp fun _ _ ht => ht.wrappable
  unfold convertMemberIn
  split
  · rename_i path hpath
    split
    · exact hown
    · refine (adds_lazyType h (hd path ?_)).imp fun _ _ hl => wrappable_of_lazyPath? hl
      cases d <;> simp_all [Descriptor.path, Descriptor.paths]
  · exact hown

theorem adds_convertEntries (scope : ConversionScope) (entries : List (String × Descriptor)) {acc : OrderedMap String TypeRef}
    (hentries : ∀ path ∈ Descriptor.pathsAll (entries.map Prod.snd), path ∈ U) (h : space.Sound)
    (hacc : ∀ ref ∈ acc.values, space.store.RefPlain ref) :
    space.Adds U (Descriptor.classCountAll (entries.map Prod.snd)) (convertEntriesIn scope entries acc)
      fun members s => ∀ ref ∈ members.values, s.RefPlain ref := by
  induction entries generalizing space acc with
  | nil => exact .pure h hacc
  | cons entry rest ih =>
    obtain ⟨key, d⟩ := entry
    simp only [List.map_cons, Descriptor.pathsAll, List.mem_append] at hentries
    unfold convertEntriesIn
    rw [List.map_cons, Descriptor.classCountAll, ← Nat.zero_add (Descriptor.classCountAll (rest.map Prod.snd))]
    refine (adds_convertMember scope (fun path hpath => hentries path (.inl hpath)) h).bind fun t space1 h1 hgrows1 ht => ?_
    refine (adds_wrap h1 ht).bind fun ref space2 h2 hgrows2 href =>
      ih (fun path hpath => hentries path (.inr hpath)) h2 fun ref' href' => ?_
    rcases OrderedMap.mem_values_insert href' with rfl | href'
    · exact href
    · exact (hacc ref' href').evolves (hgrows1.trans hgrows2).evolves

theorem adds_convertMembers (scope : ConversionScope) {m : ModuleDescriptor}
    (hm : ∀ path ∈ m.paths, path ∈ U) (h : space.Sound) :
    space.Adds U m.classCount (m.convertMembers scope) fun members s => ∀ ref ∈ members.values, s.RefPlain ref := by
  rw [convertMembers_eq]
  exact adds_convertEntries scope m.members.entries hm h (by simp)

end ModuleDescriptor

end PythonTypes
