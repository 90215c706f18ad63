import PythonTypes.Proofs.Descriptor.Growth
import PythonTypes.Proofs.Table.Frame
import PythonTypes.Proofs.Table.Inheritance

/-!
# What looking things up does to a table

`Proceeds mayCut t t'` lists everything that a look-up does to a table: it adds types, loads
modules, binds submodules as members of modules, resolves lazy types and remembers where paths lead.
The last three happen after other things have been looked up, so their cases hold how the table got
that far, and what was known when they were begun. If no look-up was cut off at an import cycle
(`¬ mayCut`) then what is bound, resolved or remembered is right at that moment.

Whatever is to be shown of all look-ups follows by induction on `Proceeds`: here that tables stay
sound and retain what they have found (`Proceeds.carries`), and what happens to the members of
modules (`Proceeds.entry`).
-/

set_option autoImplicit false

namespace PythonTypes

namespace TypeStore

variable {s s' : TypeStore} {t m l target : TypeId}

theorem Retains.isUnknown_form (h : s.Retains s') (ht : s.Known t) : s'.isUnknown t = s.isUnknown t := by
  rw [← isUnknown_shape, h.isUnknown_eq ht, isUnknown_shape]

theorem Retains.form_unknown_iff (h : s.Retains s') (ht : s.Known t) : s'.form t = .unknown ↔ s.form t = .unknown := by
  have houtline := h.form_outline_eq ht
  constructor <;> intro hform <;> rw [hform] at houtline
  · exact TypeForm.eq_of_outline houtline.symm rfl (by simp)
  · exact TypeForm.eq_of_outline houtline rfl (by simp)

theorem Retains.means_unknown (h : s.Retains s') (hs : s.Tidy) {ref : TypeRef} (href : s.RefKnown ref)
    (hu : ∃ u, s.RefMeans ref u ∧ s.form u = .unknown) : ∃ u, s'.RefMeans ref u ∧ s'.form u = .unknown := by
  obtain ⟨u, hu, hunknown⟩ := hu
  exact ⟨u, hu.retains h hs href, (h.form_unknown_iff (Means.final_right hs hu).1.1).2 hunknown⟩

theorem Retains.module_path (h : s.Retains s') {info : ModuleType} (hm : s.form m = .ofModule info) :
    ∃ info', s'.form m = .ofModule info' ∧ info'.path = info.path := by
  have houtline := h.form_outline_eq (t := m) (known_of_form_ne (by simp [hm]))
  rw [hm] at houtline
  cases hform : s'.form m with
  | ofModule info' =>
    rw [hform] at houtline
    have hbare : TypeForm.ofModule { info' with members := ∅ } = TypeForm.ofModule { info with members := ∅ } := houtline
    simp_all
  | _ => rw [hform] at houtline; cases houtline

theorem final_of_isModule (h : (s.form m).isModule = true) : s.Final m := by
  cases hform : s.form m with
  | ofModule info => exact final_of_form hform (by simp) rfl (by simp)
  | _ => rw [hform] at h; cases h

theorem final_of_isClass {c : TypeId} (h : (s.form c).isClass = true) : s.Final c := by
  cases hform : s.form c with
  | ofClass info => exact final_of_form hform (by simp) rfl (by simp)
  | _ => rw [hform] at h; cases h

theorem noNewScope_resolveLazy (h : s.Tidy) (hl : s.isPending l = true) : s.NoNewScope (s.resolveLazy l target).store := by
  intro x hx
  refine (h.inStep.tellsAll hl target).form_eq x ?_
  rintro rfl
  obtain ⟨path, hshape⟩ := lazyTarget?_eq_some_iff.1 (lazyTarget?_resolveLazy hl target)
  rw [form_of_shape (by simp) hshape] at hx
  cases hx

theorem shape_or_internedAt_resolveLazy (hl : s.isPending l = true) (x : TypeId) :
    (s.resolveLazy l target).store.shape x = s.shape x ∨
    (s.resolveLazy l target).store.InternedAt x ((s.resolveLazy l target).store.shape x) := by
  by_cases hx : x = l
  · obtain ⟨path, hshape⟩ := lazyTarget?_eq_some_iff.1 (lazyTarget?_resolveLazy hl target)
    rw [hx, hshape]
    exact .inr trivial
  · exact .inl (shape_resolveLazy hl target hx)

end TypeStore

namespace Table

open TypeStore

variable {t t1 t' : Table}
variable {f : TypeForm} {info : ModuleType} {l m target : TypeId} {mayCut : Prop} {name : String} {space : TypeSpace}
variable {space' : TypeSpace} {path : String} {sub : TypeId} {ref : TypeRef}

/-- Tidy, with solid modules and classes and interned unions; modules are loaded under their own
paths, and paths that lead nowhere are not remembered. -/
structure Sound (t : Table) : Prop extends t.Tidy where
  solid : t.store.Solid
  interned : t.store.Interned
  named : ∀ path m, t.modules.get? path = some m → ∃ info, t.form m = .ofModule info ∧ info.path = path
  reached : ∀ path id, t.cache.get? path = some id → t.store.isUnknown id = false
  untraced : t.traced = false

theorem Sound.spaceSound (h : t.Sound) : t.space.Sound := ⟨h.space, h.solid, h.interned⟩

theorem Sound.withSpace (h : t.Sound) (hspace : space.Sound)
    (hretains : t.store.Retains space.store) : ({ t with space } : Table).Sound where
  toTidy := h.toTidy.withSpace hspace.toTidy hretains.toEvolves
  solid := hspace.solid
  interned := hspace.interned
  named path m hm := by
    obtain ⟨info, hinfo, hpath⟩ := h.named path m hm
    obtain ⟨info', hinfo', hpath'⟩ := hretains.module_path hinfo
    exact ⟨info', hinfo', hpath'.trans hpath⟩
  reached path id hid := by
    have hknown : t.store.Known id := (h.cache path id hid).1
    exact (hretains.isUnknown_form hknown).trans (h.reached path id hid)
  untraced := h.untraced

/-! ## Changes to a table -/

/-- A path is being followed. -/
def entered (t : Table) (path : String) : Table :=
  { t with space := { t.space with registry := { t.space.registry with inProgress := path :: t.space.registry.inProgress } } }

/-- A path is no longer being followed. -/
def left (t : Table) (path : String) : Table :=
  { t with space := { t.space with registry := t.space.registry.leave path } }

/-- A lazy type is resolved. -/
def settled (t : Table) (l target : TypeId) : Table := (resolveWith l target t).2

/-- A submodule is bound as a member of a module. -/
def bound (t : Table) (m : TypeId) (name : String) (sub : TypeId) : Table := (setModuleMember m name (.direct sub) t).2

/-- It is remembered where a path leads. -/
def noted (t : Table) (path : String) (id : TypeId) : Table := { t with cache := t.cache.insert path id }

theorem bound_eq (hm : (t.form m).isModule = true) (name : String) (sub : TypeId) : ∃ info, t.store.form m = .ofModule info ∧
    t.store.Known m ∧ t.bound m name sub = { t with space := { t.space with
      store := t.store.setForm m (.ofModule { info with members := info.members.insert name (.direct sub) }) } } := by
  cases hform : t.store.form m with
  | ofModule info =>
    refine ⟨info, rfl, known_of_form_ne (by simp [hform]), ?_⟩
    unfold bound
    rw [setModuleMember_eq]
    unfold onStore
    rw [bindMember_of_module hform]
  | _ => rw [show t.form m = _ from hform] at hm; cases hm

/-! ## What is found -/

/-- The member `name` of a module or class means `id`. -/
def Binds (t : Table) (parent : TypeId) (name : String) (id : TypeId) : Prop :=
  (∃ ref, t.memberRef? parent name = some ref ∧ t.store.RefMeans ref id) ∨
    (t.form parent).isClass = true ∧ ∃ ref, t.store.Search name [.direct parent] [] (some ref) ∧ t.store.RefMeans ref id

/-- One segment of a path leads from `current` to `id`. -/
def Leads (t : Table) (current : TypeId) (name : String) (id : TypeId) : Prop :=
  ∃ parent, t.store.Means current parent ∧ t.Binds parent name id

/-- The path so far leads to `current`. -/
def Walked (t : Table) (walked : String) (current : TypeId) : Prop :=
  t.cache.get? walked = some current ∨ walked = "" ∧ current = t.root

/-- A module has no member `name`, or one that is unknown. -/
def Vacant (t : Table) (m : TypeId) (name : String) : Prop :=
  ∀ ref, t.memberRef? m name = some ref → ∃ u, t.store.RefMeans ref u ∧ t.form u = .unknown

/-- What looking things up does to a table. `mayCut` says that a look-up may have been cut off at
an import cycle. -/
inductive Proceeds (mayCut : Prop) : Table → Table → Prop
  | refl (t : Table) : Proceeds mayCut t t
  | trans {t t1 t₂ : Table} : Proceeds mayCut t t1 → Proceeds mayCut t1 t₂ → Proceeds mayCut t t₂
  | grow {t : Table} {space : TypeSpace} : t.space.Gains space → Proceeds mayCut t { t with space }
  | load {t : Table} {space : TypeSpace} {path : String} {m : TypeId} {info : ModuleType} :
      t.space.Gains space → t.modules.get? path = none → space.store.form m = .ofModule info →
      info.path = path → Proceeds mayCut t { t with space, modules := t.modules.insert path m }
  /-- A member that is not there or unknown gives way to a submodule. -/
  | bind {t t1 : Table} {m sub : TypeId} {name path : String} : Proceeds mayCut t t1 →
      (t.form m).isModule = true → t1.modules.get? path = some sub →
      (∀ ref u, t.memberRef? m name = some ref → t.store.RefMeans ref u → t.form u = .unknown) →
      (¬ mayCut → t1.Vacant m name) → Proceeds mayCut t (t1.bound m name sub)
  /-- A lazy type is resolved to where its path leads. -/
  | settle {t t1 : Table} {l target : TypeId} {path : String} : t.store.lazyPath? l = some path →
      t.store.isPending l = true → path ∉ t.space.registry.inProgress → Proceeds mayCut (t.entered path) t1 →
      t1.store.Plain target → (target ≠ .unknown → t1.Settled path target) →
        Proceeds mayCut t ((t1.left path).settled l target)
  | note {t t1 : Table} {walked name : String} {current id : TypeId} : t.cache.get? (DottedName.child walked name) = none →
      '.' ∉ name.toList → DottedName.trimmed walked = walked → Proceeds mayCut t t1 → t1.store.Plain id →
      t1.store.isUnknown id = false → (¬ mayCut → t1.Walked walked current ∧ t1.Leads current name id) →
      Proceeds mayCut t (t1.noted (DottedName.child walked name) id)

/-! ## What stays -/

/-- What looking things up keeps. -/
structure Carries (t t' : Table) : Prop extends t.Extends t' where
  retains : t.store.Retains t'.store
  inProgress_eq : t'.space.registry.inProgress = t.space.registry.inProgress
  modules_eq : ∀ path m, t.modules.get? path = some m → t'.modules.get? path = some m
  /-- A lazy type is not resolved while its path is being followed. -/
  pending : ∀ l path, t.store.lazyPath? l = some path → t.store.isPending l = true →
    path ∈ t.space.registry.inProgress → t'.store.isPending l = true

theorem Carries.refl (t : Table) : t.Carries t :=
  ⟨.refl t, .refl _, rfl, fun _ _ h => h, fun _ _ _ h _ => h⟩

theorem Carries.trans (h : t.Carries t1) (h' : t1.Carries t') : t.Carries t' where
  toExtends := h.toExtends.trans h'.toExtends
  retains := h.retains.trans h'.retains
  inProgress_eq := h'.inProgress_eq.trans h.inProgress_eq
  modules_eq path m hm := h'.modules_eq path m (h.modules_eq path m hm)
  pending l path hl hpending hpath :=
    h'.pending l path (h.retains.lazyPath?_eq hl) (h.pending l path hl hpending hpath) (h.inProgress_eq ▸ hpath)

theorem isPending_of_gains (h : space.Gains space') (hl : space.store.isPending l = true) :
    space'.store.isPending l = true := by
  grind [isPending_iff, Grows.shape_eq, TypeSpace.Gains.grows, known_of_shape]

section

variable (h : t.Sound)

include h

theorem Sound.grow (hgains : t.space.Gains space) : ({ t with space } : Table).Sound ∧ t.Carries { t with space } :=
  ⟨h.withSpace hgains.sound hgains.grows.retains, ⟨.of_eq rfl rfl, rfl, rfl, rfl⟩, hgains.grows.retains,
    hgains.inProgress_eq, fun _ _ hm => hm, fun _ _ _ hl _ => isPending_of_gains hgains hl⟩

theorem Sound.load (hgains : t.space.Gains space) (hnone : t.modules.get? path = none)
    (hm : space.store.form m = .ofModule info)
    (hpath : info.path = path) : ({ t with space, modules := t.modules.insert path m } : Table).Sound ∧
      t.Carries { t with space, modules := t.modules.insert path m } := by
  obtain ⟨hsound, hcarries⟩ := h.grow hgains
  have hnew : ∀ p m', (t.modules.insert path m).get? p = some m' → t.modules.get? p = some m' ∨ p = path ∧ m' = m := by
    intro p m' hm'
    rcases OrderedMap.get?_insert_cases hm' with ⟨rfl, rfl⟩ | hm'
    · exact .inr ⟨rfl, rfl⟩
    · exact .inl hm'
  refine ⟨⟨⟨hsound.space, hsound.root, fun p m' hm' => ?_, hsound.cache⟩, hsound.solid, hsound.interned, fun p m' hm' => ?_,
      hsound.reached, hsound.untraced⟩,
    ⟨.of_eq rfl rfl, rfl, rfl, rfl⟩, hcarries.retains, hcarries.inProgress_eq, fun p m' hm' => ?_, hcarries.pending⟩
  · rcases hnew p m' hm' with hm' | ⟨rfl, rfl⟩
    · exact hsound.modules p m' hm'
    · show (space.store.form m').isModule = true
      rw [hm]
      rfl
  · rcases hnew p m' hm' with hm' | ⟨rfl, rfl⟩
    · exact hsound.named p m' hm'
    · exact ⟨info, hm, hpath⟩
  · exact OrderedMap.get?_insert_of_absent hnone hm'

theorem Sound.bound (name : String) (hm : (t.form m).isModule = true)
    (hsub : (t.form sub).isModule = true) : (t.bound m name sub).Sound ∧ t.Carries (t.bound m name sub) := by
  obtain ⟨info, hinfo, hknown, hbound⟩ := bound_eq hm name sub
  have hrefs : ∀ ref ∈ (info.members.insert name (.direct sub)).values, t.store.RefPlain ref := by
    intro ref href
    rcases OrderedMap.mem_values_insert href with rfl | href
    · exact plain_of_isModule hsub
    · refine h.solid m ?_ ref ?_ <;> rw [hinfo]
      · rfl
      · exact href
  obtain ⟨htidy, hretains⟩ := h.store.retains_setModule hinfo fun ref href => (hrefs ref href).refKnown
  rw [hbound]
  refine ⟨h.withSpace ⟨h.space.withStore htidy hretains.toEvolves, h.solid.setForm hretains.toEvolves hrefs,
      h.interned.of_form rfl rfl _ rfl (form_setForm_cases _ hknown)⟩ hretains,
    ⟨.of_eq rfl rfl, rfl, rfl, rfl⟩, hretains, rfl, fun _ _ hm => hm, fun l path hl hpending _ => ?_⟩
  show isPending (t.store.setForm m _) l = true
  unfold isPending
  rw [form_setForm_of_ne]
  · exact hpending
  · rintro rfl
    simp [isPending, hinfo] at hpending

theorem Sound.entered (path : String) : (t.entered path).Sound :=
  ⟨⟨⟨h.space.store, h.space.registry⟩, h.root, h.modules, h.cache⟩, h.solid, h.interned, h.named, h.reached, h.untraced⟩

theorem Sound.left (path : String) : (t.left path).Sound :=
  ⟨⟨⟨h.space.store, h.space.registry⟩, h.root, h.modules, h.cache⟩, h.solid, h.interned, h.named, h.reached, h.untraced⟩

theorem Sound.settled (hl : t.store.isPending l = true) (htarget : t.store.Plain target) :
    (t.settled l target).Sound ∧ t.store.Retains (t.settled l target).store := by
  have hretains := h.store.retains_resolveLazy hl htarget
  obtain ⟨htidy, hevolves⟩ := h.store.resolveLazy hl htarget.1 htarget.2
  have hsolid := h.solid.noNewScope hevolves (noNewScope_resolveLazy h.store hl)
  have hinterned : (t.store.resolveLazy l target).store.Interned :=
    h.interned.of_new hretains.instances hretains.unions fun x => shape_or_internedAt_resolveLazy hl x
  have hsound := h.withSpace ⟨h.space.withStore htidy hevolves, hsolid, hinterned⟩ hretains
  exact ⟨⟨⟨hsound.space, hsound.root, hsound.modules, hsound.cache⟩, hsound.solid, hsound.interned,
    hsound.named, hsound.reached, hsound.untraced⟩, hretains⟩

theorem isPending_settled {l' : TypeId} (hl : t.store.isPending l = true)
    (hl' : t.store.isPending l' = true) (hne : l' ≠ l) : (t.settled l target).store.isPending l' = true := by
  show (t.store.resolveLazy l target).store.isPending l' = true
  unfold isPending at hl' ⊢
  rw [(h.store.inStep.tellsAll hl target).form_eq l' hne]
  exact hl'

end

/-- What was found while the path was being followed stays, and the lazy type is the only one that
this resolves. -/
theorem Carries.settle (hcarries : (t.entered path).Carries t1)
    (hl : t.store.lazyPath? l = some path) (hpending : t.store.isPending l = true)
    (hpath : path ∉ t.space.registry.inProgress) (h1 : t1.Sound) (htarget : t1.store.Plain target) :
    t1.store.isPending l = true ∧ ((t1.left path).settled l target).Sound ∧ t.Carries ((t1.left path).settled l target) := by
  have hpending1 : t1.store.isPending l = true := hcarries.pending l path hl hpending (.head _)
  obtain ⟨hsound, hretains⟩ := (h1.left path).settled hpending1 htarget
  refine ⟨hpending1, hsound,
    ⟨⟨hcarries.root_eq, hcarries.get_eq, hcarries.trimmed_new⟩, hcarries.project_eq,
    hcarries.stubs_eq,
    hcarries.stubPackages_eq⟩, hcarries.retains.trans hretains, ?_, hcarries.modules_eq,
      fun l' path' hl' hpending' hpath' => ?_⟩
  · show t1.space.registry.inProgress.filter (· != path) = _
    rw [hcarries.inProgress_eq]
    show (path :: t.space.registry.inProgress).filter (· != path) = _
    rw [List.filter_cons_of_neg (by simp), List.filter_eq_self]
    grind
  · refine isPending_settled (h1.left path) hpending1 (hcarries.pending l' path' hl' hpending' (.tail _ hpath')) ?_
    grind

theorem Sound.noted (h : t.Sound) (path : String) {id : TypeId} (hid : t.store.Plain id)
    (hknown : t.store.isUnknown id = false) : (t.noted path id).Sound := by
  refine ⟨⟨h.space, h.root, h.modules, fun p id' hid' => ?_⟩, h.solid, h.interned, h.named,
    fun p id' hid' => ?_, h.untraced⟩ <;>
    rcases OrderedMap.get?_insert_cases hid' with ⟨rfl, rfl⟩ | hid'
  · exact hid
  · exact h.cache p id' hid'
  · exact hknown
  · exact h.reached p id' hid'

/-- Looking things up keeps a table sound and retains what has been found. -/
theorem Proceeds.carries (h : Proceeds mayCut t t') : t.Sound → t'.Sound ∧ t.Carries t' := by
  induction h with
  | refl t => exact fun ht => ⟨ht, .refl t⟩
  | trans _ _ ih ih' =>
    grind [Carries.trans]
  | grow hgains => exact fun ht => ht.grow hgains
  | load hgains hnone hm hpath => exact fun ht => ht.load hgains hnone hm hpath
  | @bind t t1 m sub name path _ hm hsub _ _ ih =>
    intro ht
    obtain ⟨ht1, hcarries⟩ := ih ht
    obtain ⟨hbound, hcarries'⟩ := ht1.bound name (hcarries.retains.isModule hm) (ht1.modules path sub hsub)
    exact ⟨hbound, hcarries.trans hcarries'⟩
  | @settle t t1 l target path hl hpending hpath _ htarget _ ih =>
    intro ht
    obtain ⟨ht1, hcarries⟩ := ih (ht.entered path)
    exact (hcarries.settle hl hpending hpath ht1 htarget).2
  | @note t t1 walked name current id hnone hname hwalked _ hid hknown _ ih =>
    intro ht
    obtain ⟨ht1, hcarries⟩ := ih ht
    refine ⟨ht1.noted _ hid hknown, hcarries.toExtends.remember hnone ?_ id, hcarries.retains,
      hcarries.inProgress_eq, hcarries.modules_eq, hcarries.pending⟩
    exact DottedName.trimmed_child hwalked hname

/-! ## Members of modules -/

theorem isModule_of_memberRef? (h : t.memberRef? m name = some ref) : (t.form m).isModule = true := by
  unfold memberRef? at h
  cases hform : t.form m with
  | ofModule info => rfl
  | _ => rw [hform] at h; cases h

theorem Sound.refPlain_of_base (h : t.Sound) {cls : TypeId} {info : ClassType}
    (hform : t.form cls = .ofClass info) (href : ref ∈ info.bases) : t.store.RefPlain ref := by
  have hform' : t.store.form cls = .ofClass info := hform
  exact h.solid cls (by rw [hform']; rfl) ref (by rw [hform']; exact List.mem_append_right _ href)

theorem Sound.refPlain_of_memberRef? (h : t.Sound) (hentry : t.memberRef? m name = some ref) : t.store.RefPlain ref := by
  unfold memberRef? at hentry
  cases hform : t.form m with
  | ofModule info =>
    rw [hform] at hentry
    have hform' : t.store.form m = .ofModule info := hform
    refine h.solid m (by rw [hform']; rfl) ref ?_
    rw [hform']
    exact OrderedMap.mem_values_iff.2 ⟨name, hentry⟩
  | _ => rw [hform] at hentry; cases hentry

theorem memberRef?_of_form (hm : t.form m = .ofModule info) (name : String) :
    t.memberRef? m name = info.members.get? name := by
  unfold memberRef?
  rw [hm]

theorem memberRef?_congr (h : t'.form m = t.form m) (name : String) : t'.memberRef? m name = t.memberRef? m name := by
  unfold memberRef?
  rw [h]

theorem form_of_gains (h : space.Gains space') {x : TypeId}
    (hx : (space.store.form x).isScope = true) : space'.store.form x = space.store.form x := by
  have hknown : space.store.Known x := known_of_form_ne (by rintro hform; rw [hform] at hx; cases hx)
  exact (form_eq_of_shape_eq (h.grows.shape_eq x hknown).symm hx).symm

theorem isScope_of_isModule (h : f.isModule = true) : f.isScope = true := by
  cases f <;> first | rfl | contradiction

theorem isScope_of_isClass (h : f.isClass = true) : f.isScope = true := by
  cases f <;> first | rfl | contradiction

theorem isClass_of_isModule (h : f.isModule = true) : f.isClass = false := by
  cases f <;> first | rfl | contradiction

theorem isUnknown_of_form_unknown {u : TypeId} (h : t.form u = .unknown) : t.store.isUnknown u = true := by
  rw [isUnknown, show t.store.form u = _ from h]
  rfl

theorem memberRef?_of_gains (h : t.space.Gains space) (hm : (t.form m).isModule = true)
    (ht' : t'.space = space) (name : String) : t'.memberRef? m name = t.memberRef? m name := by
  subst ht'
  exact memberRef?_congr (show t'.form m = t.form m from form_of_gains h (isScope_of_isModule hm)) name

theorem memberRef?_settled (h : t.Sound) (hl : t.store.isPending l = true)
    (hm : (t.form m).isModule = true) (name : String) : (t.settled l target).memberRef? m name = t.memberRef? m name := by
  have hne : m ≠ l := by
    rintro rfl
    obtain ⟨path, hform⟩ := form_of_isPending hl
    rw [show t.form m = _ from hform] at hm
    cases hm
  have hform : (t.settled l target).form m = t.form m := (h.store.inStep.tellsAll hl target).form_eq m hne
  exact memberRef?_congr hform name

theorem memberRef?_bound (hm : (t.form m).isModule = true) (name : String) (sub m' : TypeId)
    (name' : String) : (t.bound m name sub).memberRef? m' name' =
      if m' = m ∧ name' = name then some (.direct sub) else t.memberRef? m' name' := by
  obtain ⟨info, hform, hknown, hbound⟩ := bound_eq hm name sub
  rw [hbound]
  by_cases hmm : m' = m
  · have hself := t.store.form_setForm_self (.ofModule { info with members := info.members.insert name (.direct sub) }) hknown
    unfold memberRef?
    simp_all [form, store, OrderedMap.get?_insert]
  · have hother := t.store.form_setForm_of_ne (.ofModule { info with members := info.members.insert name (.direct sub) }) hmm
    rw [if_neg fun hboth => hmm hboth.1]
    unfold memberRef?
    simp_all [form, store]

/-- A submodule has taken the place of the member `name`, which was not there or unknown. -/
structure GaveWay (mayCut : Prop) (t t' : Table) (m : TypeId) (name : String) (sub : TypeId) : Prop where
  entry : t'.memberRef? m name = some (.direct sub)
  loaded : ∃ path, t'.modules.get? path = some sub
  isModule : (t'.form sub).isModule = true
  before : ∀ ref u, t.memberRef? m name = some ref → t.store.RefMeans ref u → t.form u = .unknown
  after : ¬ mayCut → ∀ ref, t.memberRef? m name = some ref → ∃ u, t'.store.RefMeans ref u ∧ t'.form u = .unknown

theorem GaveWay.retains (h : GaveWay mayCut t t1 m name sub) (ht : t.Sound)
    (hretains : t.store.Retains t1.store) (ht1 : t1.Sound)
    (hretains' : t1.store.Retains t'.store)
    (hmodules : ∀ path m, t1.modules.get? path = some m → t'.modules.get? path = some m)
    (hentry : t'.memberRef? m name = t1.memberRef? m name) : GaveWay mayCut t t' m name sub where
  entry := hentry.trans h.entry
  loaded := h.loaded.imp fun path => hmodules path sub
  isModule := hretains'.isModule h.isModule
  before := h.before
  after hcut ref href :=
    hretains'.means_unknown ht1.store (hretains.refKnown (ht.refPlain_of_memberRef? href).refKnown) (h.after hcut ref href)

/-- The members of a module stay, but one that is unknown may give way to a submodule. -/
theorem Proceeds.entry (h : Proceeds mayCut t t') : t.Sound → ∀ {m : TypeId} (name : String), (t.form m).isModule = true →
    t'.memberRef? m name = t.memberRef? m name ∨ ∃ sub, GaveWay mayCut t t' m name sub := by
  induction h with
  | refl t => exact fun _ _ _ _ => .inl rfl
  | @trans t t1 t2 h h' ih ih' =>
    intro ht m name hm
    obtain ⟨ht1, hcarries⟩ := h.carries ht
    have hcarries' := (h'.carries ht1).2
    rcases ih ht name hm with hsame | ⟨sub, hgave⟩ <;>
      rcases ih' ht1 name (hcarries.retains.isModule hm) with hsame' | ⟨sub', hgave'⟩
    · exact .inl (hsame'.trans hsame)
    · refine .inr ⟨sub', hgave'.entry, hgave'.loaded, hgave'.isModule, fun ref u href hu => ?_, fun hcut ref href => ?_⟩
      · have hknown : t.store.Known u := (Means.final_right ht.store hu).1.1
        have hu1 := hu.retains hcarries.retains ht.store (ht.refPlain_of_memberRef? href).refKnown
        exact (hcarries.retains.form_unknown_iff hknown).1 (hgave'.before ref u (hsame.trans href) hu1)
      · exact hgave'.after hcut ref (hsame.trans href)
    · exact .inr ⟨sub, hgave.retains ht hcarries.retains ht1 hcarries'.retains hcarries'.modules_eq hsame'⟩
    · have hself : t1.store.RefMeans (.direct sub) sub := .final (final_of_isModule hgave.isModule)
      have hunknown := hgave'.before _ sub hgave.entry hself
      have hmodule := hgave.isModule
      rw [hunknown] at hmodule
      cases hmodule
  | grow hgains | load hgains _ _ _ => grind [memberRef?_of_gains]
  | @bind t t1 m0 sub name0 path h hm0 hsub hbefore hvacant ih =>
    intro ht m name hm
    obtain ⟨ht1, hcarries⟩ := h.carries ht
    have hm1 := hcarries.retains.isModule hm0
    obtain ⟨-, hcarries'⟩ := ht1.bound name0 hm1 (ht1.modules path sub hsub)
    have hentry := memberRef?_bound hm1 name0 sub m name
    by_cases hsame : m = m0 ∧ name = name0
    · rw [if_pos hsame] at hentry
      obtain ⟨rfl, rfl⟩ := hsame
      have hmodule := hcarries'.retains.isModule (ht1.modules path sub hsub)
      refine .inr ⟨sub, hentry, ⟨path, hcarries'.modules_eq path sub hsub⟩, hmodule, hbefore, fun hcut ref href => ?_⟩
      refine hcarries'.retains.means_unknown ht1.store
        (hcarries.retains.refKnown (ht.refPlain_of_memberRef? href).refKnown) ?_
      rcases ih ht name hm with hsame | ⟨sub', hgave⟩
      · exact hvacant hcut ref (hsame.trans href)
      · exact hgave.after hcut ref href
    · rw [if_neg hsame] at hentry
      rcases ih ht name hm with hsame | ⟨sub', hgave⟩
      · exact .inl (hentry.trans hsame)
      · exact .inr ⟨sub', hgave.retains ht hcarries.retains ht1 hcarries'.retains hcarries'.modules_eq hentry⟩
  | @settle t t1 l target path hl hpending hpath h htarget _ ih =>
    intro ht m name hm
    obtain ⟨ht1, hcarries⟩ := h.carries (ht.entered path)
    have hpending1 := (hcarries.settle hl hpending hpath ht1 htarget).1
    have hentry : ((t1.left path).settled l target).memberRef? m name = t1.memberRef? m name :=
      memberRef?_settled (ht1.left path) hpending1 (hcarries.retains.isModule hm) name
    rcases ih (ht.entered path) name hm with hsame | ⟨sub, hgave⟩
    · exact .inl (hentry.trans hsame)
    · have hgave1 : GaveWay mayCut t t1 m name sub := ⟨hgave.entry, hgave.loaded, hgave.isModule, hgave.before, hgave.after⟩
      have hretains := ((ht1.left path).settled hpending1 htarget).2
      exact .inr ⟨sub, hgave1.retains ht hcarries.retains ht1 hretains (fun _ _ hm => hm) hentry⟩
  | @note t t1 walked name0 current id _ _ _ h _ _ _ ih =>
    intro ht m name hm
    rcases ih ht name hm with hsame | ⟨sub, hgave⟩
    · exact .inl hsame
    · exact .inr ⟨sub, hgave.entry, hgave.loaded, hgave.isModule, hgave.before, hgave.after⟩

end Table

end PythonTypes
