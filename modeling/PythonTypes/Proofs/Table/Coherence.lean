import PythonTypes.Proofs.Table.Binding

/-!
# Remembered paths, members and lazy types

Paths are remembered, members of modules bound and lazy types resolved separately. As long as no
look-up is cut off at an import cycle they agree: a path that is remembered leads where its last
segment leads as a member of what the rest of the path leads to, and a lazy type is resolved
to where its path leads (`CoherentSince`, `Proceeds.coherentSince`). A cut look-up may bind the
member to something else.
-/

set_option autoImplicit false

namespace PythonTypes

theorem TypeStore.Retains.lazyPath?_of_target {s s' : TypeStore} (h : s.Retains s') {l x : TypeId} {path : String}
    (hx : s.lazyTarget? l = some x) (hl : s'.lazyPath? l = some path) : s.lazyPath? l = some path := by
  obtain ⟨path0, hshape⟩ := lazyTarget?_eq_some_iff.1 hx
  have hl0 := lazyPath?_of_shape hshape
  exact hl0.trans ((h.lazyPath?_eq hl0).symm.trans hl)

namespace Table

open TypeStore

variable {t0 t t' : Table}
variable {current id id' : TypeId} {name path walked : String} {m parent : TypeId}
variable {l target : TypeId}

/-! ## One change after the other -/

theorem Vacant.proceeds {sub : TypeId} (h : t.Vacant m name) (hm : (t.form m).isModule = true)
    (hsub : t.modules.get? path = some sub) : Proceeds False t (t.bound m name sub) := by
  refine .bind (.refl t) hm hsub (fun ref u href hu => ?_) fun _ => h
  obtain ⟨v, hv, hunknown⟩ := h ref href
  exact hu.unique hv ▸ hunknown

theorem Sound.upholds_settled (ht : t.Sound) (hl : t.store.isPending l = true)
    (htarget : t.store.Plain target) (path : String) : t.Upholds ((t.left path).settled l target) where
  toRemembers := .of_eq rfl rfl
  retains := ((ht.left path).settled hl htarget).2
  entry name hm := .inl (memberRef?_settled (ht.left path) hl hm name)

theorem Binds.upholds (h : t.Upholds t') (ht : t.Sound) (hid : t.store.isUnknown id = false)
    (hbinds : t.Binds parent name id) : t'.Binds parent name id := by
  rcases hbinds with ⟨ref, hentry, href⟩ | ⟨hclass, ref, hsearch, href⟩
  · refine .inl ⟨ref, h.memberRef?_eq hentry href fun hunknown => ?_,
      href.retains h.retains ht.store (ht.refPlain_of_memberRef? hentry).refKnown⟩
    simp [TypeStore.isUnknown, show t.store.form id = _ from hunknown, TypeForm.isUnknown] at hid
  · have hknown : ∀ ref ∈ [TypeRef.direct parent], t.store.RefKnown ref := by
      intro ref href
      obtain rfl := List.mem_singleton.1 href
      exact (final_of_isClass hclass).1.1
    exact .inr ⟨h.retains.isClass hclass, ref, hsearch.retains h.retains ht.store hknown,
      href.retains h.retains ht.store (hsearch.refKnown ht.store)⟩

theorem Binds.unique (h : t.Binds parent name id) (h' : t.Binds parent name id') : id = id' := by
  have hnot : ∀ {ref}, t.memberRef? parent name = some ref → ¬ (t.form parent).isClass = true := fun hentry => by
    simp [isClass_of_isModule (isModule_of_memberRef? hentry)]
  grind [Binds, RefMeans.unique, Search.unique]

theorem Leads.unique (h : t.Leads current name id) (h' : t.Leads current name id') : id = id' := by
  obtain ⟨parent, hparent, hbinds⟩ := h
  obtain ⟨parent', hparent', hbinds'⟩ := h'
  grind [Means.unique, Binds.unique]

theorem Walked.unique (hempty : t.cache.get? "" = none) {current' : TypeId}
    (h : t.Walked walked current) (h' : t.Walked walked current') : current = current' := by
  grind [Walked]

theorem Walked.remembers (h : t.Remembers t') (hwalked : t.Walked walked current) : t'.Walked walked current :=
  hwalked.imp h.get_eq fun ⟨hempty, hroot⟩ => ⟨hempty, hroot.trans h.root_eq.symm⟩

/-! ## Coherence -/

/-- The last segment of a path leads to `id`, from where the rest of the path leads. -/
def LeadsTo (t : Table) (path : String) (id : TypeId) : Prop :=
  ∃ walked name current, path = DottedName.child walked name ∧ '.' ∉ name.toList ∧
    DottedName.trimmed walked = walked ∧ t.Walked walked current ∧ t.Leads current name id

/-- What has been found since is in agreement. -/
structure CoherentSince (t0 t : Table) : Prop where
  /-- Every path that has been remembered leads where its last segment leads. -/
  leads : ∀ path id, t0.cache.get? path = none → t.cache.get? path = some id → t.LeadsTo path id
  /-- Every lazy type that has been resolved to something known is resolved to where its path
  leads. -/
  settled : ∀ l path target, t0.store.lazyTarget? l = none → t.store.lazyPath? l = some path →
    t.store.lazyTarget? l = some target → target ≠ .unknown → t.Settled path target

theorem LeadsTo.upholds (h : t.Upholds t') (ht : t.Sound) (hid : t.store.isUnknown id = false)
    (hleads : t.LeadsTo path id) : t'.LeadsTo path id := by
  obtain ⟨walked, name, current, hpath, hname, htrimmed, hwalked, parent, hparent, hbinds⟩ := hleads
  exact ⟨walked, name, current, hpath, hname, htrimmed, hwalked.remembers h.toRemembers, parent,
    hparent.retains h.retains ht.store, hbinds.upholds h ht hid⟩

theorem LeadsTo.unique (hempty : t.cache.get? "" = none) (h : t.LeadsTo path id) (h' : t.LeadsTo path id') : id = id' := by
  grind [LeadsTo, DottedName.child_inj, Walked.unique, Leads.unique]

theorem LeadsTo.trimmed (h : t.LeadsTo path id) : DottedName.trimmed path = path := by
  obtain ⟨walked, name, current, rfl, hname, htrimmed, -⟩ := h
  exact DottedName.trimmed_child htrimmed hname

/-- A path that was remembered meanwhile leads to the same type. -/
theorem CoherentSince.upholds_noted (h : t0.CoherentSince t) (hnone : t0.cache.get? path = none)
    (hempty : t.cache.get? "" = none) (hid : t.LeadsTo path id) : t.Upholds (t.noted path id) where
  root_eq := rfl
  get_eq {path' id'} hid' := by
    show (t.cache.insert path id).get? path' = some id'
    have hold := h.leads path
    grind [OrderedMap.get?_insert, LeadsTo.unique]
  trimmed_new {path' id'} hnone hid' := by
    rcases OrderedMap.get?_insert_cases hid' with ⟨rfl, -⟩ | hsome
    · exact hid.trimmed
    · cases hnone.symm.trans hsome
  retains := .refl _
  entry name _ := .inl rfl

theorem Remembers.empty (h : t.Remembers t') (hempty : t'.cache.get? "" = none) : t.cache.get? "" = none := by
  cases hget : t.cache.get? "" with
  | none => rfl
  | some id =>
    rw [h.get_eq hget] at hempty
    cases hempty

theorem empty_of_noted (hempty : (t.noted path id).cache.get? "" = none) : t.cache.get? "" = none := by
  have hinsert : (t.cache.insert path id).get? "" = none := hempty
  grind [OrderedMap.get?_insert]

theorem CoherentSince.of_noNewTarget (hcache : t'.cache = t.cache)
    (hnew : t.store.NoNewTarget t'.store) : t.CoherentSince t' where
  leads path id hnone hid := by
    rw [hcache, hnone] at hid
    cases hid
  settled l path target hnone _ hx _ := absurd (hnone.symm.trans (hnew l target hx)) nofun

theorem CoherentSince.refl (t : Table) : t.CoherentSince t := .of_noNewTarget rfl fun _ _ hx => hx

theorem CoherentSince.trans (h : t0.CoherentSince t) (ht : t.Sound) (hupholds : t.Upholds t')
    (h' : t.CoherentSince t') : t0.CoherentSince t' where
  leads path id hnone hid := by
    cases hget : t.cache.get? path with
    | none => exact h'.leads path id hget hid
    | some id' =>
      cases (hupholds.get_eq hget).symm.trans hid
      exact (h.leads path id hnone hget).upholds hupholds ht (ht.reached path id hget)
  settled l path target hnone hl hx hne := by
    cases hget : t.store.lazyTarget? l with
    | none => exact h'.settled l path target hget hl hx hne
    | some x =>
      cases (hupholds.retains.target_eq l x hget).symm.trans hx
      exact hupholds.toRemembers.settled
        (h.settled l path target hnone (hupholds.retains.lazyPath?_of_target hget hl) hget hne)

theorem noNewTarget_bound (hm : (t.form m).isModule = true) (name : String) (sub : TypeId) :
    t.store.NoNewTarget (t.bound m name sub).store := by
  obtain ⟨info, -, hknown, hbound⟩ := bound_eq hm name sub
  rw [hbound]
  exact noNewTarget_of_form _ (by simp) (form_setForm_cases _ hknown)

theorem Sound.coherentSince_settled (ht : t.Sound) (hl : t.store.isPending l = true)
    (htarget : t.store.Plain target) (hpath : t.store.lazyPath? l = some path)
    (hsettled : target ≠ .unknown → t.Settled path target) :
    t.CoherentSince ((t.left path).settled l target) where
  leads path id hnone hid := absurd (hnone.symm.trans hid) nofun
  settled l' path' x hnone hl' hx hne := by
    have hupholds := ht.upholds_settled hl htarget path
    by_cases hsame : l' = l
    · subst hsame
      cases Option.some.inj ((hupholds.retains.lazyPath?_eq hpath).symm.trans hl')
      obtain rfl : target = x := Option.some.inj ((lazyTarget?_settled hl htarget).symm.trans hx)
      exact hupholds.toRemembers.settled (hsettled hne)
    · have hform : ((t.left path).settled l target).store.form l' = t.store.form l' :=
        ((ht.left path).store.inStep.tellsAll hl target).form_eq l' hsame
      simp_all [lazyTarget?]

theorem coherentSince_noted (hid : (t.noted path id).LeadsTo path id) : t.CoherentSince (t.noted path id) where
  leads path' id' hnone hid' := by
    rcases OrderedMap.get?_insert_cases hid' with ⟨rfl, rfl⟩ | hsome
    · exact hid
    · cases hnone.symm.trans hsome
  settled l path target hnone _ hx _ := absurd (hnone.symm.trans hx) nofun

/-- If nothing is cut off then what is found is in agreement. -/
theorem Proceeds.coherentSince (h : Proceeds False t t') : t.Sound → t'.cache.get? "" = none → t.CoherentSince t' := by
  induction h with
  | refl t => exact fun _ _ => .refl t
  | grow hgains => exact fun _ _ => .of_noNewTarget rfl hgains.target
  | load hgains => exact fun _ _ => .of_noNewTarget rfl hgains.target
  | trans h h' ih ih' =>
    intro ht hempty
    obtain ⟨ht1, -⟩ := h.carries ht
    have hupholds := h'.upholds ht1
    exact (ih ht (hupholds.toRemembers.empty hempty)).trans ht1 hupholds (ih' ht1 hempty)
  | @bind t t1 m sub name path h hm hsub hbefore hvacant ih =>
    intro ht hempty
    obtain ⟨ht1, hcarries⟩ := h.carries ht
    have hm1 := hcarries.retains.isModule hm
    have hstep := (hvacant not_false).proceeds hm1 hsub
    exact (ih ht hempty).trans ht1 (hstep.upholds ht1) (.of_noNewTarget rfl (noNewTarget_bound hm1 name sub))
  | @settle t t1 l target path hl hpending hpath h htarget hsettled ih =>
    intro ht hempty
    obtain ⟨ht1, hcarries⟩ := h.carries (ht.entered path)
    obtain ⟨hpending1, -, -⟩ := hcarries.settle hl hpending hpath ht1 htarget
    obtain ⟨hleads, hresolved⟩ := ih (ht.entered path) hempty
    exact CoherentSince.trans ⟨hleads, hresolved⟩ ht1 (ht1.upholds_settled hpending1 htarget path)
      (ht1.coherentSince_settled hpending1 htarget (hcarries.retains.lazyPath?_eq hl) hsettled)
  | @note t t1 walked name current id hnone hname hwalked h hid hknown hleads ih =>
    intro ht hempty
    obtain ⟨ht1, -⟩ := h.carries ht
    have hsince := ih ht (empty_of_noted hempty)
    have hleadsTo : t1.LeadsTo (DottedName.child walked name) id :=
      ⟨walked, name, current, rfl, hname, hwalked, hleads not_false⟩
    have hupholds := hsince.upholds_noted hnone (empty_of_noted hempty) hleadsTo
    exact hsince.trans ht1 hupholds (coherentSince_noted (hleadsTo.upholds hupholds ht1 hknown))

theorem CoherentSince.perform (h : t0.CoherentSince t) (ht : t.AtRest) {a : TableAction}
    (ha : a.Valid t) (hstraight : a.Straight t)
    (hempty : (a.perform t).cache.get? "" = none) : t0.CoherentSince (a.perform t) := by
  refine h.trans ht.toSound (ht.toSound.upholds_perform ha) ?_
  by_cases hadd : ∀ d, a ≠ .addModule d
  · exact (hstraight.proceeds ht.toSound ha hadd).coherentSince ht.toSound hempty
  · obtain ⟨d, rfl⟩ : ∃ d, a = .addModule d := by simpa using hadd
    exact .of_noNewTarget (by grind [TableAction.perform, Table.addModule]) (t.store_addModule d ▸ fun _ _ hx => hx)

/-- Without import cycles remembered paths, members and lazy types agree after every run. -/
theorem CoherentSince.performAll (h : t0.CoherentSince t) (ht : t.AtRest) {as : List TableAction} (has : t.ValidAll as)
    (hstraight : t.StraightAll as) (hempty : (t.performAll as).cache.get? "" = none) :
    t0.CoherentSince (t.performAll as) := by
  induction as generalizing t with
  | nil => exact h
  | cons a rest ih =>
    have hempty1 := (remembers_performAll (a.perform t) rest).empty hempty
    exact ih (h.perform ht has.1 hstraight.1 hempty1) (ht.perform has.1) has.2 hstraight.2 hempty

theorem LeadsTo.binds (hempty : t.cache.get? "" = none) (hname : '.' ∉ name.toList) (hwalked : t.Walked walked m)
    (hm : (t.form m).isModule = true) (hid : t.LeadsTo (DottedName.child walked name) id) :
    ∃ ref, t.memberRef? m name = some ref ∧ t.store.RefMeans ref id := by
  obtain ⟨walked', name', current, hpath, hname', -, hwalked', parent, hparent, hbinds⟩ := hid
  obtain ⟨rfl, rfl⟩ := DottedName.child_inj hname hname' hpath
  cases hwalked.unique hempty hwalked'
  cases hparent.unique (.final (final_of_isModule hm))
  rcases hbinds with hentry | ⟨hclass, -⟩
  · exact hentry
  · grind [isClass_of_isModule]

/-- After a run without import cycles, the members of a module are what the paths below it lead to,
and the members of the root module what the names without a dot lead to. -/
theorem member_of_remembered (project : Project) (stubs : StubStore) (settings : Settings) (stubPackages : Bool)
    (as : List TableAction) (has : (create project stubs settings stubPackages).ValidAll as)
    (hstraight : (create project stubs settings stubPackages).StraightAll as)
    (hempty : ((create project stubs settings stubPackages).performAll as).cache.get? "" = none) :
    let t := (create project stubs settings stubPackages).performAll as
    (∀ path name m id, '.' ∉ name.toList → t.cache.get? path = some m → (t.form m).isModule = true →
      t.cache.get? (path ++ "." ++ name) = some id → ∃ t', Query.member m name t = some (some id, t')) ∧
    ∀ name id, '.' ∉ name.toList → t.cache.get? name = some id → ∃ t', Query.member t.root name t = some (some id, t') := by
  intro t
  have hnew := atRest_create project stubs settings stubPackages
  have ht : t.AtRest := hnew.performAll has
  have hleads {path : String} {id : TypeId} : t.cache.get? path = some id → t.LeadsTo path id :=
    ((CoherentSince.refl _).performAll hnew has hstraight hempty).leads path id rfl
  refine ⟨fun path name m id hname hpath hm hid => ?_, fun name id hname hid => ?_⟩
  · have hchild : DottedName.child path name = path ++ "." ++ name := by
      refine if_neg ?_
      rintro rfl
      cases hempty.symm.trans hpath
    rw [← hchild] at hid
    obtain ⟨ref, hentry, href⟩ := LeadsTo.binds hempty hname (.inl hpath) hm (hleads hid)
    exact ht.toSound.member_of_refMeans hentry href
  · have hwalked : t.Walked "" t.root := .inr ⟨rfl, rfl⟩
    obtain ⟨ref, hentry, href⟩ := LeadsTo.binds hempty hname hwalked ht.root (hleads hid)
    exact ht.toSound.member_of_refMeans hentry href

theorem member_of_remembered_sharedName :
    let t := (create sharedName {} {}).performAll [.getType "p.x", .importModule "q"]
    (∃ t', Query.member ⟨3⟩ "x" t = some (some ⟨4⟩, t')) ∧ ∃ t', Query.member t.root "p" t = some (some ⟨3⟩, t') := by
  intro t
  have hmember := member_of_remembered sharedName {} {} true [.getType "p.x", .importModule "q"]
    (by decide +kernel) (by decide +kernel) (by decide +kernel)
  exact ⟨hmember.1 "p" "x" ⟨3⟩ ⟨4⟩ (by decide) (by decide +kernel) (by decide +kernel)
    (by decide +kernel), hmember.2 "p" ⟨3⟩ (by decide) (by decide +kernel)⟩

/-- A module without a name, and a class in it. -/
def unnamed : Project :=
  ({} : Project).addModule (ModuleDescriptor.addMember (.ofPath "") (.ofClass "x" (some "x") [] [] false none))

/-- The path of a member of a package leads to a class while the member has given way to a
submodule; and a path below the module without a name is remembered as one below the root module. -/
theorem member_ne_remembered_nestedName :
    (let t := (create nestedName {} {}).performAll [.getType "p.x"];
      t.cache.get? "p" = some ⟨3⟩ ∧ (t.form ⟨3⟩).isModule = true ∧ t.cache.get? "p.x" = some ⟨4⟩ ∧
        (t.form ⟨4⟩).isClass = true ∧
        (Query.member ⟨3⟩ "x" t).map Prod.fst = some (some ⟨5⟩)) ∧
    (let t := (create unnamed {} {}).performAll [.getType ".x"];
      t.cache.get? "x" = some ⟨2⟩ ∧ (t.form ⟨2⟩).isClass = true ∧ (Query.member t.root "x" t).map Prod.fst = some none) := by
  decide +kernel

end Table

end PythonTypes
