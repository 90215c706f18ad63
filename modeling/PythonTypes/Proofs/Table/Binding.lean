import PythonTypes.Proofs.Table.History

/-!
# The members of modules

The member of a module that has a meaning keeps it, unless it is unknown and gives way to a
submodule (`AtRest.binds_performAll`). A member may also give way while it is being looked up for
the first time: its own look-up, met again, counts as unknown. What that first look-up finds is
found again by every later one if and only if the member did not give way then, or gave way to what
was found (`member_kept_iff`); without an import cycle it never does.
-/

set_option autoImplicit false

namespace PythonTypes

open Table TypeStore

namespace TypeStore

variable {s s' : TypeStore} {x v : TypeId}

theorem awaited?_of_isResolved {cls : TypeRef} (h : s.isResolved cls = true) : s.awaited? cls = none := by
  cases cls with
  | direct c => rfl
  | slot w => exact if_pos h

/-- Nothing has to be looked up to force the type. -/
inductive Forceable (s : TypeStore) : TypeId → Prop
  | plain {x : TypeId} : s.Plain x → (∀ w, s.shape x = .object (.slot w) → (s.slot w).isResolved = true) → Forceable s x
  | target {l x : TypeId} : s.lazyTarget? l = some x → Forceable s x → Forceable s l
  | union {x : TypeId} {cs : List TypeId} : s.shape x = .lazyUnion cs → (∀ c ∈ cs, Forceable s c) → Forceable s x

theorem Means.forceable (h : s.Means x v) : s.Forceable x := by
  induction h with
  | final hfinal => exact .plain hfinal.1 fun w hw => absurd hw (hfinal.2 w)
  | @awaited x u w hshape hw _ =>
    refine .plain ⟨known_of_shape (by simp [hshape]), by rw [hshape]; rfl⟩ fun w' hw' => ?_
    cases hshape.symm.trans hw'
    exact hw
  | target htarget _ ih => exact .target htarget ih

theorem Forceable.retains (h : s.Forceable x) (hretains : s.Retains s') : s'.Forceable x := by
  induction h with
  | @plain x hplain hslot =>
    refine .plain (hplain.evolves hretains.toEvolves) fun w hw => ?_
    have hresolved := hslot w (hretains.shape_back hplain.1 hw rfl (by simp))
    rwa [hretains.slot_eq w hresolved]
  | target htarget _ ih => exact .target (hretains.target_eq _ _ htarget) ih
  | union hshape _ ih =>
    exact .union
      ((hretains.shape_eq (known_of_shape (by simp [hshape])) (by rw [hshape]; rfl)
      (by simp [hshape])).trans hshape) ih

end TypeStore

namespace Table

variable {mayCut : Prop} {t t' : Table}
variable {id m x : TypeId} {name : String} {ref : TypeRef} {v : TypeId} {a : TableAction} {as : List TableAction}
variable (cycle : Query TypeId) (depth : Nat)

/-- Nothing but new types. -/
def Calm (t t' : Table) : Prop := ∃ space, t.space.Gains space ∧ t' = { t with space }

theorem Calm.memberRef?_eq (h : t.Calm t') (hm : (t.form m).isModule = true) (name : String) :
    t'.memberRef? m name = t.memberRef? m name := by
  obtain ⟨space, hgains, rfl⟩ := h
  exact memberRef?_of_gains hgains hm rfl name

theorem Calm.form_eq (h : t.Calm t') (hx : (t.form x).isScope = true) : t'.form x = t.form x := by
  obtain ⟨space, hgains, rfl⟩ := h
  exact form_of_gains hgains hx

theorem Calm.carries (h : t.Calm t') (ht : t.Sound) : t'.Sound ∧ t.Carries t' := by
  obtain ⟨space, hgains, rfl⟩ := h
  exact ht.grow hgains

theorem Calm.proceeds (h : t.Calm t') : t.Proceeds mayCut t' := by
  obtain ⟨space, hgains, rfl⟩ := h
  exact .grow hgains

theorem Calm.refl (ht : t.Sound) : t.Calm t := ⟨t.space, .refl ht.spaceSound, rfl⟩

theorem Calm.trans {t1 : Table} (h : t.Calm t1) (h' : t1.Calm t') : t.Calm t' := by
  obtain ⟨space, hgains, rfl⟩ := h
  obtain ⟨space', hgains', rfl⟩ := h'
  exact ⟨space', hgains.trans hgains', rfl⟩

/-- A plain type is forced without any look-up unless it is an instance that waits for its class. -/
theorem calm_resolvedStep (resolveLazy resolved resolveUnion : TypeId → Query TypeId) (ht : t.Sound)
    {y : TypeId} (hy : t.store.derefLazy x = y) (hplain : t.store.Plain y)
    (hslot : ∀ w, t.store.shape y = .object (.slot w) → (t.store.slot w).isResolved = true) :
    Ensures True t (resolvedStep resolveLazy resolved resolveUnion x) fun u t' =>
      t'.store.Plain u ∧ t'.store.Means y u ∧ t.Calm t' := by
  unfold resolvedStep
  refine Ensures.get_bind ?_
  dsimp only
  rw [hy]
  cases hform : t.store.form y with
  | object cls =>
    have hshape : t.store.shape y = .object cls := shape_of_form hform
    have hresolved : t.store.isResolved cls = true := by
      cases cls with
      | direct c => rfl
      | slot w => exact hslot w hshape
    have hasks : t.Asks True _ _ := (finds_canonical ht hshape).asks
    dsimp only
    rw [awaited?_of_isResolved hresolved]
    exact Ensures.imp hasks fun u t' hu => ⟨hu.2.1.1, hu.2.1.2.2 hresolved, hu.2.2⟩
  | lazy _ _ | lazyUnion _ =>
    have hlazy := hplain.isPlain_form
    rw [hform] at hlazy
    cases hlazy
  | _ =>
    have hfinal : t.store.Final y := ⟨hplain, fun w hw => by rw [shape_of_form hform] at hw; cases hw⟩
    exact .pure ⟨hplain, .final hfinal, .refl ht⟩

/-- A lazy union is forced without any look-up if its candidates are. -/
theorem calm_resolveUnionStep {resolved : TypeId → Query TypeId} (ht : t.Sound) {cs : List TypeId}
    (hx : t.store.shape x = .lazyUnion cs) (hresolved : ∀ c ∈ cs, ∀ t' : Table, t'.Sound → t.Calm t' →
      Ensures True t' (resolved c) fun u t'' => t''.store.Plain u ∧ t''.store.Forced c u ∧ t'.Calm t'') :
    Ensures True t (resolveUnionStep resolved x) fun u t' => t'.store.Plain u ∧ t'.store.Forced x u ∧ t.Calm t' := by
  have hcs : t.store.candidates? x = some cs := candidates?_eq_some_iff.2 (.inr hx)
  have hknown := ht.store.wellFormed.known_of_form_union hcs
  unfold resolveUnionStep
  refine Ensures.get_bind ?_
  rw [hcs]
  have hcandidates : Ensures True t (cs.mapM resolved) fun us t' => (t.Sound → t.Calm t') ∧
      List.Forall₂ (fun c u => t'.store.Plain u ∧ t'.store.Means c u) cs us := by
    refine Ensures.forall₂_mapM (R := fun (t t' : Table) => t.Sound → t.Calm t') (fun _ => .refl)
      (fun h h' ht => (h ht).trans (h' ((h ht).carries ht).1)) cs (fun c hc u t1 t2 h1 h2 hu => ?_) fun c hc t1 h1 => ?_
    · have ht1 := ((h1 ht).carries ht).1
      have hretains := ((h2 ht1).carries ht1).2.retains
      exact ⟨hu.1.evolves hretains.toEvolves, hu.2.retains hretains ht1.store⟩
    · refine (hresolved c hc t1 ((h1 ht).carries ht).1 (h1 ht)).imp fun u t2 hu =>
        ⟨fun _ => hu.2.2, hu.1, hu.2.1.means fun ds hds => ?_⟩
      have hsingle := ht.store.single hcs hc
      rw [← (((h1 ht).trans hu.2.2).carries ht).2.retains.isSingle_eq (hknown c hc), hds] at hsingle
      cases hsingle
  refine hcandidates.bind fun us t1 ⟨hcalm, hus⟩ => ?_
  replace hcalm := hcalm ht
  obtain ⟨ht1, hcarries1⟩ := hcalm.carries ht
  have hplain : ∀ u ∈ us, t1.store.Plain u := ((List.forall₂_and_left us cs).1 hus.flip).1
  have hne : us ≠ [] := by
    rintro rfl
    have hfits := (ht.store.fits x).2
    rw [hx, List.forall₂_nil_right_iff.1 hus] at hfits
    exact hfits.1 rfl
  have hunion : t1.Asks True _ _ := (finds_unionOf ht1 hplain).asks
  refine Ensures.imp hunion fun v t2 hv => ⟨hv.2.1.1, ?_, hcalm.trans hv.2.2⟩
  have hretains2 := (hv.1.carries ht1).2.retains
  refine .union ?_ (hus.imp fun c u hu => hu.2.retains hretains2 ht1.store) (hv.2.1.2 hne)
  exact ((hcarries1.retains.trans hretains2).shape_eq (known_of_candidates hcs) (by rw [hx]; rfl) (by simp [hx])).trans hx

/-- A type is forced without any look-up if nothing has to be looked up. -/
theorem calm_forced :
    (∀ {t : Table} {x : TypeId}, t.Sound → t.store.Forceable x → Ensures True t (resolvedWith cycle depth x) fun u t' =>
      t'.store.Plain u ∧ t'.store.Forced x u ∧ t.Calm t') ∧
    ∀ {t : Table} {x : TypeId} {cs : List TypeId}, t.Sound → t.store.shape x = .lazyUnion cs →
      (∀ c ∈ cs, t.store.Forceable c) → Ensures True t (resolveUnionWith cycle depth x) fun u t' =>
        t'.store.Plain u ∧ t'.store.Forced x u ∧ t.Calm t' := by
  induction depth with
  | zero =>
    refine ⟨fun _ _ => ?_, fun _ _ _ => ?_⟩
    · rw [resolvedWith]
      trivial
    · rw [resolveUnionWith]
      trivial
  | succ depth ih =>
    refine ⟨fun {t x} ht hx => ?_, fun {t x cs} ht hx hcs => ?_⟩
    · rw [resolvedWith]
      cases hx with
      | plain hplain hslot =>
        have hderef := derefLazy_of_no_target (lazyTarget?_of_isPlain hplain.2)
        exact (calm_resolvedStep _ _ _ ht hderef hplain hslot).imp fun u t' hu => ⟨hu.1, .single hu.2.1, hu.2.2⟩
      | @target _ y htarget hy =>
        have hplain : t.store.Plain y := ⟨ht.store.wellFormed.target_known x y htarget, ht.store.target_plain htarget⟩
        have hslot : ∀ w, t.store.shape y = .object (.slot w) → (t.store.slot w).isResolved = true := by
          cases hy with
          | plain _ hslot => exact hslot
          | target htarget' _ => rw [lazyTarget?_of_isPlain hplain.2] at htarget'; cases htarget'
          | union hshape _ => intro w hw; rw [hshape] at hw; cases hw
        have hderef : t.store.derefLazy x = y := by
          rw [ht.store.derefLazy_eq, htarget]
          rfl
        refine (calm_resolvedStep _ _ _ ht hderef hplain hslot).imp fun u t' hu => ⟨hu.1, .single (.target ?_ hu.2.1), hu.2.2⟩
        exact (hu.2.2.carries ht).2.retains.target_eq x y htarget
      | @union _ cs hshape hcs =>
        have hderef := derefLazy_of_no_target (no_target_of_shape hshape (by simp))
        unfold resolvedStep
        refine Ensures.get_bind ?_
        dsimp only
        rw [hderef, form_of_shape (by simp) hshape]
        exact ih.2 ht hshape hcs
    · rw [resolveUnionWith]
      grind [calm_resolveUnionStep, Forceable.retains, Carries.retains, Calm.carries]

/-- A type that has a meaning is forced to it without any look-up. -/
theorem calm_resolved (ht : t.Sound) (hx : t.store.Means x v) :
    Ensures True t (resolvedWith cycle depth x) fun u t' => u = v ∧ t.Calm t' := by
  refine ((calm_forced cycle depth).1 ht hx.forceable).imp fun u t' ⟨_, hforced, hcalm⟩ => ⟨?_, hcalm⟩
  have hx' := hx.retains (hcalm.carries ht).2.retains ht.store
  exact (hforced.means fun cs hcs => not_means_of_lazyUnion hcs hx').unique hx'

theorem calm_resolvedQuery (ht : t.Sound) (hx : t.store.Means x v) :
    Ensures True t (Query.resolved x) fun u t' => u = v ∧ t.Calm t' := by
  show Ensures True t (Query.enough fun depth => resolvedAt depth x) _
  refine Query.ensures_enough ?_
  rw [← (sameAt _).resolved]
  exact calm_resolved _ _ ht hx

theorem Sound.resolved_of_means (ht : t.Sound) (hx : t.store.Means x v) :
    ∃ t', Query.resolved x t = some (v, t') ∧ t.Calm t' := by
  obtain ⟨u, t', hanswer, -⟩ := Ensures.exists_eq_some (Lookups.sound_ofTable.resolved ht hx.known)
  obtain ⟨rfl, hcalm⟩ := Ensures.apply_some (calm_resolvedQuery ht hx) hanswer
  exact ⟨t', hanswer, hcalm⟩

theorem asks_member_module {cycle : Query TypeId}
    (hcycle : ∀ t, Ensures True t cycle fun u t' => mayCut ∧ u = .unknown ∧ t' = t) (ht : t.Sound)
    (hm : (t.form m).isModule = true) (name : String) : t.Asks mayCut ((Lookups.withCycle cycle).member m name) fun r t' =>
      (t.memberRef? m name = none → r = none) ∧
        ∀ ref, t.memberRef? m name = some ref → ∃ id, r = some id ∧
          (t.Clear mayCut ∨ (∃ v, t.store.RefMeans ref v) → t'.store.RefMeans ref id) ∧
          (¬ mayCut → t'.memberRef? m name = some ref) := by
  obtain ⟨depth, hdepth⟩ := t.exists_depthBound
  unfold Lookups.withCycle
  dsimp only
  refine .enough ?_
  rw [hdepth, memberWith]
  unfold memberStep
  refine Ensures.bind (calm_resolved cycle depth ht (.final (final_of_isModule hm))) ?_
  rintro u t1 ⟨hu, hcalm⟩
  have hproceeds1 : t.Proceeds mayCut t1 := hcalm.proceeds
  obtain ⟨ht1, hcarries⟩ := hcalm.carries ht
  rw [hu]
  refine Ensures.get_bind ?_
  have hform := hcalm.form_eq (isScope_of_isModule hm)
  have hentry := memberRef?_congr hform name
  cases hinfo : t1.form m with
  | ofModule info =>
    have hget : info.members.get? name = t.memberRef? m name := by
      rw [← hentry]
      unfold memberRef?
      rw [hinfo]
    dsimp only
    rw [hget]
    cases hget' : t.memberRef? m name with
    | none => grind [Ensures.pure]
    | some ref =>
      have hentry1 : t1.memberRef? m name = some ref := hentry.trans hget'
      have href := ht1.refPlain_of_memberRef? hentry1
      refine Ensures.map (Ensures.imp ((soundAt hcycle depth).resolved_ref ht1 href (.inl trivial)).asks ?_)
      rintro id t2 ⟨hproceeds, -, hmeans, hentries⟩
      refine ⟨hproceeds1.trans hproceeds, by simp, ?_⟩
      rintro _ ⟨⟩
      refine ⟨id, rfl, fun h => hmeans ?_, fun hcut => hentries hcut m name hentry1⟩
      rcases h with h | ⟨v, hv⟩
      · exact .inl (hcarries.clear h)
      refine .inr ⟨v, ?_⟩
      exact hv.retains hcarries.retains ht.store (ht.refPlain_of_memberRef? hget').refKnown
  | _ =>
    rw [← hform, hinfo] at hm
    cases hm

theorem store_addModule (t : Table) (d : ModuleDescriptor) : (t.addModule d).store = t.store := by
  unfold Table.addModule
  split <;> rfl

/-- What has been found stays, but unknown members may give way to submodules. -/
structure Upholds (t t' : Table) : Prop extends t.Remembers t' where
  retains : t.store.Retains t'.store
  entry : ∀ {m : TypeId} (name : String), (t.form m).isModule = true →
    t'.memberRef? m name = t.memberRef? m name ∨ ∃ sub, GaveWay True t t' m name sub

theorem Proceeds.upholds (h : Proceeds mayCut t t') (ht : t.Sound) : t.Upholds t' where
  toRemembers := (h.carries ht).2.toRemembers
  retains := (h.carries ht).2.retains
  entry name hm := (h.entry ht name hm).imp_right fun ⟨sub, hgave⟩ =>
    ⟨sub, hgave.entry, hgave.loaded, hgave.isModule, hgave.before, fun h => absurd trivial h⟩

theorem Upholds.memberRef?_eq (h : t.Upholds t') (hentry : t.memberRef? m name = some ref) (hid : t.store.RefMeans ref id)
    (hknown : t.form id ≠ .unknown) : t'.memberRef? m name = some ref := by
  rcases h.entry name (isModule_of_memberRef? hentry) with hsame | ⟨sub, hgave⟩
  · exact hsame.trans hentry
  · exact absurd (hgave.before ref id hentry hid) hknown

theorem Sound.upholds_perform (ht : t.Sound) (ha : a.Valid t) : t.Upholds (a.perform t) := by
  by_cases hadd : ∀ d, a ≠ .addModule d
  · exact (TableAction.proceeds_perform ht ha hadd).upholds ht
  · obtain ⟨d, rfl⟩ : ∃ d, a = .addModule d := by simpa using hadd
    have hstore := t.store_addModule d
    exact ⟨TableAction.remembers_perform _ t, hstore ▸ .refl _, fun {m} name _ =>
      .inl (memberRef?_congr (congrArg (·.form m) hstore) name)⟩

theorem AtRest.retains_performAll (ht : t.AtRest) (has : t.ValidAll as) : t.store.Retains (t.performAll as).store := by
  induction as generalizing t with
  | nil => exact .refl _
  | cons a rest ih => exact (ht.toSound.upholds_perform has.1).retains.trans (ih (ht.perform has.1) has.2)

theorem Sound.binds_perform (ht : t.Sound) (ha : a.Valid t)
    (hentry : t.memberRef? m name = some ref) (hid : t.store.RefMeans ref id) (hknown : t.form id ≠ .unknown) :
    (a.perform t).memberRef? m name = some ref ∧ (a.perform t).store.RefMeans ref id ∧ (a.perform t).form id ≠ .unknown := by
  have hupholds := ht.upholds_perform ha
  exact ⟨hupholds.memberRef?_eq hentry hid hknown,
    hid.retains hupholds.retains ht.store (ht.refPlain_of_memberRef? hentry).refKnown,
    mt (hupholds.retains.form_unknown_iff (Means.final_right ht.store hid).1.1).1 hknown⟩

theorem AtRest.binds_performAll (ht : t.AtRest) (has : t.ValidAll as)
    (hentry : t.memberRef? m name = some ref) (hid : t.store.RefMeans ref id) (hknown : t.form id ≠ .unknown) :
    (t.performAll as).memberRef? m name = some ref ∧ (t.performAll as).store.RefMeans ref id := by
  induction as generalizing t with
  | nil => exact ⟨hentry, hid⟩
  | cons a rest ih =>
    obtain ⟨hentry', hid', hknown'⟩ := ht.toSound.binds_perform has.1 hentry hid hknown
    exact ih (ht.perform has.1) has.2 hentry' hid' hknown'

theorem Sound.member_of_refMeans (ht : t.Sound) (hentry : t.memberRef? m name = some ref)
    (hid : t.store.RefMeans ref id) : ∃ t', Query.member m name t = some (some id, t') := by
  have hm := isModule_of_memberRef? hentry
  obtain ⟨r, t', hmember, -⟩ := Ensures.exists_eq_some (Lookups.sound_ofTable.member name ht (plain_of_isModule hm).1)
  have hasks := asks_member_module (fun _ => .pure ⟨trivial, rfl, rfl⟩) ht hm name
  rw [Lookups.withCycle_unknown] at hasks
  obtain ⟨hproceeds, -, hfound⟩ := Ensures.apply_some hasks hmember
  obtain ⟨id', rfl, hid', -⟩ := hfound ref hentry
  have hretains := (hproceeds.carries ht).2.retains
  have hsame := (hid' (.inr ⟨id, hid⟩)).unique (hid.retains hretains ht.store (ht.refPlain_of_memberRef? hentry).refKnown)
  exact ⟨t', hsame ▸ hmember⟩

/-- What the first look-up of a member finds is found again by every later one if and only if the
member did not give way to a submodule during that look-up, or gave way to what was found. Without
an import cycle it does not give way. -/
theorem member_kept_iff (project : Project) (stubs : StubStore) (settings : Settings) (stubPackages : Bool)
    (as : List TableAction) (has : (create project stubs settings stubPackages).ValidAll as) (m : TypeId) (name : String)
    (id : TypeId) (t₁ : Table) (hm : (((create project stubs settings stubPackages).performAll as).form m).isModule = true)
    (hmember : Query.member m name ((create project stubs settings stubPackages).performAll as) = some (some id, t₁))
    (hid : t₁.form id ≠ .unknown) :
    let t := (create project stubs settings stubPackages).performAll as
    ((∀ later, t₁.ValidAll later → ∃ t₂, Query.member m name (t₁.performAll later) = some (some id, t₂)) ↔
      t₁.memberRef? m name = t.memberRef? m name ∨ t₁.memberRef? m name = some (.direct id)) ∧
    ((Lookups.straight.member m name t).isSome → t₁.memberRef? m name = t.memberRef? m name) := by
  intro t
  have ht : t.AtRest := (atRest_create project stubs settings stubPackages).performAll has
  have hasks := asks_member_module (fun _ => .pure ⟨trivial, rfl, rfl⟩) ht.toSound hm name
  rw [Lookups.withCycle_unknown] at hasks
  obtain ⟨hproceeds, hnone, hfound⟩ := Ensures.apply_some hasks hmember
  have ht₁ := ht.proceeds hproceeds
  obtain ⟨ref, hentry⟩ : ∃ ref, t.memberRef? m name = some ref := by
    cases hget : t.memberRef? m name with
    | none => cases hnone hget
    | some ref => exact ⟨ref, rfl⟩
  obtain ⟨_, ⟨⟩, hmeans, -⟩ := hfound ref hentry
  have hmeans := hmeans (.inl (ht.clear True))
  have hkept : ∀ {ref'}, t₁.memberRef? m name = some ref' → t₁.store.RefMeans ref' id →
      ∀ later, t₁.ValidAll later → ∃ t₂, Query.member m name (t₁.performAll later) = some (some id, t₂) := by
    intro ref' hentry' hid' later hlater
    obtain ⟨hentry₂, hid₂⟩ := ht₁.binds_performAll hlater hentry' hid' hid
    exact (ht₁.performAll hlater).toSound.member_of_refMeans hentry₂ hid₂
  refine ⟨⟨fun hlater => ?_, fun h => ?_⟩, fun hstraight => ?_⟩
  · rcases hproceeds.entry ht.toSound name hm with hsame | ⟨sub, hgave⟩
    · exact .inl hsame
    -- the submodule is what is found from now on
    · obtain ⟨t₂, hagain⟩ := hlater [] trivial
      obtain ⟨t₂', hsub⟩ := ht₁.toSound.member_of_refMeans hgave.entry (.final (final_of_isModule hgave.isModule))
      cases hagain.symm.trans hsub
      exact .inr hgave.entry
  · rcases h with hsame | hdirect
    · exact hkept (hsame.trans hentry) hmeans
    · exact hkept hdirect (.final (Means.final_right ht₁.store hmeans))
  · obtain ⟨r, hr⟩ := Option.isSome_iff_exists.1 hstraight
    cases (Lookups.straight_below_ofTable.member m name t r hr).symm.trans hmember
    have hcycle : ∀ t, Ensures True t (Query.tooDeep : Query TypeId) fun u t' => False ∧ u = .unknown ∧ t' = t :=
      fun _ => trivial
    obtain ⟨-, -, hfound'⟩ := Ensures.apply_some (asks_member_module hcycle ht.toSound hm name) hr
    obtain ⟨_, -, -, hsame⟩ := hfound' ref hentry
    exact (hsame not_false).trans hentry.symm

/-- A package that imports a class under the name of one of its submodules. -/
def sharedName : Project :=
  ((({} : Project).addModule (ModuleDescriptor.addMember (.ofPath "p")
    (.ofVariable { name := "x", path := "q.C" }))).addModule
    (.ofPath "p.x")).addModule (ModuleDescriptor.addMember (.ofPath "q") (.ofClass "C" (some "q.C") [] [] false none))

theorem member_kept_sharedName :
    ∃ t₁ t₂, Query.member ⟨3⟩ "x" ((create sharedName {} {}).performAll [.getType "p"]) = some (some ⟨4⟩, t₁) ∧
      Query.member ⟨3⟩ "x" (t₁.performAll [.importModule "p.x", .importFrom "p" "x"]) = some (some ⟨4⟩, t₂) := by
  have hfirst : (Query.member ⟨3⟩ "x" ((create sharedName {} {}).performAll [.getType "p"])).map
      (fun r => (r.1, (r.2.form ⟨4⟩).isUnknown)) = some (some ⟨4⟩, false) := by decide +kernel
  obtain ⟨⟨id, t₁⟩, hmember, hid⟩ := Option.map_eq_some_iff.1 hfirst
  obtain ⟨rfl, hknown⟩ := Prod.mk.inj hid
  have hkept := member_kept_iff sharedName {} {} true [.getType "p"] ⟨trivial, trivial⟩
    ⟨3⟩ "x" ⟨4⟩ t₁ (by decide +kernel) hmember
    (by
      intro hunknown
      rw [hunknown] at hknown
      cases hknown)
  obtain ⟨t₂, hagain⟩ := hkept.1.2 (.inl (hkept.2 (by decide +kernel)))
    [.importModule "p.x", .importFrom "p" "x"] ⟨trivial, trivial, trivial⟩
  exact ⟨t₁, t₂, hmember, hagain⟩

/-- A package that imports a class from its submodule of the same name. -/
def nestedName : Project :=
  (({} : Project).addModule (ModuleDescriptor.addMember (.ofPath "p")
    (.ofVariable { name := "x", path := "p.x.x" }))).addModule
    (ModuleDescriptor.addMember (.ofPath "p.x") (.ofClass "x" (some "p.x.x") [] [] false none))

/-- The class is found first, and the submodule that it gave way to from then on. -/
theorem member_not_kept_nestedName :
    ∃ t₁ t₂, Query.member ⟨3⟩ "x" ((create nestedName {} {}).performAll [.getType "p"]) = some (some ⟨4⟩, t₁) ∧
      (t₁.form ⟨4⟩).isClass = true ∧ Query.member ⟨3⟩ "x" t₁ = some (some ⟨5⟩, t₂) ∧ (t₂.form ⟨5⟩).isModule = true := by
  have hboth : ((Query.member ⟨3⟩ "x" ((create nestedName {} {}).performAll [.getType "p"])).bind fun r =>
      (Query.member ⟨3⟩ "x" r.2).map fun r' => (r.1, (r.2.form ⟨4⟩).isClass, r'.1, (r'.2.form ⟨5⟩).isModule)) =
      some (some ⟨4⟩, true, some ⟨5⟩, true) := by decide +kernel
  obtain ⟨⟨first, t₁⟩, hfirst, hagain⟩ := Option.bind_eq_some_iff.1 hboth
  obtain ⟨⟨second, t₂⟩, hsecond, heq⟩ := Option.map_eq_some_iff.1 hagain
  simp only [Prod.mk.injEq] at heq
  obtain ⟨rfl, hclass, rfl, hmodule⟩ := heq
  exact ⟨t₁, t₂, hfirst, hclass, hsecond, hmodule⟩

end Table

end PythonTypes
