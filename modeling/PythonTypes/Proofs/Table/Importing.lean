import PythonTypes.Proofs.Table.Agreement

/-!
# What a `from` import looks into

The path of a `from` import is followed like any other, and the module is loaded under its own path
only if it does not lead to a module. The import then looks for the name among the members of that
module. It looks into the module of the path if and only if the path does not lead to another module
(`importFrom_looks_inside_iff`), as it does where an attribute of a package is bound to a module
known under another path.
-/

set_option autoImplicit false

namespace PythonTypes.Table

open TypeStore

variable {t t₁ t' : Table} {m : TypeId} {name path : String}

/-- The path leads to a module, but not to the one that is loaded for it. -/
def LeadsAstray (t : Table) (path : String) : Prop :=
  ∃ id t', Query.getType path t = some (id, t') ∧ (t'.form id).isModule = true ∧ t'.modules.get? path ≠ some id

/-- What was found for the member `name` of a module: what it is bound to, or the submodule that an
unknown member has given way to. -/
inductive Supplies (t t' : Table) (m : TypeId) (name path : String) : Option TypeId → Prop
  | missing : t.memberRef? m name = none → Supplies t t' m name path none
  | member {ref : TypeRef} {id : TypeId} : t.memberRef? m name = some ref →
      t'.store.RefMeans ref id → Supplies t t' m name path (some id)
  | submodule {ref : TypeRef} {u sub : TypeId} : t.memberRef? m name = some ref →
      t'.store.RefMeans ref u → t'.form u = .unknown →
      t'.modules.get? path = some sub → t'.memberRef? m name = some (.direct sub) → Supplies t t' m name path (some sub)

theorem Supplies.calm {found : Option TypeId} (h : t.Supplies t₁ m name path found) (ht1 : t₁.Sound)
    (hretains : t.store.Retains t₁.store) (ht : t.Sound) (hcalm : t₁.Calm t') : t.Supplies t' m name path found := by
  obtain ⟨-, hcarries⟩ := hcalm.carries ht1
  have hmeans : ∀ {ref : TypeRef} {u : TypeId}, t.memberRef? m name = some ref → t₁.store.RefMeans ref u →
      t'.store.RefMeans ref u := fun href hu =>
    hu.retains hcarries.retains ht1.store (hretains.refKnown (ht.refPlain_of_memberRef? href).refKnown)
  cases h with
  | missing hnone => exact .missing hnone
  | member href hid => exact .member href (hmeans href hid)
  | submodule href hu hunknown hsub hentry =>
    have hknown := (Means.final_right ht1.store hu).1.1
    refine .submodule href (hmeans href hu) ((hcarries.retains.form_unknown_iff hknown).2 hunknown)
      (hcarries.modules_eq _ _ hsub) ?_
    exact (hcalm.memberRef?_eq (isModule_of_memberRef? hentry) name).trans hentry

theorem AtRest.supplies_moduleMemberAt (ht : t.AtRest) (hm : (t.form m).isModule = true) (name path : String) (depth : Nat) :
    Ensures True t (moduleMemberAt (depth + 1) m name path false) fun found t' => t.Supplies t' m name path found := by
  rw [moduleMemberAt]
  unfold moduleMemberStep
  refine Ensures.get_bind ?_
  cases hentry : t.memberRef? m name with
  | none => exact .pure (.missing hentry)
  | some ref =>
    have href := ht.refPlain_of_memberRef? hentry
    dsimp only
    rw [← (sameAt depth).resolved]
    refine Ensures.bind ((soundAt_unknown depth).resolved_ref ht.toSound href (.inl trivial)).asks fun u t₁ h1 => ?_
    obtain ⟨hproceeds, -, hmeans, -⟩ := h1
    obtain ⟨ht1, hcarries⟩ := hproceeds.carries ht.toSound
    have hmeans := hmeans (.inl (ht.clear True))
    refine Ensures.get_bind ?_
    cases hform : t₁.form u with
    | unknown =>
      have hm1 := hcarries.retains.isModule hm
      have hload : t₁.Asks True _ _ := (finds_loadModule ht1 path).asks
      refine Ensures.bind hload fun found t2 h2 => ?_
      obtain ⟨hproceeds2, -, hfound, hnone⟩ := h2
      cases found with
      | none =>
        obtain ⟨rfl, -⟩ := hnone rfl
        exact .pure (.member hentry hmeans)
      | some sub =>
        obtain ⟨ht2, hcarries2⟩ := hproceeds2.carries ht1
        have hsub := hfound sub rfl
        have hm2 := hcarries2.retains.isModule hm1
        obtain ⟨-, hcarries3⟩ := ht2.bound name hm2 (ht2.modules path sub hsub)
        have hretains := hcarries2.retains.trans hcarries3.retains
        have hknown := (Means.final_right ht1.store hmeans).1.1
        refine Ensures.of_eq_some rfl (.submodule hentry ?_ ((hretains.form_unknown_iff hknown).2 hform)
          (hcarries3.modules_eq path sub hsub) ?_)
        · exact hmeans.retains hretains ht1.store (hcarries.retains.refKnown href.refKnown)
        · exact (memberRef?_bound hm2 name sub m name).trans (if_pos ⟨rfl, rfl⟩)
    | _ => exact .pure (.member hentry hmeans)

theorem AtRest.supplies_moduleMember (ht : t.AtRest) (hm : (t.form m).isModule = true) (name path : String) :
    t.Asks True (Query.moduleMember m name path false) fun found t' => t.Supplies t' m name path found := by
  refine .enough ?_
  obtain ⟨depth, hdepth⟩ := t.exists_depthBound
  rw [hdepth]
  refine Ensures.and ?_ (ht.supplies_moduleMemberAt hm name path depth)
  rw [← (sameAt (depth + 1)).moduleMember]
  exact Ensures.imp ((soundAt_unknown (depth + 1)).moduleMember name path false ht.toSound hm
    (.inl trivial)).asks fun _ _ h => h.1

theorem Carries.source?_eq (h : t.Carries t') (path : String) : t'.source? path = t.source? path := by
  unfold source?
  rw [h.project_eq, h.stubs_eq, h.stubPackages_eq]

theorem AtRest.namedModule (ht : t.AtRest) (hsource : t.source? path ≠ none) :
    ∃ id t₁ t2, Query.getType path t = some (id, t₁) ∧ t.Proceeds True t2 ∧
      ∃ m, Query.namedModule path id t₁ = some (some m, t2) ∧ (t2.form m).isModule = true ∧
        (t2.modules.get? path = some m ↔ ¬ t.LeadsAstray path) := by
  obtain ⟨id, t₁, hget, ⟨hproceeds, -⟩, -⟩ := Ensures.exists_eq_some (Lookups.sound_ofTable.getType path ht.toSound)
  have hget : Query.getType path t = some (id, t₁) := hget
  have hastray : t.LeadsAstray path ↔ (t₁.form id).isModule = true ∧ t₁.modules.get? path ≠ some id := by
    refine ⟨?_, fun h => ⟨id, t₁, hget, h⟩⟩
    rintro ⟨id', t1', hget', h⟩
    cases hget.symm.trans hget'
    exact h
  obtain ⟨ht1, hcarries⟩ := hproceeds.carries ht.toSound
  by_cases hmodule : (t₁.form id).isModule = true
  · refine ⟨id, t₁, t₁, hget, hproceeds, id, ?_, hmodule, ?_⟩
    · show (if (t₁.form id).isModule then pure (some id) else loadModule path : Query (Option TypeId)) t₁ = _
      rw [if_pos hmodule]
      rfl
    · rw [hastray]
      simp [hmodule]
  · have hloads : t₁.Finds False True _ _ := finds_loadModule ht1 path
    obtain ⟨found, t2, hload, ⟨hproceeds2, -⟩, -, hfound, hnone⟩ := Ensures.exists_eq_some hloads
    have hsome : found ≠ none := fun hnot => by
      have hunloadable := (hnone hnot).2
      grind [Carries.source?_eq]
    obtain ⟨m, rfl⟩ := Option.ne_none_iff_exists'.1 hsome
    have hm := hfound m rfl
    have hsound2 := (hproceeds2.carries ht1).1
    refine ⟨id, t₁, t2, hget, hproceeds.trans hproceeds2, m, ?_, hsound2.modules path m hm, ?_⟩
    · show (if (t₁.form id).isModule then pure (some id) else loadModule path : Query (Option TypeId)) t₁ = _
      rw [if_neg hmodule]
      exact hload
    · rw [hastray]
      simp [hmodule, hm]

theorem AtRest.failedImport (ht : t.AtRest) (path : String) :
    ∃ r t', Query.unresolvedImport path t = some (r, t') ∧ t.Calm t' ∧ t'.store.isUnknown r = true := by
  have hgains := StoreAction.Derives.gains ht.spaceSound (a := .unresolvedImport path) trivial trivial
  refine ⟨_, _, rfl, ⟨_, hgains, rfl⟩, ?_⟩
  show (TypeStore.unresolvedImport path t.store).2.isUnknown (TypeStore.unresolvedImport path t.store).1 = true
  rw [unresolvedImport_apply]
  cases hget : t.store.imports.get? path with
  | some x =>
    rw [← isUnknown_shape, ht.store.wellFormed.imports path x hget]
    rfl
  | none =>
    have hfresh : (t.store.added (.unresolvedImport path)).form t.store.fresh =
      .unresolvedImport path := form_fresh_of_push rfl
    exact congrArg TypeForm.isUnknown hfresh

theorem AtRest.answer_found (ht : t.AtRest) (found : Option TypeId)
    (hfound : ∀ id ∈ found, t.store.Known id) (path : String) :
    ∃ r t', (match found with
        | none => Query.unresolvedImport path
        | some id => do if (← get).store.isUnknown id then Query.unresolvedImport path else return id : Query TypeId) t =
          some (r, t') ∧ t.Calm t' ∧
      ∀ id, found = some id ∧ t'.store.isUnknown id = false ↔ r = id ∧ t'.store.isUnknown id = false := by
  obtain ⟨r, t', hr, hcalm, hunknown⟩ := ht.failedImport path
  have hretains := ht.retains hcalm.proceeds
  cases found with
  | none =>
    simp_all
  | some id =>
    cases hid : t.store.isUnknown id with
    | false =>
      refine ⟨id, t, ?_, .refl ht.toSound, fun id' => by simp⟩
      show (if t.store.isUnknown id then Query.unresolvedImport path else pure id : Query TypeId) t = _
      rw [hid]
      rfl
    | true =>
      have hstays : t'.store.isUnknown id = true := (hretains.isUnknown_form (hfound id rfl)).trans hid
      refine ⟨r, t', ?_, hcalm, fun id' => ⟨?_, ?_⟩⟩
      · show (if t.store.isUnknown id then Query.unresolvedImport path else pure id : Query TypeId) t = _
        rw [hid]
        exact hr
      · grind
      · grind

/-- An import of a name from a module that there is looks for it in some module, and what it finds
there is the answer whenever either of them is known. The module is that of the path if and only if
the path does not lead to another one. -/
theorem importFrom_looks_inside_iff (project : Project) (stubs : StubStore) (settings : Settings) (stubPackages : Bool)
    (as : List TableAction) (has : (create project stubs settings stubPackages).ValidAll as) (modulePath name : String)
    (hsource : ((create project stubs settings stubPackages).performAll as).source? modulePath ≠ none) :
    ∃ m t₁ found r t', ((create project stubs settings stubPackages).performAll as).Proceeds True t₁ ∧
      (t₁.form m).isModule = true ∧
      (t₁.modules.get? modulePath = some m ↔
        ¬ ((create project stubs settings stubPackages).performAll as).LeadsAstray modulePath) ∧
      t₁.Proceeds True t' ∧ t₁.Supplies t' m name (modulePath ++ "." ++ name) found ∧
      Query.importFrom modulePath name ((create project stubs settings stubPackages).performAll as) = some (r, t') ∧
      ∀ id, found = some id ∧ t'.store.isUnknown id = false ↔ r = id ∧ t'.store.isUnknown id = false := by
  have ht := (atRest_create project stubs settings stubPackages).performAll has
  obtain ⟨t, heq⟩ : ∃ t, (create project stubs settings stubPackages).performAll as = t := ⟨_, rfl⟩
  rw [heq] at ht hsource ⊢
  obtain ⟨id, t₀, t₁, hget, hproceeds, m, hnamed, hmodule, hiff⟩ := ht.namedModule hsource
  have ht₁ := ht.proceeds hproceeds
  obtain ⟨found, t₂, hfound, -, hplain⟩ := Ensures.exists_eq_some
    (Lookups.sound_ofTable.moduleMember name (modulePath ++ "." ++ name) false ht₁.toSound hmodule)
  have hfound : Query.moduleMember m name (modulePath ++ "." ++ name) false t₁ = some (found, t₂) := hfound
  obtain ⟨hproceeds₂, hsupplies⟩ := Ensures.apply_some (ht₁.supplies_moduleMember hmodule name _) hfound
  obtain ⟨r, t', hanswer, hcalm, hr⟩ := (ht₁.proceeds hproceeds₂).answer_found found
    (by rintro id rfl; exact hplain.1) (modulePath ++ "." ++ name)
  have hsound₂ := (hproceeds₂.carries ht₁.toSound)
  refine ⟨m, t₁, found, r, t', hproceeds, hmodule, hiff, hproceeds₂.trans hcalm.proceeds, ?_, ?_, hr⟩
  · exact hsupplies.calm hsound₂.1 hsound₂.2.retains ht₁.toSound hcalm
  · show (Query.getType modulePath t).bind _ = _
    rw [hget]
    show (Query.namedModule modulePath id t₀).bind _ = _
    rw [hnamed]
    show (Query.moduleMember m name _ false t₁).bind _ = _
    rw [hfound]
    exact hanswer

/-- A package with a class under the name of one of its submodules. -/
def shadowedModule : Project :=
  (({} : Project).addModule (ModuleDescriptor.addMember (.ofPath "p") (.ofClass "m" (some "p.m") [] [] false none))).addModule
    (ModuleDescriptor.addMember (.ofPath "p.m") (.ofClass "A" (some "p.m.A") [] [] false none))

theorem importFrom_looks_inside_shadowedModule :
    ∃ (t₁ t' : Table) (m r : TypeId), t₁.modules.get? "p.m" = some m ∧ t₁.Supplies t' m "A" "p.m.A" (some r) ∧
      Query.importFrom "p.m" "A" (create shadowedModule {} {}) = some (r, t') ∧ t'.store.isUnknown r = false := by
  have hpath : (Query.getType "p.m" (create shadowedModule {} {})).map (fun r => (r.2.form r.1).isModule) = some false := by
    decide +kernel
  have hanswer : (Query.importFrom "p.m" "A" (create shadowedModule {} {})).map (fun r => r.2.store.isUnknown r.1) =
      some false := by decide +kernel
  obtain ⟨m, t₁, found, r, t', -, -, hiff, -, hsupplies, hr, hfound⟩ :=
    importFrom_looks_inside_iff shadowedModule {} {} true [] trivial "p.m" "A" (by decide +kernel)
  rw [show Query.importFrom "p.m" "A" (create shadowedModule {} {}) = some (r, t') from hr] at hanswer
  have hknown : t'.store.isUnknown r = false := Option.some.inj hanswer
  obtain ⟨rfl, -⟩ := (hfound r).2 ⟨rfl, hknown⟩
  refine ⟨t₁, t', m, r, hiff.2 ?_, hsupplies, hr, hknown⟩
  rintro ⟨id, t₀, hget, hmodule, -⟩
  rw [show Query.getType "p.m" (create shadowedModule {} {}) = some (id, t₀) from hget] at hpath
  exact Bool.noConfusion ((Option.some.inj hpath).symm.trans hmodule)

/-- A package in which the name of one of its submodules is bound to another module. -/
def aliasedModule : Project :=
  ((({} : Project).addModule (ModuleDescriptor.addMember (.ofPath "p") (.ofVariable { name := "m", path := "q" }))).addModule
    (ModuleDescriptor.addMember (.ofPath "p.m") (.ofClass "A" (some "p.m.A") [] [] false none))).addModule
    (ModuleDescriptor.addMember (.ofPath "q") (.ofClass "A" (some "q.A") [] [] false none))

/-- The import gives the class of the other module, and the module that it names is not even
loaded. -/
theorem importFrom_looks_elsewhere_aliasedModule :
    (create aliasedModule {} {}).source? "p.m" ≠ none ∧
      ∃ r t' m, Query.importFrom "p.m" "A" (create aliasedModule {} {}) = some (r, t') ∧ (t'.form r).path? = some "q.A" ∧
        t'.modules.get? "p.m" = none ∧ t'.modules.get? "q" = some m ∧ t'.memberRef? m "A" = some (.direct r) := by
  have hanswer : (Query.importFrom "p.m" "A" (create aliasedModule {} {})).map (fun r =>
      ((r.2.form r.1).path?, r.2.modules.get? "p.m",
        (r.2.modules.get? "q").bind (r.2.memberRef? · "A") == some (.direct r.1))) =
        some (some "q.A", none, true) := by decide +kernel
  refine ⟨by decide +kernel, ?_⟩
  obtain ⟨⟨r, t'⟩, hr, heq⟩ := Option.map_eq_some_iff.1 hanswer
  simp only [Prod.mk.injEq, beq_iff_eq, Option.bind_eq_some_iff] at heq
  obtain ⟨hpath, hnot, m, hm, hmember⟩ := heq
  exact ⟨r, t', m, hr, hpath, hnot, hm, hmember⟩

end PythonTypes.Table
