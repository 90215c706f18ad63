import PythonTypes.Proofs.Table.Asking

/-!
# What look-ups find

A look-up that affords what it costs comes to an end and finds what `SoundAt` says. A type is forced
to its meaning, the member of a class is what the search through its bases comes to, and where a
path leads is remembered (`Settled`), segment by segment and in step with the members unless a
look-up was cut off. A look-up that starts while nothing else is being looked up is not cut off
itself, but those that it needs may be: what they find is then recorded for good.
-/

set_option autoImplicit false

namespace PythonTypes.Table

open TypeStore

variable {mayCut : Prop} {t t1 t' : Table} {m : TypeId} {name path : String} {mayStop : Prop}

/-- What is found under a name is what is bound there, if it is known. -/
def BindsKnown (t : Table) (m : TypeId) (name : String) (r : Option TypeId) : Prop :=
  ∀ id, r = some id → t.store.isUnknown id = false → t.Binds m name id

theorem bindsKnown_of_binds {id : TypeId} (h : t.Binds m name id) : t.BindsKnown m name (some id) := by
  rintro _ ⟨⟩ -
  exact h

theorem bindsKnown_of_isUnknown {r : Option TypeId}
    (hr : ∀ id, r = some id → t.store.isUnknown id = true) : t.BindsKnown m name r :=
  fun id hid hknown => by simp [hr id hid] at hknown

/-- What resolving a lazy type leads to: a plain type, for good unless this was cut off. What waits
for the lazy type is not given up. -/
structure ResolvesTo (mayCut : Prop) (t : Table) (l u : TypeId) (t' : Table) : Prop where
  plain : t'.store.Plain u
  target : t.Clear mayCut → t'.store.lazyTarget? l = some u
  entries : ¬ mayCut → ∀ m name ref, t.memberRef? m name = some ref → t.store.Awaits ref l → t'.memberRef? m name = some ref

/-- What forcing a type leads to: a plain type, which it is forced to unless this was cut off and no
meaning was known. -/
structure ForcesTo (mayCut : Prop) (t : Table) (x u : TypeId) (t' : Table) : Prop where
  plain : t'.store.Plain u
  splits : t'.store.SplitsBelow (t.store.shape x).grade u
  forced : t.Clear mayCut ∨ (∃ v, t.store.Means x v) → t'.store.Forced x u
  entries : ¬ mayCut → ∀ m name ref, t.memberRef? m name = some ref → t.store.target ref = x → t'.memberRef? m name = some ref

theorem ForcesTo.refMeans {ref : TypeRef} {u : TypeId}
    (h : ForcesTo mayCut t (t.store.target ref) u t') (ht : t.Sound) (ht' : t'.Sound)
    (hretains : t.store.Retains t'.store) (href : t.store.RefPlain ref)
    (hclear : t.Clear mayCut ∨ ∃ v, t.store.RefMeans ref v) : t'.store.RefMeans ref u := by
  have htarget := (ht.store.target_wrappable href).evolves hretains.toEvolves
  exact hretains.refMeans ht'.store href.refKnown ((h.forced hclear).means htarget.2)

/-- What the look-ups find with the given depth left, and what they cost. -/
structure SoundAt (cycle : Query TypeId) (mayStop mayCut : Prop) (depth : Nat) : Prop where
  typeAt : ∀ {t : Table} (path : String), t.Sound → t.Affords mayStop (fun b => b.classes + 10) depth →
    t.Finds mayStop mayCut (typeWith cycle depth path) fun id t' => t'.store.Plain id ∧ (id ≠ .unknown → t'.Settled path id)
  moduleMember : ∀ {t : Table} {m : TypeId} (name path : String) (load : Bool), t.Sound → (t.form m).isModule = true →
    t.Affords mayStop (fun _ => 6) depth → t.Finds mayStop mayCut (moduleMemberWith cycle depth m name path load) fun r t' =>
      t'.store.FoundPlain r ∧ (¬ mayCut → t'.BindsKnown m name r)
  resolveLazy : ∀ {t : Table} {l : TypeId} {path : String}, t.Sound → t.store.lazyPath? l = some path →
    t.Affords mayStop (fun _ => 1) depth → t.Finds mayStop mayCut (resolveLazyWith cycle depth l) (ResolvesTo mayCut t l)
  resolved : ∀ {t : Table} {x : TypeId}, t.Sound → t.store.Known x →
    t.Affords mayStop (fun _ => (t.store.shape x).rank) depth →
    t.Finds mayStop mayCut (resolvedWith cycle depth x) (ForcesTo mayCut t x)
  resolveUnion : ∀ {t : Table} {x : TypeId} {cs : List TypeId}, t.Sound → t.store.candidates? x = some cs →
    t.Affords mayStop (fun _ => 4) depth → t.Finds mayStop mayCut (resolveUnionWith cycle depth x) fun u t' =>
      t'.store.Plain u ∧ (t.Clear mayCut → t.store.shape x = .lazyUnion cs → t'.store.Forced x u)
  classMember : ∀ {t : Table} {cls : TypeId} (name : String) (visited : List TypeId), t.Sound →
    (t.Clear mayCut → t.store.Final cls) → t.Affords mayStop (fun b => 6 + (b.classes - met t.store visited)) depth →
    t.Finds mayStop mayCut (classMemberWith cycle depth cls name visited) fun r t' => visited ⊆ r.2 ∧
      t'.store.FoundPlain r.1 ∧ (t.Clear mayCut → t'.store.Searches name [.direct cls] visited r)
  member : ∀ {t : Table} {x : TypeId} (name : String), t.Sound → t.store.Known x →
    t.Affords mayStop (fun b => 7 + b.classes + (t.store.shape x).grade) depth →
    t.Finds mayStop mayCut (memberWith cycle depth x name) fun r t' => t'.store.FoundPlain r ∧
      (t.Clear mayCut → (t.form x).isClass = true → t'.store.Inherits name x r)

theorem bounds_bound (hm : (t.form m).isModule = true) (name : String) (sub : TypeId) : t.Bounds (t.bound m name sub) := by
  obtain ⟨info, hform, -, hbound⟩ := bound_eq hm name sub
  rw [hbound]
  have hscope : (t.store.form m).isScope = true := by rw [hform]; rfl
  exact .of_takes (.of_quiet (quiet_setScope m _ hscope (congrArg TypeForm.outline hform).symm)) rfl rfl rfl

theorem bounds_settled (ht : t.Sound) {l : TypeId} (hl : t.store.isPending l = true)
    (target : TypeId) : t.Bounds (t.settled l target) :=
  .of_takes (.of_quiet (quiet_resolveLazy ht.store.inStep hl target)) rfl rfl rfl

namespace SoundAt

variable {cycle : Query TypeId} {depth : Nat}
variable {current x : TypeId} {l : TypeId} {before : List String}

theorem memberOfEach {member : TypeId → Query (Option TypeId)} (ids acc : List TypeId) (ht : t.Sound)
    (hacc : ∀ id ∈ acc, t.store.Plain id) (hmember : ∀ id ∈ ids, ∀ t' : Table, t'.Sound → t.Passes t' →
      t'.Finds mayStop mayCut (member id) fun r t' => t'.store.FoundPlain r) :
    t.Finds mayStop mayCut (Table.memberOfEach member ids acc) fun r t' => ∀ us, r = some us →
    ∀ u ∈ us, t'.store.Plain u := by
  induction ids generalizing t acc with
  | nil =>
    refine .pure ?_
    simp_all
  | cons id rest ihrest =>
    unfold Table.memberOfEach
    refine .bind ht (hmember id (by simp) t ht (.refl t)) fun r t' ht' hcarries hr => ?_
    cases r with
    | none => exact .pure (by simp)
    | some u =>
      refine ihrest (u :: acc) ht' (fun v hv => ?_) fun id' hid' t'' ht'' hcarries' =>
        hmember id' (by simp [hid']) t'' ht'' (hcarries.trans hcarries')
      rcases List.mem_cons.1 hv with rfl | hv
      · exact hr
      · exact (hacc v hv).evolves hcarries.retains.toEvolves

/-- The submodule that stands for a name, which is bound to it from then on; `t` is the table before
the member that gives way was looked at. -/
theorem submodule (hproceeds : t.Goes mayCut t1) (ht : t.Sound) (hm : (t.form m).isModule = true)
    (name path : String) {otherwise : Option TypeId} (hotherwise : t1.store.FoundPlain otherwise)
    (hunknown : ∀ id, otherwise = some id → t1.store.isUnknown id = true)
    (hbefore : ∀ ref u, t.memberRef? m name = some ref → t.store.RefMeans ref u → t.form u = .unknown)
    (hvacant : ¬ mayCut → t1.Vacant m name) :
    Ensures mayStop t1 (do
      match ← loadModule path with
      | some submodule =>
        setModuleMember m name (.direct submodule)
        return some submodule
      | none => return otherwise) fun r t' => t.Goes mayCut t' ∧ t'.store.FoundPlain r ∧
        (¬ mayCut → t'.BindsKnown m name r) := by
  obtain ⟨ht1, hcarries⟩ := hproceeds.carries ht
  have hm1 := hcarries.retains.isModule hm
  have hload : t1.Finds mayStop mayCut _ _ := finds_loadModule ht1 path
  refine Ensures.bind hload fun found t2 h2 => ?_
  obtain ⟨hproceeds2, hentries, hfound, hnone⟩ := h2
  obtain ⟨ht2, hcarries2⟩ := hproceeds2.carries ht1
  cases found with
  | none =>
    obtain ⟨rfl, -⟩ := hnone rfl
    exact .pure ⟨hproceeds, hotherwise, fun _ => bindsKnown_of_isUnknown hunknown⟩
  | some sub =>
    have hsub := hfound sub rfl
    have hmodule : (t2.form sub).isModule = true := ht2.modules path sub hsub
    have hm2 := hcarries2.retains.isModule hm1
    have hvacant2 : ¬ mayCut → t2.Vacant m name := fun hcut ref href => by
      rw [hentries m name hm1] at href
      exact hcarries2.retains.means_unknown ht1.store (ht1.refPlain_of_memberRef? href).refKnown (hvacant hcut ref href)
    have hmodule' := (ht2.bound name hm2 hmodule).2.retains.isModule hmodule
    have hgoes := hproceeds.trans hproceeds2
    refine Ensures.of_eq_some rfl ⟨⟨.bind hgoes.proceeds hm hsub hbefore hvacant2,
      hgoes.bounds.trans (bounds_bound hm2 name sub)⟩, ?_, fun _ => ?_⟩
    · exact plain_of_isModule hmodule'
    · refine bindsKnown_of_binds (.inl ⟨.direct sub, ?_, .final (final_of_isModule hmodule')⟩)
      exact (memberRef?_bound hm2 name sub m name).trans (if_pos ⟨rfl, rfl⟩)

theorem remembered?_concat {segment walked : String} {origin id : TypeId}
    (h : t.remembered? before walked origin = some current)
    (hid : t.cache.get? (DottedName.child (before.foldl DottedName.child walked) segment) = some id) :
    t.remembered? (before ++ [segment]) walked origin = some id := by
  induction before generalizing walked origin with
  | nil => exact Option.bind_eq_some_iff.2 ⟨id, hid, rfl⟩
  | cons first rest ih =>
    obtain ⟨next, hnext, hrest⟩ := Option.bind_eq_some_iff.1 h
    exact Option.bind_eq_some_iff.2 ⟨next, hnext, ih hrest hid⟩

theorem walked_of_remembered? (h : t.remembered? before "" t.root = some current) :
    t.Walked (before.foldl DottedName.child "") current := by
  cases before with
  | nil => exact .inr ⟨rfl, (Option.some.inj h).symm⟩
  | cons first rest => exact .inl (get?_of_remembered? h)

/-- Following the segments that are left of a path, `before` being those that led to `current`. -/
theorem walk {next : TypeId → String → String → Query (Option TypeId)}
    {cost : Budget → Nat} (hnext : ∀ (t : Table) (current : TypeId) (segment path : String), t.Sound → t.store.Plain current →
      t.Affords mayStop cost depth → t.Finds mayStop mayCut (next current segment path) fun r t' => t'.store.FoundPlain r ∧
        (¬ mayCut → ∃ parent, t'.store.Means current parent ∧ t'.BindsKnown parent segment r))
    (segments before : List String) (hpath : DottedName.segments path = before ++ segments)
    (ht : t.Sound) (haffords : t.Affords mayStop cost depth) (hcurrent : t.store.Plain current)
    (hremembered : t.remembered? before "" t.root = some current)
    (htrimmed : DottedName.trimmed (before.foldl DottedName.child "") = before.foldl DottedName.child "") :
    t.Finds mayStop mayCut (Table.walk next segments (before.foldl DottedName.child "") current) fun id t' =>
      t'.store.Plain id ∧ (id ≠ .unknown → t'.remembered? (DottedName.segments path) "" t'.root = some id) := by
  induction segments generalizing t before current with
  | nil =>
    refine .pure ⟨hcurrent, fun _ => ?_⟩
    rw [hpath, List.append_nil]
    exact hremembered
  | cons segment rest ihrest =>
    set walked := before.foldl DottedName.child "" with hwalked
    have hmem : segment ∈ DottedName.segments path := by simp [hpath]
    have hsegment : '.' ∉ segment.toList := DottedName.not_mem_of_mem_segments hmem
    have hchild : (before ++ [segment]).foldl DottedName.child "" = DottedName.child walked segment := by
      rw [List.foldl_append, ← hwalked]
      rfl
    have hpath' : DottedName.segments path = (before ++ [segment]) ++ rest := by simp [hpath]
    have htrimmed' := DottedName.trimmed_child htrimmed hsegment
    rw [← hchild] at htrimmed'
    unfold Table.walk
    refine .get_bind ?_
    cases hget : t.cache.get? (DottedName.child walked segment) with
    | some id =>
      rw [← hchild]
      exact ihrest (before ++ [segment]) hpath' ht haffords (ht.cache _ id hget)
        (remembered?_concat hremembered hget) htrimmed'
    | none =>
      refine Ensures.bind (hnext t current segment _ ht hcurrent haffords) fun r t1 h1 => ?_
      obtain ⟨hproceeds, hplain, hleads⟩ := h1
      obtain ⟨ht1, hcarries⟩ := hproceeds.carries ht
      have hremembered1 : t1.remembered? before "" t1.root = some current := by
        rw [hcarries.root_eq]
        exact hcarries.remembered?_eq hremembered
      cases r with
      | none =>
        exact .pure ⟨hproceeds, ht1.store.unknown_plain, fun h => absurd rfl h⟩
      | some id =>
        refine Ensures.get_bind ?_
        split
        · exact .pure ⟨hproceeds, ht1.store.unknown_plain, fun h => absurd rfl h⟩
        · rename_i hunknown
          have hknown1 : t1.store.isUnknown id = false := by simpa using hunknown
          have hstep : ¬ mayCut → t1.Walked walked current ∧ t1.Leads current segment id := by
            intro hcut
            obtain ⟨parent, hparent, hbinds⟩ := hleads hcut
            exact ⟨walked_of_remembered? hremembered1, parent, hparent, hbinds id rfl hknown1⟩
          have hnote : t.Goes mayCut (t1.noted _ id) :=
            ⟨.note hget hsegment htrimmed hproceeds.proceeds hplain hknown1 hstep, hproceeds.bounds.1, hproceeds.bounds.2⟩
          obtain ⟨ht2, hcarries2⟩ := hnote.carries ht
          have hremembered2 := remembered?_concat (hcarries2.remembered?_eq hremembered) (OrderedMap.get?_insert_self _ _ id)
          rw [← hcarries2.root_eq] at hremembered2
          have hrest := ihrest (before ++ [segment]) hpath' ht2 (haffords.passes hcarries2) hplain hremembered2 htrimmed'
          rw [hchild] at hrest
          exact Ensures.modify_bind (Ensures.imp hrest fun id' t' hid' => ⟨hnote.trans hid'.1, hid'.2⟩)

variable (ih : SoundAt cycle mayStop mayCut depth)
include ih

/-- A lazy type is resolved to where its path leads, unless that is being found out already. -/
theorem resolveLazyOr
    (hcycle : ∀ t, Ensures mayStop t cycle fun u t' => mayCut ∧ u = .unknown ∧ t' = t) (ht : t.Sound)
    (hl : t.store.lazyPath? l = some path) (haffords : t.Affords mayStop (fun _ => 0) depth) :
    t.Finds mayStop mayCut (Table.resolveLazyOr cycle (typeWith cycle depth) l) (ResolvesTo mayCut t l) := by
  obtain ⟨state, hform⟩ := form_of_lazyPath? hl
  have hform' : t.form l = .lazy path state := hform
  by_cases hprogress : (∃ ws, state = .pending ws) ∧ path ∈ t.space.registry.inProgress
  · obtain ⟨⟨ws, rfl⟩, hprogress⟩ := hprogress
    refine Ensures.congr (resolveLazyOr_of_cycle hform' (by simpa using hprogress) _ _) ((hcycle t).imp ?_)
    rintro _ _ ⟨hcut, rfl, rfl⟩
    refine ⟨.refl _, ht.store.unknown_plain, fun hclear => ?_, fun hnot => absurd hcut hnot⟩
    rw [hclear hcut] at hprogress
    cases hprogress
  · refine Ensures.congr (resolveLazyOr_of_no_cycle (fun p ws hp => ?_) _ _) ?_
    · grind
    unfold resolveLazyStep
    refine Ensures.get_bind ?_
    rw [hform']
    cases state with
    | resolved target =>
      have htarget : t.store.lazyTarget? l = some target := by
        unfold lazyTarget?
        rw [hform]
      have hplain := ht.store.plain_target htarget
      have hderef := derefLazy_of_no_target (lazyTarget?_of_isPlain (ht.store.target_plain htarget))
      dsimp only
      rw [hderef] at hplain ⊢
      exact .pure ⟨.refl t, hplain, fun _ => htarget, fun _ _ _ _ href _ => href⟩
    | pending ws =>
      have hpending : t.store.isPending l = true := by
        unfold isPending
        rw [hform]
      have hnot : path ∉ t.space.registry.inProgress := fun hmem => hprogress ⟨⟨ws, rfl⟩, hmem⟩
      have hentered := haffords.entered (Finset.mem_union_left _ (mem_lazyPaths.2 ⟨l, hl⟩)) hnot
      dsimp only
      unfold LazyRegistry.enter?
      rw [if_neg (by simpa using hnot)]
      refine Ensures.set_bind (Ensures.bind (ih.typeAt path (ht.entered path) hentered) fun target t1 h1 => ?_)
      obtain ⟨⟨hproceeds, hbounds⟩, htarget, hends⟩ := h1
      obtain ⟨ht1, hcarries⟩ := hproceeds.carries (ht.entered path)
      obtain ⟨hpending1, hsound, -⟩ := hcarries.settle hl hpending hnot ht1 htarget
      have hnone : (t1.left path).store.lazyTarget? l = none := lazyTarget?_of_isPending hpending1
      have hsettled := bounds_settled (ht1.left path) hpending1 target
      refine Ensures.modify_bind (Ensures.get_bind ?_)
      rw [show TypeStore.lazyTarget? (Table.store { t1 with space := _ }) l = none from hnone]
      refine Ensures.bind_of_eq (traceTarget_of_untraced (ht1.left path).untraced target) (Ensures.of_eq_some rfl
        ⟨⟨.settle hl hpending hnot hproceeds htarget hends, hsettled.1.trans hbounds.1,
          Nat.le_trans hsettled.2 hbounds.2⟩, ?_,
          fun _ => ?_, ?_⟩)
      · exact htarget.evolves ((ht1.left path).settled hpending1 htarget).2.toEvolves
      · exact lazyTarget?_settled (t := t1.left path) hpending1 htarget
      -- what waits for the lazy type has no meaning before that is resolved, so it is not given up
      · intro hcut m name ref href hawaits
        have hrefPlain := ht.refPlain_of_memberRef? href
        have hm := isModule_of_memberRef? href
        have hsettled : ((t1.left path).settled l target).memberRef? m name = t1.memberRef? m name :=
          memberRef?_settled (ht1.left path) hpending1 (hcarries.retains.isModule hm) name
        refine hsettled.trans ?_
        rcases hproceeds.entry (ht.entered path) name hm with hsame | ⟨sub, hgave⟩
        · exact hsame.trans href
        · obtain ⟨u, hu, -⟩ := hgave.after hcut ref href
          exact absurd hu (hawaits.not_refMeans ht.store hrefPlain hcarries.retains ht1.store hpending1 u)

section

variable (ht : t.Sound)

include ht

theorem resolvedStep_lazy
    (hl : t.store.lazyPath? l = some path) (hpending : t.store.isPending l = true)
    (haffords : t.Affords mayStop (fun _ => 2) depth) :
    t.Finds mayStop mayCut (do
      let target ← resolveLazyWith cycle depth l
      if target = l then return target else resolvedWith cycle depth target) (ForcesTo mayCut t l) := by
  refine .bind ht (ih.resolveLazy ht hl (haffords.le (by simp))) fun target t1 ht1 hcarries htarget => ?_
  have hplain := htarget.plain
  obtain ⟨path', hshape⟩ := isPending_iff.1 hpending
  have hne : target ≠ l := by
    rintro rfl
    have hlazy := hcarries.retains.isPlain_eq (known_of_lazyPath? hl)
    rw [hplain.2, hshape] at hlazy
    cases hlazy
  rw [if_neg hne]
  have haffords1 : t1.Affords mayStop (fun _ => (t1.store.shape target).rank) depth :=
    (haffords.passes hcarries).le fun _ _ => Nat.le_of_eq (TypeForm.rank_of_isPlain hplain.2)
  refine (ih.resolved ht1 hplain.1 haffords1).imp ht1 fun u t2 ht2 hcarries2 hu =>
    ⟨hu.plain, ?_, fun hclear => ?_, fun hcut m name ref href hx => ?_⟩
  · rw [hshape]
    exact ht2.store.splitsBelow u
  · rcases hclear with hclear | ⟨v, hv⟩
    · refine .single (.target (hcarries2.retains.target_eq _ _ (htarget.target hclear)) ?_)
      refine (hu.forced (.inl (hcarries.clear hclear))).means ?_
      exact (hplain.wrappable.evolves hcarries2.retains.toEvolves).2
    · exact absurd hv (not_means_of_isPending hpending)
  · have htarget1 := htarget.target (clear_of_not hcut)
    have href1 := htarget.entries hcut m name ref href (.inl hx)
    refine hu.entries hcut m name ref href1 ?_
    rw [← hx] at htarget1
    exact hcarries.retains.target_of_lazyTarget? ht1.store (ht1.refPlain_of_memberRef? href1)
      (ht.refPlain_of_memberRef? href).refKnown htarget1

theorem resolvedStep_object {cls : TypeRef} (hx : t.store.shape x = .object cls)
    (haffords : t.Affords mayStop (fun _ => 1) depth) :
    t.Finds mayStop mayCut (match t.store.awaited? cls with
      | some lazy => do
        let _ ← resolveLazyWith cycle depth lazy
        Query.follow (TypeStore.canonicalAt · x)
      | none => Query.follow (TypeStore.canonicalAt · x)) (ForcesTo mayCut t x) := by
  have hgrade : (t.store.shape x).grade = (TypeForm.object cls).grade := by rw [hx]
  cases hawaited : t.store.awaited? cls with
  | none =>
    refine (finds_canonical ht hx).imp ht fun u t' _ _ hu => ⟨hu.1.1, hgrade ▸ hu.1.2.1,
      fun _ => .single (hu.1.2.2 (isResolved_of_not_awaited hawaited)), ?_⟩
    grind [memberRef?_of_gains, isModule_of_memberRef?]
  | some lazy =>
    obtain ⟨w, rfl, hwaits, rfl⟩ := awaited?_eq_some hawaited
    have hslot : t.store.SlotKnown w := ht.store.wellFormed.object_known x w hx
    obtain ⟨path, hpath⟩ := isPending_iff.1 (ht.store.isPending_of_waiting hslot hwaits)
    refine .bind ht (ih.resolveLazy ht (lazyPath?_of_shape hpath) haffords) fun target t1 ht1 hcarries htarget => ?_
    refine (finds_canonical ht1 (hcarries.retains.shape_object hx)).imp ht1 fun u t2 _ _ hu =>
      ⟨hu.1.1, hgrade ▸ hu.1.2.1, ?_, ?_⟩
    · rintro (hclear | ⟨v, hv⟩)
      · have hslot1 : t1.store.SlotKnown w := Nat.lt_of_lt_of_le hslot hcarries.retains.slots_le
        have hlazy : t1.store.lazyTarget? (t1.store.slot w).lazy = some target := by
          rw [hcarries.retains.lazy_eq w hslot]
          exact htarget.target hclear
        exact .single (hu.1.2.2 (ht1.store.isResolved_of_lazyTarget? hslot1 hlazy))
      · exact absurd hv (not_means_of_waiting hx hwaits)
    · intro hcut m name ref href hx'
      have href1 := htarget.entries hcut m name ref href (.inr ⟨w, hx'.symm ▸ hx, hwaits, rfl⟩)
      grind [memberRef?_of_gains, isModule_of_memberRef?]

theorem resolvedStep_of_no_target (hx : t.store.Known x)
    (htarget : t.store.lazyTarget? x = none) (haffords : t.Affords mayStop (fun _ => (t.store.shape x).rank) (depth + 1)) :
    t.Finds mayStop mayCut
      (Table.resolvedStep (resolveLazyWith cycle depth) (resolvedWith cycle depth) (resolveUnionWith cycle depth) x)
      (ForcesTo mayCut t x) := by
  unfold Table.resolvedStep
  refine .get_bind ?_
  dsimp only
  rw [derefLazy_of_no_target htarget]
  cases hform : t.store.form x with
  | lazy path state =>
    have hpath : t.store.lazyPath? x = some path := by
      unfold lazyPath?
      rw [hform]
    have hpending := isPending_of_lazyPath? hpath htarget
    obtain ⟨path', hshape⟩ := isPending_iff.1 hpending
    exact ih.resolvedStep_lazy ht hpath hpending (haffords.next fun _ _ => by simp [hshape, TypeForm.rank])
  | object cls =>
    have hshape : t.store.shape x = .object cls := shape_of_form hform
    exact ih.resolvedStep_object ht hshape (haffords.next fun _ _ => by simp [hshape, TypeForm.rank])
  | lazyUnion cs =>
    have hshape : t.store.shape x = .lazyUnion cs := shape_of_form hform
    have haffords' : t.Affords mayStop (fun _ => 4) depth := haffords.next fun _ _ => by simp [hshape, TypeForm.rank]
    refine (ih.resolveUnion ht (candidates?_of_lazyUnion hform) haffords').imp ht
      fun u t' ht' _ hu => ⟨hu.1, ?_, fun hclear => ?_, ?_⟩
    · rw [hshape]
      exact ht'.store.splitsBelow u
    · grind [not_means_of_lazyUnion]
    · intro _ m name ref href hx'
      exact absurd hshape (hx' ▸ (ht.store.target_wrappable (ht.refPlain_of_memberRef? href)).2 cs)
  | _ =>
    have hshape := shape_of_form hform
    have hfinal : t.store.Final x := by
      refine ⟨⟨hx, ?_⟩, ?_⟩ <;> rw [hshape]
      · rfl
      · simp [TypeForm.unwatched]
    exact .pure ⟨hfinal.1, ht.store.splitsBelow_self x, fun _ => .single (.final hfinal), fun _ _ _ _ href _ => href⟩

theorem resolvedStep (hx : t.store.Known x)
    (haffords : t.Affords mayStop (fun _ => (t.store.shape x).rank) (depth + 1)) : t.Finds mayStop mayCut
      (Table.resolvedStep (resolveLazyWith cycle depth) (resolvedWith cycle depth) (resolveUnionWith cycle depth) x)
      (ForcesTo mayCut t x) := by
  cases htarget : t.store.lazyTarget? x with
  | none => grind [resolvedStep_of_no_target]
  | some y =>
    have hstore := ht.store
    obtain ⟨path, hshape⟩ := lazyTarget?_eq_some_iff.1 htarget
    have hy : t.store.Plain y := ⟨hstore.wellFormed.target_known x y htarget, hstore.target_plain htarget⟩
    have hy' : t.store.lazyTarget? y = none := lazyTarget?_of_isPlain hy.2
    have hsame : t.store.derefLazy x = t.store.derefLazy y := by
      rw [hstore.derefLazy_eq, hstore.derefLazy_eq, htarget, hy']
      rfl
    have heq : Table.resolvedStep (resolveLazyWith cycle depth) (resolvedWith cycle depth)
      (resolveUnionWith cycle depth) x t =
        Table.resolvedStep (resolveLazyWith cycle depth) (resolvedWith cycle depth) (resolveUnionWith cycle depth) y t := by
      unfold Table.resolvedStep
      rw [get_bind_apply, get_bind_apply, hsame]
    have haffords' : t.Affords mayStop (fun _ => (t.store.shape y).rank) (depth + 1) := haffords.le fun _ _ => by
      rw [TypeForm.rank_of_isPlain hy.2, hshape]
      simp [TypeForm.rank]
    refine Ensures.congr heq ((ih.resolvedStep_of_no_target ht hy.1 hy' haffords').imp ht fun u t' ht' hcarries hu =>
      ⟨hu.plain, ?_, fun hclear => ?_, fun _ m name ref href hx' => ?_⟩)
    · rw [hshape]
      exact ht'.store.splitsBelow u
    · have hforced := hu.forced (hclear.imp_right (Exists.imp fun v hv => hv.of_target htarget))
      have hmeans := hforced.means (hy.wrappable.evolves hcarries.retains.toEvolves).2
      exact .single (.target (hcarries.retains.target_eq x y htarget) hmeans)
    · subst hx'
      rcases hstore.target_of_refPlain (ht.refPlain_of_memberRef? href) with hplain | hpending
      · rw [lazyTarget?_of_isPlain hplain.2] at htarget
        cases htarget
      · grind [lazyTarget?_of_isPending]

theorem resolveUnionStep {cs : List TypeId}
    (hx : t.store.candidates? x = some cs) (haffords : t.Affords mayStop (fun _ => 3) depth) :
    t.Finds mayStop mayCut (Table.resolveUnionStep (resolvedWith cycle depth) x) fun u t' =>
      t'.store.Plain u ∧ (t.Clear mayCut → t.store.shape x = .lazyUnion cs → t'.store.Forced x u) := by
  unfold Table.resolveUnionStep
  refine .get_bind ?_
  rw [hx]
  have hknown : ∀ c ∈ cs, t.store.Known c := ht.store.wellFormed.known_of_form_union hx
  have hcandidates : t.Finds mayStop mayCut (cs.mapM (resolvedWith cycle depth)) fun us t' =>
      List.Forall₂ (fun c u => t'.store.Plain u ∧ (t.Clear mayCut → t'.store.Means c u)) cs us := by
    refine .mapM cs (fun c _ u t1 t2 hproceeds1 hproceeds2 hu => ?_) fun c hc t' hproceeds => ?_
    · obtain ⟨ht1, -⟩ := hproceeds1.carries ht
      have hretains := (hproceeds2.carries ht1).2.retains
      exact ⟨hu.1.evolves hretains.toEvolves, fun hclear => (hu.2 hclear).retains hretains ht1.store⟩
    obtain ⟨ht', hcarries⟩ := hproceeds.carries ht
    have hsingle : (t'.store.shape c).isSingle = true :=
      (hcarries.retains.isSingle_eq (hknown c hc)).trans (ht.store.single hx hc)
    have haffords' : t'.Affords mayStop (fun _ => (t'.store.shape c).rank) depth :=
      (haffords.passes hcarries).le fun _ _ => TypeForm.rank_of_isSingle hsingle
    refine (ih.resolved ht' (hcarries.retains.known (hknown c hc)) haffords').imp ht' fun u t'' _ hcarries' hu =>
      ⟨hu.plain, fun hclear => (hu.forced (.inl (hcarries.clear hclear))).means fun cs' hcs' => ?_⟩
    rw [← hcarries'.retains.isSingle_eq (hcarries.retains.known (hknown c hc)), hcs'] at hsingle
    cases hsingle
  refine .bind ht hcandidates fun us t1 ht1 hcarries hus => ?_
  have hplain : ∀ u ∈ us, t1.store.Plain u := (List.forall₂_and_left us cs).1 hus.flip |>.1
  refine (finds_unionOf ht1 hplain).imp ht1 fun v t2 _ hcarries2 hv => ⟨hv.1.1, fun hclear hshape => ?_⟩
  have hmeans : List.Forall₂ t2.store.Means cs us := hus.imp fun c u hu => (hu.2 hclear).retains hcarries2.retains ht1.store
  have hne : us ≠ [] := by
    rintro rfl
    have hfits := (ht.store.fits x).2
    rw [hshape, List.forall₂_nil_right_iff.1 hus] at hfits
    exact hfits.1 rfl
  refine .union ?_ hmeans (hv.1.2 hne)
  exact ((hcarries.trans hcarries2).retains.shape_eq (known_of_candidates hx) (by rw [hshape]; rfl)
    (by simp [hshape])).trans hshape

theorem resolved_any (hx : t.store.Known x)
    (haffords : t.Affords mayStop (fun _ => 5) depth) :
    t.Finds mayStop mayCut (resolvedWith cycle depth x) (ForcesTo mayCut t x) :=
  ih.resolved ht hx (haffords.le fun _ _ => TypeForm.rank_le _)

theorem resolved_ref {ref : TypeRef} (href : t.store.RefPlain ref) (haffords : t.Affords mayStop (fun _ => 5) depth) :
    t.Finds mayStop mayCut (resolvedWith cycle depth (t.store.target ref)) fun u t' =>
      t'.store.Plain u ∧ (t.Clear mayCut ∨ (∃ v, t.store.RefMeans ref v) → t'.store.RefMeans ref u) ∧
        (¬ mayCut → ∀ m name, t.memberRef? m name = some ref → t'.memberRef? m name = some ref) := by
  refine (ih.resolved_any ht (ht.store.target_wrappable href).1 haffords).imp ht fun u t' ht' hcarries hu => ?_
  exact ⟨hu.plain, hu.refMeans ht ht' hcarries.retains href, fun hcut m name hentry => hu.entries hcut m name ref hentry rfl⟩

end

theorem firstInBases (name : String) (bases : List TypeRef) (visited : List TypeId)
    (ht : t.Sound) (hbases : ∀ ref ∈ bases, t.store.RefPlain ref)
    (haffords : t.Affords mayStop (fun b => 6 + (b.classes - met t.store visited)) depth) : t.Finds mayStop mayCut
      (Table.firstInBases (resolvedWith cycle depth) (fun base => classMemberWith cycle depth base name) bases visited)
      fun r t' => visited ⊆ r.2 ∧ t'.store.FoundPlain r.1 ∧
        (t.Clear mayCut → t'.store.Searches name bases visited r) := by
  induction bases generalizing t visited with
  | nil => exact .pure ⟨List.Subset.refl _, trivial, fun _ => ⟨none, .none, .nil⟩⟩
  | cons base rest ihrest =>
    unfold Table.firstInBases
    refine .get_bind ?_
    refine .bind ht (ih.resolved_ref ht (hbases base (by simp)) (haffords.le fun _ _ => by omega))
      fun b t1 ht1 hcarries1 hb => ?_
    have hmeans : t1.Clear mayCut → t1.store.RefMeans base b := fun hclear => hb.2.1 (.inl (hcarries1.clear_iff.1 hclear))
    have hfinal : t1.Clear mayCut → t1.store.Final b := fun hclear => (hmeans hclear).final_right ht1.store
    have haffords1 := haffords.more hcarries1 (List.Subset.refl visited)
    refine .bind ht1 (ih.classMember name visited ht1 hfinal haffords1) fun r t2 ht2 hcarries2 hr => ?_
    obtain ⟨found, visited'⟩ := r
    have hknown1 := hcarries1.retains.refKnown (hbases base (by simp)).refKnown
    have hknown2 := hcarries2.retains.refKnown hknown1
    have hbase : t.Clear mayCut → t2.store.RefMeans base b := fun hclear =>
      (hmeans (hcarries1.clear hclear)).retains hcarries2.retains ht1.store hknown1
    cases found with
    | some id =>
      refine .pure ⟨hr.1, hr.2.1, fun hclear => ?_⟩
      obtain ⟨_, ⟨hid⟩, hseeks⟩ := hr.2.2 (hcarries1.clear hclear)
      exact ⟨_, .some hid, hseeks.cons_found ht2.store hknown2 (hbase hclear)⟩
    | none =>
      have hcarries := hcarries1.trans hcarries2
      have hrest : ∀ ref ∈ rest, t2.store.RefPlain ref := fun ref href =>
        (hbases ref (by simp [href])).evolves hcarries.retains.toEvolves
      refine (ihrest visited' ht2 hrest (haffords1.more hcarries2 hr.1)).imp ht2 fun r' t3 ht3 hcarries3 hr' =>
        ⟨List.Subset.trans hr.1 hr'.1, hr'.2.1, fun hclear => ?_⟩
      obtain ⟨_, ⟨⟩, hfirst⟩ := hr.2.2 (hcarries1.clear hclear)
      refine (hr'.2.2 (hcarries.clear hclear)).imp fun found hfound => ?_
      exact .cons ht3.store (hcarries3.retains.refKnown hknown2) ((hbase hclear).retains hcarries3.retains ht2.store hknown2)
        (hfirst.retains hcarries3.retains) hfound

theorem classMemberStep (ht : t.Sound) {cls : TypeId} (name : String)
    (visited : List TypeId) (hcls : t.Clear mayCut → t.store.Final cls)
    (haffords : t.Affords mayStop (fun b => 6 + (b.classes - met t.store visited)) (depth + 1)) :
    t.Finds mayStop mayCut (Table.classMemberStep (resolvedWith cycle depth) (classMemberWith cycle depth) cls name visited)
      fun r t' => visited ⊆ r.2 ∧ t'.store.FoundPlain r.1 ∧
        (t.Clear mayCut → t'.store.Searches name [.direct cls] visited r) := by
  have hsub : visited ⊆ cls :: visited := List.subset_cons_self _ _
  unfold Table.classMemberStep
  split
  · rename_i hmem
    exact .pure ⟨List.Subset.refl _, trivial, fun hclear => ⟨none, .none, .seen (hcls hclear) (by simpa using hmem)⟩⟩
  · rename_i hmem
    have hnot : cls ∉ visited := by simpa using hmem
    refine .get_bind ?_
    cases hform : t.form cls with
    | ofClass info =>
      have hform' : t.store.form cls = .ofClass info := hform
      have hrefs : ∀ ref ∈ info.members.values ++ info.bases, t.store.RefPlain ref := fun ref href =>
        ht.solid cls (by rw [hform']; rfl) ref (by rw [hform']; exact href)
      dsimp only
      cases hget : info.members.get? name with
      | some ref =>
        have href := hrefs ref (List.mem_append_left _ (OrderedMap.mem_values_iff.2 ⟨name, hget⟩))
        refine .bind ht (ih.resolved_ref ht href (haffords.next fun _ _ => by omega)) fun id t1 _ hcarries hid =>
          .pure ⟨hsub, hid.1, fun hclear => ?_⟩
        have hseeks : t.store.Seeks name [.direct cls] visited (some ref, cls :: visited) :=
          .own (hcls hclear) hnot hform' hget
        exact ⟨_, .some (hid.2.1 (.inl hclear)), hseeks.retains hcarries.retains⟩
      | none =>
        refine (ih.firstInBases name info.bases (cls :: visited) ht (fun ref href => hrefs ref (List.mem_append_right _ href))
          (haffords.visit (by rw [hform]; rfl) hnot)).imp ht fun r t1 _ hcarries hr =>
            ⟨List.Subset.trans hsub hr.1, hr.2.1, fun hclear => (hr.2.2 hclear).imp fun found hfound => ?_⟩
        exact .bases ((hcls hclear).retains hcarries.retains) hnot (hcarries.retains.class_eq cls info hform') hget hfound
    | _ =>
      refine .pure ⟨hsub, trivial, fun hclear => ⟨none, .none, .other (hcls hclear) hnot ?_⟩⟩
      rw [show t.store.form cls = _ from hform]
      rfl

theorem memberStep (ht : t.Sound) (hx : t.store.Known x) (name : String)
    (haffords : t.Affords mayStop (fun b => 6 + b.classes + (t.store.shape x).grade) depth) :
    t.Finds mayStop mayCut
    (Table.memberStep (resolvedWith cycle depth) (memberWith cycle depth)
      (classMemberWith cycle depth) x name)
      fun r t' => t'.store.FoundPlain r ∧
        (t.Clear mayCut → (t.form x).isClass = true → t'.store.Inherits name x r) := by
  unfold Table.memberStep
  refine .bind ht (ih.resolved_any ht hx (haffords.le fun _ _ => by omega)) fun y t1 ht1 hcarries hy => .get_bind ?_
  have haffords1 := haffords.passes hcarries
  -- a class is forced to itself
  have hsame : t.Clear mayCut → (t.form x).isClass = true → y = x := by
    intro hclear hclass
    have hfinal : t1.store.Final x := (final_of_isClass hclass).retains hcarries.retains
    refine ((hy.forced (.inl hclear)).means fun cs hcs => ?_).unique (.final hfinal)
    have hplain := hfinal.1.2
    rw [hcs] at hplain
    cases hplain
  have hother {form : TypeForm} {Q : Prop} (hform : t1.form y = form) (hnot : form.isClass = false) :
      t.Clear mayCut → (t.form x).isClass = true → Q := by
    intro hclear hclass
    have hclass1 := hcarries.retains.isClass hclass
    rw [← hsame hclear hclass, show t1.store.form y = form from hform, hnot] at hclass1
    cases hclass1
  have hclassMember : ∀ (t2 : Table) (cls : TypeId), t2.Sound → t1.Passes t2 → (t2.form cls).isClass = true →
      t2.Finds mayStop mayCut (Prod.fst <$> classMemberWith cycle depth cls name []) fun r t' =>
        t'.store.FoundPlain r ∧ (t2.Clear mayCut → t'.store.Inherits name cls r) := by
    intro t2 cls ht2 hcarries2 hclass
    refine .map ((ih.classMember name [] ht2 (fun _ => final_of_isClass hclass)
      ((haffords1.passes hcarries2).le fun _ _ => by omega)).imp ht2 fun r t' _ _ hr => ⟨hr.2.1, fun hclear => ?_⟩)
    exact (hr.2.2 hclear).inherits
  have hresolved : ∀ ref ∈ (t1.store.form y).refs, t1.Finds mayStop mayCut (resolvedWith cycle depth (t1.store.target ref))
      fun v t' => t'.store.Plain v := fun ref href =>
    (ih.resolved_any ht1 (ht1.store.wellFormed.target_ref_known (ht1.store.refKnown href))
      (haffords1.le fun _ _ => by omega)).imp ht1 fun _ _ _ _ hv => hv.plain
  cases hform : t1.form y with
  | ofModule info =>
    rw [show t1.store.form y = _ from hform] at hresolved
    dsimp only
    cases hget : info.members.get? name with
    | none => exact .pure ⟨trivial, hother hform rfl⟩
    | some ref =>
      exact .map ((hresolved ref (OrderedMap.mem_values_iff.2 ⟨name, hget⟩)).imp ht1 fun v _ _ _ hv => ⟨hv, hother hform rfl⟩)
  | ofClass info =>
    refine (hclassMember t1 y ht1 (.refl t1) (by rw [hform]; rfl)).imp ht1 fun r t' _ _ hr => ⟨hr.1, fun hclear hclass => ?_⟩
    rw [← hsame hclear hclass]
    exact hr.2 (hcarries.clear hclear)
  | object cls =>
    rw [show t1.store.form y = _ from hform] at hresolved
    refine .bind ht1 (hresolved cls (by simp [TypeForm.refs])) fun c t2 ht2 hcarries2 _ => .get_bind ?_
    split
    · rename_i hclass
      exact (hclassMember t2 c ht2 hcarries2 hclass).imp ht2 fun r t' _ _ hr => ⟨hr.1, hother hform rfl⟩
    · exact .pure ⟨trivial, hother hform rfl⟩
  | union cs =>
    have hcandidates : t1.store.candidates? y = some cs := candidates?_of_union hform
    have hmembers : t1.Finds mayStop mayCut (Table.memberOfEach (fun c => memberWith cycle depth c name) cs []) fun r t' =>
        ∀ us, r = some us → ∀ u ∈ us, t'.store.Plain u := by
      refine memberOfEach cs [] ht1 (by simp) fun c hc t2 ht2 hcarries2 => ?_
      have hknown := ht1.store.wellFormed.known_of_form_union hcandidates c hc
      have hgrade := hy.splits cs (shape_of_form hform) c hc
      rw [← hcarries2.retains.grade_eq hknown] at hgrade
      exact (ih.member name ht2 (hcarries2.retains.known hknown)
        ((haffords1.passes hcarries2).le fun _ _ => by omega)).imp ht2 fun _ _ _ _ hr => hr.1
    refine .bind ht1 hmembers fun r t2 ht2 _ hr => ?_
    cases r with
    | none => exact .pure ⟨trivial, hother hform rfl⟩
    | some us => exact .map ((finds_unionOf ht2 (hr us rfl)).imp ht2 fun v _ _ _ hv => ⟨hv.1.1, hother hform rfl⟩)
  | _ => exact .pure ⟨trivial, hother hform rfl⟩

theorem moduleMemberStep (ht : t.Sound) (hm : (t.form m).isModule = true)
    (name path : String) (load : Bool) (haffords : t.Affords mayStop (fun _ => 5) depth) :
    t.Finds mayStop mayCut (Table.moduleMemberStep (resolvedWith cycle depth) m name path load) fun r t' =>
      t'.store.FoundPlain r ∧ (¬ mayCut → t'.BindsKnown m name r) := by
  unfold Table.moduleMemberStep
  refine .get_bind ?_
  cases hentry : t.memberRef? m name with
  | none =>
    dsimp only
    split
    · refine submodule (.refl t) ht hm name path trivial (by simp) (by simp [hentry]) fun _ ref href => ?_
      rw [hentry] at href
      cases href
    · exact .pure ⟨trivial, fun _ => bindsKnown_of_isUnknown (by simp)⟩
  | some ref =>
    have href := ht.refPlain_of_memberRef? hentry
    refine Ensures.bind (ih.resolved_ref ht href haffords) fun u t1 h1 => ?_
    obtain ⟨hproceeds, hu, hmeans, hentries⟩ := h1
    obtain ⟨ht1, hcarries⟩ := hproceeds.carries ht
    have hentry1 : ¬ mayCut → t1.memberRef? m name = some ref := fun hcut => hentries hcut m name hentry
    have hmeans1 : ¬ mayCut → t1.store.RefMeans ref u := fun hcut => hmeans (.inl (clear_of_not hcut))
    refine Ensures.get_bind ?_
    cases hform : t1.form u with
    | unknown =>
      refine submodule hproceeds ht hm name path hu ?_ (fun ref' v href' hv => ?_) fun hcut ref' href' => ?_
      · grind [isUnknown_of_form_unknown]
      -- the member had its meaning before it was looked at
      · cases hentry.symm.trans href'
        have hknown : t.store.Known v := (Means.final_right ht.store hv).1.1
        have hsame : u = v := (hmeans (.inr ⟨v, hv⟩)).unique (hv.retains hcarries.retains ht.store href.refKnown)
        exact (hcarries.retains.form_unknown_iff hknown).1 (hsame ▸ hform)
      · grind
    | _ =>
      exact .pure ⟨hproceeds, hu, fun hcut => bindsKnown_of_binds (.inl ⟨ref, hentry1 hcut, hmeans1 hcut⟩)⟩

theorem nextSegment (ht : t.Sound) (hcurrent : t.store.Plain current)
    (segment path : String) (haffords : t.Affords mayStop (fun b => b.classes + 9) depth) :
    t.Finds mayStop mayCut (do
      let parent ← resolvedWith cycle depth current
      match (← get).form parent with
      | .ofModule _ => moduleMemberWith cycle depth parent segment path true
      | .ofClass _ => memberWith cycle depth parent segment
      | _ => return none) fun r t' => t'.store.FoundPlain r ∧
        (¬ mayCut → ∃ parent, t'.store.Means current parent ∧ t'.BindsKnown parent segment r) := by
  refine .bind ht (ih.resolved_any ht hcurrent.1 (haffords.le fun _ _ => by omega))
    fun parent t1 ht1 hcarries hparent => .get_bind ?_
  have haffords1 := haffords.passes hcarries
  have hmeans : ¬ mayCut → t1.store.Means current parent := fun hcut =>
    (hparent.forced (.inl (clear_of_not hcut))).means (hcurrent.wrappable.evolves hcarries.retains.toEvolves).2
  cases hform : t1.form parent with
  | ofModule info =>
    refine (ih.moduleMember segment path true ht1 (by rw [hform]; rfl)
      (haffords1.le fun _ _ => by omega)).imp ht1 fun r t2 _ hcarries2 hr => ⟨hr.1, fun hcut => ?_⟩
    exact ⟨parent, (hmeans hcut).retains hcarries2.retains ht1.store, hr.2 hcut⟩
  | ofClass info =>
    have hclass : (t1.form parent).isClass = true := by rw [hform]; rfl
    have hgrade : (t1.store.shape parent).grade = 0 := by
      rw [shape_of_form (show t1.store.form parent = _ from hform)]
      rfl
    refine (ih.member segment ht1 hparent.plain.1 (haffords1.le fun _ _ => by omega)).imp ht1
      fun r t2 _ hcarries2 hr => ⟨hr.1, fun hcut => ?_⟩
    refine ⟨parent, (hmeans hcut).retains hcarries2.retains ht1.store, ?_⟩
    obtain ⟨found, hsearch, hfound⟩ := hr.2 (clear_of_not hcut) hclass
    have hclass2 := hcarries2.retains.isClass hclass
    cases hfound with
    | none => exact bindsKnown_of_isUnknown (by simp)
    | @some found id hfound => exact bindsKnown_of_binds (.inr ⟨hclass2, found, hsearch, hfound⟩)
  | _ => exact .pure ⟨trivial, fun hcut => ⟨parent, hmeans hcut, bindsKnown_of_isUnknown (by simp)⟩⟩

theorem typeStep (ht : t.Sound) (path : String)
    (haffords : t.Affords mayStop (fun b => b.classes + 9) depth) :
    t.Finds mayStop mayCut
    (Table.typeStep (resolvedWith cycle depth) (moduleMemberWith cycle depth)
      (memberWith cycle depth) path)
      fun id t' => t'.store.Plain id ∧ (id ≠ .unknown → t'.Settled path id) := by
  unfold Table.typeStep
  refine .get_bind ?_
  by_cases hrootPath : path = "" ∨ path = rootPath
  · rw [if_pos hrootPath]
    refine .pure ⟨plain_of_isModule ht.root, fun _ => ?_⟩
    unfold Settled
    rw [if_pos hrootPath]
  · rw [if_neg hrootPath]
    cases hget : t.cache.get? path with
    | some id =>
      refine .pure ⟨ht.cache path id hget, fun _ => ?_⟩
      simp_all [Settled]
    | none =>
      have hpath : DottedName.segments path = [] ++ DottedName.segments path := rfl
      refine (walk (fun t' current segment path' ht' hcurrent =>
        ih.nextSegment ht' hcurrent segment path') _ [] hpath ht haffords
        (plain_of_isModule ht.root) rfl (by decide)).imp ht fun id t' _ hcarries hid => ⟨hid.1, fun hne => ?_⟩
      exact hcarries.settled_of_remembered? hrootPath hget (hid.2 hne)

end SoundAt

/-- Look-ups that afford it find what they should, whatever the depth that is left. -/
theorem soundAt {cycle : Query TypeId}
    (hcycle : ∀ t, Ensures mayStop t cycle fun u t' => mayCut ∧ u = .unknown ∧ t' = t)
    (depth : Nat) : SoundAt cycle mayStop mayCut depth := by
  induction depth with
  | zero =>
    refine ⟨fun path _ h => ?_, fun name path load _ _ h => ?_, fun _ _ h => ?_, fun {t x} _ _ h =>
      ?_, fun _ _ h => ?_, fun name visited _ _ h => ?_, fun name _ _ h => ?_⟩
    · rw [typeWith]
      exact .tooDeep (h.stop fun _ => by omega)
    · rw [moduleMemberWith]
      exact .tooDeep (h.stop fun _ => by omega)
    · rw [resolveLazyWith]
      exact .tooDeep (h.stop fun _ => by omega)
    · rw [resolvedWith]
      exact .tooDeep (h.stop fun _ => by cases t.store.shape x <;> simp [TypeForm.rank])
    · rw [resolveUnionWith]
      exact .tooDeep (h.stop fun _ => by omega)
    · rw [classMemberWith]
      exact .tooDeep (h.stop fun _ => by omega)
    · rw [memberWith]
      exact .tooDeep (h.stop fun _ => by omega)
  | succ depth ih =>
    refine ⟨fun path ht h => ?_, fun name path load ht hm h => ?_, fun ht hl h => ?_, fun ht hx h =>
      ?_, fun ht hx h => ?_, fun name visited ht hcls h => ?_, fun name ht hx h => ?_⟩
    · rw [typeWith]
      exact ih.typeStep ht path (h.next fun _ _ => by omega)
    · rw [moduleMemberWith]
      exact ih.moduleMemberStep ht hm name path load (h.next fun _ _ => by omega)
    · rw [resolveLazyWith]
      exact ih.resolveLazyOr hcycle ht hl (h.next fun _ _ => by omega)
    · rw [resolvedWith]
      exact ih.resolvedStep ht hx h
    · rw [resolveUnionWith]
      exact ih.resolveUnionStep ht hx (h.next fun _ _ => by omega)
    · rw [classMemberWith]
      exact ih.classMemberStep ht name visited hcls h
    · rw [memberWith]
      exact ih.memberStep ht hx name (h.next fun _ _ => by omega)

/-- The look-ups of a table find what they should, though some may be cut off. -/
theorem soundAt_unknown (depth : Nat) : SoundAt (pure .unknown) mayStop True depth :=
  soundAt (fun _ => .pure ⟨trivial, rfl, rfl⟩) depth

end PythonTypes.Table
