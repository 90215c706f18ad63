import PythonTypes.Proofs.Table.Soundness

/-!
# What queries find

The depth with which queries start is enough for everything that their table can still add, so each
of them comes to an end, and what is made of look-ups does to a table what look-ups do
(`Lookups.Sound`). This holds of the queries of a table, and of those that give up at an import
cycle as long as they do not give up.
-/

set_option autoImplicit false

namespace PythonTypes

open Table TypeStore

variable {mayStop mayCut : Prop} {t t' : Table}

theorem Table.exists_depthBound (t : Table) : ∃ depth, t.depthBound = depth + 1 := by
  simp_all [depthBound]

theorem Table.resolveLazyOr_of_no_lazy {x : TypeId} (hx : t.store.lazyPath? x = none) (cycle : Query TypeId)
    (typeAt : String → Query TypeId) : resolveLazyOr cycle typeAt x t = some (x, t) := by
  have hform : ∀ path state, t.form x ≠ .lazy path state := by
    intro path state hform
    unfold lazyPath? at hx
    simp [show t.store.form x = _ from hform] at hx
  rw [resolveLazyOr_of_no_cycle fun path ws h => absurd h (hform path _)]
  unfold resolveLazyStep
  rw [get_bind_apply]
  cases hlazy : t.form x with
  | lazy path state => exact absurd hlazy (hform path state)
  | _ => rfl

theorem TypeStore.inert_unresolvedImport (path : String) (s : TypeStore) : s.Inert (TypeStore.unresolvedImport path s).2 := by
  rw [unresolvedImport_apply]
  split
  · exact .refl s
  · exact inert_of_push (fun _ _ hx => hx) (fun _ _ hu => hu) rfl rfl (by simp) trivial

namespace Table

theorem finds_unresolvedImport (ht : t.Sound) (path : String) :
    t.Finds mayStop mayCut (Query.unresolvedImport path) fun id t' => t'.store.Known id := by
  obtain ⟨htidy, hgrows⟩ := ht.store.unresolvedImport path
  have hinert := inert_unresolvedImport path t.store
  exact Ensures.of_eq_some
    rfl ⟨⟨.grow (ht.spaceSound.gains_inert htidy hgrows hinert),
    .of_takes (.of_quiet hinert.quiet) rfl rfl rfl⟩,
    (unresolvedImport_sound ht.store.wellFormed path).2.2⟩

theorem finds_namedModule (ht : t.Sound) (path : String) (id : TypeId) :
    t.Finds mayStop mayCut (Query.namedModule path id) fun r t' => ∀ m, r = some m → (t'.form m).isModule = true := by
  refine .get_bind ?_
  split
  · grind [Finds.pure]
  · exact (finds_loadModule ht path).imp ht fun r t' ht' _ hr m hm => ht'.modules path m (hr.2.1 m hm)

end Table

namespace Lookups

/-- What the look-ups from which the other queries are made find. -/
structure Sound (q : Lookups) (mayStop mayCut : Prop) : Prop where
  getType : ∀ {t : Table} (path : String), t.Sound → t.Finds mayStop mayCut (q.getType path) fun id t' =>
    t'.store.Plain id ∧ (id ≠ .unknown → t'.Settled path id)
  moduleMember : ∀ {t : Table} {m : TypeId} (name path : String) (load : Bool), t.Sound → (t.form m).isModule = true →
    t.Finds mayStop mayCut (q.moduleMember m name path load) fun r t' => t'.store.FoundPlain r
  resolveLazy : ∀ {t : Table} {x : TypeId}, t.Sound → t.store.Known x →
    t.Finds mayStop mayCut (q.resolveLazy x) fun _ _ => True
  resolved : ∀ {t : Table} {x : TypeId}, t.Sound → t.store.Known x →
    t.Finds mayStop mayCut (q.resolved x) (ForcesTo mayCut t x)
  resolveUnion : ∀ {t : Table} {x : TypeId}, t.Sound → t.store.Known x →
    t.Finds mayStop mayCut (q.resolveUnion x) fun _ _ => True
  member : ∀ {t : Table} {x : TypeId} (name : String), t.Sound → t.store.Known x →
    t.Finds mayStop mayCut (q.member x name) fun r t' => t'.store.FoundPlain r

/-- Look-ups are sound if all they do at an import cycle is to answer unknown, or to give up. -/
theorem sound_withCycle {cycle : Query TypeId}
    (hcycle : ∀ t, Ensures mayStop t cycle fun u t' => mayCut ∧ u = .unknown ∧ t' = t) :
    (withCycle cycle).Sound mayStop mayCut := by
  have hsound := soundAt hcycle
  unfold withCycle
  refine ⟨fun {t} path ht => ?_, fun {t m} name path load ht hm => ?_, fun {t x} ht hx => ?_, fun {t x} ht hx => ?_,
    fun {t x} ht hx => ?_, fun {t x} name ht hx => ?_⟩ <;> dsimp only <;> refine Finds.enough ?_ <;>
    have haffords : t.Affords mayStop _ _ := t.affords_depthBound
  · exact (hsound _).typeAt path ht haffords
  · exact ((hsound _).moduleMember name path load ht hm (haffords.le fun _ _ => by omega)).imp ht fun _ _ _ _ h => h.1
  · cases hpath : t.store.lazyPath? x with
    | some path => exact ((hsound _).resolveLazy ht hpath (haffords.le fun _ _ => by omega)).imp ht fun _ _ _ _ _ => trivial
    | none =>
      obtain ⟨depth, hdepth⟩ := t.exists_depthBound
      rw [hdepth, resolveLazyWith]
      exact Ensures.of_eq_some (resolveLazyOr_of_no_lazy hpath _ _) ⟨.refl t, trivial⟩
  · grind [SoundAt.resolved_any, Affords.le]
  · cases hcandidates : t.store.candidates? x with
    | some cs =>
      exact ((hsound _).resolveUnion ht hcandidates (haffords.le fun _ _ => by omega)).imp ht
        fun _ _ _ _ _ => trivial
    | none =>
      obtain ⟨depth, hdepth⟩ := t.exists_depthBound
      rw [hdepth, resolveUnionWith]
      simp_all [resolveUnionStep, Finds.get_bind, Finds.pure]
  · grind [TypeForm.grade_le, Finds.imp, SoundAt.member, Affords.le]

theorem sound_ofTable : ofTable.Sound mayStop True := by
  grind [withCycle_unknown, sound_withCycle, Ensures.pure]

theorem sound_straight : straight.Sound True False := by
  have hcycle : ∀ t, Ensures True t (Query.tooDeep : Query TypeId) fun u t' => False ∧ u = .unknown ∧ t' = t :=
    fun _ => trivial
  exact sound_withCycle hcycle

namespace Sound

variable {q : Lookups}
variable {search : TypeId → List TypeId → Query (Ternary × List TypeId)}
variable {judged : TypeStore → TypeId → List TypeId → Ternary × List TypeId → Prop} {name : String}

variable (hq : q.Sound mayStop mayCut)
include hq

theorem resolvedRef (ht : t.Sound) {ref : TypeRef} (href : t.store.RefKnown ref) :
    t.Finds mayStop mayCut (q.resolvedRef ref) (ForcesTo mayCut t (t.store.target ref)) :=
  .get_bind (hq.resolved ht (ht.store.wellFormed.target_ref_known href))

theorem searchBases (result : Ternary) (bases : List TypeRef)
    (visited : List TypeId) (ht : t.Sound) (hbases : ∀ ref ∈ bases, t.store.RefPlain ref)
    (hsearch : ∀ (t' : Table) base visited', t'.Sound → t.Passes t' → visited ⊆ visited' →
      t'.Finds mayStop mayCut (search base visited') fun r t'' => visited' ⊆ r.2 ∧
        (t'.Clear mayCut → t'.store.Final base → ∀ s, s.Tidy → t''.store.Retains s → judged s base visited' r)) :
    t.Finds mayStop mayCut (q.searchBases search result bases visited) fun r t' => visited ⊆ r.2 ∧
      (t.Clear mayCut → ∀ s, s.Tidy → t'.store.Retains s → s.Folds (judged s) result bases visited r) := by
  induction bases generalizing t result visited with
  | nil => exact .pure ⟨List.Subset.refl _, fun _ _ _ _ => .nil⟩
  | cons base rest ih =>
    unfold Lookups.searchBases
    have href := hbases base (by simp)
    refine .bind ht (hq.resolvedRef ht href.refKnown) fun b t1 ht1 hpasses1 hb => ?_
    have hmeans : t.Clear mayCut → t1.store.RefMeans base b := fun hclear =>
      hb.refMeans ht ht1 hpasses1.retains href (.inl hclear)
    refine .bind ht1 (hsearch t1 b visited ht1 hpasses1 (List.Subset.refl _)) fun r t2 ht2 hpasses2 hr => ?_
    have hpasses := hpasses1.trans hpasses2
    have hmeans' : t.Clear mayCut → ∀ s, t2.store.Retains s → s.RefMeans base b := fun hclear s hretains =>
      (hmeans hclear).retains (hpasses2.retains.trans hretains) ht1.store (hpasses1.retains.refKnown href.refKnown)
    have hjudged := fun hclear : t.Clear mayCut => hr.2 (hpasses1.clear hclear) ((hmeans hclear).final_right ht1.store)
    obtain ⟨a, visited'⟩ := r
    -- without a `yes` the search goes on
    have hrest : a ≠ .yes →
      t2.Finds mayStop mayCut (q.searchBases search (if a = .unknown then .unknown else result)
      rest visited')
        fun r' t' => visited ⊆ r'.2 ∧
          (t.Clear mayCut → ∀ s, s.Tidy → t'.store.Retains s → s.Folds (judged s) result (base :: rest) visited r') := by
      intro ha
      refine (ih _ visited' ht2 (fun ref href => (hbases ref (by simp [href])).evolves hpasses.retains.toEvolves)
        fun t' base' visited'' ht' hpasses' hsub => ?_).imp ht2 fun r' t3 _ hpasses3 hr' => ?_
      · grind [Passes.trans]
      · refine ⟨List.Subset.trans hr.1 hr'.1, fun hclear s hs hretains => ?_⟩
        have hretains2 := hpasses3.retains.trans hretains
        exact .next (hmeans' hclear s hretains2) (hjudged hclear s hs hretains2) ha
          (hr'.2 (hpasses.clear hclear) s hs hretains)
    cases a with
    | yes =>
      exact .pure ⟨hr.1, fun hclear s hs hretains => .found (hmeans' hclear s hretains) (hjudged hclear s hs hretains)⟩
    | unknown => exact hrest (by simp)
    | no => exact hrest (by simp)

theorem judge
    {settles unsure : ClassType → Bool}
    (hjudged : ∀ s : TypeStore, s.Tidy → s.Rules settles unsure (judged s)) {cls : TypeId}
    {visited : List TypeId} (ht : t.Sound) (hnew : cls ∉ visited)
    (hsearch : (t.form cls).isClass = true → ∀ (t' : Table) base visited', t'.Sound → t.Passes t' →
      cls :: visited ⊆ visited' →
      t'.Finds mayStop mayCut (search base visited') fun r t'' => visited' ⊆ r.2 ∧
        (t'.Clear mayCut → t'.store.Final base → ∀ s, s.Tidy → t''.store.Retains s → judged s base visited' r)) :
    t.Finds mayStop mayCut (match t.form cls with
      | .ofClass info =>
        if settles info then return (.yes, cls :: visited)
        else q.searchBases search (if unsure info then .unknown else .no) info.bases (cls :: visited)
      | _ => return (.unknown, cls :: visited)) fun r t' => visited ⊆ r.2 ∧
        (t.Clear mayCut → t.store.Final cls → ∀ s, s.Tidy → t'.store.Retains s → judged s cls visited r) := by
  cases hform : t.form cls with
  | ofClass info =>
    dsimp only
    split
    · rename_i hsettles
      exact .pure ⟨List.subset_cons_self _ _, fun _ hcls s hs hretains =>
        (hjudged s hs).own (hcls.retains hretains) hnew (hretains.class_eq cls info hform) hsettles⟩
    · rename_i hsettles
      refine (hq.searchBases _ info.bases (cls :: visited) ht (fun ref href => ht.refPlain_of_base hform href)
        (hsearch (by rw [hform]; rfl))).imp ht fun r t' _ hpasses hr => ?_
      refine ⟨List.Subset.trans (List.subset_cons_self _ _) hr.1, fun hclear hcls s hs hretains => ?_⟩
      have hretains' := hpasses.retains.trans hretains
      exact (hjudged s hs).bases (hcls.retains hretains') hnew (hretains'.class_eq cls info hform)
        (by simpa using hsettles) (hr.2 hclear s hs hretains)
  | _ =>
    refine .pure ⟨List.subset_cons_self _ _, fun _ hcls s hs hretains => (hjudged s hs).other (hcls.retains hretains) hnew ?_⟩
    rw [hretains.isClass_eq hcls.1.1, show t.store.form cls = _ from hform]
    rfl

section

variable (hjudged : ∀ s : TypeStore, s.Tidy → s.Rules (·.members.contains name) (·.hasMetaclass) (judged s))

include hjudged

theorem classHasMemberAt (depth : Nat) (cls : TypeId) (visited : List TypeId) (ht : t.Sound)
    (haffords : t.Affords mayStop (fun b => 6 + (b.classes - met t.store visited)) depth) :
    t.Finds mayStop mayCut (q.classHasMemberAt depth cls name visited) fun r t' => visited ⊆ r.2 ∧
      (t.Clear mayCut → t.store.Final cls → ∀ s, s.Tidy → t'.store.Retains s → judged s cls visited r) := by
  induction depth generalizing t cls visited with
  | zero => exact .tooDeep (haffords.stop fun _ => by omega)
  | succ depth ih =>
    unfold Lookups.classHasMemberAt
    split
    · rename_i hmem
      exact .pure ⟨List.Subset.refl _, fun _ hcls s hs hretains =>
        (hjudged s hs).seen (hcls.retains hretains) (by simpa using hmem)⟩
    · rename_i hmem
      have hnew : cls ∉ visited := by simpa using hmem
      refine .get_bind (hq.judge hjudged ht hnew fun hclass t' base visited' ht' hpasses hsub => ih base visited' ht' ?_)
      exact (haffords.visit hclass hnew).more hpasses hsub

theorem classHasMember (cls : TypeId) (ht : t.Sound) : t.Finds mayStop mayCut (q.classHasMember cls name) fun a t' =>
      t.Clear mayCut → t.store.Final cls → ∀ s, s.Tidy → t'.store.Retains s → ∃ visited, judged s cls [] (a, visited) := by
  refine .enough (.map ((hq.classHasMemberAt hjudged _ cls [] ht (t.affords_depthBound.le fun _ _ => by omega)).imp ht ?_))
  exact fun r t' _ _ hr hclear hcls s hs hretains => ⟨r.2, hr.2 hclear hcls s hs hretains⟩

end

/-- Whether a type has a member is answered, at whatever depth its members lie. -/
theorem hasMember (ht : t.Sound) {x : TypeId} (hx : t.store.Known x) (name : String) :
    t.Finds mayStop mayCut (q.hasMember x name) fun _ _ => True := by
  have hdeep : ∀ depth (t : Table) x, t.Sound → t.store.Known x → mayStop ∨ (t.store.shape x).grade < depth →
      t.Finds mayStop mayCut (q.hasMemberAt depth x name) fun _ _ => True := by
    intro depth
    induction depth with
    | zero => exact fun _ _ _ _ hgrade => .tooDeep (hgrade.resolve_right (by omega))
    | succ depth ih =>
      intro t x ht hx hgrade
      unfold hasMemberAt
      refine .bind ht (hq.resolved ht hx) fun y t1 ht1 _ hy => .get_bind ?_
      cases hform : t1.form y with
      | ofModule info => exact .pure trivial
      | ofClass info => exact (hq.classHasMember (fun s hs => hs.rules_decides name) y ht1).imp ht1 fun _ _ _ _ _ => trivial
      | object cls =>
        have hcls : t1.store.RefKnown cls := ht1.store.refKnown (t := y) (by
          rw [show t1.store.form y = _ from hform]
          simp [TypeForm.refs])
        exact .bind ht1 (hq.resolvedRef ht1 hcls) fun c t2 ht2 _ _ =>
          (hq.classHasMember (fun s hs => hs.rules_decides name) c ht2).imp ht2 fun _ _ _ _ _ => trivial
      | union cs =>
        have hknown := ht1.store.wellFormed.known_of_form_union (candidates?_of_union hform)
        have hmapM : t1.Finds mayStop mayCut (cs.mapM fun c => q.hasMemberAt depth c name)
            fun as t' => List.Forall₂ (fun _ _ => True) cs as := by
          refine .mapM cs (fun _ _ _ _ _ _ _ _ => trivial) fun c hc t2 hgoes => ?_
          obtain ⟨ht2, hcarries⟩ := hgoes.carries ht1
          have hlower := hy.splits cs (shape_of_form hform) c hc
          rw [← hcarries.retains.grade_eq (hknown c hc)] at hlower
          exact ih t2 c ht2 (hcarries.retains.known (hknown c hc)) (hgrade.imp_right fun h => by omega)
        exact .bind ht1 hmapM fun _ _ _ _ _ => .pure trivial
      | _ => exact .pure trivial
  have hgrade := TypeForm.grade_le (t.store.shape x)
  refine .enough (hdeep _ t x ht hx (t.affords_depthBound.imp_right fun haffords => ?_))
  obtain ⟨b, -, hdepth⟩ := haffords
  dsimp only at hdepth
  omega

theorem builtinInstance (ht : t.Sound) (name : String) :
    t.Finds mayStop mayCut (q.builtinInstance name) fun _ _ => True := by
  have hroot : t.store.Known t.root := (plain_of_isModule ht.root).1
  refine .get_bind (.bind ht (hq.member name ht hroot) fun r t1 ht1 _ hr => ?_)
  cases r with
  | none => exact .pure trivial
  | some cls =>
    refine .get_bind ?_
    split
    · have hdepth : t1.store.size + 6 ≤ t1.store.depthBound := by
        unfold TypeStore.depthBound
        omega
      have hruns := ht1.store.runs_instanceOf_direct hr.1 hdepth
      refine (finds_follow (R := fun _ _ => True) ht1 ((framed_inert.keeps _).instanceOf _ _)
        ?_).imp ht1 fun _ _ _ _ _ => trivial
      exact hruns.imp fun _ _ _ _ h => ⟨h.1.1, trivial⟩
    · exact .pure trivial

theorem importModule (ht : t.Sound) (path : String) :
    t.Finds mayStop mayCut (q.importModule path) fun id t' => t'.store.Known id := by
  refine .bind ht (hq.getType path ht) fun id t1 ht1 _ hid => .get_bind ?_
  split
  · exact .pure hid.1.1
  · exact finds_unresolvedImport ht1 path

theorem importFrom (ht : t.Sound) (modulePath name : String) :
    t.Finds mayStop mayCut (q.importFrom modulePath name) fun id t' => t'.store.Known id := by
  refine .bind ht (hq.getType modulePath ht) fun id t1 ht1 _ _ => ?_
  refine .bind ht1 (finds_namedModule ht1 modulePath id) fun r t2 ht2 _ hr => ?_
  cases r with
  | none => exact finds_unresolvedImport ht2 _
  | some m =>
    refine .bind ht2 (hq.moduleMember name _ false ht2 (hr m rfl)) fun r t3 ht3 _ hmember => ?_
    cases r with
    | none => exact finds_unresolvedImport ht3 _
    | some u =>
      refine .get_bind ?_
      split
      · exact finds_unresolvedImport ht3 _
      · exact .pure hmember.1

theorem importSibling (ht : t.Sound) (package name : String) :
    t.Finds mayStop mayCut (q.importSibling package name) fun id t' => t'.store.Known id := by
  refine .bind ht (hq.getType _ ht) fun id t1 ht1 _ hid => .get_bind ?_
  split
  · exact .pure hid.1.1
  · grind [finds_unresolvedImport, importFrom]

end Sound

end Lookups

end PythonTypes
