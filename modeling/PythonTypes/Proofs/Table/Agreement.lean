import Mathlib
import PythonTypes.Proofs.Table.Membership

/-!
# Asking for a member and looking for it

Whether a type has a member can be asked without looking for the member. If the answer is `yes` then
the type has the member. Conversely, to ask about a type that has the member changes nothing but
adds types, and the answer is `yes` (`AtRest.reports_hasMemberAt`): everything that could be looked
up on the way has been.

So asking after looking agrees with what was found (`member_hasMember_agree`), except that asking
about a lazy union may load a submodule, and bind it in a module that had no such member when
looking for the member gave up. As elsewhere, all of Mathlib is imported for what `cbv` evaluates.
-/

set_option autoImplicit false

namespace PythonTypes

open Table TypeStore

theorem Ternary.agreement_eq_yes_iff (as : List Ternary) : agreement as = .yes ↔ as ≠ [] ∧ ∀ a ∈ as, a = .yes := by
  cases as with
  | nil => simp [agreement]
  | cons a rest =>
    dsimp only [agreement]
    split
    · rename_i hall
      simp only [List.all_eq_true, beq_iff_eq] at hall
      simp only [ne_eq, reduceCtorEq, not_false_eq_true, List.mem_cons, forall_eq_or_imp, true_and]
      exact ⟨fun ha => ⟨ha, fun b hb => (hall b hb).trans ha⟩, And.left⟩
    · rename_i hnot
      simp only [List.all_eq_true, beq_iff_eq] at hnot
      simp only [ne_eq, reduceCtorEq, not_false_eq_true, List.mem_cons, forall_eq_or_imp, true_and, false_iff]
      exact fun ⟨ha, hrest⟩ => hnot fun b hb => (hrest b hb).trans ha.symm

namespace Table

variable {t t1 t' : Table} {name : String} {x y k m : TypeId} {a : Ternary} (depth : Nat)

/-! ## Asking classes -/

theorem calm_searchBases {search : TypeId → List TypeId → Query (Ternary × List TypeId)}
    (hsearch : ∀ (t : Table) b visited rest r, t.Sound → t.store.Final b → (∀ ref ∈ rest, t.store.RefKnown ref) →
      t.store.Search name (.direct b :: rest) visited r → Ensures True t (search b visited)
        (t.Resumes (· ≠ .yes) name rest r))
    (result : Ternary) (bases rest : List TypeRef) (visited : List TypeId) (r : Option TypeRef) (ht : t.Sound)
    (hknown : ∀ ref ∈ bases ++ rest, t.store.RefKnown ref) (h : t.store.Search name (bases ++ rest) visited r) :
    Ensures True t (searchBases search result bases visited) (t.Resumes (· ≠ .yes) name rest r) := by
  induction bases generalizing t result visited with
  | nil => exact .pure ⟨.refl ht, fun _ => h⟩
  | cons base bases ih =>
    unfold searchBases
    rw [← bind_assoc]
    refine (calm_base ht (fun ref href => hknown ref (List.mem_cons_of_mem _ href)) h
      (fun b hb => .get_bind (calm_resolvedQuery ht hb)) fun t1 b ht1 _ hb hrest =>
        hsearch t1 b visited _ r ht1 hb hrest).bind
      fun a t2 h2 => ?_
    obtain ⟨hcalm, hgoes⟩ := h2
    obtain ⟨ht2, hcarries⟩ := hcalm.carries ht
    have hnext : ∀ result, a.1 ≠ .yes → Ensures True t2 (searchBases search result bases a.2)
        (t.Resumes (· ≠ .yes) name rest r) := by
      intro result ha
      refine (ih result a.2 ht2 (fun ref href => ?_) (hgoes ha)).imp fun a' t3 h3 => ⟨hcalm.trans h3.1, h3.2⟩
      exact hcarries.retains.refKnown (hknown ref (List.mem_cons_of_mem _ href))
    obtain ⟨answer, visited'⟩ := a
    cases answer with
    | yes => exact .pure ⟨hcalm, fun h => absurd rfl h⟩
    | no => exact hnext _ (by simp)
    | unknown => exact hnext _ (by simp)

theorem calm_classHasMemberAt (name : String) : ∀ (t : Table) (k : TypeId) (visited : List TypeId) (rest : List TypeRef)
    (r : Option TypeRef), t.Sound → t.store.Final k → (∀ ref ∈ rest, t.store.RefKnown ref) →
    t.store.Search name (.direct k :: rest) visited r →
    Ensures True t (classHasMemberAt depth k name visited) (t.Resumes (· ≠ .yes) name rest r) := by
  induction depth with
  | zero => exact fun _ _ _ _ _ _ _ _ _ => trivial
  | succ depth ih =>
    intro t k visited rest r ht hk hknown h
    unfold classHasMemberAt
    rcases h.turn hk with ⟨hmem, hrest⟩ | ⟨hnot, hturn⟩
    · rw [if_pos (by simpa using hmem)]
      exact .pure ⟨.refl ht, fun _ => hrest⟩
    rw [if_neg (by simpa using hnot)]
    refine Ensures.get_bind ?_
    rcases hturn with ⟨info, found, hclass, hget, -⟩ | ⟨info, hclass, hget, hrest⟩ | ⟨hclass, hrest⟩
    · simp only [show t.form k = _ from hclass, OrderedMap.contains, hget]
      exact .pure ⟨.refl ht, fun h => absurd rfl h⟩
    · simp only [show t.form k = _ from hclass, OrderedMap.contains, hget]
      have hrefs := List.forall_mem_append.2 ⟨fun _ => ht.store.refKnown_of_base hclass, hknown⟩
      exact calm_searchBases ih _ info.bases rest (k :: visited) r ht hrefs hrest
    · split
      · rename_i hform
        rw [show t.store.form k = _ from hform] at hclass
        cases hclass
      · exact .pure ⟨.refl ht, fun _ => hrest⟩

theorem AtRest.asks_classHasMember (ht : t.AtRest) (hk : t.store.Final k) (name : String) :
    t.Asks True (classHasMember k name) fun a t' =>
      (∃ found, (a = .yes ↔ found.isSome = true) ∧ t'.store.Search name [.direct k] [] found) ∧
        ∀ found, t.store.Search name [.direct k] [] found → t.Calm t' := by
  have hcalm : Ensures True t (classHasMember k name) fun _ t' =>
      (∃ found, t.store.Search name [.direct k] [] found) → t.Calm t' := by
    refine .assuming fun ⟨found, hsearch⟩ => ?_
    unfold classHasMember
    refine Query.ensures_enough (Ensures.map ?_)
    exact (calm_classHasMemberAt _ name t k [] [] _ ht.toSound hk (by simp) hsearch).imp fun _ _ h => h.1
  have hasks := (Lookups.sound_ofTable.classHasMember (fun s hs => hs.rules_decides name) k ht.toSound).asks
  rw [Lookups.classHasMember_ofTable] at hasks
  refine Ensures.imp (Ensures.and hasks hcalm) fun a t' ⟨⟨hproceeds, ha⟩, hcalm⟩ =>
    ⟨hproceeds, ?_, fun found h => hcalm ⟨found, h⟩⟩
  obtain ⟨visited, found, hyes, hseeks⟩ := ha (ht.clear True) hk t'.store (ht.proceeds hproceeds).store (.refl _)
  exact ⟨found, hyes, hseeks.search⟩

/-! ## What the answer says -/

/-- The answer `yes` is given only if the type has the member, and it is given without any look-up
if the type had it before. -/
structure Reports (t : Table) (name : String) (x : TypeId) (a : Ternary) (t' : Table) : Prop where
  proceeds : t.Proceeds True t'
  has : a = .yes → t'.Has name x
  calm : t.Has name x → t.Calm t' ∧ a = .yes

theorem reports_pure (ht : t.Sound) (h : a = .yes ↔ t.Has name x) : Ensures True t (pure a) (t.Reports name x) :=
  .pure ⟨.refl t, h.1, fun hhas => ⟨.refl ht, h.2 hhas⟩⟩

theorem Reports.before (h : t1.Reports name x a t') (ht : t.Sound) (hx : t.store.Known x) (hproceeds : t.Proceeds True t1)
    (hcalm : t.Has name x → t.Calm t1) : t.Reports name x a t' := by
  refine ⟨hproceeds.trans h.proceeds, h.has, fun hhas => ?_⟩
  obtain ⟨hcalm', ha⟩ := h.calm (hhas.proceeds ht hproceeds hx)
  exact ⟨(hcalm hhas).trans hcalm', ha⟩

theorem Has.lookedUp (h : t.Has name x) : t.store.LookedUp x := by
  intro z hz
  cases h _ hz with
  | bound hentry => exact final_of_isModule (isModule_of_memberRef? hentry)
  | served hserves =>
    cases hserves with
    | inherited hclass _ => exact final_of_isClass hclass

theorem Reports.forced (h : t1.Reports name y a t') (ht : t.AtRest) (hx : t.store.Known x)
    (hproceeds : t.Proceeds True t1) (hy : t.ForcedTo x y t1) : t.Reports name x a t' := by
  have ht1 := ht.proceeds hproceeds
  have hx1 := (ht.retains hproceeds).known hx
  have hreports : t1.Reports name x a t' := by
    refine ⟨h.proceeds, fun ha => ?_, fun hhas => h.calm (hhas.of_matches (hy.forced.matches ht1.store).symm)⟩
    exact (h.has ha).of_matches (ht1.matches_later hx1 hy.plain hy.forced h.proceeds)
  exact hreports.before ht.toSound hx hproceeds fun hhas => hy.calm (hhas.lookedUp.forceable ht.store hx)

theorem ClassedBy.search_of_has (h : t.ClassedBy x k) (hhas : t.Has name x) :
    ∃ ref, t.store.Search name [.direct k] [] (some ref) := by
  cases h with
  | self hclass =>
    cases hhas _ ((comprises_of_isScope (isScope_of_class hclass)).2 rfl) with
    | bound hentry => grind [isClass_of_isModule, isModule_of_memberRef?]
    | served hserves =>
      cases hserves with
      | inherited _ hsearch => exact ⟨_, hsearch⟩
  | ofInstance hshape hsole hclass =>
    cases hhas _ ((comprises_instance hshape).2 rfl) with
    | served hserves =>
      cases hserves with
      | ofInstance hsole' _ hsearch => exact ⟨_, hsole.unique hsole' ▸ hsearch⟩
  | classless hshape hclassless _ _ =>
    cases hhas _ ((comprises_instance hshape).2 rfl) with
    | served hserves => cases hserves.unique (.classless hclassless)

theorem AtRest.reports_classed (ht : t.AtRest) (h : t.ClassedBy x k) (hk : t.store.Final k)
    (name : String) : Ensures True t (classHasMember k name) (t.Reports name x) := by
  refine Ensures.imp (ht.asks_classHasMember hk name) fun a t' ⟨hproceeds, ⟨found, hyes, hsearch⟩, hcalm⟩ => ?_
  have ht' := ht.proceeds hproceeds
  have hretains := ht.retains hproceeds
  refine ⟨hproceeds, fun ha => ?_, fun hhas => ?_⟩
  · obtain ⟨ref, rfl⟩ := Option.isSome_iff_exists.1 (hyes.1 ha)
    obtain ⟨p, hiff, hserves⟩ := (h.retains ht.toSound ht'.toSound hretains).serves hsearch
    exact has_of_comprises hiff (.served hserves)
  · obtain ⟨ref, hsearch'⟩ := h.search_of_has hhas
    refine ⟨hcalm _ hsearch', hyes.2 ?_⟩
    rw [hsearch.unique (hsearch'.retains_direct hretains ht.store (hsearch'.isClass hk))]
    rfl

theorem has_module_iff {info : ModuleType} (hform : t.form m = .ofModule info) :
    t.Has name m ↔ info.members.contains name = true := by
  have hmodule : (t.form m).isModule = true := by rw [hform]; rfl
  have hiff : ∀ q, t.store.Comprises m q ↔ q = .type m := fun q => comprises_of_isScope (isScope_of_module hmodule)
  have hentry := memberRef?_of_form hform name
  constructor
  · intro hhas
    cases hhas _ ((hiff _).2 rfl) with
    | bound hbound =>
      rw [OrderedMap.contains, ← hentry, hbound]
      rfl
    | served hserves => exact absurd hmodule hserves.not_module
  · intro hcontains
    obtain ⟨ref, href⟩ := Option.isSome_iff_exists.1 hcontains
    exact has_of_comprises hiff (.bound (hentry.trans href))

theorem AtRest.reports_mapM {ask : TypeId → Query Ternary} (ht : t.AtRest) (cs : List TypeId)
    (hknown : ∀ c ∈ cs, t.store.Known c)
    (hask : ∀ {t : Table} {x : TypeId}, t.AtRest → t.store.Known x → Ensures True t (ask x) (t.Reports name x)) :
    Ensures True t (cs.mapM ask) fun as t' => t.Proceeds True t' ∧ ((∀ c ∈ cs, t.Has name c) → t.Calm t') ∧
      List.Forall₂ (fun c a => (a = .yes → t'.Has name c) ∧ (t.Has name c → a = .yes)) cs as := by
  have hstays : ∀ c ∈ cs, ∀ t1 t2 : Table, t.Proceeds True t1 → t1.Proceeds True t2 → t1.Has name c → t2.Has name c :=
    fun c hc t1 t2 h1 h2 hhas => hhas.proceeds (ht.proceeds h1).toSound h2 ((ht.retains h1).known (hknown c hc))
  refine ensures_mapM ht.toSound cs hstays (fun c hc a t1 t2 h1 h2 ha =>
    ⟨fun hyes => hstays c hc t1 t2 h1 h2 (ha.1 hyes), ha.2⟩) fun c hc t1 h1 => ?_
  refine (hask (ht.proceeds h1) ((ht.retains h1).known (hknown c hc))).imp fun a t2 h2 =>
    ⟨h2.proceeds, fun hhas => (h2.calm hhas).1, h2.has, fun hhas => (h2.calm (hstays c hc t t1 (.refl t) h1 hhas)).2⟩

theorem AtRest.reports_hasMemberAt (name : String) : ∀ {t : Table} {x : TypeId}, t.AtRest → t.store.Known x →
    Ensures True t (hasMemberAt depth x name) (t.Reports name x) := by
  induction depth with
  | zero => exact fun _ _ => trivial
  | succ depth ih =>
    intro t x ht hx
    unfold hasMemberAt
    refine Ensures.bind (ht.asks_forced hx) fun u t1 h1 => Ensures.get_bind ?_
    obtain ⟨hproceeds, hu⟩ := h1
    have ht1 := ht.proceeds hproceeds
    suffices hreports : Ensures True t1 _ (t1.Reports name u) from hreports.imp fun a t' h => h.forced ht hx hproceeds hu
    cases hform : t1.form u with
    | ofModule info =>
      refine reports_pure ht1.toSound ?_
      rw [has_module_iff hform]
      split <;> simp_all
    | ofClass info =>
      have hclass : (t1.form u).isClass = true := by rw [hform]; rfl
      exact ht1.reports_classed (.self hclass) (final_of_isClass hclass) name
    | object cls =>
      have hshape : t1.store.shape u = .object cls := shape_of_form hform
      have hcls := ht1.store.refKnown_of_object hshape
      cases cls with
      | slot w => exact absurd hshape (hu.forced.not_waiting ht1.store ht1.interned w)
      | direct c =>
        have hclass : Ensures True t1 (Query.resolvedRef (.direct c)) _ := .get_bind (ht1.asks_forced hcls)
        refine hclass.bind fun k t2 h2 => ?_
        obtain ⟨hproceeds2, hk⟩ := h2
        have ht2 := ht1.proceeds hproceeds2
        have hclassed := ht2.classedBy_of_forced ((ht1.retains hproceeds2).shape_object hshape) hk.forced hk.plain
        refine (ht2.reports_classed hclassed (hk.forced.final ht2.store ht2.interned hk.plain) name).imp fun a t3 h3 =>
          h3.before ht1.toSound hu.plain.1 hproceeds2 fun hhas => hk.calm ?_
        cases hhas _ ((comprises_instance hshape).2 rfl) with
        | served hserves =>
          cases hserves with
          | ofInstance hsole hclass _ => exact (hsole.lookedUp (final_of_isClass hclass)).forceable ht1.store hcls
    | union cs =>
      have hcs : t1.store.candidates? u = some cs := candidates?_of_union hform
      refine (ht1.reports_mapM cs (ht1.store.wellFormed.known_of_form_union hcs) ih).bind fun as t2 h2 => .pure ?_
      obtain ⟨hproceeds2, hcalm, has⟩ := h2
      refine ⟨hproceeds2, fun hyes => ?_, fun hhas => ?_⟩
      · refine (has_of_candidates ((ht1.retains hproceeds2).candidates?_eq hcs)).2 fun c hc => ?_
        obtain ⟨a, ha, hreports⟩ := (exists_of_forall₂ has).1 c hc
        exact hreports.1 (((Ternary.agreement_eq_yes_iff as).1 hyes).2 a ha)
      · have hall := (has_of_candidates hcs).1 hhas
        refine ⟨hcalm hall, (Ternary.agreement_eq_yes_iff as).2 ⟨?_, fun a ha => ?_⟩⟩
        · rintro rfl
          obtain ⟨c, hc, -⟩ := ht1.store.exists_other_candidate ht1.interned hcs u
          exact List.ne_nil_of_mem hc (List.forall₂_nil_right_iff.1 has)
        · obtain ⟨c, hc, hreports⟩ := (exists_of_forall₂ has).2 a ha
          exact hreports.2 (hall c hc)
    | ofFunction info =>
      have hshape : t1.store.shape u = _ := shape_of_form hform
      refine reports_pure ht1.toSound ⟨by simp, fun hhas => ?_⟩
      exact absurd (.function hshape) (hhas _ ((comprises_of_function hshape).2 rfl)).not_serves_none
    | unknown | unresolvedImport _ =>
      have hunknown : (t1.store.shape u).isUnknown = true := by
        rw [shape_of_form hform]
        rfl
      refine reports_pure ht1.toSound ⟨by simp, fun hhas => ?_⟩
      exact absurd .unknown (hhas _ (comprises_unknown_iff.2 (.unknown hunknown))).not_serves_none
    | lazyUnion _ | lazy _ _ =>
      have hlazy : (t1.form u).isPlain = true := hu.plain.isPlain_form
      rw [hform] at hlazy
      cases hlazy

/-- The answer is not `yes` where looking for the member ended at a module without it. -/
theorem AtRest.hasMemberAt_of_halts (name : String) : ∀ {t : Table} {x y : TypeId}, t.AtRest →
    (t.form m).isModule = true → t.memberRef? m name = none → t.store.Means x y → t.Halts name m y →
    Ensures True t (hasMemberAt depth x name) fun a _ => a ≠ .yes := by
  induction depth with
  | zero => exact fun _ _ _ _ _ => trivial
  | succ depth ih =>
    intro t x y ht hm hentry hx hhalts
    unfold hasMemberAt
    refine (calm_resolvedQuery ht.toSound hx).bind fun u t1 hu => Ensures.get_bind ?_
    obtain ⟨rfl, hcalm1⟩ := hu
    have hproceeds1 : t.Proceeds True t1 := hcalm1.proceeds
    have ht1 : t1.AtRest := ht.proceeds hproceeds1
    have hretains1 := ht.retains hcalm1.proceeds
    have hm1 := hretains1.isModule hm
    have hentry1 : t1.memberRef? m name = none := (hcalm1.memberRef?_eq hm name).trans hentry
    rcases hhalts with rfl | ⟨before, after, hshape, hbefore⟩
    · cases hform : t1.form u with
      | ofModule info =>
        grind [memberRef?_of_form, Ensures.pure, OrderedMap.contains]
      | _ =>
        rw [show t1.store.form u = _ from hform] at hm1
        cases hm1
    · rw [show t1.form u = _ from form_of_shape (by simp) (hretains1.shape_union hshape)]
      have hcs := ht.store.wellFormed.known_of_form_union (candidates?_eq_some_iff.2 (.inl hshape))
      have hanswers : Ensures True t1 ((before ++ m :: after).mapM fun c => hasMemberAt depth c name) fun as _ =>
          ∃ a ∈ as, a ≠ .yes := by
        rw [List.mapM_append, List.mapM_cons]
        refine (ht1.reports_mapM before (fun c hc => hretains1.known (hcs c (by simp [hc])))
          (AtRest.reports_hasMemberAt depth name)).bind fun as t2 h2 => ?_
        obtain ⟨hproceeds2, hcalm2, -⟩ := h2
        have hcalm2 := hcalm2 fun c hc => (hbefore c hc).proceeds ht.toSound hproceeds1 (hcs c (by simp [hc]))
        have hm2 := (ht1.retains hproceeds2).isModule hm1
        have hentry2 : t2.memberRef? m name = none := (hcalm2.memberRef?_eq hm1 name).trans hentry1
        have hmodule := ih (ht1.proceeds hproceeds2) hm2 hentry2 (.final (final_of_isModule hm2)) (.inl rfl)
        refine Ensures.bind (P := fun bs _ => ∃ a ∈ bs, a ≠ .yes) ?_ fun bs _ hbs => .pure ?_
        · exact hmodule.bind fun a _ ha => (Ensures.anything _).bind fun bs _ _ => .pure ⟨a, by simp, ha⟩
        · obtain ⟨a, ha, hne⟩ := hbs
          exact ⟨a, by simp [ha], hne⟩
      grind [Ensures.bind, Ensures.pure, Ternary.agreement_eq_yes_iff]

/-! ## Asking and looking agree -/

theorem AtRest.asks_memberQuery (ht : t.AtRest) (hx : t.store.Known x) (name : String) :
    t.Asks True (Query.member x name) fun r t' => t'.Settles name x r := by
  show t.Asks True (Query.enough fun depth => memberAt depth x name) _
  exact .enough (asks_member _ name ht hx)

theorem AtRest.reports_hasMember (ht : t.AtRest) (hx : t.store.Known x) (name : String) :
    Ensures True t (Query.hasMember x name) (t.Reports name x) :=
  Query.ensures_enough (AtRest.reports_hasMemberAt _ name ht hx)

/-- A module without the member that has got it since has got a submodule. -/
theorem Has.bound_since (h : t'.Has name x) (ht : t.Sound) (hproceeds : t.Proceeds True t') (hx : t.store.Known x)
    (hm : (t.form m).isModule = true) (hentry : t.memberRef? m name = none) (hmx : t.store.Comprises x (.type m)) :
    ∃ sub, t'.memberRef? m name = some (.direct sub) ∧ (t'.form sub).isModule = true := by
  have hretains := (hproceeds.carries ht).2.retains
  have hm' : (t'.form m).isModule = true := hretains.isModule hm
  have hself : t'.store.Comprises m (.type m) := (comprises_of_isScope (isScope_of_module hm')).2 rfl
  cases h _ ((hretains.comprises_iff ht.store hx).2 ⟨_, hmx, hself⟩) with
  | bound hentry' =>
    rcases hproceeds.entry ht name hm with hsame | ⟨sub, hgave⟩
    · simp_all
    · exact ⟨sub, hgave.entry, hgave.isModule⟩
  | served hserves => exact absurd hm' hserves.not_module

/-- Asking whether a type has a member, right after looking for it, agrees with what was found: the
answer is `yes` if a member was found, and `no` only if none was. The answer `yes` means that one
was found, unless a lazy union is asked about and the asking itself bound a submodule in a module
that had no such member when none was found. -/
theorem member_hasMember_agree (project : Project) (stubs : StubStore) (settings : Settings) (stubPackages : Bool)
    (as : List TableAction) (has : (create project stubs settings stubPackages).ValidAll as) (x : TypeId)
    (hx : ((create project stubs settings stubPackages).performAll as).store.Known x) (name : String) :
    let t := (create project stubs settings stubPackages).performAll as
    ∃ r t₁ answer t₂, Query.member x name t = some (r, t₁) ∧ Query.hasMember x name t₁ = some (answer, t₂) ∧
      (r.isSome → answer = .yes) ∧ (answer = .no → r = none) ∧
      (answer = .yes → r.isSome ∨ (∃ cs, t.form x = .lazyUnion cs) ∧
        ∃ m sub, t₁.store.HasPart x (.type m) ∧ t₁.memberRef? m name = none ∧ t₂.memberRef? m name = some (.direct sub) ∧
          (t₂.form sub).isModule = true) := by
  intro t
  have ht : t.AtRest := (atRest_create project stubs settings stubPackages).performAll has
  obtain ⟨r, t₁, hmember, -⟩ := Ensures.exists_eq_some (Lookups.sound_ofTable.member name ht.toSound hx)
  obtain ⟨hproceeds₁, hsettles⟩ := Ensures.apply_some (ht.asks_memberQuery hx name) hmember
  have ht₁ := ht.proceeds hproceeds₁
  have hretains₁ := ht.retains hproceeds₁
  have hx₁ := hretains₁.known hx
  obtain ⟨answer, t₂, hanswer, -⟩ :=
    Ensures.exists_eq_some (Lookups.hasMember_ofTable ▸ Lookups.sound_ofTable.hasMember
    ht₁.toSound hx₁ name)
  obtain ⟨hproceeds₂, hhas₂, hcalm⟩ := Ensures.apply_some (ht₁.reports_hasMember hx₁ name) hanswer
  have hfound : r.isSome → answer = .yes := fun hr => (hcalm (hsettles.1 hr)).2
  refine ⟨r, t₁, answer, t₂, hmember, hanswer, hfound, fun hno => ?_, fun hyes => ?_⟩
  · cases r with
    | none => rfl
    | some id => rw [hfound rfl] at hno; cases hno
  cases r with
  | some id => exact .inl rfl
  | none =>
    right
    rcases hsettles.2 rfl with hlacks | ⟨m, hm, hentry, hmx, hhalts⟩
    -- what lacks the member when none is found still lacks it when the answer is given
    · exact absurd (hlacks.proceeds ht₁.toSound hproceeds₂ hx₁) (hhas₂ hyes).not_lacks
    · obtain ⟨sub, hsub, hmodule⟩ := (hhas₂ hyes).bound_since ht₁.toSound hproceeds₂ hx₁ hm hentry hmx
      refine ⟨?_, m, sub, hmx.hasPart, hentry, hsub, hmodule⟩
      by_contra hlazy
      obtain ⟨y, hy, hhalts⟩ := hhalts fun cs hcs =>
        hlazy ⟨cs, form_of_shape (by simp) (hretains₁.shape_back hx hcs rfl (by simp))⟩
      have hnot : Ensures True t₁ (Query.hasMember x name) _ :=
        Query.ensures_enough (AtRest.hasMemberAt_of_halts _ name ht₁ hm hentry hy hhalts)
      exact Ensures.apply_some hnot hanswer hyes

/-- Classes that inherit from each other, and from a common base on two ways; the last class to be
searched has the member `n`. -/
def roundabout : Project :=
  [[Descriptor.ofClass "X" (some "c.X") ["c.Y", "c.Z"] [] false none, .ofClass "Y" (some "c.Y") ["c.X", "d.W"] [] false none,
      .ofClass "Z" (some "c.Z") ["d.W", "d.V"] [] false none, .ofVariable { name := "v", hint := "c.X" }].foldl
        ModuleDescriptor.addMember (.ofPath "c"),
    [Descriptor.ofClass "W" (some "d.W") [] [] false none,
      .ofClass "V" (some "d.V") [] [.ofVariable { name := "n" }] false none].foldl ModuleDescriptor.addMember (.ofPath "d"),
    [Descriptor.ofVariable { name := "k", path := "c.X" }, .ofVariable { name := "i", path := "c.v" }].foldl
      ModuleDescriptor.addMember (.ofPath "z")].foldl Project.addModule {}

/-- The class or its instance, both looked up only when the member is. -/
theorem member_hasMember_agree_roundabout :
    let t := (create roundabout {} {}).performAll [.getType "z", .onStore (.unionOf [⟨2⟩, ⟨3⟩])]
    t.form ⟨5⟩ = .lazyUnion [⟨2⟩, ⟨3⟩] ∧ ∃ id t₁ t₂, Query.member ⟨5⟩ "n" t = some (some id, t₁) ∧
      Query.hasMember ⟨5⟩ "n" t₁ = some (.yes, t₂) := by
  have hfound :
    (Query.member ⟨5⟩ "n"
    ((create roundabout {} {}).performAll [.getType "z", .onStore (.unionOf [⟨2⟩, ⟨3⟩])])).map
      (fun r => r.1.isSome) = some true := by decide_cbv
  obtain ⟨r, t₁, answer, t₂, hmember, hanswer, hyes, -, -⟩ := member_hasMember_agree roundabout {}
    {} true [.getType "z", .onStore (.unionOf [⟨2⟩, ⟨3⟩])] (by decide_cbv) ⟨5⟩ (by decide_cbv) "n"
  rw [hmember] at hfound
  have hsome : r.isSome = true := Option.some.inj hfound
  obtain ⟨id, rfl⟩ := Option.isSome_iff_exists.1 hsome
  exact ⟨by cbv, id, t₁, t₂, hmember, hyes rfl ▸ hanswer⟩

/-- A union of instances whose classes are looked up in turn, one of them below the module `k`. -/
def importsLate : Project :=
  [ModuleDescriptor.ofPath "k",
    ModuleDescriptor.addMember (.ofPath "k.n") (.ofClass "B" (some "k.n.B") [] [.ofVariable { name := "n" }] false none),
    ModuleDescriptor.addMember (.ofPath "a") (.ofClass "A" (some "a.A") [] [.ofVariable { name := "n" }] false none),
    ModuleDescriptor.addMember (.ofPath "m")
      (.ambiguous "u" (some "m.u") [.ofVariable { name := "u", hint := "a.A" },
        .ofVariable { name := "u", hint := "k.n.B" }]),
    ModuleDescriptor.addMember (.ofPath "z") (.ofVariable { name := "y", path := "m.u" })].foldl Project.addModule {}

/-- No member is found because `k` has none. To ask looks up the class below `k` first, and `k` then
has its submodule as a member. -/
theorem hasMember_yes_importsLate :
    ∃ t₁ t₂,
    Query.member ⟨16⟩ "n"
    ((create importsLate {} {}).performAll [.getType "k", .getType "m", .getType "a.A",
      .getType "z",
        .onStore (.instanceOf (.direct ⟨9⟩)), .onStore (.unionOf [⟨4⟩, ⟨2⟩, ⟨6⟩]), .onStore (.unionOf [⟨6⟩, ⟨2⟩, ⟨13⟩]),
        .onStore (.unionOf [⟨11⟩, ⟨2⟩])]) = some (none, t₁) ∧
      Query.hasMember ⟨16⟩ "n" t₁ = some (.yes, t₂) := by
  have hboth : ((Query.member ⟨16⟩ "n" ((create importsLate {} {}).performAll [.getType "k", .getType "m", .getType "a.A",
      .getType "z", .onStore (.instanceOf (.direct ⟨9⟩)), .onStore (.unionOf [⟨4⟩, ⟨2⟩, ⟨6⟩]),
      .onStore (.unionOf [⟨6⟩, ⟨2⟩, ⟨13⟩]), .onStore (.unionOf [⟨11⟩, ⟨2⟩])])).bind fun r =>
      (Query.hasMember ⟨16⟩ "n" r.2).map fun r' => (r.1, r'.1)) = some (none, .yes) := by decide_cbv
  obtain ⟨⟨found, t₁⟩, hmember, hboth⟩ := Option.bind_eq_some_iff.1 hboth
  obtain ⟨⟨answer, t₂⟩, hanswer, heq⟩ := Option.map_eq_some_iff.1 hboth
  obtain ⟨rfl, rfl⟩ := Prod.mk.inj heq
  exact ⟨t₁, t₂, hmember, hanswer⟩

end Table

end PythonTypes
