import PythonTypes.Proofs.Table.Agreement
import PythonTypes.Table.Check

/-!
# Answers about the ancestors of a class

Whether a class has a member, and whether it lies below another class, is asked of the class and of
everything that can be reached from it through its bases (`Ancestor`). However the bases are
connected, the answers are exact (`hasMember_exact`, `instanceOf_exact`), and stay so whatever is
done to the table afterwards. A member that is there is found in the first class that declares it,
in the order of a depth-first walk that takes bases from left to right (`Preorder`). A check of
several predicates splits a union once, so it can contradict the types that remain when candidates
are split too (`check_disagrees_declaredTwice`).
-/

set_option autoImplicit false

namespace PythonTypes

open Table TypeStore

/-- The answer is `yes` if something is found, otherwise `unknown` if something is unsure. -/
structure Ternary.IsExact (a : Ternary) (found unsure : Prop) : Prop where
  yes_iff : a = .yes ↔ found
  unknown_iff : a = .unknown ↔ ¬ found ∧ unsure
  no_iff : a = .no ↔ ¬ found ∧ ¬ unsure

theorem Ternary.yes_and (a : Ternary) : yes.and a = a := by cases a <;> rfl

namespace Ternary.IsExact

variable {a b : Ternary} {found unsure found' unsure' : Prop}

theorem of_found (h : found) : IsExact .yes found unsure := ⟨by simp [h], by simp [h], by simp [h]⟩

theorem of_not_found (h : ¬ found) (ha : a ≠ .yes) (hunknown : a = .unknown ↔ unsure) : a.IsExact found unsure := by
  have hno : a = .no ↔ ¬ unsure := by cases a <;> simp_all
  exact ⟨by simp [h, ha], by simp [h, hunknown], by simp [h, hno]⟩

theorem congr (h : a.IsExact found unsure) (hfound : found ↔ found') (hunsure : unsure ↔ unsure') :
    a.IsExact found' unsure' :=
  ⟨h.yes_iff.trans hfound, h.unknown_iff.trans (and_congr (not_congr hfound) hunsure),
    h.no_iff.trans (and_congr (not_congr hfound) (not_congr hunsure))⟩

end Ternary.IsExact

namespace Table

variable {t t' : Table} {name : String} {x k c : TypeId}
variable {info : ClassType} {settles unsure : ClassType → Bool} {a : Ternary}
  {visited : List TypeId} {mayStop : Prop} {found : TypeRef}

/-! ## Ancestors -/

/-- What the bases of a class are resolved to. -/
def parents (t : Table) (k : TypeId) : List TypeId :=
  match t.form k with
  | .ofClass info => info.bases.map fun ref => (Table.resolvedRef ref t).1
  | _ => []

/-- Whether `c` is `k` or can be reached from it through bases. -/
def Ancestor (t : Table) : TypeId → TypeId → Prop := Relation.ReflTransGen fun k b => b ∈ t.parents k

/-- What a class declares under a name. -/
def declared? (t : Table) (name : String) (k : TypeId) : Option TypeRef :=
  match t.form k with
  | .ofClass info => info.members.get? name
  | _ => none

/-- Whether a type may have members that no class declares: it has a metaclass, or is no class. -/
def isOpen (t : Table) (k : TypeId) : Bool :=
  match t.form k with
  | .ofClass info => info.hasMetaclass
  | _ => true

theorem Sound.resolvedRef_of_refMeans (ht : t.Sound) {ref : TypeRef} {b : TypeId}
    (h : t.store.RefMeans ref b) : (Table.resolvedRef ref t).1 = b := by
  obtain ⟨t', hresolved, -⟩ := ht.resolved_of_means h
  have hquery : Query.resolvedRef ref t = some (b, t') := hresolved
  unfold Table.resolvedRef Query.answer
  rw [hquery]
  rfl

theorem parents_of_class (h : t.form k = .ofClass info) :
    t.parents k = info.bases.map fun ref => (Table.resolvedRef ref t).1 := by
  unfold parents
  rw [h]

theorem parents_of_not_class (h : (t.form k).isClass = false) : t.parents k = [] := by
  unfold parents
  cases hform : t.form k with
  | ofClass info =>
    rw [hform] at h
    cases h
  | _ => rfl

theorem Sound.ancestor_of_descends (ht : t.Sound) (h : t.store.Descends k c) : t.Ancestor k c := by
  refine Relation.ReflTransGen.mono (r := t.store.HasBase) (fun k b hbase => ?_) _ _ h
  obtain ⟨info, hclass, ref, href, hb⟩ := hbase
  rw [parents_of_class hclass]
  exact List.mem_map.2 ⟨ref, href, ht.resolvedRef_of_refMeans hb⟩

theorem Sound.isExact_of_judged (ht : t.Sound) (hk : t.store.Final k)
    (h : t.store.Judged settles unsure .no [.direct k] [] (a, visited)) :
    a.IsExact (∃ c info, t.Ancestor k c ∧ t.form c = .ofClass info ∧ settles info = true)
      (∃ c, t.Ancestor k c ∧ ∀ info, t.form c = .ofClass info → unsure info = true) := by
  rcases h.exact hk with ⟨rfl, c, info, hc, hclass, hsettles⟩ | ⟨ha, met, hmem, hmet, hunknown⟩
  · exact .of_found ⟨c, info, ht.ancestor_of_descends hc, hclass, hsettles⟩
  -- nothing was found, so what was met is closed under bases and holds all ancestors
  have hall : ∀ c, t.Ancestor k c ↔ c ∈ met := by
    refine fun c => ⟨fun hc => ?_, fun hc => ht.ancestor_of_descends (hmet c hc).1⟩
    induction hc with
    | refl => exact hmem
    | @tail c b _ hb ih =>
      cases hform : t.form c with
      | ofClass info =>
        rw [parents_of_class hform] at hb
        obtain ⟨ref, href, rfl⟩ := List.mem_map.1 hb
        obtain ⟨b, hb, hmeans⟩ := ((hmet c ih).2 info hform).2 ref href
        rwa [ht.resolvedRef_of_refMeans hmeans]
      | _ =>
        rw [parents_of_not_class (by rw [hform]; rfl)] at hb
        cases hb
  refine .of_not_found ?_ ha (hunknown.trans (exists_congr fun c => and_congr_left fun _ => (hall c).symm))
  rintro ⟨c, info, hc, hclass, hsettles⟩
  have hnot := ((hmet c ((hall c).1 hc)).2 info hclass).1
  rw [hsettles] at hnot
  cases hnot

theorem ancestor_of_not_class (h : (t.form k).isClass = false) : t.Ancestor k c ↔ c = k := by
  refine ⟨fun hc => ?_, fun hc => hc ▸ .refl⟩
  rcases Relation.ReflTransGen.cases_head hc with rfl | ⟨b, hb, -⟩
  · rfl
  · rw [parents_of_not_class h] at hb
    cases hb

theorem isExact_of_not_class (h : (t.form k).isClass = false) :
    a.IsExact (∃ c info, t.Ancestor k c ∧ t.form c = .ofClass info ∧ settles info = true)
      (∃ c, t.Ancestor k c ∧ ∀ info, t.form c = .ofClass info → unsure info = true) ↔ a = .unknown := by
  have hnot := TypeForm.isClass_eq_false_iff.1 h
  have hfound : ¬ ∃ c info, t.Ancestor k c ∧ t.form c = .ofClass info ∧ settles info = true := by
    rintro ⟨c, info, hc, hclass, -⟩
    rw [(ancestor_of_not_class h).1 hc] at hclass
    exact hnot info hclass
  have hunsure : ∃ c, t.Ancestor k c ∧ ∀ info, t.form c = .ofClass info → unsure info = true :=
    ⟨k, .refl, fun info hinfo => absurd hinfo (hnot info)⟩
  grind [Ternary.IsExact.unknown_iff, Ternary.IsExact.of_not_found]

/-! ## The class that is asked about -/

theorem AtRest.final_of_resolved (ht : t.AtRest) (hx : t.store.Known x)
    (hself : (Table.resolved x t).1 = x) : t.store.Final x := by
  obtain ⟨u, t', hanswer, ⟨hproceeds, -⟩, hu⟩ := Ensures.exists_eq_some (Lookups.sound_ofTable.resolved ht.toSound hx)
  have hquery : Query.resolved x t = some (u, t') := hanswer
  obtain rfl : u = x := by
    simp_all [resolved, Query.answer]
  have ht' := ht.proceeds hproceeds
  have hretains := ht.retains hproceeds
  have hfinal := (hu.forced (.inl (ht.clear True))).final ht'.store ht'.interned hu.plain
  exact ⟨⟨hx, (hretains.isPlain_eq hx).symm.trans hfinal.1.2⟩, fun w hw => hfinal.2 w (hretains.shape_object hw)⟩

theorem AtRest.asks_final (ht : t.AtRest) (hx : t.store.Final x) :
    t.Asks True (Query.resolved x) fun u t' => u = x ∧ t.Calm t' :=
  (calm_resolvedQuery ht.toSound (.final hx)).imp fun _ _ hu => ⟨hu.2.proceeds, hu⟩

theorem AtRest.finds_class (ht : t.AtRest) (hx : t.store.shape x = .object (.direct c)) :
    t.Finds mayStop True (Query.resolvedRef (.direct c)) fun k t' => t'.ClassedBy x k ∧ t'.store.Final k := by
  refine (Lookups.sound_ofTable.resolvedRef ht.toSound (ht.store.refKnown_of_object hx)).imp
    ht.toSound fun k t' ht' hpasses hk => ?_
  have hforced := hk.forced (.inl (ht.clear True))
  exact ⟨ht'.classedBy_of_forced (hpasses.retains.shape_object hx) hforced hk.plain,
    hforced.final ht'.store ht'.interned hk.plain⟩

theorem AtRest.obtains_classOrSelf (ht : t.AtRest) (hx : t.store.Final x)
    (hform : (t.form x).isClass = true ∨ (t.form x).isInstance = true) :
    t.Obtains (classOrSelf x) fun k t' => t'.ClassedBy x k ∧ t'.store.Final k := by
  refine .get_bind ?_
  cases hform' : t.form x with
  | ofClass info =>
    have hclass : (t.form x).isClass = true := by rw [hform']; rfl
    exact .pure ⟨.self hclass, hx⟩
  | object cls =>
    have hshape : t.store.shape x = .object cls := shape_of_form hform'
    cases cls with
    | slot w => exact absurd hshape (hx.2 w)
    | direct c => exact .of_finds (ht.finds_class hshape) _
  | _ =>
    rw [hform'] at hform
    rcases hform with hform | hform <;> cases hform

/-- What is asked about `x` is judged by its class `k`, with the answer `a` from now on. -/
structure JudgedBy (t : Table) (settles unsure : ClassType → Bool) (x k : TypeId) (a : Ternary) : Prop where
  classed : t.ClassedBy x k
  final : t.store.Final k
  judged : ∀ s, s.Tidy → t.store.Retains s → ∃ visited, s.Judged settles unsure .no [.direct k] [] (a, visited)

section JudgedBy

theorem JudgedBy.retains (h : t.JudgedBy settles unsure x k a) (ht : t.Sound) (ht' : t'.Sound)
    (hretains : t.store.Retains t'.store) : t'.JudgedBy settles unsure x k a :=
  ⟨h.classed.retains ht ht' hretains, h.final.retains hretains, fun s hs hs' => h.judged s hs (hretains.trans hs')⟩

theorem JudgedBy.isExact (h : t.JudgedBy settles unsure x k a) (ht : t.AtRest) (hx : t.store.Final x) :
    a.IsExact (∃ c info, t.Ancestor (Table.classOrSelf x t).1 c ∧ t.form c = .ofClass info ∧ settles info = true)
      (∃ c, t.Ancestor (Table.classOrSelf x t).1 c ∧ ∀ info, t.form c = .ofClass info → unsure info = true) := by
  obtain ⟨visited, hjudged⟩ := h.judged t.store ht.store (.refl _)
  have hexact := ht.toSound.isExact_of_judged h.final hjudged
  have hform : (t.form x).isClass = true ∨ (t.form x).isInstance = true := by
    cases h.classed with
    | self hclass => exact .inl hclass
    | ofInstance hshape _ _ | classless hshape _ _ _ =>
      rw [show t.form x = _ from form_of_shape (by simp) hshape]
      exact .inr rfl
  obtain ⟨hproceeds, hclassed, -⟩ := ht.obtains_classOrSelf hx hform
  have hretains := ht.retains hproceeds
  rcases (h.classed.retains ht.toSound (ht.proceeds hproceeds).toSound hretains).unique hclassed with heq | ⟨hnot, hnot'⟩
  · rwa [← heq]
  · rw [isExact_of_not_class ((hretains.isClass_eq h.final.1.1).symm.trans hnot)] at hexact
    refine (isExact_of_not_class (Bool.eq_false_iff.2 fun hclass => ?_)).2 hexact
    exact Bool.false_ne_true (hnot'.symm.trans (hretains.isClass hclass))

end JudgedBy

/-! ## Members -/

/-- Initial parts of the order in which a depth-first walk from some types meets them and their
ancestors, bases from left to right. Types that were seen before are passed over. -/
inductive Preorder (t : Table) : List TypeId → List TypeId → List TypeId → Prop
  | stop {starts seen : List TypeId} : Preorder t starts seen []
  | seen {b : TypeId} {rest seen order : List TypeId} : b ∈ seen → Preorder t rest seen order →
      Preorder t (b :: rest) seen order
  | visit {b : TypeId} {rest seen order : List TypeId} : b ∉ seen → Preorder t (t.parents b ++ rest)
      (b :: seen) order → Preorder t (b :: rest) seen (b :: order)

/-- The first of the ancestors of `k`, in preorder, that declares the name declares it as `ref`. -/
def DeclaredFirst (t : Table) (name : String) (k : TypeId) (ref : TypeRef) : Prop :=
  ∃ before b, t.Preorder [k] [] (before ++ [b]) ∧ (∀ c ∈ before, t.declared? name c = none) ∧ t.declared? name b = some ref

theorem declared?_of_class (h : t.form k = .ofClass info) : t.declared? name k = info.members.get? name := by
  unfold declared?
  rw [h]

theorem declared?_of_not_class (h : (t.form k).isClass = false) : t.declared? name k = none := by
  unfold declared?
  cases hform : t.form k with
  | ofClass info =>
    rw [hform] at h
    cases h
  | _ => rfl

/-- A search for a member walks in preorder. -/
theorem Sound.preorder_of_search (ht : t.Sound) {refs : List TypeRef} (h : t.store.Search name refs visited (some found)) :
    ∃ before b, t.Preorder (refs.map fun ref => (Table.resolvedRef ref t).1) visited (before ++ [b]) ∧
      (∀ c ∈ before, t.declared? name c = none) ∧ t.declared? name b = some found := by
  generalize hr : some found = r at h
  induction h with
  | nil => cases hr
  | seen hb hmem _ ih =>
    obtain ⟨before, b, horder, hbefore, hfound⟩ := ih hr
    rw [List.map_cons, ht.resolvedRef_of_refMeans hb]
    exact ⟨before, b, .seen hmem horder, hbefore, hfound⟩
  | @own ref _ b _ _ info hb hnot hclass hmember =>
    cases hr
    rw [List.map_cons, ht.resolvedRef_of_refMeans hb]
    exact ⟨[], b, .visit hnot .stop, by simp, (declared?_of_class hclass).trans hmember⟩
  | @bases ref b rest visited info _ hb hnot hclass hmember _ ih =>
    obtain ⟨before, b', horder, hbefore, hfound⟩ := ih hr
    rw [List.map_append, ← parents_of_class hclass] at horder
    rw [List.map_cons, ht.resolvedRef_of_refMeans hb]
    refine ⟨b :: before, b', .visit hnot horder, fun c hc => ?_, hfound⟩
    rcases List.mem_cons.1 hc with rfl | hc
    · exact (declared?_of_class hclass).trans hmember
    · exact hbefore c hc
  | @other ref b rest visited _ hb hnot hclass _ ih =>
    obtain ⟨before, b', horder, hbefore, hfound⟩ := ih hr
    rw [List.map_cons, ht.resolvedRef_of_refMeans hb]
    refine ⟨b :: before, b', .visit hnot ?_, fun c hc => ?_, hfound⟩
    · rw [parents_of_not_class hclass]
      exact horder
    · rcases List.mem_cons.1 hc with rfl | hc
      · exact declared?_of_not_class hclass
      · exact hbefore c hc

theorem Sound.declaredFirst_of_search (ht : t.Sound) (hk : t.store.Final k)
    (h : t.store.Search name [.direct k] [] (some found)) : t.DeclaredFirst name k found := by
  obtain ⟨before, b, horder, hdeclared⟩ := ht.preorder_of_search h
  have hself : t.store.RefMeans (.direct k) k := .final hk
  rw [List.map_singleton, ht.resolvedRef_of_refMeans hself] at horder
  exact ⟨before, b, horder, hdeclared⟩

theorem AtRest.asks_classHasMember_judged (ht : t.AtRest) (h : t.ClassedBy x k) (hk : t.store.Final k) (name : String) :
    t.Asks True (classHasMember k name) fun a t' => ∃ k, t'.JudgedBy (·.members.contains name) (·.hasMetaclass) x k a ∧
      (a = .yes → ∃ found, t'.store.Search name [.direct k] [] (some found)) := by
  have hasks := (Lookups.sound_ofTable.classHasMember
    (fun s hs => hs.rules_judged (·.members.contains name) (·.hasMetaclass)) k ht.toSound).asks
  rw [Lookups.classHasMember_ofTable] at hasks
  refine Ensures.imp (Ensures.and (ht.asks_classHasMember hk name) hasks)
    fun a t' ⟨⟨hproceeds, ⟨found, hyes, hsearch⟩, _⟩, _, hjudged⟩ => ?_
  have hretains := ht.retains hproceeds
  refine ⟨hproceeds, k, ⟨h.retains ht.toSound (ht.proceeds hproceeds).toSound hretains,
    hk.retains hretains, hjudged (ht.clear True) hk⟩, fun ha => ?_⟩
  obtain ⟨found, rfl⟩ := Option.isSome_iff_exists.1 (hyes.1 ha)
  exact ⟨found, hsearch⟩

theorem AtRest.asks_hasMember_judged (ht : t.AtRest) (hx : t.store.Final x)
    (hform : (t.form x).isClass = true ∨ (t.form x).isInstance = true) (name : String) :
    t.Asks True (Query.hasMember x name) fun a t' => ∃ k, t'.JudgedBy (·.members.contains name) (·.hasMetaclass) x k a ∧
      (a = .yes → ∃ found, t'.store.Search name [.direct k] [] (some found)) := by
  obtain ⟨depth, hdepth⟩ := t.exists_depthBound
  show t.Asks True (Query.enough fun depth => hasMemberAt depth x name) _
  refine .enough ?_
  rw [hdepth]
  unfold hasMemberAt
  refine .follow (ht.asks_final hx) fun u t1 hproceeds1 hu => .get_bind ?_
  obtain ⟨rfl, -⟩ := hu
  have ht1 := ht.proceeds hproceeds1
  have hretains1 := ht.retains hproceeds1
  have hform1 : (t1.form u).isClass = true ∨ (t1.form u).isInstance = true := hform.imp hretains1.isClass hretains1.isInstance
  cases hform' : t1.form u with
  | ofClass info =>
    have hself : (t1.form u).isClass = true := by rw [hform']; rfl
    exact ht1.asks_classHasMember_judged (.self hself) (final_of_isClass hself) name
  | object cls =>
    have hshape : t1.store.shape u = .object cls := shape_of_form hform'
    cases cls with
    | slot w => exact absurd hshape ((hx.retains hretains1).2 w)
    | direct c =>
      refine .follow (ht1.finds_class hshape).asks fun k t2 hproceeds2 hk => ?_
      exact (ht1.proceeds hproceeds2).asks_classHasMember_judged hk.1 hk.2 name
  | _ =>
    rw [hform'] at hform1
    rcases hform1 with hform1 | hform1 <;> cases hform1

theorem AtRest.asks_member_inherited (ht : t.AtRest) (hx : t.store.Final x)
    (hform : (t.form x).isClass = true ∨ (t.form x).isInstance = true) (name : String) :
    t.Asks True (Query.member x name) fun r t' => ∃ k, t'.ClassedBy x k ∧ t'.store.Inherits name k r := by
  obtain ⟨depth, hdepth⟩ := t.exists_depthBound
  show t.Asks True (Query.enough fun depth => memberAt depth x name) _
  refine .enough ?_
  rw [hdepth, memberAt]
  unfold memberStep
  refine .follow (ht.asks_resolved depth hx.1.1) fun u t1 hproceeds1 hu => .get_bind ?_
  have ht1 := ht.proceeds hproceeds1
  have hretains1 := ht.retains hproceeds1
  obtain rfl := hu.forced.eq_of_final (hx.retains hretains1)
  have hform1 : (t1.form u).isClass = true ∨ (t1.form u).isInstance = true := hform.imp hretains1.isClass hretains1.isInstance
  have hclassed := ht1.asks_member_classed (hx.retains hretains1) hform1 depth name
  cases hform' : t1.form u with
  | ofClass _ | object _ =>
    rw [hform'] at hclassed
    exact Ensures.imp hclassed fun r t' h => ⟨h.1, h.2.1⟩
  | _ =>
    rw [hform'] at hform1
    rcases hform1 with hform1 | hform1 <;> cases hform1

theorem isOpen_iff : t.isOpen c = true ↔ ∀ info, t.form c = .ofClass info → info.hasMetaclass = true := by
  unfold isOpen
  cases t.form c <;> simp

theorem declared?_isSome_iff : (t.declared? name c).isSome = true ↔
    ∃ info, t.form c = .ofClass info ∧ info.members.contains name = true := by
  grind [declared?, OrderedMap.contains]

/-- Whether a class or instance has a member is answered exactly: `yes` if and only if a class among
the ancestors of its class declares it, otherwise `unknown` if and only if one of these has a
metaclass or is no class, and otherwise `no`. If the answer is `yes` then the member is found as the
first of them declares it. The answer stays right. -/
theorem hasMember_exact (project : Project) (stubs : StubStore) (settings : Settings) (stubPackages : Bool)
    (as : List TableAction) (has : (create project stubs settings stubPackages).ValidAll as)
    (x : TypeId) (hx : ((create project stubs settings stubPackages).performAll as).store.Known x)
    (hself : (Table.resolved x ((create project stubs settings stubPackages).performAll as)).1 = x)
    (hform : (((create project stubs settings stubPackages).performAll as).form x).isClass = true ∨
      (((create project stubs settings stubPackages).performAll as).form x).isInstance = true) (name : String) :
    ∃ answer t₁, Query.hasMember x name ((create project stubs settings stubPackages).performAll as) = some (answer, t₁) ∧
      ∀ later, t₁.ValidAll later →
        let t₂ := t₁.performAll later
        let k := (Table.classOrSelf x t₂).1
        answer.IsExact (∃ c, t₂.Ancestor k c ∧ (t₂.declared? name c).isSome = true)
          (∃ c, t₂.Ancestor k c ∧ t₂.isOpen c = true) ∧
        (answer = .yes → ∃ ref id t₃, t₂.DeclaredFirst name k ref ∧ Query.member x name t₂ =
          some (some id, t₃) ∧ (Table.resolvedRef ref t₃).1 = id) := by
  have ht := (atRest_create project stubs settings stubPackages).performAll has
  generalize (create project stubs settings stubPackages).performAll as = t at ht hx hself hform ⊢
  have hfinal := ht.final_of_resolved hx hself
  obtain ⟨answer, t₁, hanswer, -⟩ := Ensures.exists_eq_some
    (Lookups.hasMember_ofTable ▸ Lookups.sound_ofTable.hasMember ht.toSound hx name)
  refine ⟨answer, t₁, hanswer, fun later hlater => ?_⟩
  obtain ⟨hproceeds, k, hjudged, hyes⟩ := Ensures.apply_some (ht.asks_hasMember_judged hfinal hform name) hanswer
  have ht₁ := ht.proceeds hproceeds
  have hretains₁ := ht.retains hproceeds
  have ht₂ := ht₁.performAll hlater
  have hretains₂ := ht₁.retains_performAll hlater
  generalize t₁.performAll later = t₂ at ht₂ hretains₂ ⊢
  have hretains := hretains₁.trans hretains₂
  have hjudged₂ := hjudged.retains ht₁.toSound ht₂.toSound hretains₂
  have hclassed₂ := hjudged₂.classed
  have hfinal₂ := hfinal.retains hretains
  have hform₂ : (t₂.form x).isClass = true ∨ (t₂.form x).isInstance = true := hform.imp hretains.isClass hretains.isInstance
  refine ⟨(hjudged₂.isExact ht₂ hfinal₂).congr ?_ ?_, fun ha => ?_⟩
  · simp only [declared?_isSome_iff]
    grind
  · simp only [isOpen_iff]
  obtain ⟨found, hsearch⟩ := hyes ha
  have hkclass := hsearch.isClass hjudged.final
  have hsearch₂ := hsearch.retains_direct hretains₂ ht₁.store hkclass
  have hroot : (Table.classOrSelf x t₂).1 = k := by
    obtain ⟨hproceeds₃, hclassed₃, -⟩ := ht₂.obtains_classOrSelf hfinal₂ hform₂
    exact hclassed₂.eq_of_retains ht₂.toSound (ht₂.proceeds hproceeds₃).toSound
      (ht₂.retains hproceeds₃) (hretains₂.isClass hkclass) hclassed₃
  obtain ⟨r, t₃, hmember, -⟩ := Ensures.exists_eq_some (Lookups.sound_ofTable.member name ht₂.toSound hfinal₂.1.1)
  obtain ⟨hproceeds₃, k₃, hclassed₃, found₃, hfound₃, hid⟩ :=
    Ensures.apply_some (ht₂.asks_member_inherited hfinal₂ hform₂ name) hmember
  have ht₃ := ht₂.proceeds hproceeds₃
  have hretains₃ := ht₂.retains hproceeds₃
  obtain rfl := hclassed₂.eq_of_retains ht₂.toSound ht₃.toSound hretains₃ (hretains₂.isClass hkclass) hclassed₃
  cases (hsearch₂.retains_direct hretains₃ ht₂.store (hretains₂.isClass hkclass)).unique hfound₃
  rw [hroot]
  cases hid with
  | some hid => exact ⟨found, _, t₃, ht₂.toSound.declaredFirst_of_search hjudged₂.final hsearch₂,
      hmember, ht₃.toSound.resolvedRef_of_refMeans hid⟩

/-- Classes whose bases form a diamond and lead back to where they start. -/
def diamond : Project :=
  ({} : Project).addModule (ModuleDescriptor.addMembers (.ofPath "p") [
    .ofClass "A" (some "p.A") ["p.B", "p.C"] [] false none, .ofClass "B" (some "p.B") ["p.D"] [] false none,
    .ofClass "C" (some "p.C") ["p.D"] [.ofVariable { name := "f" }] false none,
    .ofClass "D" (some "p.D") ["p.A"] [.ofVariable { name := "f" }] false none])

theorem hasMember_exact_diamond :
    ∃ t₁,
    Query.hasMember ⟨11⟩ "f"
    ((create diamond {} {}).performAll [.getType "p.A", .onStore (.instanceOf (.direct ⟨4⟩))]) =
      some (.yes, t₁) ∧ ∃ ref, t₁.DeclaredFirst "f" (classOrSelf ⟨11⟩ t₁).1 ref := by
  obtain ⟨answer, t₁, hanswer, hexact⟩ := hasMember_exact diamond {}
    {} true [.getType "p.A", .onStore (.instanceOf (.direct ⟨4⟩))]
    (by decide +kernel) ⟨11⟩ (by decide +kernel) (by decide +kernel) (.inr (by decide +kernel)) "f"
  have hyes : (Query.hasMember ⟨11⟩ "f" ((create diamond {} {}).performAll
      [.getType "p.A", .onStore (.instanceOf (.direct ⟨4⟩))])).map Prod.fst = some .yes := by decide +kernel
  rw [hanswer] at hyes
  cases hyes
  obtain ⟨ref, -, -, hfirst, -⟩ := (hexact [] trivial).2 rfl
  exact ⟨t₁, hanswer, ref, hfirst⟩

/-! ## Instances of the classes below a class -/

theorem isClass_of_isUnknown (h : t.store.isUnknown k = true) : (t.form k).isClass = false := by
  refine TypeForm.isClass_eq_false_iff.2 fun info hinfo => ?_
  unfold TypeStore.isUnknown at h
  rw [show t.store.form k = _ from hinfo] at h
  cases h

theorem finds_inheritsFromAt (path : String) (depth : Nat) {cls : TypeId} (ht : t.Sound)
    (haffords : t.Affords mayStop (fun b => 6 + (b.classes - met t.store visited)) depth) :
    t.Finds mayStop True (inheritsFromAt depth cls path visited) fun r t' => visited ⊆ r.2 ∧
      (t.Clear True → t.store.Final cls → ∀ s, s.Tidy → t'.store.Retains s →
        s.Judged (fun info => info.path == some path) (fun _ => false) .no [.direct cls] visited r) := by
  induction depth generalizing t cls visited with
  | zero => exact .tooDeep (haffords.stop fun _ => by omega)
  | succ depth ih =>
    unfold inheritsFromAt
    refine .get_bind ?_
    split
    · -- an unknown type is not remembered, and leaves the question open whenever it is met
      rename_i hunknown
      refine .pure ⟨List.Subset.refl _, fun _ hcls s _ hretains =>
        .other (hcls.retains hretains) ?_ (List.subset_cons_self _ _)⟩
      rw [hretains.isClass_eq hcls.1.1]
      exact isClass_of_isUnknown hunknown
    split
    · rename_i hmem
      exact .pure ⟨List.Subset.refl _, fun _ hcls s hs hretains =>
        (hs.rules_judged _ _).seen (hcls.retains hretains) (by simpa using hmem)⟩
    · rename_i hmem
      have hnew : cls ∉ visited := by simpa using hmem
      have hjudge :=
        Lookups.sound_ofTable.judge
        (fun s hs => hs.rules_judged (fun info => info.path == some path) fun _ => false) ht hnew
        fun hclass t' base visited' ht' hpasses hsub => ih ht' ((haffords.visit hclass hnew).more hpasses hsub)
      cases hform : t.form cls with
      | ofClass info => grind [Lookups.searchBases_ofTable]
      | _ => simpa only [hform] using hjudge

theorem AtRest.obtains_inheritsFrom (ht : t.AtRest) (hk : t.store.Final k) (path : String) :
    t.Obtains (inheritsFrom k path) fun a t' => ∀ s, s.Tidy → t'.store.Retains s →
      ∃ visited, s.Judged (fun info => info.path == some path) (fun _ => false) .no [.direct k] [] (a, visited) := by
  refine .of_finds (.enough (.map ?_)) _
  refine (finds_inheritsFromAt path _ ht.toSound (t.affords_depthBound.le fun _ _ => by omega)).imp ht.toSound ?_
  exact fun r t' _ _ hr s hs hretains => ⟨r.2, hr.2 (ht.clear True) hk s hs hretains⟩

theorem AtRest.obtains_final (ht : t.AtRest) (hx : t.store.Final x) : t.Obtains (Table.resolved x) fun u _ => u = x := by
  obtain ⟨hproceeds, -, hforced⟩ := ht.obtains_resolved hx.1.1
  exact ⟨hproceeds, hforced.eq_of_final (hx.retains (ht.retains hproceeds))⟩

theorem AtRest.obtains_check (ht : t.AtRest) (hx : t.store.Final x) (hsingle : t.store.candidates? x = none)
    {conditions : List Condition} {Q : Ternary → Table → Prop} (h : ∀ t' : Table, t.Proceeds True t' → t'.Obtains
      (conditions.foldlM (fun result condition => return result.and (← satisfies x condition)) .yes) Q) :
    t.Obtains (check conditions x) Q := by
  refine (ht.obtains_final hx).bind fun u t1 hproceeds1 hu => .get_bind ?_
  subst hu
  have ht1 := ht.proceeds hproceeds1
  have hretains1 := ht.retains hproceeds1
  have hsingle1 : t1.store.candidates? u = none := by
    cases hcs : t1.store.candidates? u with
    | none => rfl
    | some cs => cases hsingle.symm.trans (hretains1.candidates?_back hx.1.1 hcs)
  rw [hsingle1]
  refine (ht1.obtains_final (hx.retains hretains1)).bind fun u' t2 hproceeds2 hu => ?_
  subst hu
  exact h t2 (hproceeds1.trans hproceeds2)

theorem AtRest.obtains_instanceOf (ht : t.AtRest) (hx : t.store.Final x)
    (hform : (t.form x).isInstance = true) (path : String) :
    t.Obtains (satisfies x (.instanceOf path))
      fun a t' => ∃ k, t'.JudgedBy (fun info => info.path == some path) (fun _ => false) x k a := by
  have hclass := ht.obtains_classOrSelf hx (.inr hform)
  refine .get_bind ?_
  cases hform' : t.form x with
  | object cls =>
    have hunknown : t.store.isUnknown x = false := by
      unfold TypeStore.isUnknown
      rw [show t.store.form x = _ from hform']
      rfl
    simp only [hunknown, Bool.false_eq_true, if_false]
    refine hclass.bind fun k t1 hproceeds1 hk => ?_
    have ht1 := ht.proceeds hproceeds1
    obtain ⟨hproceeds2, hjudged⟩ := ht1.obtains_inheritsFrom hk.2 path
    have hretains2 := ht1.retains hproceeds2
    exact ⟨hproceeds2, k, hk.1.retains ht1.toSound (ht1.proceeds hproceeds2).toSound hretains2,
      hk.2.retains hretains2, hjudged⟩
  | _ =>
    rw [hform'] at hform
    cases hform

/-- Whether an instance belongs to the class at a path or a class below it is answered exactly:
`yes` if and only if that class is among the ancestors of its class, otherwise `unknown` if and only
if one of these is unknown or no class, and otherwise `no`. The answer stays right. -/
theorem instanceOf_exact (project : Project) (stubs : StubStore) (settings : Settings) (stubPackages : Bool)
    (as : List TableAction) (has : (create project stubs settings stubPackages).ValidAll as) (x : TypeId)
    (hx : ((create project stubs settings stubPackages).performAll as).store.Known x)
    (hself : (Table.resolved x ((create project stubs settings stubPackages).performAll as)).1 = x)
    (hform : (((create project stubs settings stubPackages).performAll as).form x).isInstance = true) (path : String) :
    let r := check [.instanceOf path] x ((create project stubs settings stubPackages).performAll as)
    ∀ later, r.2.ValidAll later →
      let t := r.2.performAll later
      let k := (Table.classOrSelf x t).1
      r.1.IsExact (∃ c info, t.Ancestor k c ∧ t.form c = .ofClass info ∧ info.path = some path)
        (∃ c, t.Ancestor k c ∧ (t.store.isUnknown c = true ∨ (t.form c).isClass = false)) := by
  have ht := (atRest_create project stubs settings stubPackages).performAll has
  generalize (create project stubs settings stubPackages).performAll as = t at ht hx hself hform ⊢
  have hfinal := ht.final_of_resolved hx hself
  have hsingle : t.store.candidates? x = none := by
    cases hcs : t.store.candidates? x with
    | none => rfl
    | some cs =>
      unfold candidates? at hcs
      cases hform' : t.form x <;> simp_all [TypeForm.isInstance, Table.form]
  obtain ⟨hproceeds, k, hjudged⟩ : t.Obtains (check [.instanceOf path] x)
      fun a t' => ∃ k, t'.JudgedBy (fun info => info.path == some path) (fun _ => false) x k a := by
    refine ht.obtains_check hfinal hsingle fun t₁ hproceeds₁ => ?_
    have hretains₁ := ht.retains hproceeds₁
    simp only [List.foldlM_cons, List.foldlM_nil, Ternary.yes_and, bind_pure]
    exact (ht.proceeds hproceeds₁).obtains_instanceOf (hfinal.retains hretains₁) (hretains₁.isInstance hform) path
  intro r later hlater
  have ht₁ := ht.proceeds hproceeds
  have ht₂ := ht₁.performAll hlater
  have hretains₂ := ht₁.retains_performAll hlater
  have hexact := (hjudged.retains ht₁.toSound ht₂.toSound hretains₂).isExact ht₂
    (hfinal.retains ((ht.retains hproceeds).trans hretains₂))
  refine hexact.congr (by simp only [beq_iff_eq]; rfl) (exists_congr fun c => and_congr_right fun _ => ?_)
  refine ⟨fun hopen => .inr (TypeForm.isClass_eq_false_iff.2 fun info hinfo => ?_), fun hopen info hinfo => ?_⟩
  · cases hopen info hinfo
  · exact absurd hinfo (TypeForm.isClass_eq_false_iff.1 (hopen.elim isClass_of_isUnknown id) info)

theorem instanceOf_exact_diamond :
    let r := check [.instanceOf "p.D"] ⟨11⟩
      ((create diamond {} {}).performAll [.getType "p.A", .onStore (.instanceOf (.direct ⟨4⟩))])
    r.1 = .yes ∧ ∃ c info, r.2.Ancestor (classOrSelf ⟨11⟩ r.2).1 c ∧ r.2.form c = .ofClass info ∧ info.path = some "p.D" := by
  have hyes : (check [.instanceOf "p.D"] ⟨11⟩
      ((create diamond {} {}).performAll [.getType "p.A", .onStore (.instanceOf (.direct ⟨4⟩))])).1
        = .yes := by decide +kernel
  have hexact := instanceOf_exact diamond {}
    {} true [.getType "p.A", .onStore (.instanceOf (.direct ⟨4⟩))] (by decide +kernel) ⟨11⟩
    (by decide +kernel) (by decide +kernel) (by decide +kernel) "p.D" [] trivial
  exact ⟨hyes, hexact.yes_iff.1 hyes⟩

/-! ## Leaves -/

/-- What a type is split into when it is forced. -/
def split? (t : Table) (x : TypeId) : Option (List TypeId) := (Table.resolved x t).2.store.candidates? (Table.resolved x t).1

/-- `leaf` remains when `x` is forced and the candidates of unions are taken, again and again; `t'`
is the table after that. -/
inductive Leaf : Table → TypeId → TypeId → Table → Prop
  | whole {t : Table} {x : TypeId} : t.split? x = none → Leaf t x (Table.resolved x t).1 (Table.resolved x t).2
  | part {t t' : Table} {x c leaf : TypeId} {cs : List TypeId} : t.split? x = some cs → c ∈ cs →
      Leaf (Table.resolved x t).2 c leaf t' → Leaf t x leaf t'

/-- A class that is declared twice, and another one. -/
def declaredTwice : Project :=
  ({} : Project).addModule (ModuleDescriptor.addMembers (.ofPath "m") [
    .ambiguous "A" (some "m.A") [.ofClass "A" (some "m.A") [] [] false none, .ofClass "A" (some "m.A") [] [] false none],
    .ofClass "B" (some "m.B") [] [] false none])

/-- One candidate of the union waits for its class and becomes a union itself, which has no path. -/
theorem check_disagrees_declaredTwice :
    let r := check [.typeOrInstance "m.A"] ⟨10⟩ ((create declaredTwice {} {}).performAll
      [.convert "m" .project (.ofVariable { name := "v", hint := "m.A" }), .getType "m.B",
        .onStore (.instanceOf (.direct ⟨7⟩)),
        .onStore (.union ⟨3⟩ ⟨9⟩)])
    r.1 = .no ∧ ∃ leaf t', Leaf r.2 ⟨10⟩ leaf t' ∧ (check [.typeOrInstance "m.A"] leaf t').1 = .yes := by
  refine ⟨by decide_cbv, _, _, .part (c := ⟨3⟩) (show _ = some [⟨3⟩, ⟨9⟩] from ?_) (by simp)
    (.part (c := ⟨11⟩) (show _ = some [⟨11⟩, ⟨12⟩] from ?_) (by simp) (.whole ?_)), ?_⟩
  all_goals decide_cbv

end Table

end PythonTypes
