import Mathlib.Logic.Relation
import PythonTypes.Data.Ternary
import PythonTypes.Proofs.Table.Meaning

/-!
# Searching the bases of classes

`Search s name refs visited r` says what a search for the member `name` comes to that takes the
references `refs` in turn and, where one of them means a class without such a member, its bases
first. Types that were met before (`visited`) are passed over. The search only exists if every
reference that it passes has a meaning; it has one outcome (`Search.unique`), and keeps it
(`Search.retains`). `Seeks` says how far a search has got, whatever is found later on.

A question about a class that passes on to its bases is answered by `Rules`, where the answers of
the bases are put together as `Folds` says. `Judged` is what follows from the answer: `yes` is given
for a class among the ancestors that settles the question. Any other answer is given only after all
ancestors have been met, and it is `unknown` if one of them leaves the question open.
-/

set_option autoImplicit false

namespace PythonTypes

theorem TypeForm.isClass_eq_false_iff {f : TypeForm} : f.isClass = false ↔ ∀ info, f ≠ .ofClass info := by
  cases f <;> simp [isClass]

namespace TypeStore

variable {s s' : TypeStore}

/-- What a search for `name` through references and the bases of the classes that they mean comes
to. -/
inductive Search (s : TypeStore) (name : String) : List TypeRef → List TypeId → Option TypeRef → Prop
  | nil {visited : List TypeId} : Search s name [] visited none
  /-- A type that was met before. -/
  | seen {ref : TypeRef} {b : TypeId} {rest : List TypeRef} {visited : List TypeId} {r : Option TypeRef} :
      s.RefMeans ref b → b ∈ visited → Search s name rest visited r → Search s name (ref :: rest) visited r
  /-- A class with a member of its own. -/
  | own {ref found : TypeRef} {b : TypeId} {rest : List TypeRef} {visited : List TypeId}
      {info : ClassType} : s.RefMeans ref b → b ∉ visited → s.form b = .ofClass info →
      info.members.get? name = some found → Search s name (ref :: rest) visited (some found)
  /-- A class that leaves the search to its bases. -/
  | bases {ref : TypeRef} {b : TypeId} {rest : List TypeRef} {visited : List TypeId}
      {info : ClassType} {r : Option TypeRef} : s.RefMeans ref b → b ∉ visited →
      s.form b = .ofClass info → info.members.get? name = none → Search s name (info.bases ++ rest)
      (b :: visited) r → Search s name (ref :: rest) visited r
  /-- A base that is no class. -/
  | other {ref : TypeRef} {b : TypeId} {rest : List TypeRef} {visited : List TypeId}
      {r : Option TypeRef} : s.RefMeans ref b → b ∉ visited → (s.form b).isClass = false →
      Search s name rest (b :: visited) r → Search s name (ref :: rest) visited r

theorem Tidy.refKnown_of_base (hs : s.Tidy) {c : TypeId} {info : ClassType}
    (hclass : s.form c = .ofClass info) {ref : TypeRef}
    (href : ref ∈ info.bases) : s.RefKnown ref := hs.refKnown (by rw [hclass]; exact List.mem_append_right _ href)

namespace Search

variable {name : String} {refs rest : List TypeRef} {visited : List TypeId} {r r' : Option TypeRef}

theorem unique (h : s.Search name refs visited r) (h' : s.Search name refs visited r') : r = r' := by
  induction h generalizing r' with
  | nil => cases h'; rfl
  | seen hb hmem _ ih =>
    cases h' with
    | seen _ _ hrest => exact ih hrest
    | own hb' hnot _ _ | bases hb' hnot _ _ _ | other hb' hnot _ _ => exact absurd (hb.unique hb' ▸ hmem) hnot
  | own hb hnot hclass hfound =>
    cases h' with
    | seen hb' hmem _ => exact absurd (hb'.unique hb ▸ hmem) hnot
    | own hb' _ hclass' hfound' | bases hb' _ hclass' hfound' _ => simp_all [hb'.unique hb]
    | other hb' _ hclass' _ => simp_all [hb'.unique hb, TypeForm.isClass]
  | bases hb hnot hclass hfound _ ih =>
    cases h' with
    | seen hb' hmem _ => exact absurd (hb'.unique hb ▸ hmem) hnot
    | own hb' _ hclass' hfound' => simp_all [hb'.unique hb]
    | bases hb' _ hclass' hfound' hrest =>
      grind [RefMeans.unique]
    | other hb' _ hclass' _ => simp_all [hb'.unique hb, TypeForm.isClass]
  | other hb hnot hclass _ ih =>
    cases h' with
    | seen hb' hmem _ => exact absurd (hb'.unique hb ▸ hmem) hnot
    | own hb' _ hclass' hfound' | bases hb' _ hclass' hfound' _ => simp_all [hb'.unique hb, TypeForm.isClass]
    | other hb' _ hclass' hrest =>
      grind [RefMeans.unique]

theorem retains (hretains : s.Retains s') (hs : s.Tidy) (h : s.Search name refs visited r)
    (hrefs : ∀ ref ∈ refs, s.RefKnown ref) : s'.Search name refs visited r := by
  induction h with
  | nil => exact .nil
  | seen hb hmem _ ih =>
    exact .seen (hb.retains hretains hs (hrefs _ (by simp))) hmem (ih fun ref href => hrefs ref (by simp [href]))
  | own hb hnot hclass hfound =>
    exact .own (hb.retains hretains hs (hrefs _ (by simp))) hnot (hretains.class_eq _ _ hclass) hfound
  | bases hb hnot hclass hfound _ ih =>
    refine .bases (hb.retains hretains hs (hrefs _ (by simp))) hnot (hretains.class_eq _ _ hclass) hfound (ih ?_)
    exact List.forall_mem_append.2 ⟨fun _ => hs.refKnown_of_base hclass, fun ref href => hrefs ref (by simp [href])⟩
  | @other ref b rest visited r hb hnot hclass _ ih =>
    refine .other (hb.retains hretains hs (hrefs _ (by simp))) hnot ?_ (ih fun ref href => hrefs ref (by simp [href]))
    have hknown : s.Known b := (Means.final_right hs hb).1.1
    rw [hretains.isClass_eq hknown, hclass]

theorem replace_head {ref : TypeRef} {b : TypeId} (hb : s.Final b) (href : s.RefMeans ref b)
    (h : s.Search name (.direct b :: rest) visited r) : s.Search name (ref :: rest) visited r := by
  have hself : s.RefMeans (.direct b) b := .final hb
  cases h with
  | seen hb' hmem hrest => exact .seen href (hb'.unique hself ▸ hmem) hrest
  | own hb' hnot hclass hfound =>
    obtain rfl := hb'.unique hself
    exact .own href hnot hclass hfound
  | bases hb' hnot hclass hfound hrest =>
    obtain rfl := hb'.unique hself
    exact .bases href hnot hclass hfound hrest
  | other hb' hnot hclass hrest =>
    obtain rfl := hb'.unique hself
    exact .other href hnot hclass hrest

theorem refKnown (hs : s.Tidy) {found : TypeRef} (h : s.Search name refs visited (some found)) : s.RefKnown found := by
  generalize hr : some found = r at h
  induction h with
  | nil => contradiction
  | seen _ _ _ ih | other _ _ _ _ ih | bases _ _ _ _ _ ih => exact ih hr
  | own hb hnot hclass hfound =>
    obtain rfl := Option.some.inj hr
    refine hs.refKnown (by rw [hclass]; exact List.mem_append_left _ (OrderedMap.mem_values_iff.2 ⟨name, hfound⟩))

end Search

/-- From now on, a search that begins with `refs` finds the given reference, or goes on with what
else there is to search and the given types met. -/
def Seeks (s : TypeStore) (name : String) (refs : List TypeRef) (visited : List TypeId) :
    Option TypeRef × List TypeId → Prop
  | (some found, _) => ∀ s', s.Retains s' → ∀ rest, s'.Search name (refs ++ rest) visited (some found)
  | (none, visited') =>
    ∀ s', s.Retains s' → ∀ rest r, s'.Search name rest visited' r →
      s'.Search name (refs ++ rest) visited r

namespace Seeks

variable {name : String} {refs rest : List TypeRef} {ref found : TypeRef}
  {visited visited' visited'' : List TypeId} {b : TypeId}
  {info : ClassType} {r : Option TypeRef × List TypeId}

theorem retains (hretains : s.Retains s') (h : s.Seeks name refs visited r) : s'.Seeks name refs visited r := by
  obtain ⟨_ | found, visited'⟩ := r
  · exact fun s'' hs'' => h s'' (hretains.trans hs'')
  · exact fun s'' hs'' => h s'' (hretains.trans hs'')

theorem search (h : s.Seeks name refs visited r) : s.Search name refs visited r.1 := by
  obtain ⟨_ | found, visited'⟩ := r
  · have hsearch := h s (.refl s) [] none .nil
    rwa [List.append_nil] at hsearch
  · have hsearch := h s (.refl s) []
    rwa [List.append_nil] at hsearch

theorem nil : s.Seeks name [] visited (none, visited) := fun _ _ _ _ h => h

theorem seen (hb : s.Final b) (hmem : b ∈ visited) : s.Seeks name [.direct b] visited (none, visited) :=
  fun _ hs' _ _ hrest => .seen (.final (hb.retains hs')) hmem hrest

section

variable (hb : s.Final b) (hnot : b ∉ visited)

include hb hnot

theorem own (hclass : s.form b = .ofClass info) (hfound : info.members.get? name = some found) :
    s.Seeks name [.direct b] visited (some found, visited') :=
  fun _ hs' _ => .own (.final (hb.retains hs')) hnot (hs'.class_eq b info hclass) hfound

theorem bases (hclass : s.form b = .ofClass info) (hnone : info.members.get? name = none)
    (h : s.Seeks name info.bases (b :: visited) r) : s.Seeks name [.direct b] visited r := by
  have hsearch : ∀ s', s.Retains s' → ∀ rest result, s'.Search name (info.bases ++ rest) (b :: visited) result →
      s'.Search name (.direct b :: rest) visited result := fun s' hs' rest result hrest =>
    .bases (.final (hb.retains hs')) hnot (hs'.class_eq b info hclass) hnone hrest
  obtain ⟨_ | found, visited'⟩ := r
  · simp_all [Seeks]
  · simp_all [Seeks]

theorem other (hclass : (s.form b).isClass = false) : s.Seeks name [.direct b] visited (none, b :: visited) := by
  intro s' hs' rest r hrest
  have hclass' : (s'.form b).isClass = false := by
    rw [hs'.isClass_eq hb.1.1, hclass]
  exact .other (.final (hb.retains hs')) hnot hclass' hrest

end

theorem cons_found (hs : s.Tidy) (href : s.RefKnown ref) (hb : s.RefMeans ref b)
    (h : s.Seeks name [.direct b] visited (some found, visited')) :
    s.Seeks name (ref :: rest) visited (some found, visited'') :=
  fun s' hs' others => .replace_head ((hb.final_right hs).retains hs') (hb.retains hs' hs href) (h s' hs' (rest ++ others))

theorem cons (hs : s.Tidy) (href : s.RefKnown ref) (hb : s.RefMeans ref b)
    (h : s.Seeks name [.direct b] visited (none, visited')) (hrest : s.Seeks name rest visited' r) :
    s.Seeks name (ref :: rest) visited r := by
  have hfirst : ∀ s', s.Retains s' → ∀ others result, s'.Search name others visited' result →
      s'.Search name (ref :: others) visited result := fun s' hs' others result hothers =>
    .replace_head ((hb.final_right hs).retains hs') (hb.retains hs' hs href) (h s' hs' others result hothers)
  obtain ⟨_ | found, visited''⟩ := r
  · simp_all [Seeks]
  · simp_all [Seeks]

end Seeks

/-! ## Judging a class by its bases -/

/-- What the bases of a class come to together, if `judged` says what each of them comes to. The
types that were met are passed on from one to the next, the first `yes` decides, and `unknown` is
not forgotten. -/
inductive Folds (s : TypeStore) (judged : TypeId → List TypeId → Ternary × List TypeId → Prop) :
    Ternary → List TypeRef → List TypeId → Ternary × List TypeId → Prop
  | nil {result : Ternary} {visited : List TypeId} : Folds s judged result [] visited (result, visited)
  | found {result : Ternary} {ref : TypeRef} {rest : List TypeRef} {b : TypeId} {visited visited' : List TypeId} :
      s.RefMeans ref b → judged b visited (.yes, visited') → Folds s judged result (ref :: rest) visited (.yes, visited')
  | next {result a : Ternary} {ref : TypeRef} {rest : List TypeRef} {b : TypeId} {visited visited' : List TypeId}
      {r : Ternary × List TypeId} : s.RefMeans ref b → judged b visited (a, visited') → a ≠ .yes →
      Folds s judged (if a = .unknown then .unknown else result) rest visited' r →
        Folds s judged result (ref :: rest) visited r

/-- How a question is answered that a class may settle itself (`settles`) and otherwise leaves to
its bases; `unsure` classes, and what is no class, leave it open. -/
structure Rules (s : TypeStore) (settles unsure : ClassType → Bool)
    (judged : TypeId → List TypeId → Ternary × List TypeId → Prop) : Prop where
  seen : ∀ {b : TypeId} {visited : List TypeId}, s.Final b → b ∈ visited → judged b visited (.no, visited)
  own : ∀ {b : TypeId} {visited : List TypeId} {info : ClassType}, s.Final b → b ∉ visited →
    s.form b = .ofClass info → settles info = true → judged b visited (.yes, b :: visited)
  bases : ∀ {b : TypeId} {visited : List TypeId} {info : ClassType} {r : Ternary × List TypeId}, s.Final b → b ∉ visited →
    s.form b = .ofClass info → settles info = false →
    s.Folds judged (if unsure info then .unknown else .no) info.bases (b :: visited) r → judged b visited r
  other : ∀ {b : TypeId} {visited : List TypeId}, s.Final b → b ∉ visited → (s.form b).isClass =
    false → judged b visited (.unknown, b :: visited)

/-- How far a search has got: the answer is `yes` if a member was found. -/
def Decides (s : TypeStore) (name : String) (refs : List TypeRef) (visited : List TypeId)
    (r : Ternary × List TypeId) : Prop :=
  ∃ found, (r.1 = .yes ↔ found.isSome = true) ∧ s.Seeks name refs visited (found, r.2)

theorem Folds.decides {name : String} {result : Ternary} {refs : List TypeRef}
    {visited : List TypeId} {r : Ternary × List TypeId}
    (h : s.Folds (fun b => s.Decides name [.direct b]) result refs visited r) (hs : s.Tidy)
    (hrefs : ∀ ref ∈ refs, s.RefKnown ref)
    (hresult : result ≠ .yes) : s.Decides name refs visited r := by
  induction h with
  | nil => exact ⟨none, by simp [hresult], .nil⟩
  | found hb hjudged =>
    obtain ⟨found, hyes, hseeks⟩ := hjudged
    obtain ⟨found, rfl⟩ := Option.isSome_iff_exists.1 (hyes.1 rfl)
    exact ⟨some found, by simp, hseeks.cons_found hs (hrefs _ (by simp)) hb⟩
  | next hb hjudged ha _ ih =>
    obtain ⟨found, hyes, hseeks⟩ := hjudged
    obtain rfl : found = none := by
      simp_all
    obtain ⟨found', hyes', hseeks'⟩ := ih (fun ref href => hrefs ref (by simp [href])) (by split <;> simp_all)
    exact ⟨found', hyes', .cons hs (hrefs _ (by simp)) hb hseeks hseeks'⟩

theorem Tidy.rules_decides (hs : s.Tidy) (name : String) :
    s.Rules (·.members.contains name) (·.hasMetaclass) fun b => s.Decides name [.direct b] where
  seen hb hmem := ⟨none, by simp, .seen hb hmem⟩
  own hb hnot hclass hown := by
    obtain ⟨found, hfound⟩ := Option.isSome_iff_exists.1 hown
    exact ⟨some found, by simp, .own hb hnot hclass hfound⟩
  bases hb hnot hclass hown hfolds := by
    obtain ⟨found, hyes, hseeks⟩ := hfolds.decides hs
      (fun _ => hs.refKnown_of_base hclass) (by split <;> simp)
    refine ⟨found, hyes, .bases hb hnot hclass (Option.not_isSome_iff_eq_none.1 fun h => ?_) hseeks⟩
    exact Bool.false_ne_true (hown.symm.trans h)
  other hb hnot hclass := ⟨none, by simp, .other hb hnot hclass⟩

/-- Whether `b` is what a base of `k` means. -/
def HasBase (s : TypeStore) (k b : TypeId) : Prop := ∃ info, s.form k = .ofClass info ∧ ∃ ref ∈ info.bases, s.RefMeans ref b

/-- Whether `c` is `k` itself or one of its ancestors. -/
def Descends (s : TypeStore) : TypeId → TypeId → Prop := Relation.ReflTransGen s.HasBase

/-- The types `met` are those to which references lead, directly or through bases, and that were not
met before. None of them settles the question. -/
structure Surveys (s : TypeStore) (settles : ClassType → Bool) (refs : List TypeRef) (visited met : List TypeId) : Prop where
  starts : ∀ ref ∈ refs, ∃ b ∈ met ++ visited, s.RefMeans ref b
  reached : ∀ c ∈ met, ∃ ref ∈ refs, ∃ b, s.RefMeans ref b ∧ s.Descends b c
  closed : ∀ c ∈ met, ∀ info, s.form c = .ofClass info →
    settles info = false ∧ ∀ ref ∈ info.bases, ∃ b ∈ met ++ visited, s.RefMeans ref b

/-- What an answer to the question says about the types that references lead to. -/
inductive Judged (s : TypeStore) (settles unsure : ClassType → Bool) (result : Ternary)
    (refs : List TypeRef) (visited : List TypeId) : Ternary × List TypeId → Prop
  | found {visited' : List TypeId} {ref : TypeRef} {b c : TypeId} {info : ClassType} : ref ∈ refs → s.RefMeans ref b →
      s.Descends b c → s.form c = .ofClass info → settles info = true →
        Judged s settles unsure result refs visited (.yes, visited')
  | exhausted {a : Ternary} {visited' met : List TypeId} : a ≠ .yes →
      s.Surveys settles refs visited met → visited' ⊆ met ++ visited →
      (a = .unknown ↔ result = .unknown ∨ ∃ c ∈ met, ∀ info, s.form c = .ofClass info → unsure info = true) →
      Judged s settles unsure result refs visited (a, visited')

section Judged

variable {settles unsure : ClassType → Bool} {refs rest : List TypeRef} {ref : TypeRef}
  {visited visited' met met' : List TypeId}
variable {b c : TypeId} {info : ClassType} {result : Ternary} {r : Ternary × List TypeId}

theorem Surveys.cons (hb : s.RefMeans ref b) (hs : s.Tidy) (h : s.Surveys settles [.direct b] visited met)
    (hsub : visited' ⊆ met ++ visited) (hrest : s.Surveys settles rest visited' met') :
    s.Surveys settles (ref :: rest) visited (met' ++ met) := by
  have hself : s.RefMeans (.direct b) b := .final (hb.final_right hs)
  have hlater : ∀ c ∈ met' ++ visited', c ∈ (met' ++ met) ++ visited := by
    intro c hc
    rcases List.mem_append.1 hc with hc | hc
    · simp [hc]
    · have := hsub hc
      simp_all
  have hfirst : ∀ c ∈ met ++ visited, c ∈ (met' ++ met) ++ visited := fun c hc => by simp_all
  refine ⟨fun ref' href' => ?_, fun c hc => ?_, fun c hc info hinfo => ?_⟩
  · rcases List.mem_cons.1 href' with rfl | href'
    · grind [starts, List.mem_singleton_self, RefMeans.unique]
    · grind [starts]
  · grind [reached, RefMeans.unique]
  · grind [closed]

theorem Surveys.bases (hb : s.Final b) (hclass : s.form b = .ofClass info) (hown : settles info = false)
    (h : s.Surveys settles info.bases (b :: visited) met) : s.Surveys settles [.direct b] visited (b :: met) := by
  have hmove : ∀ c ∈ met ++ b :: visited, c ∈ b :: met ++ visited := fun c hc => by simp_all; tauto
  refine ⟨fun ref href => ?_, fun c hc => ?_, fun c hc info' hinfo' => ?_⟩
  · obtain rfl := List.mem_singleton.1 href
    exact ⟨b, by simp, .final hb⟩
  · refine ⟨_, List.mem_singleton_self _, b, .final hb, ?_⟩
    rcases List.mem_cons.1 hc with rfl | hc
    · exact .refl
    · obtain ⟨ref, href, b', hb', hreached⟩ := h.reached c hc
      exact .head ⟨info, hclass, ref, href, hb'⟩ hreached
  · grind [starts, closed]

theorem Judged.other (hb : s.Final b) (hclass : (s.form b).isClass = false) (hsub : visited' ⊆ b :: visited) :
    s.Judged settles unsure .no [.direct b] visited (.unknown, visited') := by
  have hnot := TypeForm.isClass_eq_false_iff.1 hclass
  have hsurveys : s.Surveys settles [.direct b] visited [b] := by
    refine ⟨fun ref href => ?_, fun c hc => ?_, fun c hc info hinfo => ?_⟩
    · obtain rfl := List.mem_singleton.1 href
      exact ⟨b, by simp, .final hb⟩
    · obtain rfl := List.mem_singleton.1 hc
      exact ⟨_, List.mem_singleton_self _, c, .final hb, .refl⟩
    · simp_all
  exact .exhausted (by simp) hsurveys hsub
    ⟨fun _ => .inr ⟨b, by simp, fun info hinfo => absurd hinfo (hnot info)⟩, fun _ => rfl⟩

theorem Folds.judged (h : s.Folds (fun b => s.Judged settles unsure .no [.direct b]) result refs visited r) (hs : s.Tidy)
    (hresult : result ≠ .yes) : s.Judged settles unsure result refs visited r := by
  induction h with
  | @nil result visited =>
    have hsurveys : s.Surveys settles [] visited [] := ⟨by simp, by simp, by simp⟩
    exact .exhausted hresult hsurveys (by simp) (by simp)
  | @found result ref rest b visited visited' hb hjudged =>
    cases hjudged with
    | found href hb' hreached hclass hown =>
      obtain rfl := List.mem_singleton.1 href
      have hself : s.RefMeans (.direct b) b := .final (hb.final_right hs)
      exact .found (List.mem_cons_self) (hself.unique hb' ▸ hb) hreached hclass hown
    | exhausted ha _ _ _ => exact absurd rfl ha
  | @next result a ref rest b visited visited' r hb hjudged ha _ ih =>
    cases hjudged with
    | found _ _ _ _ _ => exact absurd rfl ha
    | @exhausted _ _ met _ hsurveys hsub hunknown =>
      cases ih (by split <;> simp_all) with
      | found href hb' hreached hclass hown => exact .found (List.mem_cons_of_mem _ href) hb' hreached hclass hown
      | @exhausted a' visited'' met' ha' hrest hsub' hunknown' =>
        refine .exhausted ha' (.cons hb hs hsurveys hsub hrest) (fun c hc => ?_) (hunknown'.trans ?_)
        · grind
        · -- the bases so far leave the question open if the first of them or the others do
          simp only [reduceCtorEq, false_or] at hunknown
          by_cases hopen : a = .unknown
          · have := hunknown.1 hopen
            simp only [hopen, if_true, true_or, true_iff]
            obtain ⟨c, hc, hunsure⟩ := this
            exact .inr ⟨c, List.mem_append_right _ hc, hunsure⟩
          · simp only [hopen, if_false, false_iff] at hunknown ⊢
            refine or_congr_right ⟨fun ⟨c, hc, hunsure⟩ => ⟨c, List.mem_append_left _ hc, hunsure⟩,
              fun ⟨c, hc, hunsure⟩ => ?_⟩
            grind

theorem Tidy.rules_judged (hs : s.Tidy) (settles unsure : ClassType → Bool) :
    s.Rules settles unsure fun b => s.Judged settles unsure .no [.direct b] where
  seen {b visited} hb hmem := by
    have hsurveys : s.Surveys settles [.direct b] visited [] := by
      refine ⟨fun ref href => ?_, by simp, by simp⟩
      obtain rfl := List.mem_singleton.1 href
      exact ⟨b, by simpa using hmem, .final hb⟩
    exact .exhausted (by simp) hsurveys (by simp) (by simp)
  own hb _ hclass hown := .found (List.mem_singleton_self _) (.final hb) .refl hclass hown
  bases {b visited info r} hb _ hclass hown hfolds := by
    cases hfolds.judged hs (by split <;> simp) with
    | found href hb' hreached hclass' hown' =>
      exact .found (List.mem_singleton_self _) (.final hb) (.head ⟨info, hclass, _, href, hb'⟩ hreached) hclass' hown'
    | @exhausted a visited' met ha hsurveys hsub hunknown =>
      refine .exhausted ha (hsurveys.bases hb hclass hown) (fun c hc => ?_) (hunknown.trans ?_)
      · have := hsub hc
        simp_all
        tauto
      · simp [hclass]
  other hb _ hclass := .other hb hclass (List.Subset.refl _)

/-- The answer about a class, if nothing was met before: `yes` if and only if it or an ancestor of
it settles the question, otherwise `unknown` if and only if one of them leaves it open. Unless the
answer is `yes`, every base has a meaning. -/
theorem Judged.exact {a : Ternary} (h : s.Judged settles unsure .no [.direct b] [] (a, visited')) (hb : s.Final b) :
    (a = .yes ∧ ∃ c info, s.Descends b c ∧ s.form c = .ofClass info ∧ settles info = true) ∨
      (a ≠ .yes ∧ ∃ met : List TypeId, b ∈ met ∧ (∀ c ∈ met, s.Descends b c ∧ ∀ info, s.form c = .ofClass info →
          settles info = false ∧ ∀ ref ∈ info.bases, ∃ b' ∈ met, s.RefMeans ref b') ∧
        (a = .unknown ↔ ∃ c ∈ met, ∀ info, s.form c = .ofClass info → unsure info = true)) := by
  have hself : s.RefMeans (.direct b) b := .final hb
  cases h with
  | @found _ _ _ c info href hb' hreached hclass hown =>
    grind [RefMeans.unique]
  | @exhausted _ _ met ha hsurveys _ hunknown =>
    refine .inr ⟨ha, met, ?_, fun c hc => ⟨?_, fun info hinfo => ?_⟩, by simpa using hunknown⟩
    · grind [Surveys.starts, List.mem_singleton_self, RefMeans.unique]
    · grind [Surveys.reached, RefMeans.unique]
    · simpa using hsurveys.closed c hc info hinfo

end Judged

end TypeStore

end PythonTypes
