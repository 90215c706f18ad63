import PythonTypes.Proofs.Table.Binding
import PythonTypes.Proofs.Table.Composition

/-!
# Which types have a member

A type has a member if everything that it is made up of has one (`Has`): a module that binds the
name, a class whose search through its bases comes to a member, or the instance of such a class. It
lacks the member if something that it is made up of will never have one (`Lacks`). Modules are left
out there, because a module without the member may get one when a submodule is loaded.

Having and lacking a member are for good (`Has.proceeds`, `Lacks.proceeds`) and exclude each other.
What is said of a type is said of what it is forced to. A member that is found is a member that the
type has, and if none is found then the type lacks it or there is a module on the way that does not
have it yet (`asks_member`).
-/

set_option autoImplicit false

namespace PythonTypes

/-- Whether this is an instance. -/
def TypeForm.isInstance : TypeForm → Bool
  | .object _ => true
  | _ => false

namespace TypeStore

variable {s s' : TypeStore} {x y : TypeId} {name : String} {k : TypeId} {info : FunctionType}
variable {r : Option TypeRef}

theorem Forced.final (hx : s.Forced x y) (h : s.Tidy) (hinterned : s.Interned) (hy : s.Plain y) : s.Final y :=
  ⟨hy, hx.not_waiting h hinterned⟩

theorem Forced.eq_of_final {u : TypeId} (h : s.Forced x u) (hx : s.Final x) : u = x := by
  have hplain := hx.1.2
  cases h with
  | single hmeans =>
    cases hmeans with
    | final => rfl
    | awaited hobject => exact absurd hobject (hx.2 _)
    | target htarget => simp [lazyTarget?_of_isPlain hplain] at htarget
  | union hunion =>
    rw [hunion] at hplain
    cases hplain

theorem Retains.isInstance (h : s.Retains s') (hx : (s.form x).isInstance = true) : (s'.form x).isInstance = true := by
  cases hform : s.form x with
  | object cls =>
    rw [form_of_shape (by simp) (h.shape_object (shape_of_form hform))]
    rfl
  | _ =>
    rw [hform] at hx
    cases hx

theorem Retains.shape_function (h : s.Retains s') (hx : s.shape x = .ofFunction info) :
    s'.shape x = .ofFunction info :=
  (h.shape_eq (known_of_shape (by simp [hx])) (by rw [hx]; rfl) (by simp [hx])).trans hx

theorem Retains.shape_union (h : s.Retains s') {cs : List TypeId} (hx : s.shape x = .union cs) : s'.shape x = .union cs :=
  (h.shape_eq (known_of_shape (by simp [hx])) (by rw [hx]; rfl) (by simp [hx])).trans hx

theorem comprises_of_function {p : Part} (hx : s.shape x = .ofFunction info) : s.Comprises x p ↔ p = .type x := by
  rw [comprises_of_atom (by rw [Atom, hx]; trivial), asInstance_type (by simp [hx])]

theorem Tidy.refKnown_of_object (h : s.Tidy) {cls : TypeRef} (hx : s.shape x = .object cls) : s.RefKnown cls := by
  refine h.refKnown (t := x) ?_
  rw [form_of_shape (by simp) hx]
  exact List.mem_singleton_self cls

theorem Search.isClass {found : TypeRef} (h : s.Search name [.direct k] [] (some found))
    (hk : s.Final k) : (s.form k).isClass = true := by
  have hself : s.RefMeans (.direct k) k := .final hk
  cases h with
  | seen _ hmem _ => cases hmem
  | own hb _ hclass _ | bases hb _ hclass _ _ => rw [hself.unique hb, hclass]; rfl
  | other _ _ _ hrest => cases hrest

theorem Search.retains_direct (h : s.Search name [.direct k] [] r)
    (hretains : s.Retains s') (hs : s.Tidy) (hk : (s.form k).isClass = true) : s'.Search name [.direct k] [] r := by
  refine h.retains hretains hs fun ref href => ?_
  obtain rfl : ref = .direct k := by simpa using href
  exact (final_of_isClass hk).1.1

/-- Nothing that the type is made up of could be looked up. -/
def LookedUp (s : TypeStore) (x : TypeId) : Prop := ∀ z, s.Comprises x (.type z) → s.Final z

theorem Sole.lookedUp (h : s.Sole x k) (hk : s.Final k) : s.LookedUp x := by
  intro z hz
  cases (h _).1 hz
  exact hk

theorem LookedUp.forceable (h : s.LookedUp x) (hs : s.Tidy) (hx : s.Known x) : s.Forceable x := by
  have hplain : ∀ y, s.Plain y → s.LookedUp y → s.Forceable y := by
    intro y hy hlooked
    refine .plain hy fun w hw => ?_
    by_contra hwaits
    have hatom : s.Atom y := by
      rw [Atom, hw]
      simpa using hwaits
    have hself : s.Comprises y (.type y) := (comprises_of_atom hatom).2 (asInstance_type (by simp [hw])).symm
    exact (hlooked y hself).2 w hw
  have hsingle : ∀ y, s.Known y → (s.shape y).isSingle = true → s.LookedUp y → s.Forceable y := by
    intro y hy hsingle hlooked
    cases htarget : s.lazyTarget? y with
    | some z =>
      refine .target htarget (hplain z ⟨hs.wellFormed.target_known y z htarget, hs.target_plain htarget⟩ fun u hu => ?_)
      exact hlooked u ((comprises_of_target htarget).2 hu)
    | none =>
      refine hplain y ⟨hy, isPlain_of_isSingle hsingle htarget ?_⟩ hlooked
      by_contra hpending
      have hatom : s.Atom y := .of_isPending (by simpa using hpending)
      have hself : s.Comprises y (.type y) := by
        obtain ⟨path, hshape⟩ := isPending_iff.1 (by simpa using hpending)
        exact (comprises_of_atom hatom).2 (asInstance_type (by simp [hshape])).symm
      exact absurd (isPending_of_isPlain (hlooked y hself).1.2) hpending
  cases hshape : s.shape x with
  | lazyUnion cs =>
    have hcs := candidates?_eq_some_iff.2 (.inr hshape)
    refine .union hshape fun c hc => hsingle c (hs.wellFormed.unfolds_known (.inr ⟨cs, hcs, hc⟩))
      (hs.single hcs hc) fun z hz => ?_
    exact h z ((comprises_of_candidates hcs).2 ⟨c, hc, hz⟩)
  | union cs => exact hplain x ⟨hx, by rw [hshape]; rfl⟩ h
  | _ => exact hsingle x hx (by rw [hshape]; rfl) h

theorem Search.head {name : String} {ref : TypeRef} {rest : List TypeRef} {visited : List TypeId} {r : Option TypeRef}
    (h : s.Search name (ref :: rest) visited r) (hs : s.Tidy) :
    ∃ b, s.RefMeans ref b ∧ s.Search name (.direct b :: rest) visited r := by
  cases h with
  | seen hb hmem hrest => exact ⟨_, hb, .seen (.final (hb.final_right hs)) hmem hrest⟩
  | own hb hnot hclass hfound => exact ⟨_, hb, .own (.final (hb.final_right hs)) hnot hclass hfound⟩
  | bases hb hnot hclass hfound hrest => exact ⟨_, hb, .bases (.final (hb.final_right hs)) hnot hclass hfound hrest⟩
  | other hb hnot hclass hrest => exact ⟨_, hb, .other (.final (hb.final_right hs)) hnot hclass hrest⟩

/-- One step of a search. -/
theorem Search.turn {rest : List TypeRef} {visited : List TypeId} (h : s.Search name (.direct k :: rest) visited r)
    (hk : s.Final k) : k ∈ visited ∧ s.Search name rest visited r ∨ k ∉ visited ∧
      ((∃ info found, s.form k = .ofClass info ∧ info.members.get? name = some found ∧ r = some found) ∨
        (∃ info, s.form k = .ofClass info ∧ info.members.get? name = none ∧
          s.Search name (info.bases ++ rest) (k :: visited) r) ∨
        (s.form k).isClass = false ∧ s.Search name rest (k :: visited) r) := by
  have hself : s.RefMeans (.direct k) k := .final hk
  cases h with
  | seen hb hmem hrest => exact .inl ⟨hb.unique hself ▸ hmem, hrest⟩
  | own hb hnot hclass hfound =>
    obtain rfl := hb.unique hself
    exact .inr ⟨hnot, .inl ⟨_, _, hclass, hfound, rfl⟩⟩
  | bases hb hnot hclass hfound hrest =>
    obtain rfl := hb.unique hself
    exact .inr ⟨hnot, .inr (.inl ⟨_, hclass, hfound, hrest⟩)⟩
  | other hb hnot hclass hrest =>
    obtain rfl := hb.unique hself
    exact .inr ⟨hnot, .inr (.inr ⟨hclass, hrest⟩)⟩

end TypeStore

namespace Table

open TypeStore

variable {mayCut : Prop} {t t' : Table} {name : String} {x y : TypeId} {p q : Part}
variable {c k m : TypeId} {cs : List TypeId} {r : Option TypeId} {found : Option TypeRef} {α : Type}
variable {ref : TypeRef} {k' : TypeId} (depth : Nat)

/-! ## Having a member -/

/-- What is found under `name` in something that a type is made up of, if it is no module. -/
inductive Serves (t : Table) (name : String) : Part → Option TypeRef → Prop
  | unknown : Serves t name .unknown none
  | function {f : TypeId} {info : FunctionType} : t.store.shape f = .ofFunction info → Serves t name (.type f) none
  | inherited {k : TypeId} {found : Option TypeRef} : (t.form k).isClass = true →
      t.store.Search name [.direct k] [] found → Serves t name (.type k) found
  | ofInstance {c k : TypeId} {found : Option TypeRef} : t.store.Sole c k → (t.form k).isClass =
      true → t.store.Search name [.direct k] [] found → Serves t name (.instanceOf c) found
  | classless {c : TypeId} : t.store.Classless c → Serves t name (.instanceOf c) none

/-- Something that has a member `name`. -/
inductive Offers (t : Table) (name : String) : Part → Prop
  | bound {m : TypeId} {ref : TypeRef} : t.memberRef? m name = some ref → Offers t name (.type m)
  | served {p : Part} {ref : TypeRef} : t.Serves name p (some ref) → Offers t name p

theorem isScope_of_class (h : (t.form x).isClass = true) : (t.store.shape x).isScope = true :=
  (t.store.isScope_shape x).trans (isScope_of_isClass h)

theorem isScope_of_module (h : (t.form x).isModule = true) : (t.store.shape x).isScope = true :=
  (t.store.isScope_shape x).trans (isScope_of_isModule h)

theorem Serves.proceeds (h : t.Serves name p found) (ht : t.Sound)
    (hproceeds : t.Proceeds mayCut t') : t'.Serves name p found := by
  obtain ⟨ht', hcarries⟩ := hproceeds.carries ht
  have hretains := hcarries.retains
  cases h with
  | unknown => exact .unknown
  | function hshape => exact .function (hretains.shape_function hshape)
  | inherited hclass hsearch => exact .inherited (hretains.isClass hclass) (hsearch.retains_direct hretains ht.store hclass)
  | ofInstance hsole hclass hsearch =>
    have hclass' := hretains.isClass hclass
    exact .ofInstance (hsole.retains ht.store hretains (isScope_of_class hclass')) hclass'
      (hsearch.retains_direct hretains ht.store hclass)
  | classless hclassless => exact .classless (hclassless.retains ht.store hretains ht'.store)

theorem Serves.turns_iff (h : t.Serves name p found) : t.store.Turns p q ↔ q = p := by
  cases h with
  | function hshape => exact comprises_of_function hshape
  | inherited hclass _ => exact comprises_of_isScope (isScope_of_class hclass)
  | unknown | ofInstance _ _ _ | classless _ => rfl

theorem not_isClass_of_function {f : TypeId} {info : FunctionType}
    (hf : t.store.shape f = .ofFunction info) : ¬ (t.form f).isClass = true := by
  rw [show t.form f = _ from form_of_shape (by simp) hf]
  exact Bool.false_ne_true

theorem Serves.unique {found' : Option TypeRef} (h : t.Serves name p found)
    (h' : t.Serves name p found') : found = found' := by
  cases h with
  | unknown => cases h'; rfl
  | function hshape =>
    cases h' with
    | function _ => rfl
    | inherited hclass _ => exact absurd hclass (not_isClass_of_function hshape)
  | inherited hclass hsearch =>
    cases h' with
    | function hshape => exact absurd hclass (not_isClass_of_function hshape)
    | inherited _ hsearch' => exact hsearch.unique hsearch'
  | ofInstance hsole hclass hsearch =>
    cases h' with
    | ofInstance hsole' _ hsearch' => exact hsearch.unique (hsole.unique hsole' ▸ hsearch')
    | classless hclassless => exact absurd hsole (hclassless.not_sole _ hclass)
  | classless hclassless =>
    cases h' with
    | ofInstance hsole hclass _ => exact absurd hsole (hclassless.not_sole _ hclass)
    | classless _ => rfl

theorem Serves.not_module (h : t.Serves name (.type m) found) : ¬ (t.form m).isModule = true := by
  intro hmodule
  cases h with
  | function hshape =>
    rw [show t.form m = _ from form_of_shape (by simp) hshape] at hmodule
    cases hmodule
  | inherited hclass _ => grind [isClass_of_isModule]

theorem Offers.proceeds (h : t.Offers name p) (ht : t.Sound) (hproceeds : t.Proceeds mayCut t') : t'.Offers name p := by
  cases h with
  | bound hentry =>
    rcases hproceeds.entry ht name (isModule_of_memberRef? hentry) with hsame | ⟨sub, hgave⟩
    · exact .bound (hsame.trans hentry)
    · exact .bound hgave.entry
  | served hserves => exact .served (hserves.proceeds ht hproceeds)

theorem Offers.eq_of_turns (h : t.Offers name p) (hq : t.store.Turns p q) : q = p := by
  cases h with
  | bound hentry => exact (comprises_of_isScope (isScope_of_module (isModule_of_memberRef? hentry))).1 hq
  | served hserves => exact hserves.turns_iff.1 hq

theorem Offers.not_serves_none (h : t.Offers name p) : ¬ t.Serves name p none := by
  intro hnone
  cases h with
  | bound hentry => exact hnone.not_module (isModule_of_memberRef? hentry)
  | served hserves => cases hserves.unique hnone

/-- Everything that the type is made up of has a member `name`. -/
def Has (t : Table) (name : String) (x : TypeId) : Prop := ∀ p, t.store.Comprises x p → t.Offers name p

/-- Something that the type is made up of has no member `name` and will not get one. -/
def Lacks (t : Table) (name : String) (x : TypeId) : Prop := ∃ p, t.store.Comprises x p ∧ t.Serves name p none

theorem Has.proceeds (h : t.Has name x) (ht : t.Sound) (hproceeds : t.Proceeds mayCut t')
    (hx : t.store.Known x) : t'.Has name x := by
  intro q hq
  obtain ⟨p, hp, hpq⟩ := ((hproceeds.carries ht).2.retains.comprises_iff ht.store hx).1 hq
  have hoffers := (h p hp).proceeds ht hproceeds
  exact hoffers.eq_of_turns hpq ▸ hoffers

theorem Lacks.proceeds (h : t.Lacks name x) (ht : t.Sound) (hproceeds : t.Proceeds mayCut t')
    (hx : t.store.Known x) : t'.Lacks name x := by
  obtain ⟨p, hp, hnone⟩ := h
  have hnone' := hnone.proceeds ht hproceeds
  exact ⟨p, ((hproceeds.carries ht).2.retains.comprises_iff ht.store hx).2 ⟨p, hp, hnone'.turns_iff.2 rfl⟩, hnone'⟩

theorem Has.not_lacks (h : t.Has name x) : ¬ t.Lacks name x := fun ⟨p, hp, hnone⟩ => (h p hp).not_serves_none hnone

theorem Has.of_matches (h : t.Has name y) (hmatches : t.store.Matches x y) : t.Has name x := by
  rcases hmatches with ⟨-, hunknown⟩ | hiff
  · exact absurd .unknown (h _ hunknown).not_serves_none
  · exact fun p hp => h p ((hiff p).1 hp)

theorem Lacks.of_matches (h : t.Lacks name y) (hmatches : t.store.Matches x y) : t.Lacks name x := by
  rcases hmatches with ⟨hunknown, -⟩ | hiff
  · exact ⟨_, hunknown, .unknown⟩
  · simp_all [Lacks]

theorem has_of_comprises (h : ∀ q, t.store.Comprises x q ↔ q = p) (hp : t.Offers name p) : t.Has name x :=
  fun q hq => (h q).1 hq ▸ hp

theorem comprises_instance (hx : t.store.shape x = .object (.direct c)) : t.store.Comprises x p ↔ p = .instanceOf c := by
  rw [comprises_of_atom (by rw [Atom, hx]; trivial), asInstance_of_object hx]

theorem has_of_candidates (hcs : t.store.candidates? x = some cs) : t.Has name x ↔ ∀ c ∈ cs, t.Has name c := by
  grind [Has, comprises_of_candidates]

theorem lacks_of_candidates (hcs : t.store.candidates? x = some cs) (hc : c ∈ cs) (h : t.Lacks name c) : t.Lacks name x := by
  obtain ⟨p, hp, hnone⟩ := h
  exact ⟨p, (comprises_of_candidates hcs).2 ⟨c, hc, hp⟩, hnone⟩

/-! ## Finding a member -/

/-- The module `m` is where looking for the member ends: it is the type itself, or what comes before
it in a union has the member. -/
def Halts (t : Table) (name : String) (m y : TypeId) : Prop :=
  y = m ∨ ∃ before after, t.store.shape y = .union (before ++ m :: after) ∧ ∀ c ∈ before, t.Has name c

/-- A module that the type is made up of has no member `name` so far. -/
def Misses (t : Table) (name : String) (x : TypeId) : Prop :=
  ∃ m, (t.form m).isModule = true ∧ t.memberRef? m name = none ∧ t.store.Comprises x (.type m) ∧
    ((∀ cs, t.store.shape x ≠ .lazyUnion cs) → ∃ y, t.store.Means x y ∧ t.Halts name m y)

/-- What a look-up of the member says about the type. -/
def Settles (t : Table) (name : String) (x : TypeId) (r : Option TypeId) : Prop :=
  (r.isSome → t.Has name x) ∧ (r = none → t.Lacks name x ∨ t.Misses name x)

theorem settles_of_has (h : t.Has name x) (hr : r.isSome) : t.Settles name x r := by
  refine ⟨fun _ => h, ?_⟩
  rintro rfl
  cases hr

theorem settles_of_lacks (h : t.Lacks name x) : t.Settles name x none := ⟨by simp, fun _ => .inl h⟩

/-- What a type is forced to. Nothing is looked up for that if nothing has to be. -/
structure ForcedTo (t : Table) (x u : TypeId) (t' : Table) : Prop where
  plain : t'.store.Plain u
  forced : t'.store.Forced x u
  calm : t.store.Forceable x → t.Calm t'

theorem AtRest.asks_resolved (ht : t.AtRest) (depth : Nat) (hx : t.store.Known x) :
    t.Asks True (resolvedAt depth x) (t.ForcedTo x) := by
  rw [← (sameAt depth).resolved]
  have hasks := ((soundAt_unknown depth).resolved ht.toSound hx (.inl trivial)).asks
  refine Ensures.imp (Ensures.and hasks (.assuming ((calm_forced _ depth).1 ht.toSound)))
    fun u t' ⟨⟨hproceeds, hu⟩, hcalm⟩ => ?_
  exact ⟨hproceeds, hu.plain, hu.forced (.inl (ht.clear True)), fun h => (hcalm h).2.2⟩

theorem AtRest.asks_forced (ht : t.AtRest) (hx : t.store.Known x) : t.Asks True (Query.resolved x) (t.ForcedTo x) := by
  show t.Asks True (Query.enough fun depth => resolvedAt depth x) _
  exact .enough (ht.asks_resolved _ hx)

/-- Queries about several types, one after the other. No look-up is made if `P` holds of all of
them. -/
theorem ensures_mapM {f : TypeId → Query α} {P : TypeId → Table → Prop} {Q : TypeId → α → Table → Prop} (ht : t.Sound)
    (xs : List TypeId) (hP : ∀ x ∈ xs, ∀ t1 t2 : Table, t.Proceeds True t1 → t1.Proceeds True t2 → P x t1 → P x t2)
    (hQ : ∀ x ∈ xs, ∀ a (t1 t2 : Table), t.Proceeds True t1 → t1.Proceeds True t2 → Q x a t1 → Q x a t2)
    (hf : ∀ x ∈ xs, ∀ t1 : Table, t.Proceeds True t1 → Ensures True t1 (f x) fun a t2 =>
      t1.Proceeds True t2 ∧ (P x t1 → t1.Calm t2) ∧ Q x a t2) :
    Ensures True t (xs.mapM f) fun as t' =>
      t.Proceeds True t' ∧ ((∀ x ∈ xs, P x t) → t.Calm t') ∧ List.Forall₂ (fun x a => Q x a t') xs as := by
  refine (Ensures.forall₂_mapM (Q := Q)
    (R := fun (t1 t2 : Table) => t1.Proceeds True t2 ∧ (t.Proceeds True t1 → (∀ x ∈ xs, P x t1) → t1.Calm t2))
    (fun t1 => ⟨.refl t1, fun h1 _ => .refl (h1.carries ht).1⟩)
    (fun h12 h23 => ⟨h12.1.trans h23.1, fun h1 hall => (h12.2 h1 hall).trans (h23.2 (h1.trans h12.1) fun x hx =>
      hP x hx _ _ h1 h12.1 (hall x hx))⟩) xs (fun x hx a t1 t2 h1 h2 => hQ x hx a t1 t2 h1.1 h2.1) fun x hx t1 h1 => ?_).imp
    fun as t' h => ⟨h.1.1, h.1.2 (.refl t), h.2⟩
  exact (hf x hx t1 h1.1).imp fun a t2 h2 => ⟨⟨h2.1, fun _ hall => h2.2.1 (hall x hx)⟩, h2.2.2⟩

/-! ## Searching again -/

/-- Part of a search has been done again, without any look-up. If it `goes` on then what is left of
it comes to the same. -/
def Resumes {α : Type} (goes : α → Prop) (t : Table) (name : String) (rest : List TypeRef)
    (found : Option TypeRef) (a : α × List TypeId) (t' : Table) : Prop :=
  t.Calm t' ∧ (goes a.1 → t'.store.Search name rest a.2 found)

theorem calm_base {goes : α → Prop} {resolve : Query TypeId} {search : TypeId → Query (α × List TypeId)} {base : TypeRef}
    {rest : List TypeRef} {visited : List TypeId} (ht : t.Sound) (hrest : ∀ ref ∈ rest, t.store.RefKnown ref)
    (h : t.store.Search name (base :: rest) visited found)
    (hresolve : ∀ b, t.store.RefMeans base b → Ensures True t resolve fun b' t' => b' = b ∧ t.Calm t')
    (hsearch : ∀ (t' : Table) b, t'.Sound → t.Calm t' → t'.store.Final b → (∀ ref ∈ rest, t'.store.RefKnown ref) →
      t'.store.Search name (.direct b :: rest) visited found → Ensures True t' (search b) (t'.Resumes goes name rest found)) :
    Ensures True t (resolve >>= search) (t.Resumes goes name rest found) := by
  obtain ⟨b, hb, hdirect⟩ := h.head ht.store
  refine (hresolve b hb).bind fun b' t1 ⟨hb', hcalm⟩ => ?_
  subst hb'
  obtain ⟨ht1, hcarries⟩ := hcalm.carries ht
  have hfinal := hb.final_right ht.store
  refine (hsearch t1 b' ht1 hcalm (hfinal.retains hcarries.retains)
    (fun ref href => hcarries.retains.refKnown (hrest ref href)) ?_).imp
    fun a t2 ⟨hcalm', hgoes⟩ => ⟨hcalm.trans hcalm', hgoes⟩
  refine hdirect.retains hcarries.retains ht.store fun ref href => ?_
  rcases List.mem_cons.1 href with rfl | href
  · exact hfinal.1.1
  · exact hrest ref href

theorem calm_resolvedAt {v : TypeId} (ht : t.Sound) (hx : t.store.Means x v) :
    Ensures True t (resolvedAt depth x) fun u t' => u = v ∧ t.Calm t' := by
  rw [← (sameAt _).resolved]
  exact calm_resolved _ _ ht hx

theorem calm_firstInBases {depth : Nat} {classMember : TypeId → List TypeId → Query (Option TypeId × List TypeId)}
    (hclassMember : ∀ (t : Table) b visited rest, t.Sound → t.store.Final b → (∀ ref ∈ rest, t.store.RefKnown ref) →
      t.store.RefMeans ref y → t.store.Search name (.direct b :: rest) visited (some ref) →
      Ensures True t (classMember b visited) (t.Resumes (· = none) name rest (some ref)))
    (bases rest : List TypeRef) (visited : List TypeId) (ht : t.Sound) (hknown : ∀ ref ∈ bases ++ rest, t.store.RefKnown ref)
    (hfound : t.store.RefMeans ref y) (h : t.store.Search name (bases ++ rest) visited (some ref)) :
    Ensures True t (firstInBases (resolvedAt depth) classMember bases visited)
    (t.Resumes (· = none) name rest (some ref)) := by
  induction bases generalizing t visited with
  | nil => exact .pure ⟨.refl ht, fun _ => h⟩
  | cons base bases ih =>
    have hlater : ∀ t1, t.Calm t1 → t1.store.RefMeans ref y := fun t1 hcalm =>
      hfound.retains (hcalm.carries ht).2.retains ht.store (h.refKnown ht.store)
    unfold firstInBases
    refine Ensures.get_bind ?_
    rw [← bind_assoc]
    refine (calm_base ht (fun ref href => hknown ref (List.mem_cons_of_mem _ href)) h
      (fun b hb => calm_resolvedAt depth ht hb)
      fun t1 b ht1 hcalm hb hrest => hclassMember t1 b visited _ ht1 hb hrest (hlater t1 hcalm)).bind fun a t2 h2 => ?_
    obtain ⟨hcalm, hgoes⟩ := h2
    obtain ⟨_ | u, visited'⟩ := a
    · obtain ⟨ht2, hcarries⟩ := hcalm.carries ht
      have hnext := ih visited' ht2 (fun ref href => hcarries.retains.refKnown (hknown ref (List.mem_cons_of_mem _ href)))
        (hlater t2 hcalm) (hgoes rfl)
      exact hnext.imp fun a' t3 h3 => ⟨hcalm.trans h3.1, h3.2⟩
    · exact .pure ⟨hcalm, by simp⟩

theorem calm_classMemberAt : ∀ (t : Table) (k : TypeId) (visited : List TypeId) (rest : List TypeRef),
    t.Sound → t.store.Final k → (∀ ref ∈ rest, t.store.RefKnown ref) → t.store.RefMeans ref y →
    t.store.Search name (.direct k :: rest) visited (some ref) →
    Ensures True t (classMemberAt depth k name visited) (t.Resumes (· = none) name rest (some ref)) := by
  induction depth with
  | zero =>
    intros
    rw [classMemberAt]
    trivial
  | succ depth ih =>
    intro t k visited rest ht hk hknown hfound h
    rw [classMemberAt]
    unfold classMemberStep
    rcases h.turn hk with ⟨hmem, hrest⟩ | ⟨hnot, hturn⟩
    · rw [if_pos (by simpa using hmem)]
      exact .pure ⟨.refl ht, fun _ => hrest⟩
    rw [if_neg (by simpa using hnot)]
    refine Ensures.get_bind ?_
    rcases hturn with ⟨info, found, hclass, hget, hsame⟩ | ⟨info, hclass, hget, hrest⟩ | ⟨hclass, hrest⟩
    · cases hsame
      simp only [show t.form k = _ from hclass, hget]
      exact (calm_resolvedAt depth ht hfound).bind fun u t1 hu => .pure ⟨hu.2, by simp⟩
    · simp only [show t.form k = _ from hclass, hget]
      have hrefs := List.forall_mem_append.2 ⟨fun _ => ht.store.refKnown_of_base hclass, hknown⟩
      exact calm_firstInBases ih _ rest _ ht hrefs hfound hrest
    · split
      · rename_i hform
        rw [show t.store.form k = _ from hform] at hclass
        cases hclass
      · exact .pure ⟨.refl ht, fun _ => hrest⟩

theorem AtRest.asks_classMember (ht : t.AtRest) (depth : Nat) (hk : (t.form k).isClass = true)
    (name : String) : t.Asks True (Prod.fst <$> classMemberAt depth k name []) fun r t' =>
      t'.store.Inherits name k r ∧ ∀ v, t.store.Inherits name k (some v) → t.Calm t' := by
  have hfinal := final_of_isClass hk
  have hcalm : Ensures True t (classMemberAt depth k name []) fun _ t' =>
      (∃ v, t.store.Inherits name k (some v)) → t.Calm t' := by
    refine .assuming ?_
    rintro ⟨v, _, hsearch, ⟨hv⟩⟩
    exact (calm_classMemberAt depth t k [] [] ht.toSound hfinal (by simp) hv hsearch).imp fun _ _ h => h.1
  have hasks := ((soundAt_unknown depth).classMember name [] ht.toSound (fun _ => hfinal) (.inl trivial)).asks
  rw [(sameAt depth).classMember] at hasks
  exact .map (Ensures.imp (Ensures.and hasks hcalm) fun r t' ⟨⟨hproceeds, hr⟩, hcalm⟩ =>
    ⟨hproceeds, (hr.2.2 (ht.clear True)).inherits, fun v hv => hcalm ⟨v, hv⟩⟩)

/-! ## Classes and instances -/

/-- What is forced to something else than a class is not made up of one. -/
theorem Sound.classless_of_forced (ht : t.Sound) (hc : t.store.Known c) (hforced : t.store.Forced c k)
    (hplain : t.store.Plain k) (hk : (t.form k).isClass = false) : t.store.Classless c := by
  refine ⟨hc, hforced.ready ht.store, fun k' hk' hsole => ?_⟩
  obtain rfl := (hsole.of_matches (hforced.matches ht.store)).eq_of_isPlain ht.store ht.interned hplain.2
  rw [show t.store.form k = t.form k from rfl, hk] at hk'
  cases hk'

/-- The members of a class, or of an instance, are those of `k`. For an instance of anything but a
class, `k` is no class. -/
inductive ClassedBy (t : Table) (x : TypeId) : TypeId → Prop
  | self : (t.form x).isClass = true → ClassedBy t x x
  | ofInstance {c k : TypeId} : t.store.shape x = .object (.direct c) → t.store.Sole c k →
      (t.form k).isClass = true → ClassedBy t x k
  | classless {c k : TypeId} : t.store.shape x = .object (.direct c) → t.store.Classless c →
      t.store.Final k → (t.form k).isClass = false → ClassedBy t x k

theorem Sound.classedBy_of_forced (ht : t.Sound) (hx : t.store.shape x = .object (.direct c))
    (hforced : t.store.Forced c k) (hk : t.store.Plain k) : t.ClassedBy x k := by
  by_cases hclass : (t.form k).isClass = true
  · exact .ofInstance hx ((Sole.self (isScope_of_class hclass)).of_matches (hforced.matches ht.store).symm) hclass
  · have hclass' : (t.form k).isClass = false := by simpa using hclass
    exact .classless hx (ht.classless_of_forced (ht.store.refKnown_of_object hx) hforced hk hclass')
      (hforced.final ht.store ht.interned hk) hclass'

theorem ClassedBy.retains (h : t.ClassedBy x k) (ht : t.Sound) (ht' : t'.Sound)
    (hretains : t.store.Retains t'.store) : t'.ClassedBy x k := by
  cases h with
  | self hclass => exact .self (hretains.isClass hclass)
  | ofInstance hx hsole hclass =>
    have hclass' := hretains.isClass hclass
    exact .ofInstance (hretains.shape_object hx) (hsole.retains ht.store hretains (isScope_of_class hclass')) hclass'
  | classless hx hclassless hfinal hclass =>
    exact .classless (hretains.shape_object hx) (hclassless.retains ht.store hretains ht'.store)
      (hfinal.retains hretains) ((hretains.isClass_eq hfinal.1.1).trans hclass)

theorem ClassedBy.unique (h : t.ClassedBy x k) (h' : t.ClassedBy x k') :
    k = k' ∨ (t.form k).isClass = false ∧ (t.form k').isClass = false := by
  have hnot : ∀ {c}, t.store.shape x = .object (.direct c) → ¬ (t.form x).isClass = true := by
    intro c hx hclass
    rw [show t.form x = _ from form_of_shape (by simp) hx] at hclass
    cases hclass
  cases h with
  | self hclass =>
    cases h' with
    | self _ => exact .inl rfl
    | ofInstance hx _ _ | classless hx _ _ _ => exact absurd hclass (hnot hx)
  | ofInstance hx hsole hclass =>
    cases h' with
    | self hclass' => exact absurd hclass' (hnot hx)
    | ofInstance hx' hsole' _ =>
      grind [Sole.unique]
    | classless hx' hclassless _ _ =>
      cases hx.symm.trans hx'
      exact absurd hsole (hclassless.not_sole _ hclass)
  | classless hx hclassless _ hclass =>
    cases h' with
    | self hclass' => exact absurd hclass' (hnot hx)
    | ofInstance hx' hsole' hclass' =>
      cases hx.symm.trans hx'
      exact absurd hsole' (hclassless.not_sole _ hclass')
    | classless _ _ _ hclass' => exact .inr ⟨hclass, hclass'⟩

theorem ClassedBy.eq_of_retains (h : t.ClassedBy x k) (ht : t.Sound) (ht' : t'.Sound)
    (hretains : t.store.Retains t'.store) (hk : (t.form k).isClass = true) (h' : t'.ClassedBy x k') : k' = k := by
  rcases (h.retains ht ht' hretains).unique h' with heq | ⟨hnot, -⟩
  · exact heq.symm
  · exact absurd (hnot.symm.trans (hretains.isClass hk)) (by simp)

theorem ClassedBy.serves (h : t.ClassedBy x k) (hsearch : t.store.Search name [.direct k] [] found) :
    ∃ p, (∀ q, t.store.Comprises x q ↔ q = p) ∧ t.Serves name p found := by
  cases h with
  | self hclass => exact ⟨_, fun q => comprises_of_isScope (isScope_of_class hclass), .inherited hclass hsearch⟩
  | ofInstance hshape hsole hclass => exact ⟨_, fun q => comprises_instance hshape, .ofInstance hsole hclass hsearch⟩
  | classless hshape hclassless hfinal hclass =>
    cases found with
    | none => exact ⟨_, fun q => comprises_instance hshape, .classless hclassless⟩
    | some ref => exact absurd (hclass.symm.trans (hsearch.isClass hfinal)) (by simp)

theorem settles_of_classedBy (hx : t.store.Matches x y) (hy : t.ClassedBy y k)
    (h : t.store.Inherits name k r) : t.Settles name x r := by
  obtain ⟨found, hsearch, hfound⟩ := h
  obtain ⟨p, hiff, hserves⟩ := hy.serves hsearch
  cases hfound with
  | some _ => exact settles_of_has ((has_of_comprises hiff (.served hserves)).of_matches hx) rfl
  | none => exact settles_of_lacks (Lacks.of_matches ⟨p, (hiff p).2 rfl, hserves⟩ hx)

/-- What something has under `name`, if it is no module. -/
def Fetches (t : Table) (name : String) (p : Part) (r : Option TypeId) : Prop :=
  ∃ found, t.Serves name p found ∧ Option.Rel t.store.RefMeans found r

section

variable (ht : t.AtRest)

include ht

theorem AtRest.asks_memberOfEach {member : TypeId → Query (Option TypeId)} (ids acc : List TypeId)
    (hids : ∀ c ∈ ids, t.store.Known c)
    (hmember : ∀ c ∈ ids, ∀ t' : Table, t.Proceeds True t' → t'.Asks True (member c) fun r t'' => t''.Settles name c r) :
    t.Asks True (memberOfEach member ids acc) fun r t' =>
      (r.isSome → ∀ c ∈ ids, t'.Has name c) ∧
        (r = none → ∃ before c after, ids = before ++ c :: after ∧ (∀ d ∈ before, t'.Has name d) ∧
          (t'.Lacks name c ∨ t'.Misses name c)) := by
  induction ids generalizing t acc with
  | nil => exact .pure ⟨by simp, by simp⟩
  | cons c rest ih =>
    unfold memberOfEach
    refine .follow (hmember c (by simp) t (.refl t)) fun r t1 hproceeds1 hr => ?_
    cases r with
    | none => exact .pure ⟨by simp, fun _ => ⟨[], c, rest, rfl, by simp, hr.2 rfl⟩⟩
    | some u =>
      obtain ⟨ht1, hcarries⟩ := hproceeds1.carries ht.toSound
      have hknown : ∀ d ∈ c :: rest, t1.store.Known d := fun d hd => hcarries.retains.known (hids d hd)
      have hrest := ih (ht.proceeds hproceeds1) (u :: acc) (fun d hd => hknown d (by simp [hd])) fun d hd t2 hproceeds2 =>
        hmember d (by simp [hd]) t2 (hproceeds1.trans hproceeds2)
      refine Ensures.imp hrest fun r t2 h2 => ⟨h2.1, fun hr' d hd => ?_, fun hr' => ?_⟩
      · rcases List.mem_cons.1 hd with rfl | hd
        · exact (hr.1 rfl).proceeds ht1 h2.1 (hknown d (by simp))
        · exact h2.2.1 hr' d hd
      · obtain ⟨before, d, after, heq, hbefore, hd⟩ := h2.2.2 hr'
        refine ⟨c :: before, d, after, by rw [heq]; rfl, fun e he => ?_, hd⟩
        rcases List.mem_cons.1 he with rfl | he
        · exact (hr.1 rfl).proceeds ht1 h2.1 (hknown e (by simp))
        · exact hbefore e he

theorem AtRest.matches_later (hx : t.store.Known x) (hy : t.store.Plain y)
    (hforced : t.store.Forced x y) (hproceeds : t.Proceeds True t') : t'.store.Matches x y :=
  (hforced.matches ht.store).retains (ht.retains hproceeds) ht.store hx hy.1

theorem AtRest.asks_member_module (hx : t.store.Known x) (hforced : t.store.Forced x y)
    {info : ModuleType} (hform : t.form y = .ofModule info) (depth : Nat) (name : String) :
    t.Asks True (match info.members.get? name with
      | none => return none
      | some ref => some <$> resolvedAt depth (t.store.target ref)) fun r t' => t'.Settles name x r := by
  have hmodule : (t.form y).isModule = true := by rw [hform]; rfl
  have hsole : t.store.Sole y y := .self (isScope_of_module hmodule)
  have hmatches : t.store.Matches x y := hforced.matches ht.store
  have hentry := memberRef?_of_form hform name
  cases hget : info.members.get? name with
  | none =>
    refine .pure ⟨by simp, fun _ => .inr ⟨y, hmodule, hentry.trans hget, ?_, fun hx' => ⟨y, hforced.means hx', .inl rfl⟩⟩⟩
    exact (hsole.of_matches hmatches.symm _).2 rfl
  | some ref =>
    have hhas : t.Has name x := (has_of_comprises hsole (.bound (hentry.trans hget))).of_matches hmatches
    have href : ref ∈ (t.store.form y).refs := by
      rw [show t.store.form y = _ from hform]
      exact OrderedMap.mem_values_iff.2 ⟨name, hget⟩
    have hknown := ht.store.wellFormed.target_ref_known (ht.store.refKnown href)
    refine .map (Ensures.imp (ht.asks_resolved depth hknown) fun v t1 h1 => ⟨h1.1, ?_⟩)
    exact settles_of_has (hhas.proceeds ht.toSound h1.1 hx) rfl

theorem AtRest.asks_member_classed (hy : t.store.Final y)
    (hform : (t.form y).isClass = true ∨ (t.form y).isInstance = true) (depth : Nat) (name : String) :
    t.Asks True (match t.form y with
      | .ofClass _ => Prod.fst <$> classMemberAt depth y name []
      | .object cls => do
        let cls ← resolvedAt depth (t.store.target cls)
        if ((← get).form cls).isClass then Prod.fst <$> classMemberAt depth cls name [] else return none
      | _ => return none) fun r t' => (∃ k, t'.ClassedBy y k ∧ t'.store.Inherits name k r) ∧
        ∀ p v, t.store.Comprises y p → t.Fetches name p (some v) → t.Calm t' := by
  cases hform' : t.form y with
  | ofClass info =>
    have hclass : (t.form y).isClass = true := by rw [hform']; rfl
    refine Ensures.imp (ht.asks_classMember depth hclass name) fun r t' ⟨hproceeds, hinherits, hcalm⟩ =>
      ⟨hproceeds, ⟨y, .self ((ht.retains hproceeds).isClass hclass), hinherits⟩, ?_⟩
    rintro p v hp ⟨_, hserves, ⟨hv⟩⟩
    cases (comprises_of_isScope (isScope_of_class hclass)).1 hp
    cases hserves with
    | inherited _ hsearch => exact hcalm v ⟨_, hsearch, .some hv⟩
  | object cls =>
    have hshape : t.store.shape y = .object cls := shape_of_form hform'
    have hcls := ht.store.refKnown_of_object hshape
    cases cls with
    | slot w => exact absurd hshape (hy.2 w)
    | direct c =>
      refine .follow (ht.asks_resolved depth hcls) fun k t1 hproceeds1 hk => .get_bind ?_
      have ht1 := ht.proceeds hproceeds1
      have hretains1 := ht.retains hproceeds1
      have hclassed := ht1.classedBy_of_forced (hretains1.shape_object hshape) hk.forced hk.plain
      -- if the class has the member already then nothing was looked up to get there
      have hcalm1 : ∀ p v, t.store.Comprises y p → t.Fetches name p (some v) → t.Calm t1 ∧
          t1.store.Inherits name k (some v) := by
        rintro p v hp ⟨_, hserves, ⟨hv⟩⟩
        cases (comprises_instance hshape).1 hp
        cases hserves with
        | ofInstance hsole hclass hsearch =>
          have hforceable := (hsole.lookedUp (final_of_isClass hclass)).forceable ht.store hsole.known
          obtain rfl := (ClassedBy.ofInstance hshape hsole hclass).eq_of_retains ht.toSound
            ht1.toSound hretains1 hclass hclassed
          exact ⟨hk.calm hforceable, _, hsearch.retains_direct hretains1 ht.store hclass,
            .some (hv.retains hretains1 ht.store (hsearch.refKnown ht.store))⟩
      split
      · rename_i hclass
        refine Ensures.imp (ht1.asks_classMember depth hclass name) fun r t2 ⟨hproceeds2, hinherits, hcalm2⟩ =>
          ⟨hproceeds2, ⟨k, ?_, hinherits⟩, fun p v hp hv => (hcalm1 p v hp hv).1.trans (hcalm2 v (hcalm1 p v hp hv).2)⟩
        exact hclassed.retains ht1.toSound (ht1.proceeds hproceeds2).toSound (ht1.retains hproceeds2)
      · rename_i hclass
        refine .pure
          ⟨⟨k, hclassed, none, .other (.final (hk.forced.final ht1.store ht1.interned hk.plain))
          (by simp) ?_ .nil, .none⟩, fun p v hp hv => (hcalm1 p v hp hv).1⟩
        exact Bool.eq_false_iff.2 hclass
  | _ =>
    rw [hform'] at hform
    rcases hform with hform | hform <;> cases hform

/-- What comes before the first candidate without the member has it. If that candidate is a module
then looking ends there. -/
theorem AtRest.settles_none_of_candidates (hx : t.store.Known x) (hforced : t.store.Forced x y)
    {before after : List TypeId} (hy : t.store.shape y = .union (before ++ c :: after)) (ht' : t'.AtRest)
    (hproceeds : t.Proceeds True t') (hmatches : t'.store.Matches x y) (hbefore : ∀ d ∈ before, t'.Has name d)
    (hc : t'.Lacks name c ∨ t'.Misses name c) : t'.Settles name x none := by
  have hretains := ht.retains hproceeds
  have hy' := hretains.shape_union hy
  have hcs := candidates?_eq_some_iff.2 (.inl hy')
  have hmem : c ∈ before ++ c :: after := by simp
  refine ⟨by simp, fun _ => ?_⟩
  rcases hc with hlacks | ⟨m, hmodule, hentry, hm, -⟩
  · exact .inl ((lacks_of_candidates hcs hmem hlacks).of_matches hmatches)
  rcases hmatches with ⟨hunknown, -⟩ | hiff
  · exact .inl ⟨_, hunknown, .unknown⟩
  obtain rfl := ht'.store.eq_of_comprises (ht'.store.single hcs hmem) (ht'.store.plain hy' hmem) hm
  refine .inr ⟨c, hmodule, hentry, (hiff _).2 ((comprises_of_candidates hcs).2 ⟨c, hmem, hm⟩), fun hx' => ?_⟩
  have hmeans : t.store.Means x y := by
    refine hforced.means fun cs hcs => hx' cs ?_
    exact (hretains.shape_eq hx (by rw [hcs]; rfl) (by simp [hcs])).trans hcs
  exact ⟨y, hmeans.retains hretains ht.store, .inr ⟨before, after, hy', hbefore⟩⟩

theorem AtRest.asks_member_union (hx : t.store.Known x) (hy : t.store.Plain y)
    (hforced : t.store.Forced x y) (hform : t.form y = .union cs) {depth : Nat}
    (hmember : ∀ {t : Table} {c : TypeId}, t.AtRest → t.store.Known c →
      t.Asks True (memberAt depth c name) fun r t' => t'.Settles name c r) :
    t.Asks True (do
      match ← memberOfEach (fun c => memberAt depth c name) cs [] with
      | none => return none
      | some members => some <$> Query.follow (TypeStore.unionOfAt · members)) fun r t' => t'.Settles name x r := by
  have hcs : t.store.candidates? y = some cs := candidates?_of_union hform
  have hknown := ht.store.wellFormed.known_of_form_union hcs
  have heach := ht.asks_memberOfEach cs [] hknown fun c hc t' hproceeds =>
    hmember (ht.proceeds hproceeds) ((ht.retains hproceeds).known (hknown c hc))
  have hplain : t.Asks True (memberOfEach (fun c => memberAt depth c name) cs []) fun r t' =>
      ∀ us, r = some us → ∀ v ∈ us, t'.store.Plain v := by
    refine (SoundAt.memberOfEach cs [] ht.toSound (by simp) fun c hc t1 ht1 hpasses => ?_).asks
    rw [← (sameAt depth).member]
    have hc1 := hpasses.retains.known (hknown c hc)
    exact ((soundAt_unknown depth).member name ht1 hc1 (.inl trivial)).imp ht1 fun _ _ _ _ hr => hr.1
  refine Ensures.bind (Ensures.and heach hplain) fun r t1 ⟨⟨hproceeds1, hhas, hnone⟩, _, hplain1⟩ => ?_
  have ht1 := ht.proceeds hproceeds1
  have hretains1 := ht.retains hproceeds1
  have hmatches := ht.matches_later hx hy hforced hproceeds1
  cases r with
  | some us =>
    have hhas1 : t1.Has name x := ((has_of_candidates (hretains1.candidates?_eq hcs)).2 (hhas rfl)).of_matches hmatches
    have hunion : t1.Asks True _ _ := (finds_unionOf ht1.toSound (hplain1 us rfl)).asks
    refine Ensures.map (Ensures.imp hunion fun v t2 h2 => ⟨hproceeds1.trans h2.1, ?_⟩)
    exact settles_of_has (hhas1.proceeds ht1.toSound h2.1 (hretains1.known hx)) rfl
  | none =>
    obtain ⟨before, c, after, rfl, hbefore, hc⟩ := hnone rfl
    refine .pure ⟨hproceeds1, ?_⟩
    exact ht.settles_none_of_candidates hx hforced (shape_of_form hform) ht1 hproceeds1 hmatches hbefore hc

end

/-- A member that is found is one that the type has. If there is none then the type lacks it, or a
module on the way does not have it so far. -/
theorem AtRest.asks_member (name : String) : ∀ {t : Table} {x : TypeId}, t.AtRest → t.store.Known x →
    t.Asks True (memberAt depth x name) fun r t' => t'.Settles name x r := by
  induction depth with
  | zero =>
    intro t x _ _
    rw [memberAt]
    exact .tooDeep
  | succ depth ih =>
    intro t x ht hx
    rw [memberAt]
    unfold memberStep
    refine .follow (ht.asks_resolved depth hx) fun u t1 hproceeds1 hu => .get_bind ?_
    obtain ⟨hplain, hforced, -⟩ := hu
    have ht1 := ht.proceeds hproceeds1
    have hx1 : t1.store.Known x := (ht.retains hproceeds1).known hx
    have hmatches : t1.store.Matches x u := hforced.matches ht1.store
    cases hform : t1.form u with
    | ofModule info => exact ht1.asks_member_module hx1 hforced hform depth name
    | ofClass _ | object _ =>
      have hclassed := ht1.asks_member_classed (hforced.final ht1.store ht1.interned hplain)
        (by simp [hform, TypeForm.isClass, TypeForm.isInstance]) depth name
      rw [hform] at hclassed
      refine Ensures.imp hclassed fun r t2 hr => ?_
      obtain ⟨hproceeds2, ⟨k, hk, hinherits⟩, -⟩ := hr
      exact ⟨hproceeds2, settles_of_classedBy (ht1.matches_later hx1 hplain hforced hproceeds2) hk hinherits⟩
    | union cs => exact ht1.asks_member_union hx1 hplain hforced hform ih
    | ofFunction info =>
      have hshape : t1.store.shape u = _ := shape_of_form hform
      exact .pure (settles_of_lacks (Lacks.of_matches ⟨_, (comprises_of_function hshape).2 rfl, .function hshape⟩ hmatches))
    | unknown | unresolvedImport _ =>
      have hunknown : (t1.store.shape u).isUnknown = true := by
        rw [shape_of_form hform]
        rfl
      exact .pure (settles_of_lacks (Lacks.of_matches ⟨_, comprises_unknown_iff.2 (.unknown hunknown), .unknown⟩ hmatches))
    | lazyUnion _ | lazy _ _ =>
      have hlazy : (t1.form u).isPlain = true := hplain.isPlain_form
      rw [hform] at hlazy
      cases hlazy

end Table

end PythonTypes
