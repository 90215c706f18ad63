import PythonTypes.Proofs.Table.Operation

/-!
# Operations that take types apart

Calling a value and looking for a member act on everything that a type is made up of. What they do
with one part is a `PartRule`: once nothing has to be looked up, the part gives a type or nothing,
for good. What such an operation gives for a type is then made up of what it gives for the parts
(`PartRule.Gives`), and so is the union of what it gives for several types (`served_joinEach`).

Types made up of the same parts therefore give the same, whichever of them comes first: after the
first, everything has been looked up and the second only adds types to the table
(`PartRule.Served.unique`). For a union and the types that it was made of this says that calls and
member look-ups distribute over unions (`union_distributes`).
-/

set_option autoImplicit false

namespace PythonTypes

theorem Ensures.of_map {σ α β : Type} {mayStop : Prop} {s : σ} {action : StateT σ Option α} {f : α → β} {Q : β → σ → Prop}
    (h : Ensures mayStop s (f <$> action) Q) : Ensures mayStop s action fun a s' => Q (f a) s' := by
  have hmap : (f <$> action) s = (action s).bind fun r => some (f r.1, r.2) := by
    rw [map_eq_pure_bind]
    rfl
  grind [Ensures]

/-- Whether this is a class, a function or an instance. -/
def TypeForm.isValue : TypeForm → Bool
  | .ofClass _ | .ofFunction _ | .object _ => true
  | _ => false

namespace TypeStore

variable {s s' : TypeStore} {x y v w : TypeId} {p q : Part} {xs ys : List TypeId} {ref : TypeRef}

/-! ## Unions of the same parts -/

theorem Interned.typeOf?_asInstance (h : s.Interned) (p : Part) : s.typeOf? (s.asInstance p) = s.typeOf? p := by
  cases p with
  | type z =>
    rcases s.asInstance_cases z with ⟨c, hshape⟩ | hself
    · have hz := h z
      rw [hshape] at hz
      rw [asInstance_of_object hshape]
      exact hz
    · rw [hself]
  | _ => rfl

theorem jointly_unknown_iff : s.Jointly xs .unknown ↔ ∃ x ∈ xs, s.HasPart x .unknown :=
  exists_congr fun _ => and_congr_right fun _ => comprises_unknown_iff

/-- Unions of types that are made up of the same are equal, because instances are interned. -/
theorem IsUnionOf.eq_of_alike (hv : s.IsUnionOf xs v) (hw : s.IsUnionOf ys w)
    (hinterned : s.Interned) (hxs : xs ≠ []) (hys : ys ≠ [])
    (h : Alike (s.Jointly xs) (s.Jointly ys)) : v = w := by
  have hdenotes : ∀ {xs ys v}, s.IsUnionOf xs v → xs ≠ [] → (∀ p, s.Jointly xs p ↔ s.Jointly ys p) →
      (¬ ∃ x ∈ xs, s.HasPart x .unknown) → ∀ p, (∃ x ∈ xs, s.HasPart x p) →
      ∃ z, s.typeOf? p = some z ∧ s.Denotes (fun q => ∃ y ∈ ys, s.HasPart y q) z := by
    intro xs ys v hv hxs hiff hnot p hp
    obtain ⟨z, hz⟩ := (hv.answers hxs).typeOf? hnot p hp
    obtain ⟨x, hx, hpx⟩ := hp
    obtain ⟨y, hy, q, hq, hqp⟩ := (hiff (s.asInstance p)).1 ⟨x, hx, p, hpx, rfl⟩
    refine ⟨z, hz, q, ⟨y, hy, hq⟩, ?_⟩
    rw [← hinterned.typeOf?_asInstance, hqp, hinterned.typeOf?_asInstance, hz]
  refine (hv.answers hxs).unique ?_ (hw.answers hys)
  rcases h with ⟨hx, hy⟩ | hiff
  · exact .of_unknown (jointly_unknown_iff.1 hx) (jointly_unknown_iff.1 hy)
  · have hunknown := (jointly_unknown_iff.symm.trans (hiff _)).trans jointly_unknown_iff
    exact ⟨hunknown, hdenotes hv hxs hiff, fun hnot => hdenotes hw hys (fun p => (hiff p).symm) (mt hunknown.2 hnot)⟩

theorem Retains.jointly_eq (h : s.Retains s') (hs : s.Tidy) (hxs : ∀ x ∈ xs, s.Known x) :
    s'.Jointly xs = fun q => ∃ p, s.Jointly xs p ∧ s'.Turns p q := by
  funext q
  refine propext ⟨?_, ?_⟩
  · rintro ⟨x, hx, hq⟩
    obtain ⟨p, hp, hpq⟩ := (h.comprises_iff hs (hxs x hx)).1 hq
    exact ⟨p, ⟨x, hx, hp⟩, hpq⟩
  · rintro ⟨p, ⟨x, hx, hp⟩, hpq⟩
    exact ⟨x, hx, (h.comprises_iff hs (hxs x hx)).2 ⟨p, hp, hpq⟩⟩

/-! ## References that have been looked up -/

theorem Forceable.of_target (h : s.Forceable x) (hx : s.lazyTarget? x = some y) : s.Forceable y := by
  cases h with
  | plain hplain _ => rw [lazyTarget?_of_isPlain hplain.2] at hx; cases hx
  | target htarget hy => cases htarget.symm.trans hx; exact hy
  | union hshape _ => rw [no_target_of_shape hshape (by simp)] at hx; cases hx

theorem Forceable.target_eq (h : s.Forceable (s.target ref)) (hs : s.Tidy) (href : s.RefKnown ref)
    (hretains : s.Retains s') : s'.target ref = s.target ref := by
  refine hretains.target_eq_of_isResolved ?_
  cases ref with
  | direct x => rfl
  | slot w =>
    by_contra hw
    have hw : (s.slot w).isResolved = false := by simpa [isResolved] using hw
    rw [target_slot_of_waiting hw] at h
    have hpending := hs.isPending_of_waiting href hw
    cases h with
    | plain hplain _ => simp [isPending_of_isPlain hplain.2] at hpending
    | target htarget _ => simp [lazyTarget?_of_isPending hpending] at htarget
    | union hshape _ =>
      obtain ⟨path, hlazy⟩ := isPending_iff.1 hpending
      simp [hshape] at hlazy

/-! ## Plain types that are forced -/

theorem comprises_of_isUnknown (hx : (s.shape x).isUnknown = true) : s.Comprises x p ↔ p = .unknown := by
  have hparts : ∀ q, s.HasPart x q ↔ q = .unknown := by
    intro q
    cases hshape : s.shape x with
    | unknown | unresolvedImport _ => rw [hasPart_iff, hshape]
    | _ =>
      rw [hshape] at hx
      cases hx
  simp only [Comprises, hparts, exists_eq_left]
  exact eq_comm

theorem Forced.means_of_plain (h : s.Forced x y) (hx : s.Plain x) : s.Means x y :=
  h.means fun cs hshape => absurd hx.2 (by simp [hshape, TypeForm.isPlain])

/-- A plain type that means another one is made up of instances, as the other one is. -/
theorem Means.instances (h : s.Means x y) (hs : s.Tidy) (hx : s.Plain x) :
    y = x ∨ ∀ z ∈ [x, y], ∀ p, s.Comprises z p → p = .unknown ∨ ∃ c, p = .instanceOf c := by
  have hmatches := h.matches hs
  cases h with
  | final _ => exact .inl rfl
  | target htarget _ => simp [lazyTarget?_of_isPlain hx.2] at htarget
  | awaited hshape hw hy =>
    have hinstance : ∀ p, s.Comprises x p → p = .unknown ∨ ∃ c, p = .instanceOf c := by
      rintro _ ⟨q, hq, rfl⟩
      rcases hs.instancePart_of_isPlain (hs.slot_plain hw) ((hasPart_of_awaited hshape hw).1 hq) with rfl | ⟨d, rfl⟩
      · exact .inl rfl
      · exact .inr ⟨d, rfl⟩
    refine .inr (List.forall_mem_cons.2 ⟨hinstance, List.forall_mem_singleton.2 fun p hp => ?_⟩)
    rcases hmatches with ⟨hunknown, -⟩ | hiff
    · cases hy with
      | unknown _ => exact .inl ((comprises_of_isUnknown (by rw [hs.wellFormed.unknown_first]; rfl)).1 hp)
      | known hnot => exact absurd ((hasPart_of_awaited hshape hw).1 (comprises_unknown_iff.1 hunknown)) hnot
    · exact hinstance p ((hiff p).2 hp)

end TypeStore

namespace Table

open TypeStore

/-! ## What an operation does with parts -/

/-- What an operation does with something that a type is made up of: it gives a type made up of the
same as `y` (`acts q (some y)`), or nothing (`acts q none`), without any look-up and for good. -/
structure PartRule where
  acts : Table → Part → Option TypeId → Prop
  known : ∀ {t q y}, t.AtRest → acts t q (some y) → t.store.Known y
  unique : ∀ {t q r r'}, acts t q r → acts t q r' → r = r'
  fixed : ∀ {t q q' r}, acts t q r → (t.store.Turns q q' ↔ q' = q)
  stays : ∀ {t t' : Table} {q r}, t.AtRest → t.Proceeds True t' → acts t q r → acts t' q r

/-- The parts turn into others as types are looked up. -/
def Follows (t : Table) (P : TypeStore → Part → Prop) : Prop := ∀ t₁ t₂ : Table, t.Proceeds True t₁ → t₁.Proceeds True t₂ →
  P t₂.store = fun q => ∃ p, P t₁.store p ∧ t₂.store.Turns p q

namespace PartRule

variable {rule : PartRule} {t t₁ t₂ t' : Table} {P P' : Part → Prop} {Q Q' : TypeStore → Part → Prop}
variable {xs rs : List TypeId} {x y v : TypeId} {p q : Part} {r r' : Option TypeId} {joined : Prop}

/-- The operation gives something for each of the parts. -/
def Does (rule : PartRule) (t : Table) (P : Part → Prop) : Prop := ∀ q, P q → ∃ y, rule.acts t q (some y)

/-- What the operation gives for the parts is made up of `p` and maybe others. -/
def Makes (rule : PartRule) (t : Table) (P : Part → Prop) (p : Part) : Prop :=
  ∃ q y, P q ∧ rule.acts t q (some y) ∧ t.store.Comprises y p

/-- What the operation gives for several parts taken together. -/
def Gives (rule : PartRule) (t : Table) (P : Part → Prop) : Option TypeId → Prop
  | some v => t.store.Known v ∧ rule.Does t P ∧ Alike (t.store.Comprises v) (rule.Makes t P)
  | none => ∃ q, P q ∧ rule.acts t q none

theorem Does.not_gives_none (h : rule.Does t P) : ¬ rule.Gives t P none := by
  rintro ⟨q, hq, hnone⟩
  obtain ⟨y, hy⟩ := h q hq
  cases rule.unique hy hnone

section Proceeds

variable (ht : t.AtRest) (hproceeds : t.Proceeds True t') (hP : P' = fun q => ∃ p, P p ∧ t'.store.Turns p q)

include ht hproceeds

theorem Does.makes_eq (h : rule.Does t P) : rule.Makes t' P = fun q => ∃ p, rule.Makes t P p ∧ t'.store.Turns p q := by
  funext q
  refine propext ⟨?_, ?_⟩
  · rintro ⟨r, y, hr, hy, hq⟩
    obtain ⟨y', hy'⟩ := h r hr
    cases rule.unique hy (rule.stays ht hproceeds hy')
    obtain ⟨p, hp, hpq⟩ := ((ht.retains hproceeds).comprises_iff ht.store (rule.known ht hy')).1 hq
    exact ⟨p, ⟨r, y, hr, hy', hp⟩, hpq⟩
  · rintro ⟨p, ⟨r, y, hr, hy, hp⟩, hpq⟩
    exact ⟨r, y, hr, rule.stays ht hproceeds hy,
      ((ht.retains hproceeds).comprises_iff ht.store (rule.known ht hy)).2 ⟨p, hp, hpq⟩⟩

include hP

theorem Does.parts_eq (h : rule.Does t P) : P' = P := by
  subst hP
  funext q
  refine propext ⟨?_, fun hq => ?_⟩
  · rintro ⟨p, hp, hpq⟩
    obtain ⟨y, hy⟩ := h p hp
    rwa [(rule.fixed (rule.stays ht hproceeds hy)).1 hpq]
  · obtain ⟨y, hy⟩ := h q hq
    exact ⟨q, hq, (rule.fixed (rule.stays ht hproceeds hy)).2 rfl⟩

theorem Does.proceeds (h : rule.Does t P) : rule.Does t' P' := by
  rw [h.parts_eq ht hproceeds hP]
  exact fun q hq => (h q hq).imp fun y hy => rule.stays ht hproceeds hy

theorem Gives.proceeds (h : rule.Gives t P r) : rule.Gives t' P' r := by
  cases r with
  | none =>
    obtain ⟨q, hq, hnone⟩ := h
    have hnone' := rule.stays ht hproceeds hnone
    rw [hP]
    exact ⟨q, ⟨q, hq, (rule.fixed hnone').2 rfl⟩, hnone'⟩
  | some v =>
    obtain ⟨hv, hdoes, halike⟩ := h
    refine ⟨ht.known hproceeds hv, hdoes.proceeds ht hproceeds hP, ?_⟩
    rw [hdoes.parts_eq ht hproceeds hP, hdoes.makes_eq ht hproceeds, (ht.retains hproceeds).comprises_eq ht.store hv]
    exact halike.turns

end Proceeds

/-- What the operation gives for a single part is what it gives. -/
theorem gives_of_acts {q₀ : Part} (hiff : ∀ q, P q ↔ q = q₀) (hacts : rule.acts t q₀ r)
    (ht : t.AtRest) : rule.Gives t P r := by
  cases r with
  | none => exact ⟨q₀, (hiff q₀).2 rfl, hacts⟩
  | some v =>
    refine ⟨rule.known ht hacts, fun q hq => ⟨v, (hiff q).1 hq ▸ hacts⟩, .inr fun p =>
      ⟨fun hp => ⟨q₀, v, (hiff q₀).2 rfl, hacts, hp⟩, ?_⟩⟩
    rintro ⟨q, y, hq, hy, hp⟩
    cases (hiff q).1 hq
    cases rule.unique hacts hy
    exact hp

/-- What the operation gives for each of the types is what it gives for all of them. -/
theorem gives_of_forall₂ (h : List.Forall₂ (fun x r => rule.Gives t (t.store.Comprises x) (some r)) xs rs)
    (hv : t.store.Known v) (halike : Alike (t.store.Jointly rs) (t.store.Comprises v)) :
    rule.Gives t (t.store.Jointly xs) (some v) := by
  refine ⟨hv, fun q hq => ?_,
    (halike.symm.trans (.exists_of_forall₂ (h.flip.imp fun _ _ h => h.2.2))).trans
    (.inr fun p => ?_)⟩
  · obtain ⟨x, hx, hq⟩ := hq
    obtain ⟨r, -, hr⟩ := (exists_of_forall₂ h).1 x hx
    exact hr.2.1 q hq
  · constructor
    · rintro ⟨x, hx, q, y, hq, hy, hp⟩
      exact ⟨q, y, ⟨x, hx, hq⟩, hy, hp⟩
    · rintro ⟨q, y, ⟨x, hx, hq⟩, hy, hp⟩
      exact ⟨x, hx, q, y, hq, hy, hp⟩

/-- What has been found out by applying the operation to something made up of these parts. Nothing
had to be looked up if the operation gives something for each of them. -/
structure Served (rule : PartRule) (t : Table) (joined : Prop) (Q : TypeStore → Part → Prop)
    (r : Option TypeId) (t' : Table) : Prop where
  proceeds : t.Proceeds True t'
  gives : rule.Gives t' (Q t'.store) r
  calm : rule.Does t (Q t.store) → t.Calm t'
  union : joined → ∀ v, r = some v → ∃ ms, ms ≠ [] ∧ t'.store.IsUnionOf ms v

namespace Served

theorem of_joined (h : rule.Served t joined Q r t') {joined' : Prop} (himp : joined' → joined) :
    rule.Served t joined' Q r t' :=
  ⟨h.proceeds, h.gives, h.calm, fun hjoined => h.union (himp hjoined)⟩

theorem congr (h : rule.Served t joined Q r t') (hQ : t.Follows Q) (hQ' : t.Follows Q')
    (hsame : Q t.store = Q' t.store) : rule.Served t joined Q' r t' := by
  refine ⟨h.proceeds, ?_, hsame ▸ h.calm, h.union⟩
  rw [hQ' t t' (.refl t) h.proceeds, ← hsame, ← hQ t t' (.refl t) h.proceeds]
  exact h.gives

/-- Whichever comes first, the operation gives the same for the same parts. -/
theorem unique (h : rule.Served t True Q r t₁) (h' : rule.Served t₁ True Q' r' t₂) (ht : t.AtRest)
    (hQ : t.Follows Q) (hQ' : t.Follows Q') (hsame : Q t.store = Q' t.store) : r = r' := by
  have ht₁ := ht.proceeds h.proceeds
  have ht₂ := ht₁.proceeds h'.proceeds
  have hgives₁ := (h.congr hQ hQ' hsame).gives
  have hgives₂ := hgives₁.proceeds ht₁ h'.proceeds (hQ' t₁ t₂ h.proceeds h'.proceeds)
  cases r with
  | none =>
    cases r' with
    | none => rfl
    | some w => exact absurd hgives₂ h'.gives.2.1.not_gives_none
  | some v =>
    cases r' with
    | none => exact absurd h'.gives hgives₂.2.1.not_gives_none
    | some w =>
      have hgrows := (h'.calm hgives₁.2.1).grows
      obtain ⟨ms, hms, hv⟩ := h.union trivial v rfl
      obtain ⟨ms', hms', hw⟩ := h'.union trivial w rfl
      have hv := hv.grows ht₁.store.wellFormed hgrows
      refine congrArg some (hv.eq_of_alike hw ht₂.interned hms hms' ?_)
      have hcomprises := hgives₂.2.2.trans h'.gives.2.2.symm
      exact ((ht₂.store.alike_of_union (hv.answers hms)).trans hcomprises).trans
        (ht₂.store.alike_of_union (hw.answers hms')).symm

end Served

end PartRule

variable {t t₁ t' : Table} {rule : PartRule} {xs cs : List TypeId} {x y v : TypeId} {p q : Part}
  {r : Option TypeId} {joined : Prop}
variable {c f k u : TypeId} {info : FunctionType} {name : String} {depth : Nat}

theorem AtRest.follows_comprises (ht : t.AtRest) (hx : t.store.Known x) : t.Follows (·.Comprises x) := fun _ _ h₁ h₂ =>
  ((ht.proceeds h₁).retains h₂).comprises_eq (ht.proceeds h₁).store (ht.known h₁ hx)

theorem AtRest.follows_jointly (ht : t.AtRest) (hxs : ∀ x ∈ xs, t.store.Known x) :
    t.Follows (·.Jointly xs) := fun _ _ h₁ h₂ =>
  ((ht.proceeds h₁).retains h₂).jointly_eq (ht.proceeds h₁).store fun x hx => ht.known h₁ (hxs x hx)

/-! ## Several types, one by one -/

/-- The union of what an operation gives for each of several types; nothing if it gives nothing for
one of them. -/
def joinEach {m : Type → Type} [Monad m] [MonadLiftT TableM m] (op : TypeId → m (Option TypeId))
    (xs : List TypeId) : m (Option TypeId) := do
  let rs ← xs.mapM op
  if none ∈ rs then return none else some <$> liftM (onStore (TypeStore.unionOf (rs.filterMap id)))

theorem joinEach_some {m : Type → Type} [Monad m] [LawfulMonad m] [MonadLiftT TableM m]
    (f : TypeId → m TypeId) (xs : List TypeId) :
    joinEach (fun x => some <$> f x) xs = some <$> (xs.mapM f >>= fun rs => liftM (onStore (TypeStore.unionOf rs))) := by
  have hmapM : xs.mapM (fun x => some <$> f x) = List.map some <$> xs.mapM f := by
    induction xs with
    | nil => simp
    | cons x rest ih => simp [List.mapM_cons, ih]
  simp [joinEach, hmapM]

theorem forall₂_filterMap {α β : Type} {R : α → Option β → Prop} {as : List α}
    {bs : List (Option β)} (h : List.Forall₂ R as bs)
    (hbs : none ∉ bs) : List.Forall₂ (fun a b => R a (some b)) as (bs.filterMap id) := by
  induction h with
  | nil => exact .nil
  | @cons a b as bs hab _ ih =>
    cases b with
    | none => simp at hbs
    | some b => exact .cons hab (ih (by simpa using hbs))

theorem AtRest.served_joinEach (ht : t.AtRest) {op : TypeId → Query (Option TypeId)}
    (hxs : ∀ x ∈ xs, t.store.Known x) (hne : xs ≠ [])
    (hop : ∀ x ∈ xs, ∀ t', t.Proceeds True t' → Ensures True t' (op x) (rule.Served t' False (·.Comprises x))) :
    Ensures True t (joinEach op xs) (rule.Served t True (·.Jointly xs)) := by
  have hfollows := fun x hx => ht.follows_comprises (hxs x hx)
  have hmapM := ensures_mapM (P := fun x t => rule.Does t (t.store.Comprises x))
    (Q := fun x r t => rule.Gives t (t.store.Comprises x) r)
    ht.toSound xs (fun x hx t1 t2 h1 h2 h => h.proceeds (ht.proceeds h1) h2 (hfollows x hx t1 t2 h1 h2))
    (fun x hx r t1 t2 h1 h2 h => h.proceeds (ht.proceeds h1) h2 (hfollows x hx t1 t2 h1 h2))
    fun x hx t1 h1 => (hop x hx t1 h1).imp fun r t2 h => ⟨h.proceeds, h.calm, h.gives⟩
  refine hmapM.bind fun rs t1 h1 => ?_
  obtain ⟨hproceeds, hcalm, hgives⟩ := h1
  replace hcalm : rule.Does t (t.store.Jointly xs) → t.Calm t1 := fun hdoes => hcalm fun x hx q hq => hdoes q ⟨x, hx, hq⟩
  split
  · rename_i hnone
    obtain ⟨x, hx, q, hq, hacts⟩ := (exists_of_forall₂ hgives).2 none hnone
    exact .pure ⟨hproceeds, ⟨q, ⟨x, hx, hq⟩, hacts⟩, hcalm, fun _ v hv => by cases hv⟩
  · rename_i hnone
    have ht1 := ht.proceeds hproceeds
    have hms := forall₂_filterMap hgives hnone
    have hms_ne : rs.filterMap id ≠ [] := by
      intro hnil
      rw [hnil] at hms
      exact hne (List.forall₂_nil_right_iff.1 hms)
    have hknown : ∀ m ∈ rs.filterMap id, t1.store.Known m := by
      intro m hm
      obtain ⟨x, -, hx⟩ := (exists_of_forall₂ hms).2 m hm
      exact hx.1
    refine .map ((ht1.calm_unionOf hknown).imp fun v t2 h2 => ?_)
    obtain ⟨hcalm2, hv, hunion⟩ := h2
    have ht2 := ht1.calm hcalm2
    have hms2 : List.Forall₂ (fun x r => rule.Gives t2 (t2.store.Comprises x) (some r)) xs (rs.filterMap id) := by
      refine ((List.forall₂_and_left _ _).2 ⟨fun x hx => hx, hms⟩).imp fun x r h => ?_
      exact h.2.proceeds ht1 hcalm2.proceeds (hfollows x h.1 t1 t2 hproceeds hcalm2.proceeds)
    refine ⟨hproceeds.trans hcalm2.proceeds,
      PartRule.gives_of_forall₂ hms2 hv (ht2.store.alike_of_union (hunion.answers hms_ne)),
      fun hdoes => (hcalm hdoes).trans hcalm2, fun _ v' hv' => ?_⟩
    cases hv'
    exact ⟨_, hms_ne, hunion⟩

/-! ## Values -/

/-- A plain type that no module is part of. -/
structure Value (t : Table) (x : TypeId) : Prop where
  plain : t.store.Plain x
  not_module : ∀ m, t.store.Comprises x (.type m) → (t.form m).isModule = false

theorem Value.proceeds (h : t.Value x) (ht : t.AtRest) (hproceeds : t.Proceeds True t') : t'.Value x := by
  have hretains := ht.retains hproceeds
  refine ⟨h.plain.evolves hretains.toEvolves, fun m hm => ?_⟩
  obtain ⟨p, hp, hpm⟩ := (hretains.comprises_iff ht.store h.plain.1).1 hm
  obtain rfl := (ht.store.ready_of_isPlain h.plain.2).eq_of_turns ht.store hretains (ht.proceeds hproceeds).store hp hpm
  exact (hretains.form_congr TypeForm.isModule_outline (ht.store.atom_of_comprises hp).known).trans (h.not_module m hp)

theorem Value.forced (h : t.Value x) (ht : t.AtRest) (hy : t.store.Plain y) (hforced : t.store.Forced x y) : t.Value y := by
  rcases (hforced.means_of_plain h.plain).instances ht.store h.plain with rfl | hall
  · exact h
  · refine ⟨hy, fun m hm => ?_⟩
    rcases hall y (by simp) _ hm with heq | ⟨c, heq⟩ <;> cases heq

theorem Value.not_isModule (h : t.Value x) : ¬ (t.form x).isModule = true := fun hmodule => by
  simp [h.not_module x ((comprises_of_isScope (isScope_of_module hmodule)).2 rfl)] at hmodule

def IsUnion (t : Table) (x : TypeId) : Prop := ∃ cs, t.form x = .union cs

/-- What is given for a union is the union of what is given for its candidates. -/
theorem AtRest.served_candidates (ht : t.AtRest) {op : TypeId → Query (Option TypeId)}
    (hy : t.Value y) (hform : t.form y = .union cs)
    (hop : ∀ {t : Table} {c : TypeId}, t.AtRest → t.Value c → Ensures True t (op c)
      (rule.Served t (t.IsUnion c) (·.Comprises c))) :
    Ensures True t (joinEach op cs) (rule.Served t True (·.Comprises y)) := by
  have hcs : t.store.candidates? y = some cs := candidates?_of_union hform
  have hknown := ht.store.wellFormed.known_of_form_union hcs
  obtain ⟨c, hc, -⟩ := ht.store.exists_other_candidate ht.interned hcs y
  have hvalue : ∀ c ∈ cs, t.Value c := fun c hc => ⟨⟨hknown c hc, ht.store.plain (shape_of_form hform) hc⟩, fun m hm =>
    hy.not_module m ((comprises_of_candidates hcs).2 ⟨c, hc, hm⟩)⟩
  have hserved : Ensures True t (joinEach op cs) (rule.Served t True (·.Jointly cs)) :=
    ht.served_joinEach hknown (List.ne_nil_of_mem hc) fun c hc t' hproceeds =>
      (hop (ht.proceeds hproceeds) ((hvalue c hc).proceeds ht hproceeds)).imp fun _ _ h => h.of_joined False.elim
  exact hserved.imp fun r t' h => h.congr (ht.follows_jointly hknown)
    (ht.follows_comprises hy.plain.1) (funext fun q => propext (comprises_of_candidates hcs).symm)

theorem PartRule.Served.of_forced (h : rule.Served t₁ (t₁.IsUnion y) (·.Comprises y) r t') (ht : t.AtRest) (hx : t.Value x)
    (hproceeds : t.Proceeds True t₁) (hy : t.ForcedTo x y t₁)
    (hlooked : rule.Does t (t.store.Comprises x) → t.store.LookedUp x)
    (hdoes : rule.Does t₁ (t₁.store.Comprises x) → rule.Does t₁ (t₁.store.Comprises y))
    (hgives : rule.Gives t' (t'.store.Comprises x) r) :
    rule.Served t (t.IsUnion x) (·.Comprises x) r t' := by
  have hfollows := ht.follows_comprises hx.plain.1
  refine ⟨hproceeds.trans h.proceeds, hgives, fun hx' => ?_, fun hcs => h.union (hcs.imp fun cs hcs => ?_)⟩
  · have hforceable := (hlooked hx').forceable ht.store hx.plain.1
    exact (hy.calm hforceable).trans (h.calm (hdoes (hx'.proceeds ht hproceeds (hfollows t t₁ (.refl t) hproceeds))))
  · have hcs' := (ht.retains hproceeds).shape_union (shape_of_form hcs)
    rw [hy.forced.eq_of_final ⟨(hx.proceeds ht hproceeds).plain, by simp [hcs']⟩]
    exact form_of_shape (by simp) hcs'

/-! ## Calls -/

/-- What is given by calling something is made up of the same as this. The call needs no look-up. -/
inductive Results (t : Table) : Part → Option TypeId → Prop
  | unknown : Results t .unknown (some .unknown)
  | ofInstance {c : TypeId} : Results t (.instanceOf c) (some .unknown)
  | ofClass {k y : TypeId} : (t.form k).isClass = true → t.store.instances.get? k = some y → Results t (.type k) (some y)
  | ofFunction {f : TypeId} {info : FunctionType} : t.store.shape f = .ofFunction info →
      t.store.Forceable (t.store.target info.returns) → Results t (.type f) (some (t.store.target info.returns))

def calling : PartRule where
  acts := Results
  known ht h := by
    cases h with
    | unknown | ofInstance => exact ht.store.unknown_plain.1
    | ofClass _ hy => exact known_of_shape (by simp [ht.store.wellFormed.instances _ _ hy])
    | ofFunction hshape _ => exact ht.store.wellFormed.target_ref_known (ht.returns_known (form_of_shape (by simp) hshape))
  unique h h' := by
    cases h with
    | unknown | ofInstance => cases h'; rfl
    | ofClass hclass hy =>
      cases h' with
      | ofClass _ hy' => exact hy.symm.trans hy'
      | ofFunction hshape _ => exact absurd hclass (not_isClass_of_function hshape)
    | ofFunction hshape _ =>
      cases h' with
      | ofClass hclass _ => exact absurd hclass (not_isClass_of_function hshape)
      | ofFunction hshape' _ => cases hshape.symm.trans hshape'; rfl
  fixed h := by
    cases h with
    | unknown | ofInstance => rfl
    | ofClass hclass _ => exact comprises_of_isScope (isScope_of_class hclass)
    | ofFunction hshape _ => exact comprises_of_function hshape
  stays ht hproceeds h := by
    have hretains := ht.retains hproceeds
    cases h with
    | unknown => exact .unknown
    | ofInstance => exact .ofInstance
    | ofClass hclass hy => exact .ofClass (hretains.isClass hclass) (hretains.instances _ _ hy)
    | ofFunction hshape hforceable =>
      have htarget := hforceable.target_eq ht.store (ht.returns_known (form_of_shape (by simp) hshape)) hretains
      have hforceable' := hforceable.retains hretains
      rw [← htarget] at hforceable' ⊢
      exact .ofFunction (hretains.shape_function hshape) hforceable'

theorem lookedUp_of_calling (h : calling.Does t (t.store.Comprises x)) : t.store.LookedUp x := by
  intro z hz
  obtain ⟨y, hy⟩ := h _ hz
  cases hy with
  | ofClass hclass _ => exact final_of_isClass hclass
  | ofFunction hshape _ => exact final_of_form (form_of_shape (by simp) hshape) (by simp) rfl (by simp)

theorem AtRest.served_call_class (ht : t.AtRest) {info : ClassType} (hform : t.form k = .ofClass info) :
    Ensures True t (liftM (onStore (TypeStore.instanceOf (.direct k)))) fun v t' =>
      calling.Served t False (·.Comprises k) (some v) t' := by
  have hclass : (t.form k).isClass = true := by rw [hform]; rfl
  refine (ht.calm_instanceOf (final_of_isClass hclass).1).imp fun v t' h => ?_
  obtain ⟨hcalm, -, -, hanswers⟩ := h
  have hretains := ht.retains hcalm.proceeds
  have hclass' : (t'.form k).isClass = true := hretains.isClass hclass
  have hpart : ∀ q, t'.store.InstancePart k q ↔ q = .instanceOf k := by
    intro q
    rw [instancePart_iff, shape_of_form (hretains.class_eq k info hform)]
    rfl
  obtain ⟨z, hz⟩ := hanswers.typeOf? (fun h => by cases (hpart _).1 h) _ ((hpart _).2 rfl)
  obtain rfl := hanswers.unique (.refl hanswers.typeOf?) (.single (by simp) hz hpart)
  exact ⟨hcalm.proceeds,
    PartRule.gives_of_acts (fun q => comprises_of_isScope (isScope_of_class hclass'))
    (.ofClass hclass' hz) (ht.calm hcalm), fun _ => hcalm, False.elim⟩

theorem AtRest.served_call_function (ht : t.AtRest) (hform : t.form f = .ofFunction info) :
    Ensures True t (liftM (Table.resolvedRef info.returns)) fun v t' =>
    calling.Served t False (·.Comprises f) (some v) t' := by
  have href := ht.returns_known hform
  have hshape := shape_of_form hform
  refine Ensures.answer ?_ (Ensures.isSome (Lookups.sound_ofTable.resolvedRef ht.toSound href)) _
  refine Ensures.imp (Ensures.get_bind (ht.asks_forced (ht.store.wellFormed.target_ref_known href))) fun v t' h => ?_
  obtain ⟨hproceeds, hv⟩ := h
  have hretains := ht.retains hproceeds
  have hshape' := hretains.shape_function hshape
  have ht' := ht.proceeds hproceeds
  -- what the reference referred to before is what it refers to now, or a lazy type that has been
  -- resolved to it
  have hsame : t'.store.Forceable (t'.store.target info.returns) ∧
      ∀ p, t'.store.Comprises (t.store.target info.returns) p ↔ t'.store.Comprises (t'.store.target info.returns) p := by
    rcases hretains.target_cases ht'.store href with heq | htarget
    · rw [heq]
      exact ⟨hv.forced.forceable, fun _ => .rfl⟩
    · exact ⟨hv.forced.forceable.of_target htarget, fun p => comprises_of_target htarget⟩
  have hgives : calling.Gives t' _ _ :=
    PartRule.gives_of_acts (fun q => comprises_of_function hshape')
    (.ofFunction hshape' hsame.1) ht'
  obtain ⟨-, hdoes, halike⟩ := hgives
  refine ⟨hproceeds, ⟨hv.plain.1, hdoes, ?_⟩, fun hdoes => hv.calm ?_, False.elim⟩
  · exact ((hv.forced.matches ht'.store).symm.trans (.inr hsame.2)).trans halike
  · obtain ⟨y, hy⟩ := hdoes _ ((comprises_of_function hshape).2 rfl)
    cases hy with
    | ofClass hclass _ => exact absurd hclass (not_isClass_of_function hshape)
    | ofFunction hother hforceable => cases hshape.symm.trans hother; exact hforceable

/-- Calling an instance gives something unknown. -/
theorem AtRest.calling_instances (ht : t.AtRest) (h : t.store.Means x y) (hx : t.store.Plain x) :
    y = x ∨ ∀ z ∈ [x, y], calling.Does t (t.store.Comprises z) ∧ calling.Makes t (t.store.Comprises z) .unknown := by
  refine (h.instances ht.store hx).imp_right fun hall z hz => ?_
  have hacts : ∀ p, t.store.Comprises z p → t.Results p (some .unknown) := by
    intro p hp
    rcases hall z hz p hp with rfl | ⟨c, rfl⟩
    · exact .unknown
    · exact .ofInstance
  obtain ⟨p, hp⟩ := ht.store.exists_comprises z
  refine ⟨fun q hq => ⟨_, hacts q hq⟩, p, _, hp, hacts p hp, ?_⟩
  exact (comprises_of_isUnknown (by rw [ht.store.wellFormed.unknown_first]; rfl)).2 rfl

theorem AtRest.served_call_forced (ht : t.AtRest) (hx : t.Value x) (hproceeds : t.Proceeds True t₁) (hy : t.ForcedTo x y t₁)
    (h : calling.Served t₁ (t₁.IsUnion y) (·.Comprises y) (some v) t') :
    calling.Served t (t.IsUnion x) (·.Comprises x) (some v) t' := by
  have ht₁ := ht.proceeds hproceeds
  have hx₁ := hx.proceeds ht hproceeds
  have hmeans := hy.forced.means_of_plain hx₁.plain
  rcases ht₁.calling_instances hmeans hx₁.plain with rfl | hbefore
  · exact h.of_forced ht hx hproceeds hy lookedUp_of_calling id h.gives
  rcases (ht₁.proceeds h.proceeds).calling_instances (hmeans.retains (ht₁.retains h.proceeds) ht₁.store)
    (hx₁.proceeds ht₁ h.proceeds).plain with rfl | hafter
  · exact h.of_forced ht hx hproceeds hy lookedUp_of_calling id h.gives
  exact h.of_forced ht hx hproceeds hy lookedUp_of_calling (fun _ => (hbefore y (by simp)).1)
    ⟨h.gives.1, (hafter x (by simp)).1, h.gives.2.2.trans (.inl ⟨(hafter y (by simp)).2, (hafter x (by simp)).2⟩)⟩

theorem AtRest.served_callResultAt (depth : Nat) : ∀ {t : Table} {x : TypeId}, t.AtRest → t.Value x →
    Ensures True t (callResultAt depth x) fun v t' => calling.Served t (t.IsUnion x) (·.Comprises x) (some v) t' := by
  induction depth with
  | zero => exact fun _ _ => trivial
  | succ depth ih =>
    intro t x ht hx
    unfold callResultAt
    have hresolved := Ensures.answer (ht.asks_forced hx.plain.1)
      (Ensures.isSome (Lookups.sound_ofTable.resolved ht.toSound hx.plain.1)) TypeId.unknown
    refine hresolved.bind fun y t1 h1 => Ensures.get_bind ?_
    obtain ⟨hproceeds, hy⟩ := h1
    have ht1 := ht.proceeds hproceeds
    have hvalue := (hx.proceeds ht hproceeds).forced ht1 hy.plain hy.forced
    suffices hserved : Ensures True t1 _ fun v t' => calling.Served t1 (t1.IsUnion y) (·.Comprises y) (some v) t' from
      hserved.imp fun v t' h => ht.served_call_forced hx hproceeds hy h
    have hunknown : ∀ q₀, (∀ q, t1.store.Comprises y q ↔ q = q₀) → t1.Results q₀ (some .unknown) →
        calling.Served t1 False (·.Comprises y) (some .unknown) t1 := fun q₀ hiff hacts =>
      ⟨.refl t1, PartRule.gives_of_acts hiff hacts ht1, fun _ => .refl ht1.toSound, False.elim⟩
    cases hform : t1.form y with
    | ofClass info => exact (ht1.served_call_class hform).imp fun v t' h => h.of_joined (by simp [IsUnion, hform])
    | ofFunction f => exact (ht1.served_call_function hform).imp fun v t' h => h.of_joined (by simp [IsUnion, hform])
    | object cls =>
      have hshape : t1.store.shape y = .object cls := shape_of_form hform
      cases cls with
      | slot w => exact absurd hshape (hy.forced.not_waiting ht1.store ht1.interned w)
      | direct c =>
        exact .pure ((hunknown _ (fun q => comprises_instance hshape) .ofInstance).of_joined
          (by simp [IsUnion, hform]))
    | unknown | unresolvedImport _ =>
      refine .pure ((hunknown _ (fun q => comprises_of_isUnknown ?_) .unknown).of_joined (by simp [IsUnion, hform]))
      rw [shape_of_form hform]
      rfl
    | union cs =>
      have hserved := ht1.served_candidates hvalue hform fun {t c} ht hc => Ensures.map (f := some) (ih ht hc)
      rw [joinEach_some] at hserved
      exact hserved.of_map.imp fun v t' h => h.of_joined fun _ => trivial
    | ofModule info => exact absurd (by rw [hform]; rfl) hvalue.not_isModule
    | lazyUnion _ | lazy _ _ =>
      have hlazy : (t1.form y).isPlain = true := hy.plain.isPlain_form
      rw [hform] at hlazy
      cases hlazy

/-! ## Members -/

theorem Serves.refKnown {ref : TypeRef} (h : t.Serves name p (some ref)) (hs : t.store.Tidy) : t.store.RefKnown ref := by
  cases h with
  | inherited _ hsearch | ofInstance _ _ hsearch => exact hsearch.refKnown hs

/-- A member is found if everything that the type is made up of has it. -/
def fetching (name : String) : PartRule where
  acts t := t.Fetches name
  known := by
    rintro t q y ht ⟨_, -, ⟨hy⟩⟩
    exact (hy.final_right ht.store).1.1
  unique := by
    rintro t q r r' ⟨_, hserves, hr⟩ ⟨_, hserves', hr'⟩
    cases hserves.unique hserves'
    cases hr with
    | none => cases hr'; rfl
    | some hy =>
      cases hr' with
      | some hy' => rw [hy.unique hy']
  fixed h := h.choose_spec.1.turns_iff
  stays := by
    rintro t t' q r ht hproceeds ⟨found, hserves, hr⟩
    refine ⟨found, hserves.proceeds ht.toSound hproceeds, ?_⟩
    cases hr with
    | none => exact .none
    | some hy => exact .some (hy.retains (ht.retains hproceeds) ht.store (hserves.refKnown ht.store))

theorem has_of_fetching (h : (fetching name).Does t (t.store.Comprises x)) : t.Has name x := by
  intro q hq
  obtain ⟨y, _, hserves, ⟨-⟩⟩ := h q hq
  exact .served hserves

theorem comprises_of_fetching (h : (fetching name).Does t (t.store.Comprises x))
    (hmatches : t.store.Matches x y) : t.store.Comprises x = t.store.Comprises y := by
  rcases hmatches with ⟨hunknown, -⟩ | hiff
  · exact absurd .unknown (has_of_fetching h _ hunknown).not_serves_none
  · exact funext fun q => propext (hiff q)

theorem AtRest.served_member_classed (ht : t.AtRest) (hy : t.store.Final y)
    (hform : (t.form y).isClass = true ∨ (t.form y).isInstance = true) (depth : Nat) (name : String) :
    Ensures True t (match t.form y with
      | .ofClass _ => Prod.fst <$> classMemberAt depth y name []
      | .object cls => do
        let cls ← resolvedAt depth (t.store.target cls)
        if ((← get).form cls).isClass then Prod.fst <$> classMemberAt depth cls name [] else return none
      | _ => return none) ((fetching name).Served t False (·.Comprises y)) := by
  refine Ensures.imp (ht.asks_member_classed hy hform depth name) fun r t' h => ?_
  obtain ⟨hproceeds, ⟨k, hk, found, hsearch, hr⟩, hcalm⟩ := h
  obtain ⟨p, hiff, hserves⟩ := hk.serves hsearch
  refine ⟨hproceeds, PartRule.gives_of_acts hiff ⟨found, hserves, hr⟩ (ht.proceeds hproceeds), fun hdoes => ?_, False.elim⟩
  obtain ⟨p, hp⟩ := ht.store.exists_comprises y
  obtain ⟨v, hv⟩ := hdoes p hp
  exact hcalm p v hp hv

/-- The members of all candidates are found one by one. -/
theorem mapM_of_memberOfEach {member : TypeId → Query (Option TypeId)} {xs acc us : List TypeId}
    (h : memberOfEach member xs acc t = some (some us, t')) :
    ∃ ms, us = acc.reverse ++ ms ∧ xs.mapM member t = some (ms.map some, t') := by
  induction xs generalizing t acc with
  | nil =>
    cases h
    exact ⟨[], by simp, rfl⟩
  | cons x rest ih =>
    rw [memberOfEach] at h
    obtain ⟨⟨r, t1⟩, hx, h⟩ := Option.bind_eq_some_iff.1 h
    cases r with
    | none => cases h
    | some m =>
      obtain ⟨ms, rfl, hrest⟩ := ih h
      refine ⟨m :: ms, by simp, ?_⟩
      rw [List.mapM_cons]
      exact Option.bind_eq_some_iff.2 ⟨_, hx, Option.bind_eq_some_iff.2 ⟨_, hrest, rfl⟩⟩

theorem joinEach_of_memberOfEach {member : TypeId → Query (Option TypeId)} {us : List TypeId}
    (h : memberOfEach member xs [] t = some (some us, t₁)) :
    joinEach member xs t = (some <$> (liftM (onStore (TypeStore.unionOf us)) : Query TypeId)) t₁ := by
  obtain ⟨ms, rfl, hmapM⟩ := mapM_of_memberOfEach h
  have hjoin : joinEach member xs t = _ := congrArg (Option.bind · _) hmapM
  simpa using hjoin

theorem ensures_self {α : Type} (query : Query α) : Ensures True t query fun a t' => query t = some (a, t') := by
  unfold Ensures
  cases query t <;> trivial

theorem AtRest.served_member_union (ht : t.AtRest) (hy : t.Value y) (hform : t.form y = .union cs)
    (hmember : ∀ {t : Table} {c : TypeId}, t.AtRest → t.Value c →
      Ensures True t (memberAt depth c name) ((fetching name).Served t (t.IsUnion c) (·.Comprises c))) :
    Ensures True t (do
      match ← memberOfEach (fun c => memberAt depth c name) cs [] with
      | none => return none
      | some members => some <$> Query.follow (TypeStore.unionOfAt · members)) fun r t' =>
        ∀ v, r = some v → (fetching name).Served t True (·.Comprises y) (some v) t' := by
  have hserved := ht.served_candidates hy hform hmember
  refine (ensures_self _).bind fun r t1 hrun => ?_
  cases r with
  | none => exact .pure (by simp)
  | some us =>
    have hunion : Ensures True t1 (some <$> liftM (onStore (TypeStore.unionOf us)))
        ((fetching name).Served t True (·.Comprises y)) := by
      unfold Ensures at hserved ⊢
      rwa [joinEach_of_memberOfEach hrun] at hserved
    refine Ensures.map ((ensures_follow hunion.of_map).imp fun v t2 h v' hv' => ?_)
    cases hv'
    exact h

/-- A member that is not found is one that the type lacks. -/
theorem AtRest.served_of_some (ht : t.AtRest) (hx : t.Value x)
    (h : Ensures True t (memberAt depth x name) fun r t' => ∀ v, r = some v →
      (fetching name).Served t joined (·.Comprises x) (some v) t') :
    Ensures True t (memberAt depth x name) ((fetching name).Served t joined (·.Comprises x)) := by
  refine (Ensures.and h (AtRest.asks_member depth name ht hx.plain.1)).imp fun r t' h => ?_
  obtain ⟨hsome, hproceeds, hsettles⟩ := h
  cases r with
  | some v => exact hsome v rfl
  | none =>
    have hgives : (fetching name).Gives t' (t'.store.Comprises x) none := by
      rcases hsettles.2 rfl with ⟨q, hq, hnone⟩ | ⟨m, hmodule, -, hm, -⟩
      · exact ⟨q, hq, none, hnone, .none⟩
      · simp [(hx.proceeds ht hproceeds).not_module m hm] at hmodule
    refine ⟨hproceeds, hgives, fun hdoes => absurd hgives ?_, fun _ v hv => by cases hv⟩
    exact (hdoes.proceeds ht hproceeds (ht.follows_comprises hx.plain.1 t t' (.refl t) hproceeds)).not_gives_none

theorem AtRest.served_memberAt (depth : Nat) (name : String) : ∀ {t : Table} {x : TypeId}, t.AtRest → t.Value x →
    Ensures True t (memberAt depth x name) ((fetching name).Served t (t.IsUnion x) (·.Comprises x)) := by
  induction depth with
  | zero =>
    intro t x _ _
    rw [memberAt]
    trivial
  | succ depth ih =>
    intro t x ht hx
    refine ht.served_of_some hx ?_
    rw [memberAt]
    unfold memberStep
    refine Ensures.bind (ht.asks_resolved depth hx.plain.1) fun y t1 h1 => Ensures.get_bind ?_
    obtain ⟨hproceeds, hy⟩ := h1
    have ht1 := ht.proceeds hproceeds
    have hvalue := (hx.proceeds ht hproceeds).forced ht1 hy.plain hy.forced
    suffices hserved : Ensures True t1 _ fun r t' => ∀ v, r = some v →
        (fetching name).Served t1 (t1.IsUnion y) (·.Comprises y) (some v) t' by
      refine hserved.imp fun r t' h v hv => ?_
      have h := h v hv
      have hlater := ht1.matches_later (ht.known hproceeds hx.plain.1) hy.plain hy.forced h.proceeds
      refine h.of_forced ht hx hproceeds hy (fun hdoes => (has_of_fetching hdoes).lookedUp) (fun hdoes => ?_) ?_
      · exact comprises_of_fetching hdoes (hy.forced.matches ht1.store) ▸ hdoes
      · exact comprises_of_fetching h.gives.2.1 hlater.symm ▸ h.gives
    cases hform : t1.form y with
    | ofClass _ | object _ =>
      have hclassed := ht1.served_member_classed (hy.forced.final ht1.store ht1.interned hy.plain)
        (by simp [hform, TypeForm.isClass, TypeForm.isInstance]) depth name
      rw [hform] at hclassed
      exact hclassed.imp fun r t' h v hv => hv ▸ h.of_joined (by simp [IsUnion, hform])
    | union cs => exact (ht1.served_member_union hvalue hform ih).imp fun r t' h v hv => (h v hv).of_joined fun _ => trivial
    | ofModule info => exact absurd (by rw [hform]; rfl) hvalue.not_isModule
    | _ => exact .pure (by simp)

/-! ## Unions -/

/-- Whether this is a class, a function, an instance or a union of them. -/
def isValue (t : Table) (x : TypeId) : Bool :=
  match t.form x with
  | .union cs => cs.all fun c => (t.form c).isValue
  | f => f.isValue

theorem AtRest.value (ht : t.AtRest) (hx : t.isValue x = true) : t.Value x := by
  have hsingle : ∀ z, (t.form z).isValue = true → t.Value z := by
    intro z hz
    have hknown : t.store.Known z := known_of_form_ne (by rintro heq; rw [show t.form z = _ from heq] at hz; cases hz)
    have hshape : (t.store.shape z).isPlain = true ∧ (t.store.shape z).isSingle = true ∧ (t.form z).isModule = false := by
      cases hform : t.form z with
      | ofClass _ | ofFunction _ | object _ => rw [shape_of_form hform]; exact ⟨rfl, rfl, rfl⟩
      | _ => rw [hform] at hz; cases hz
    exact ⟨⟨hknown, hshape.1⟩, fun m hm => ht.store.eq_of_comprises hshape.2.1 hshape.1 hm ▸ hshape.2.2⟩
  unfold isValue at hx
  split at hx
  · rename_i cs hform
    have hcs : t.store.candidates? x = some cs := candidates?_of_union hform
    refine ⟨⟨known_of_candidates hcs, by rw [shape_of_form hform]; rfl⟩, fun m hm => ?_⟩
    obtain ⟨c, hc, hm⟩ := (comprises_of_candidates hcs).1 hm
    exact (hsingle c (List.all_eq_true.1 hx c hc)).not_module m hm
  · exact hsingle x hx

theorem liftM_joinEach (op : TypeId → TableM (Option TypeId)) (xs : List TypeId) :
    (liftM (joinEach op xs) : Query (Option TypeId)) = joinEach (fun x => liftM (op x)) xs := by
  have hmapM : (liftM (xs.mapM op) : Query _) = xs.mapM fun x => liftM (op x) := by
    induction xs with
    | nil => rfl
    | cons x rest ih =>
      rw [List.mapM_cons, List.mapM_cons, ← ih]
      rfl
  unfold joinEach
  rw [← hmapM]
  change (liftM (xs.mapM op) >>= fun rs => liftM (if none ∈ rs then (pure none : TableM (Option TypeId)) else
    some <$> onStore (TypeStore.unionOf (rs.filterMap id))) : Query (Option TypeId)) = _
  refine congrArg ((liftM (xs.mapM op) : Query _) >>= ·) (funext fun rs => ?_)
  split <;> rfl

theorem AtRest.served_callResult (ht : t.AtRest) (hx : t.Value x) : Ensures True t (liftM (some <$> callResult x))
    (calling.Served t (t.IsUnion x) (·.Comprises x)) :=
  Ensures.map (Ensures.answer (Query.ensures_enough (AtRest.served_callResultAt _ ht hx)) (ht.callResult_isSome hx.plain.1) _)

theorem AtRest.served_member (ht : t.AtRest) (hx : t.Value x) (name : String) : Ensures True t (liftM (member x name))
    ((fetching name).Served t (t.IsUnion x) (·.Comprises x)) := by
  have hserved : Ensures True t (Query.member x name) _ := Query.ensures_enough (AtRest.served_memberAt _ name ht hx)
  exact Ensures.answer hserved (Ensures.isSome (Lookups.sound_ofTable.member name ht.toSound hx.plain.1)) _

/-- Whichever of two actions comes first, they give the same. -/
def Agree {α : Type} (t : Table) (first second : TableM α) : Prop :=
  (second (first t).2).1 = (first t).1 ∧ (first (second t).2).1 = (second t).1

/-- An operation that takes types apart gives the same for a union as for the types that it was made
of. -/
theorem AtRest.agree_of_served {op : TypeId → TableM (Option TypeId)} (ht : t.AtRest)
    (hop : ∀ {t x}, t.AtRest → t.Value x → Ensures True t (liftM (op x)) (rule.Served t (t.IsUnion x) (·.Comprises x)))
    (hu : t.Value u) (hform : t.form u = .union cs) (hxs : ∀ x ∈ xs, t.Value x) (hne : xs ≠ [])
    (hsame : t.store.Comprises u = t.store.Jointly xs) : t.Agree (op u) (joinEach op xs) := by
  have hknown : ∀ x ∈ xs, t.store.Known x := fun x hx => (hxs x hx).plain.1
  have hunion : ∀ t' : Table, t.Proceeds True t' → rule.Served t' True (·.Comprises u) (op u t').1 (op u t').2 := by
    intro t' hproceeds
    have hserved := Ensures.apply_some (hop (ht.proceeds hproceeds) (hu.proceeds ht hproceeds)) rfl
    exact hserved.of_joined fun _ => ⟨cs, form_of_shape (by simp) ((ht.retains hproceeds).shape_union (shape_of_form hform))⟩
  have heach : ∀ t' : Table, t.Proceeds True t' → rule.Served t' True (·.Jointly xs)
      (joinEach op xs t').1 (joinEach op xs t').2 := by
    intro t' hproceeds
    have ht' := ht.proceeds hproceeds
    have hserved := ht'.served_joinEach (fun x hx => ht.known hproceeds (hknown x hx)) hne fun x hx t2 hproceeds2 =>
      (hop (ht'.proceeds hproceeds2) ((hxs x hx).proceeds ht (hproceeds.trans hproceeds2))).imp
        fun _ _ h => h.of_joined False.elim
    rw [← liftM_joinEach] at hserved
    exact Ensures.apply_some hserved rfl
  have hcomprises := ht.follows_comprises hu.plain.1
  have hjointly := ht.follows_jointly hknown
  have hfirst := hunion t (.refl t)
  have hsecond := heach t (.refl t)
  exact ⟨(hfirst.unique (heach _ hfirst.proceeds) ht hcomprises hjointly hsame).symm,
    (hsecond.unique (hunion _ hsecond.proceeds) ht hjointly hcomprises hsame.symm).symm⟩

/-- Calls and member look-ups distribute over unions. What is worked out for a union of classes,
functions and instances is the union of what is worked out for each of them, whichever comes first;
a union has a member if each of them has it. -/
theorem union_distributes (project : Project) (stubs : StubStore) (settings : Settings) (stubPackages : Bool)
    (as : List TableAction) (has : (create project stubs settings stubPackages).ValidAll as) (xs : List TypeId)
    (hxs : ∀ x ∈ xs, ((create project stubs settings stubPackages).performAll as).isValue x = true)
    (hunion : onStore (TypeStore.unionOf xs) ((create project stubs settings stubPackages).performAll as) = (u, t))
    (hu : t.form u = .union cs) :
    t.Agree (callResult u) (xs.mapM callResult >>= fun results => onStore (TypeStore.unionOf results)) ∧
      ∀ name, t.Agree (member u name) (joinEach (member · name) xs) := by
  have ht₀ := (atRest_create project stubs settings stubPackages).performAll has
  have hvalue := fun x hx => ht₀.value (hxs x hx)
  have hmade : Ensures True _ (liftM (onStore (TypeStore.unionOf xs))) _ := ht₀.calm_unionOf fun x hx => (hvalue x hx).plain.1
  obtain ⟨hcalm, hknown, hisUnion⟩ := Ensures.apply_some hmade (congrArg some hunion)
  have ht := ht₀.calm hcalm
  have hunknown : u ≠ .unknown := by
    rintro rfl
    rw [show t.form .unknown = _ from form_of_shape (by simp) ht.store.wellFormed.unknown_first] at hu
    cases hu
  have hne : xs ≠ [] := fun hnil => hunknown (hisUnion.nil hnil)
  have hxs' : ∀ x ∈ xs, t.Value x := fun x hx => (hvalue x hx).proceeds ht₀ hcalm.proceeds
  -- the union is not unknown, so none of the types is
  have hsame : t.store.Comprises u = t.store.Jointly xs := by
    rcases ht.store.alike_of_union (hisUnion.answers hne) with ⟨hsome, -⟩ | hiff
    · exact absurd ((hisUnion.eq_unknown_iff ht.store.good).2 (.inr (jointly_unknown_iff.1 hsome))) hunknown
    · exact funext fun p => propext (hiff p).symm
  have hu' : t.Value u := by
    refine ⟨⟨hknown, by rw [shape_of_form hu]; rfl⟩, fun m hm => ?_⟩
    rw [hsame] at hm
    obtain ⟨x, hx, hm⟩ := hm
    exact (hxs' x hx).not_module m hm
  refine ⟨?_, fun name => ht.agree_of_served (fun ht hx => ht.served_member hx name) hu' hu hxs' hne hsame⟩
  have hcalls := ht.agree_of_served (fun ht hx => ht.served_callResult hx) hu' hu hxs' hne hsame
  rw [joinEach_some] at hcalls
  exact ⟨Option.some.inj hcalls.1, Option.some.inj hcalls.2⟩

/-- A union of classes that inherit from each other, joined with a class that one of them inherits
from. -/
def joinedRoundabout : TypeId × Table :=
  onStore (TypeStore.unionOf [⟨12⟩, ⟨9⟩])
    ((create roundabout {} {}).performAll [.getType "c.X", .onStore (.unionOf [⟨4⟩, ⟨7⟩])])

theorem union_distributes_joinedRoundabout : joinedRoundabout.2.form joinedRoundabout.1 = .union [⟨4⟩, ⟨7⟩, ⟨9⟩] ∧
    joinedRoundabout.2.Agree (callResult joinedRoundabout.1)
      ([⟨12⟩, ⟨9⟩].mapM callResult >>= fun results => onStore (TypeStore.unionOf results)) ∧
    joinedRoundabout.2.Agree (member joinedRoundabout.1 "n") (joinEach (member · "n") [⟨12⟩, ⟨9⟩]) ∧
    (member joinedRoundabout.1 "n" joinedRoundabout.2).1.isSome := by
  have hform : joinedRoundabout.2.form joinedRoundabout.1 = .union [⟨4⟩, ⟨7⟩, ⟨9⟩] := by cbv
  obtain ⟨hcalls, hmembers⟩ := union_distributes roundabout {}
    {} true [.getType "c.X", .onStore (.unionOf [⟨4⟩, ⟨7⟩])] (by decide_cbv)
    [⟨12⟩, ⟨9⟩] (by decide_cbv) (Prod.mk.eta (p := joinedRoundabout)).symm hform
  exact ⟨hform, hcalls, hmembers "n", by decide_cbv⟩

end Table

end PythonTypes
