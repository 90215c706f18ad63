import PythonTypes.Proofs.Types.Redirection

/-!
# Canonical types

A type is canonical if it is followed to itself. For most types this is because they are followed no
further (`Rests`), but an instance whose slot was redirected early can also lead back to itself, by
way of the class that the slot was redirected to. Either way it stays so when the store grows, and
the depth at which types are followed is enough to find out (`Steady`). The types that are
considered from here on are canonical with all their candidates (`FullyCanonical`): their union
joins their members as they are (`Intact.runs_unionOf_canonical`), and what results is of the same
kind (`Joins.fullyCanonical`).
-/

set_option autoImplicit false

namespace PythonTypes

theorem TypeForm.single_of_kind {f : TypeForm} (h : f.kind ∉ nestedKinds) : f.isSingle = true ∧ f.isUnknown = false := by
  cases f <;> first | exact ⟨rfl, rfl⟩ | simp [kind, nestedKinds] at h

namespace TypeStore

variable {s : TypeStore} {t x : TypeId}

/-- Whether following a type leads to the type itself. A type that is followed without end is not
canonical. -/
def IsCanonical (s : TypeStore) (t : TypeId) : Prop := ∃ depth s', canonicalAt depth t s = some (t, s')

/-- Whether following a type leads to the type itself as long as nothing is resolved, with a depth
that a union has left. -/
def Steady (s : TypeStore) (t : TypeId) : Prop :=
  ∀ s' depth, Since s s' → s.depthBound ≤ depth + 3 → Runs False s' (canonicalAt depth t) fun u _ => u = t

theorem Answers.eq_of_single {p : Part} {u : TypeId} (hp : p ≠ .unknown) (hx : s.typeOf? p = some x)
    (h : s.Answers (· = p) u) : u = x :=
  h.unique (.refl h.typeOf?) (.single hp hx fun _ => .rfl)

/-- A redirected instance that is canonical is where the class leads to which its slot was
redirected. -/
theorem Intact.leadsTo_of_isCanonical (h : s.Intact) {w : SlotId} (hshape : s.shape x = .object (.slot w))
    (hw : (s.slot w).isResolved = true) (hc : s.IsCanonical x) :
    ∃ l, s.lazyInstances.get? l = some x ∧ s.leadsTo (.instances (s.slot w).target) = (· = .pendingInstanceOf l) := by
  obtain ⟨depth, s', heq⟩ := hc
  cases depth with
  | zero =>
    rw [canonicalAt] at heq
    contradiction
  | succ depth =>
    have htarget := (h.wellFormed.slot_known w).2
    have hruns := (runs_canonical_redirected hshape hw).2 (((follows h depth).instances (.refl h) htarget
      fun hstop : ¬ True => absurd trivial hstop).and (((kept_since s).keptAt depth).instanceOf (.refl h) htarget))
    unfold Runs at hruns
    rw [heq] at hruns
    obtain ⟨hs', hgrows, hanswer, hsince, -⟩ := hruns
    have hobject := (hgrows.shape_eq x (known_of_shape (by rw [hshape]; simp))).trans hshape
    obtain ⟨hlists, ⟨hsame, hself⟩ | ⟨-, cs, hunion⟩⟩ := hanswer.lists hs' (s.regular_leadsTo _)
    · have hpart : s'.partAt x = .pendingInstanceOf (s'.slot w).lazy := by rw [partAt, hobject]
      have hx := (hlists.part x (by simp [hself])).2
      rw [hpart] at hx hsame
      refine ⟨_, (hsince.waits _ x hx).resolve_right fun hnot => hnot ?_, hsame⟩
      exact Redirected.grows h.wellFormed hgrows ⟨w, hshape, hw⟩
    · simp_all

theorem IsCanonical.steady_of_redirected (h : s.Intact) (hx : s.Redirected x) (hc : s.IsCanonical x) : s.Steady x := by
  obtain ⟨w, hshape, hw⟩ := hx
  obtain ⟨l, hl, hleads⟩ := h.leadsTo_of_isCanonical hshape hw hc
  intro s' depth hs' hdepth
  unfold depthBound at hdepth
  obtain ⟨depth, rfl⟩ : ∃ k, depth = k + 1 := ⟨depth - 1, by omega⟩
  have hslot := hs'.grows.slot_eq w (h.wellFormed.object_known x w hshape)
  rw [runs_canonical_redirected
    ((hs'.grows.shape_eq x (known_of_shape (by rw [hshape]; simp))).trans hshape) (hslot ▸ hw),
    hslot]
  refine ((follows h depth).instances hs' (h.wellFormed.slot_known w).2 fun _ =>
    ⟨2 * s.size, ?_, by omega⟩).imp fun u s'' _ hgrows hu => ?_
  · show ¬ s.leadsTo _ .unknown
    simp [hleads]
  · rw [hleads] at hu
    exact hu.eq_of_single (p := .pendingInstanceOf l) (by simp) ((hs'.grows.trans hgrows).lazyInstances l x hl)

-- the instance waited with `m.A`, and its slot was redirected to `m.B`, which stands for `m.A`
example :
    let as : List StoreAction := [.alloc (.lazy "m.A" (.pending [])), .wrap ⟨1⟩, .instanceOf (.slot ⟨0⟩),
      .alloc (.lazy "m.B" (.pending [])), .resolveLazy ⟨3⟩ ⟨1⟩, .resolveSlot ⟨0⟩ ⟨3⟩]
    AllInRange {} as ∧ (performAll {} as).Redirected ⟨2⟩ ∧ (performAll {} as).IsCanonical ⟨2⟩ :=
  ⟨of_decide_eq_true (by cbv), ⟨⟨0⟩, by cbv, by cbv⟩, 3, _, by cbv⟩

theorem Rests.steady (hs : s.WellFormed) (hchains : s.ChainsEnd) (ht : s.Known t) (h : s.Rests t) : s.Steady t := by
  intro s' depth hs' hdepth
  have hgrows := hs'.grows
  have hshape := hgrows.shape_eq t ht
  have hrests : s'.Rests t := by
    refine ⟨(lazyTarget?_congr hshape).trans h.no_target, fun w hw => ?_, fun cs hcs => ?_⟩
    · rw [hshape] at hw
      rw [hgrows.slot_eq w (hs.object_known t w hw)]
      exact h.waits w hw
    · rw [hshape] at hcs
      obtain ⟨c, hc, hpending⟩ := h.pending cs hcs
      have hknown := hs.known_of_form_union (candidates?_eq_some_iff.2 (.inr hcs)) c hc
      grind [Grows.derefLazy_eq, isPending_congr, Grows.shape_eq, WellFormed.derefLazy_known]
  unfold depthBound at hdepth
  exact (hrests.runs_canonical hs'.intact.wellFormed fun _ => by omega).imp fun _ _ _ _ hu => hu.1

theorem Steady.isCanonical {s' : TypeStore} (hs' : Since s s') (h : s.Steady t) : s'.IsCanonical t := by
  have hruns := h s' s.depthBound hs' (Nat.le_add_right _ 3)
  unfold Runs at hruns
  cases hrun : canonicalAt s.depthBound t s' with
  | none =>
    rw [hrun] at hruns
    exact hruns.elim
  | some r =>
    rw [hrun] at hruns
    obtain ⟨-, -, hu⟩ := hruns
    exact ⟨s.depthBound, r.2, by rw [hrun, ← hu]⟩

/-- Whether a type is its own canonical type, and if it is a union, an interned one whose candidates
are canonical. -/
structure FullyCanonical (s : TypeStore) (t : TypeId) : Prop where
  known : s.Known t
  canonical : s.IsCanonical t
  interned : ∀ cs, s.candidates? t = some cs → ∃ key, s.unions.get? key = some t
  candidates : ∀ cs, s.candidates? t = some cs → ∀ c ∈ cs, s.IsCanonical c

theorem Intact.no_target (h : s.Intact) (ht : s.Known t) (hc : s.IsCanonical t) : s.lazyTarget? t = none := by
  obtain ⟨depth, s', heq⟩ := hc
  have hkept := (kept_intact.keptAt depth).canonical h ht
  unfold Runs at hkept
  rw [heq] at hkept
  obtain ⟨-, hgrows, -, hends⟩ := hkept
  exact (lazyTarget?_congr (hgrows.shape_eq t ht)).symm.trans hends.2

/-- A type that stands for itself as a candidate of a union does. -/
structure Proper (s : TypeStore) (c : TypeId) : Prop where
  known : s.Known c
  canonical : s.IsCanonical c
  single : (s.shape c).isSingle = true
  not_unknown : (s.shape c).isUnknown = false

section Members

variable {s' : TypeStore} {u : TypeId} {cs : List TypeId}

theorem Intact.isPending_of_lazy (h : s.Intact) (hc : s.IsCanonical t) {path : String} {state : LazyState}
    (hshape : s.shape t = .lazy path state) : s.isPending (s.derefLazy t) = true := by
  have htarget := h.no_target (known_of_shape (by rw [hshape]; simp)) hc
  rw [derefLazy_of_no_target htarget]
  cases state with
  | pending ws => exact isPending_of_shape hshape
  | resolved target => exact absurd ((lazyTarget?_eq_some_iff.2 ⟨path, hshape⟩).symm.trans htarget) (by simp)

/-- A canonical type leads to itself for good, since a lazy union that waits for nothing any more is
not canonical. -/
theorem Intact.steady (h : s.Intact) (ht : s.Known t) (hc : s.IsCanonical t)
    (hunion : ∀ cs, s.shape t = .lazyUnion cs → ∃ c ∈ cs, s.IsCanonical c ∧ ∃ path state, s.shape c = .lazy path state) :
    s.Steady t := by
  by_cases hredirected : s.Redirected t
  · exact hc.steady_of_redirected h hredirected
  · refine Rests.steady h.wellFormed h.chainsEnd ht ⟨h.no_target ht hc, fun w hw => ?_, fun cs hcs => ?_⟩
    · exact Bool.eq_false_iff.2 fun hresolved => hredirected ⟨w, hw, hresolved⟩
    · grind [isPending_of_lazy]

theorem Proper.steady (h : s.Intact) (ht : s.Proper t) : s.Steady t := by
  refine h.steady ht.known ht.canonical fun cs hcs => ?_
  have hsingle := ht.single
  rw [hcs] at hsingle
  contradiction

theorem FullyCanonical.of_isSingle (ht : s.Known t) (hc : s.IsCanonical t)
    (hsingle : (s.shape t).isSingle = true) : s.FullyCanonical t := by
  have hnone := candidates?_of_isSingle hsingle
  exact ⟨ht, hc, fun cs hcs => absurd (hnone.symm.trans hcs) (by simp), fun cs hcs => absurd (hnone.symm.trans hcs) (by simp)⟩

section

variable (h : s.Intact) (ht : s.FullyCanonical t)

include h ht

theorem FullyCanonical.union (hcs : s.candidates? t = some cs) :
    s.unions.get? (unionKey cs) = some t ∧ cs.Nodup ∧ 2 ≤ cs.length ∧ (∀ c ∈ cs, s.Proper c) ∧
      (s.shape t = .lazyUnion cs → ∃ c ∈ cs, ∃ path state, s.shape c = .lazy path state) := by
  obtain ⟨key, hkey⟩ := ht.interned cs hcs
  obtain ⟨cs', hcs', rfl, hnodup, hlength, hlazy⟩ := h.wellFormed.unions key t hkey
  obtain rfl := Option.some.inj (hcs.symm.trans hcs')
  refine ⟨hkey, hnodup, hlength, fun c hc => ?_, hlazy⟩
  have hkind := (h.unions _ t hkey).1 c ((unionKey_perm cs).mem_iff.2 hc)
  obtain ⟨hsingle, hunknown⟩ := TypeForm.single_of_kind hkind
  exact ⟨h.wellFormed.known_of_form_union hcs c hc, ht.candidates cs hcs c hc, hsingle, hunknown⟩

theorem FullyCanonical.steady : s.Steady t := by
  refine h.steady ht.known ht.canonical fun cs hcs => ?_
  obtain ⟨-, -, -, hproper, hlazy⟩ := ht.union h (candidates?_eq_some_iff.2 (.inr hcs))
  grind [Proper.canonical]

theorem FullyCanonical.joins_members (hunknown : (s.shape t).isUnknown = false) :
    (s.members t).Nodup ∧ s.members t ≠ [] ∧ s.Joins (s.members t) t ∧ ∀ c ∈ s.members t, s.Proper c := by
  cases hcs : s.candidates? t with
  | none =>
    have hsingle : (s.shape t).isSingle = true := by
      cases hshape : s.shape t with
      | union cs => exact absurd (candidates?_eq_some_iff.2 (.inl hshape)) (by simp [hcs])
      | lazyUnion cs => exact absurd (candidates?_eq_some_iff.2 (.inr hshape)) (by simp [hcs])
      | _ => rfl
    rw [members_of_isSingle hsingle]
    refine ⟨List.nodup_singleton t, by simp, rfl, fun c hc => ?_⟩
    rw [List.mem_singleton.1 hc]
    exact ⟨ht.known, ht.canonical, hsingle, hunknown⟩
  | some cs =>
    grind [union, members_of_candidates, joins_of_length]

end

theorem Proper.since (h : s.Intact) (hs' : Since s s') (ht : s.Proper t) : s'.Proper t := by
  have hshape := hs'.grows.shape_eq t ht.known
  exact ⟨hs'.grows.known ht.known, (ht.steady h).isCanonical hs', hshape.symm ▸ ht.single, hshape.symm ▸ ht.not_unknown⟩

theorem FullyCanonical.since (h : s.Intact) (hs' : Since s s') (ht : s.FullyCanonical t) : s'.FullyCanonical t := by
  have hcandidates := candidates?_congr (hs'.grows.shape_eq t ht.known)
  refine ⟨hs'.grows.known ht.known, (ht.steady h).isCanonical hs', fun cs hcs => ?_, fun cs hcs c hc => ?_⟩
  · obtain ⟨key, hkey⟩ := ht.interned cs (hcandidates ▸ hcs)
    exact ⟨key, hs'.grows.unions key t hkey⟩
  · obtain ⟨-, -, -, hproper, -⟩ := ht.union h (hcandidates ▸ hcs)
    exact ((hproper c hc).steady h).isCanonical hs'

theorem Joins.fullyCanonical (h : s.Intact) {xs : List TypeId} (hne : xs ≠ []) (hxs : ∀ x ∈ xs, s.Proper x)
    (hu : s.Joins xs u) : s.FullyCanonical u ∧ (s.shape u).isUnknown = false ∧ (s.members u).Perm xs := by
  by_cases hlength : 2 ≤ xs.length
  · rw [joins_of_length hlength] at hu
    obtain ⟨cs, hcs, hkey, -, -, hlazy⟩ := h.wellFormed.unions _ u hu
    have hperm := unionKey_eq_iff.1 hkey
    have hproper : ∀ c ∈ cs, s.Proper c := fun c hc => hxs c (hperm.mem_iff.1 hc)
    have hsame : ∀ cs', s.candidates? u = some cs' → cs' = cs := fun cs' hcs' => Option.some.inj (hcs'.symm.trans hcs)
    have hunknown : (s.shape u).isUnknown = false := by
      rcases candidates?_eq_some_iff.1 hcs with hshape | hshape <;> rw [hshape] <;> rfl
    have hrests : s.Rests u := by
      refine ⟨?_, fun w hw => ?_, fun cs' hcs' => ?_⟩
      · rcases candidates?_eq_some_iff.1 hcs with hshape | hshape <;> exact no_target_of_shape hshape (by simp)
      · rcases candidates?_eq_some_iff.1 hcs with hshape | hshape <;> exact absurd (hw.symm.trans hshape) (by simp)
      · grind [candidates?_eq_some_iff, Intact.isPending_of_lazy, Proper.canonical]
    have hsteady := hrests.steady h.wellFormed h.chainsEnd (known_of_candidates hcs)
    refine ⟨⟨known_of_candidates hcs, hsteady.isCanonical (.refl h), fun _ _ => ⟨_, hu⟩,
      fun cs' hcs' c hc => ?_⟩, hunknown, ?_⟩
    · grind [Proper.canonical]
    · rw [members_of_candidates hcs]
      exact hperm
  · rcases xs with _ | ⟨x, _ | ⟨y, rest⟩⟩
    · contradiction
    · obtain rfl : u = x := hu
      grind [FullyCanonical.of_isSingle, Proper.known, Proper.canonical, Proper.single,
        Proper.not_unknown, members_of_isSingle]
    · simp at hlength

end Members

/-! ## Unions of canonical types -/

/-- What a canonical type contributes to a union. -/
def ownParts (s : TypeStore) (t : TypeId) (p : Part) : Prop :=
  if (s.shape t).isUnknown then p = .unknown else ∃ c ∈ s.members t, p = .type c

section Union

variable {s' : TypeStore} {acc : List TypeId} {depth : Nat}

theorem ownParts_unknown_iff : s.ownParts t .unknown ↔ (s.shape t).isUnknown = true := by
  unfold ownParts
  split <;> simp_all

theorem ownParts_iff (hunknown : (s.shape t).isUnknown = false) {p : Part} :
    s.ownParts t p ↔ ∃ c ∈ s.members t, p = .type c := by
  simp [ownParts, hunknown]

theorem Proper.runs_contribute (h : s.Intact) (ht : s.Proper t) (hs' : Since s s') (hacc : Found (some acc) s')
    (hdepth : s.depthBound ≤ depth + 3) (flatten : List TypeId → List TypeId → DeepM (Option (List TypeId))) :
    Runs False s' (contribute (canonicalAt depth) flatten t acc) fun r s'' => s''.Collects (· = .type t) acc r := by
  refine (ht.steady h s' depth hs' hdepth).bind fun u s'' hs'' hgrows' hu => ?_
  subst hu
  have hgrows := hs'.grows.trans hgrows'
  have hshape := hgrows.shape_eq u ht.known
  refine (runs_addType_single hs'' (candidates?_of_isSingle (hshape.symm ▸ ht.single))
    (hshape.symm ▸ ht.not_unknown) acc flatten).imp ?_
  rintro _ _ - - ⟨rfl, rfl⟩
  exact .insert (hacc.grows hgrows') (hgrows.known ht.known) fun p => .rfl

theorem FullyCanonical.exists_ownPart (h : s.Intact) (ht : s.FullyCanonical t) : ∃ p, s.ownParts t p := by
  cases hunknown : (s.shape t).isUnknown with
  | true => exact ⟨_, ownParts_unknown_iff.2 hunknown⟩
  | false =>
    obtain ⟨c, hc⟩ := List.exists_mem_of_ne_nil _ (ht.joins_members h hunknown).2.1
    exact ⟨.type c, (ownParts_iff hunknown).2 ⟨c, hc, rfl⟩⟩

theorem FullyCanonical.runs_contribute (h : s.Intact) (ht : s.FullyCanonical t) (hs' : Since s s') (hacc : s'.Eligible acc)
    (hdepth : s.depthBound ≤ depth + 2) :
    Runs False s' (contribute (canonicalAt depth) (flattenAt depth) t acc) fun r s'' =>
    s''.Collects (s.ownParts t) acc r := by
  have hcanonical := (ht.steady h s' depth hs' (by omega)).and
    (((kept_since s).keptAt depth).canonical hs' (hs'.grows.known ht.known))
  refine hcanonical.bind fun u s'' hs'' hgrows' hu => ?_
  obtain ⟨rfl, hsince, -⟩ := hu
  have hshape := hsince.grows.shape_eq u ht.known
  have hacc := hacc.grows hgrows'
  cases hunknown : (s.shape u).isUnknown with
  | true =>
    refine (runs_addType_unknown hs'' (hshape.symm ▸ hunknown) acc _).imp ?_
    rintro _ _ - - ⟨rfl, rfl⟩
    exact .unknown (ownParts_unknown_iff.2 hunknown)
  | false =>
    have hparts : ∀ p, s.ownParts u p ↔ ∃ c ∈ s.members u, p = .type c := fun p => ownParts_iff hunknown
    cases hcs : s.candidates? u with
    | none =>
      have hself := members_of_none hcs
      refine (runs_addType_single hs'' ((candidates?_congr hshape).trans hcs) (hshape.symm ▸ hunknown) acc _).imp ?_
      rintro _ _ - - ⟨rfl, rfl⟩
      exact .insert hacc.found (hsince.grows.known ht.known) fun p => by rw [hparts, hself]; simp
    | some cs =>
      have hself := members_of_candidates hcs
      have hbound : 8 ≤ s.depthBound := by unfold depthBound; omega
      obtain ⟨depth, rfl⟩ : ∃ k, depth = k + 1 := ⟨depth - 1, by omega⟩
      have hcandidates := (candidates?_congr hshape).trans hcs
      refine runs_addType_candidates hcandidates ((runs_flatten_adding (P := fun c p => p = .type c) cs
        (hs''.known_of_form_union hcandidates) hsince hacc fun c hc s1 acc hs1 _ hacc => ?_).imp
        fun r s1 _ _ hr => hr.of_iff fun p => by rw [hparts, hself])
      exact ((ht.joins_members h hunknown).2.2.2 c (by rwa [hself])).runs_contribute h hs1 hacc.found (by omega) _

theorem Intact.runs_unionOf_canonical (h : s.Intact) {ts : List TypeId} (hne : ts ≠ []) (hts : ∀ t ∈ ts, s.FullyCanonical t) :
    Runs False s (unionOfAt s.depthBound ts) fun u s' => s'.Answers (fun p => ∃ t ∈ ts, s.ownParts t p) u := by
  have hbound : s.depthBound = 8 * s.size + 6 + 1 + 1 := by unfold depthBound; omega
  obtain ⟨t, ht⟩ := List.exists_mem_of_ne_nil ts hne
  obtain ⟨p, hp⟩ := (hts t ht).exists_ownPart h
  rw [hbound]
  refine runs_unionOf ((runs_flatten_adding (P := s.ownParts) ts (fun t ht => (hts t ht).known) (.refl h) .nil
    fun t ht s' acc hs' _ hacc => ?_).imp fun r s' _ _ hr => ⟨hr, p, t, ht, hp⟩)
  exact (hts t ht).runs_contribute h hs' hacc (by omega)

end Union

end TypeStore

end PythonTypes
