import PythonTypes.Proofs.Types.Parts

/-!
# The type that given parts are joined to

Parts are joined to the type that `Answers` them: unknown if one of them is, and otherwise what the
tables of instances and unions hold for them. Different parts may be the same type. Two collections
of parts that are the same types (`Same`) have the same answer, and a type that answers parts stands
for the same types as they do.
-/

set_option autoImplicit false

namespace PythonTypes.TypeStore

variable {P Q : Part → Prop} {cs : List TypeId} {p : Part} {s s' : TypeStore} {u x : TypeId}
  {t u' : TypeId} {cs' : List TypeId}

/-- The type that a part is, once there is one. -/
def typeOf? (s : TypeStore) : Part → Option TypeId
  | .unknown => some .unknown
  | .type t => some t
  | .instanceOf cls => s.instances.get? cls
  | .pendingInstanceOf lazy => s.lazyInstances.get? lazy

theorem Grows.typeOf? (h : s.Grows s') (hp : s.typeOf? p = some x) : s'.typeOf? p = some x := by
  cases p with
  | unknown => exact hp
  | type t => exact hp
  | instanceOf cls => exact h.instances cls x hp
  | pendingInstanceOf lazy => exact h.lazyInstances lazy x hp

/-- Whether a part can be a candidate of a union. -/
def Genuine (s : TypeStore) : Part → Prop
  | .unknown => False
  | .type t => s.Atom t
  | .instanceOf _ => True
  | .pendingInstanceOf lazy => s.isPending lazy = true

theorem InstancePart.genuine {c : TypeId} (h : s.InstancePart c p) (hp : p ≠ .unknown) : s.Genuine p := by
  induction h with
  | target _ _ ih => exact ih hp
  | candidate _ _ _ ih => exact ih hp
  | unknown => contradiction
  | pending hpending => exact hpending
  | known => trivial

theorem HasPart.genuine (h : s.HasPart t p) (hp : p ≠ .unknown) : s.Genuine p := by
  induction h with
  | target _ _ ih => exact ih hp
  | candidate _ _ _ ih => exact ih hp
  | unknown => contradiction
  | instances _ _ h => exact h.genuine hp
  | atom hatom => exact hatom

theorem Grows.genuine (h : s.Grows s') (hs : s.WellFormed) (hp : s.Genuine p) : s'.Genuine p := by
  cases p with
  | unknown => exact hp
  | type t => exact (h.atom_iff hs (Atom.known hp)).2 hp
  | instanceOf cls => trivial
  | pendingInstanceOf lazy =>
    obtain ⟨path, hshape⟩ := isPending_iff.1 hp
    exact (isPending_congr (h.shape_eq lazy (known_of_shape (by rw [hshape]; simp)))).trans hp

/-- Since slots follow their lazy types, the instance of a pending class is not yet the instance of
anything else. -/
theorem Genuine.atom (hs : s.WellFormed) (hfollow : s.SlotsFollow) (hp : s.Genuine p)
    (hx : s.typeOf? p = some x) : s.Atom x := by
  cases p with
  | unknown => exact hp.elim
  | type t => exact Option.some.inj hx ▸ hp
  | instanceOf cls =>
    rw [Atom, hs.instances cls x hx]
    trivial
  | pendingInstanceOf lazy =>
    obtain ⟨w, hshape, rfl⟩ := hs.lazyInstances lazy x hx
    rw [Atom, hshape]
    cases hw : (s.slot w).isResolved with
    | false => exact hw
    | true => exact absurd ((hfollow w hw).symm.trans hp) (by simp)

/-- Whether a type is one of the given parts. -/
def Denotes (s : TypeStore) (P : Part → Prop) (x : TypeId) : Prop := ∃ p, P p ∧ s.typeOf? p = some x

/-- Whether two collections of parts both hold an unknown one, or are the same types. -/
structure Same (s : TypeStore) (P Q : Part → Prop) : Prop where
  unknown_iff : P .unknown ↔ Q .unknown
  left : ¬ P .unknown → ∀ p, P p → ∃ x, s.typeOf? p = some x ∧ s.Denotes Q x
  right : ¬ P .unknown → ∀ q, Q q → ∃ x, s.typeOf? q = some x ∧ s.Denotes P x

theorem Same.symm (h : s.Same P Q) : s.Same Q P :=
  ⟨h.unknown_iff.symm, fun hQ => h.right (mt h.unknown_iff.1 hQ), fun hQ => h.left (mt h.unknown_iff.1 hQ)⟩

theorem Same.refl (h : ¬ P .unknown → ∀ p, P p → ∃ x, s.typeOf? p = some x) : s.Same P P := by
  have hself : ¬ P .unknown → ∀ p, P p → ∃ x, s.typeOf? p = some x ∧ s.Denotes P x := by
    intro hP p hp
    obtain ⟨x, hx⟩ := h hP p hp
    exact ⟨x, hx, p, hp, hx⟩
  exact ⟨.rfl, hself, hself⟩

theorem Same.of_unknown (hP : P .unknown) (hQ : Q .unknown) : s.Same P Q :=
  ⟨iff_of_true hP hQ, fun hnot => absurd hP hnot, fun hnot => absurd hP hnot⟩

theorem Same.single {q : Part} (hp : p ≠ .unknown) (hq : q ≠ .unknown)
    (hpx : s.typeOf? p = some x) (hqx : s.typeOf? q = some x) : s.Same (· = p) (· = q) := by
  refine ⟨iff_of_false hp.symm hq.symm, ?_, ?_⟩
  · rintro - _ rfl
    exact ⟨x, hpx, q, rfl, hqx⟩
  · rintro - _ rfl
    exact ⟨x, hqx, p, rfl, hpx⟩

theorem Same.biUnion {ι κ : Type} {I : ι → Prop} {J : κ → Prop} {P : ι → Part → Prop}
    {Q : κ → Part → Prop} (hleft : ∀ i, I i → ∃ j, J j ∧ s.Same (P i) (Q j))
    (hright : ∀ j, J j → ∃ i, I i ∧ s.Same (P i) (Q j)) :
    s.Same (fun p => ∃ i, I i ∧ P i p) fun q => ∃ j, J j ∧ Q j q := by
  refine ⟨⟨?_, ?_⟩, fun hP p ⟨i, hi, hp⟩ => ?_, fun hP q ⟨j, hj, hq⟩ => ?_⟩
  · grind [unknown_iff]
  · grind [unknown_iff]
  · obtain ⟨j, hj, hsame⟩ := hleft i hi
    obtain ⟨x, hx, q, hq, hqx⟩ := hsame.left (fun hunknown => hP ⟨i, hi, hunknown⟩) p hp
    exact ⟨x, hx, q, ⟨j, hj, hq⟩, hqx⟩
  · obtain ⟨i, hi, hsame⟩ := hright j hj
    obtain ⟨x, hx, p, hp, hpx⟩ := hsame.right (fun hunknown => hP ⟨i, hi, hunknown⟩) q hq
    exact ⟨x, hx, p, ⟨i, hi, hp⟩, hpx⟩

theorem Same.or {R : Part → Prop} (h : s.Same P Q) (hR : ¬ (P .unknown ∨ R .unknown) → ∀ p, R p → ∃ x, s.typeOf? p = some x) :
    s.Same (fun p => P p ∨ R p) fun p => Q p ∨ R p := by
  refine ⟨or_congr_left h.unknown_iff, fun hnot p hp => ?_, fun hnot q hq => ?_⟩
  · rcases hp with hp | hp
    · obtain ⟨x, hx, q, hq, hqx⟩ := h.left (fun hP => hnot (.inl hP)) p hp
      exact ⟨x, hx, q, .inl hq, hqx⟩
    · obtain ⟨x, hx⟩ := hR hnot p hp
      exact ⟨x, hx, p, .inr hp, hx⟩
  · rcases hq with hq | hq
    · obtain ⟨x, hx, p, hp, hpx⟩ := h.right (fun hP => hnot (.inl hP)) q hq
      exact ⟨x, hx, p, .inl hp, hpx⟩
    · obtain ⟨x, hx⟩ := hR hnot q hq
      exact ⟨x, hx, q, .inr hq, hx⟩

theorem Same.denotes (h : s.Same P Q) (hP : ¬ P .unknown) (hx : s.Denotes P x) : s.Denotes Q x := by
  obtain ⟨p, hp, hpx⟩ := hx
  obtain ⟨y, hpy, hy⟩ := h.left hP p hp
  rwa [Option.some.inj (hpx.symm.trans hpy)]

theorem Same.exists_part (h : s.Same P Q) (hP : ∃ p, P p) : ∃ q, Q q := by
  by_cases hunknown : P .unknown
  · exact ⟨_, h.unknown_iff.1 hunknown⟩
  · obtain ⟨p, hp⟩ := hP
    obtain ⟨x, -, q, hq, -⟩ := h.left hunknown p hp
    exact ⟨q, hq⟩

theorem Same.grows (h : s.Same P Q) (hgrows : s.Grows s') : s'.Same P Q := by
  refine ⟨h.unknown_iff, fun hP p hp => ?_, fun hP q hq => ?_⟩
  · obtain ⟨x, hx, q, hq, hqx⟩ := h.left hP p hp
    exact ⟨x, hgrows.typeOf? hx, q, hq, hgrows.typeOf? hqx⟩
  · obtain ⟨x, hx, p, hp, hpx⟩ := h.right hP q hq
    exact ⟨x, hgrows.typeOf? hx, p, hp, hgrows.typeOf? hpx⟩

/-! ## Unions by their candidates -/

theorem unionKey_perm (cs : List TypeId) : (unionKey cs).Perm cs := List.mergeSort_perm _ _

theorem unionKey_eq_iff : unionKey cs = unionKey cs' ↔ cs.Perm cs' := by
  have hsorted : ∀ l : List TypeId, (unionKey l).Pairwise fun a b => decide (a.index ≤ b.index) = true := by
    intro l
    refine List.pairwise_mergeSort (fun a b c hab hbc => ?_) (fun a b => ?_) l
    · grind
    · grind
  constructor
  · grind [unionKey_perm]
  · intro h
    refine List.Perm.eq_of_pairwise (fun a b _ _ hab hba => ?_) (hsorted cs) (hsorted cs')
      ((unionKey_perm cs).trans (h.trans (unionKey_perm cs').symm))
    simp only [decide_eq_true_eq] at hab hba
    exact congrArg TypeId.mk (Nat.le_antisymm hab hba)

theorem joins_of_length (h : 2 ≤ cs.length) : s.Joins cs u ↔ s.unions.get? (unionKey cs) = some u := by
  rcases cs with _ | ⟨c, _ | ⟨d, rest⟩⟩
  · contradiction
  · simp at h
  · exact .rfl

theorem Joins.unique (hperm : cs.Perm cs') (h : s.Joins cs u) (h' : s.Joins cs' u') : u = u' := by
  by_cases hlength : 2 ≤ cs.length
  · rw [joins_of_length hlength, unionKey_eq_iff.2 hperm] at h
    grind [joins_of_length, List.Perm.length_eq]
  · rcases cs with _ | ⟨x, _ | ⟨d, rest⟩⟩
    · obtain rfl := List.nil_perm.1 hperm
      exact h.trans h'.symm
    · obtain rfl := List.singleton_perm.1 hperm
      exact h.trans h'.symm
    · simp at hlength

theorem Joins.grows (h : s.Joins cs u) (hgrows : s.Grows s') : s'.Joins cs u := by
  rcases cs with _ | ⟨x, _ | ⟨d, rest⟩⟩
  · exact h
  · exact h
  · exact hgrows.unions _ u h

/-- Whether a type is what following types and joining them ends at: unknown, a type that stands for
itself, or a union of such types, lazy only as long as it waits for one of them. -/
inductive Settled (s : TypeStore) : TypeId → Prop
  | unknown {t : TypeId} : s.Known t → (s.shape t).isUnknown = true → Settled s t
  | atom {t : TypeId} : s.Atom t → Settled s t
  | union {t : TypeId} {cs : List TypeId} : s.candidates? t = some cs → (∀ c ∈ cs, s.Atom c) →
      (s.shape t = .lazyUnion cs → ∃ c ∈ cs, s.isPending c = true) → Settled s t

theorem Joins.settled (hs : s.WellFormed) (hne : cs ≠ []) (hcs : ∀ c ∈ cs, s.Atom c)
    (h : s.Joins cs u) : s.Settled u ∧ ∀ p, s.HasPart u p ↔ ∃ c ∈ cs, p = .type c := by
  by_cases hlength : 2 ≤ cs.length
  · rw [joins_of_length hlength] at h
    obtain ⟨cs', hcs', hkey, -, -, hlazy⟩ := hs.unions _ u h
    have hperm := unionKey_eq_iff.1 hkey
    have hatoms : ∀ c ∈ cs', s.Atom c := fun c hc => hcs c (hperm.mem_iff.1 hc)
    refine ⟨.union hcs' hatoms fun hshape => ?_, fun p => ?_⟩
    · grind [Atom, isPending_of_shape]
    · grind [hasPart_of_candidates, hasPart_of_atom]
  · rcases cs with _ | ⟨x, _ | ⟨d, rest⟩⟩
    · contradiction
    · obtain rfl : u = x := h
      have hatom := hcs u (by simp)
      exact ⟨.atom hatom, fun p => by simp [hasPart_of_atom hatom]⟩
    · simp at hlength

theorem Settled.eq_unknown_or_type (h : s.Settled t) (hp : s.HasPart t p) : p = .unknown ∨ ∃ c, p = .type c := by
  cases h with
  | unknown _ hunknown =>
    grind [TypeForm.isUnknown, hasPart_iff]
  | atom hatom => grind [hasPart_of_atom]
  | union hcs hatoms =>
    grind [hasPart_of_candidates, hasPart_of_atom]

/-! ## Answers -/

/-- Whether a type is what parts are joined to. -/
inductive Answers (s : TypeStore) (P : Part → Prop) : TypeId → Prop
  | unknown : P .unknown → Answers s P .unknown
  | known {cs : List TypeId} {u : TypeId} : ¬ P .unknown → (∀ p, P p → ∃ x ∈ cs, s.typeOf? p = some x) →
      (∀ x ∈ cs, s.Denotes P x) → cs.Nodup → cs ≠ [] → s.Joins cs u → Answers s P u

theorem Answers.of_iff (h : s.Answers P u) (hPQ : ∀ p, P p ↔ Q p) : s.Answers Q u :=
  (funext fun p => propext (hPQ p) : P = Q) ▸ h

theorem Answers.single (hp : p ≠ .unknown) (hx : s.typeOf? p = some x) (hP : ∀ q, P q ↔ q = p) : s.Answers P x := by
  refine .known (fun h => hp ((hP _).1 h).symm) (fun q hq => ⟨x, by simp, (hP q).1 hq ▸ hx⟩) ?_
    (List.nodup_singleton x) (List.cons_ne_nil _ _) rfl
  intro y hy
  rw [List.mem_singleton] at hy
  exact ⟨p, (hP p).2 rfl, hy ▸ hx⟩

theorem Answers.grows (h : s.Answers P u) (hgrows : s.Grows s') : s'.Answers P u := by
  cases h with
  | unknown hP => exact .unknown hP
  | known hP hleft hright hnodup hne hjoins =>
    refine .known hP (fun p hp => ?_) (fun x hx => ?_) hnodup hne (hjoins.grows hgrows)
    · grind [Grows.typeOf?]
    · obtain ⟨p, hp, hpx⟩ := hright x hx
      exact ⟨p, hp, hgrows.typeOf? hpx⟩

theorem mem_iff_denotes (hleft : ∀ p, P p → ∃ x ∈ cs, s.typeOf? p = some x)
    (hright : ∀ x ∈ cs, s.Denotes P x) : x ∈ cs ↔ s.Denotes P x := by
  refine ⟨hright x, ?_⟩
  rintro ⟨p, hp, hpx⟩
  grind

theorem Answers.unique (hsame : s.Same P Q) (h : s.Answers P u) (h' : s.Answers Q u') : u = u' := by
  cases h with
  | unknown hP =>
    cases h' with
    | unknown => rfl
    | known hQ => exact absurd (hsame.unknown_iff.1 hP) hQ
  | @known cs u hP hleft hright hnodup _ hjoins =>
    cases h' with
    | unknown hQ => exact absurd (hsame.unknown_iff.2 hQ) hP
    | @known cs' u' hQ hleft' hright' hnodup' _ hjoins' =>
      -- both lists hold the types that the parts are
      have hmem : ∀ x, x ∈ cs ↔ x ∈ cs' := by
        intro x
        rw [mem_iff_denotes hleft hright, mem_iff_denotes hleft' hright']
        exact ⟨hsame.denotes hP, hsame.symm.denotes hQ⟩
      exact Joins.unique ((List.perm_ext_iff_of_nodup hnodup hnodup').2 hmem) hjoins hjoins'

theorem Answers.congr (h : s.Answers P u) (hsame : s.Same P Q) : s.Answers Q u := by
  cases h with
  | unknown hP => exact .unknown (hsame.unknown_iff.1 hP)
  | known hP hleft hright hnodup hne hjoins =>
    refine .known (mt hsame.unknown_iff.2 hP) (fun q hq => ?_) (fun x hx => hsame.denotes hP (hright x hx)) hnodup hne hjoins
    obtain ⟨x, hqx, hx⟩ := hsame.right hP q hq
    exact ⟨x, (mem_iff_denotes hleft hright).2 hx, hqx⟩

theorem Answers.settled (hs : s.WellFormed) (hfollow : s.SlotsFollow)
    (hgenuine : ∀ p, P p → p ≠ .unknown → s.Genuine p) (h : s.Answers P u) : s.Settled u ∧ s.Same P (s.HasPart u) := by
  cases h with
  | unknown hP =>
    have hunknown : (s.shape .unknown).isUnknown = true := by
      rw [hs.unknown_first]
      rfl
    exact ⟨.unknown hs.unknown_known hunknown, iff_of_true hP (.unknown hunknown),
      fun h => absurd hP h, fun h => absurd hP h⟩
  | @known cs u hP hleft hright _ hne hjoins =>
    have hatoms : ∀ c ∈ cs, s.Atom c := by
      intro c hc
      obtain ⟨p, hp, hpc⟩ := hright c hc
      exact (hgenuine p hp fun h => hP (h ▸ hp)).atom hs hfollow hpc
    obtain ⟨hsettled, hparts⟩ := hjoins.settled hs hne hatoms
    refine ⟨hsettled, iff_of_false hP ?_, fun _ p hp => ?_, fun _ q hq => ?_⟩
    · simp_all
    · obtain ⟨x, hx, hpx⟩ := hleft p hp
      exact ⟨x, hpx, .type x, (hparts _).2 ⟨x, hx, rfl⟩, rfl⟩
    · obtain ⟨c, hc, rfl⟩ := (hparts q).1 hq
      exact ⟨c, rfl, hright c hc⟩

theorem Answers.typeOf? (h : s.Answers P u) (hP : ¬ P .unknown) (p : Part) (hp : P p) : ∃ x, s.typeOf? p = some x := by
  cases h with
  | unknown hunknown => exact absurd hunknown hP
  | known _ hleft =>
    grind

theorem Answers.exists_part (h : s.Answers P u) : ∃ p, P p := by
  cases h with
  | unknown hP => exact ⟨_, hP⟩
  | @known cs u _ _ hright _ hne =>
    obtain ⟨x, hx⟩ := List.exists_mem_of_ne_nil cs hne
    obtain ⟨p, hp, -⟩ := hright x hx
    exact ⟨p, hp⟩

theorem Answers.eq_unknown_iff (hs : s.WellFormed) (hfollow : s.SlotsFollow)
    (hgenuine : ∀ p, P p → p ≠ .unknown → s.Genuine p) (h : s.Answers P u) : u = .unknown ↔ P .unknown := by
  constructor
  · rintro rfl
    rw [(h.settled hs hfollow hgenuine).2.unknown_iff]
    exact .unknown (by rw [hs.unknown_first]; rfl)
  · intro hP
    cases h with
    | unknown => rfl
    | known hnot => exact absurd hP hnot

end PythonTypes.TypeStore
