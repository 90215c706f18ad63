import PythonTypes.Proofs.Types.UnionLattice

/-!
# Types that include others

A type includes another one if it is unknown in part, or if every part of the other one is a part of
it. This is a preorder in which a union is a least upper bound (`IsUnionOf.includes_of_mem`,
`IsUnionOf.includes`), and it does not depend on the ids that types have got before lazy ones among
them were resolved. Once both types are replaced by what they stand for, the one that includes the
other covers it (`Includes.coversFollowed`).
-/

set_option autoImplicit false

namespace PythonTypes.TypeStore

variable {s s' : TypeStore} {x y t u : TypeId} {p q r : Part} {ts : List TypeId}
variable {P : TypeId → Prop}

/-- Whether two parts are the same type. -/
def SamePart (s : TypeStore) (p q : Part) : Prop := p = q ∨ ∃ x, s.typeOf? p = some x ∧ s.typeOf? q = some x

theorem SamePart.typeOf?_eq (h : s.SamePart p q) : s.typeOf? q = s.typeOf? p := by
  rcases h with rfl | ⟨x, hp, hq⟩
  · rfl
  · rw [hp, hq]

theorem SamePart.trans (h : s.SamePart p q) (h' : s.SamePart q r) : s.SamePart p r := by
  rcases h with rfl | ⟨x, hp, hq⟩
  · exact h'
  · exact .inr ⟨x, hp, h'.typeOf?_eq.trans hq⟩

theorem SamePart.grows (h : s.SamePart p q) (hgrows : s.Grows s') : s'.SamePart p q :=
  h.imp_right fun ⟨x, hp, hq⟩ => ⟨x, hgrows.typeOf? hp, hgrows.typeOf? hq⟩

/-- Whether a type is unknown in part, or every part of the other one is a part of it. -/
def Includes (s : TypeStore) (x t : TypeId) : Prop :=
  s.HasPart x .unknown ∨ ∀ p, s.HasPart t p → ∃ q, s.HasPart x q ∧ s.SamePart p q

theorem Includes.refl (s : TypeStore) (x : TypeId) : s.Includes x x := .inr fun p hp => ⟨p, hp, .inl rfl⟩

theorem Includes.grows (h : s.Includes x t) (hs : s.WellFormed) (hgrows : s.Grows s')
    (hx : s.Known x) (ht : s.Known t) : s'.Includes x t := by
  refine h.imp (hgrows.hasPart_iff hs hx).2 fun hall p hp => ?_
  obtain ⟨q, hq, hsame⟩ := hall p ((hgrows.hasPart_iff hs ht).1 hp)
  exact ⟨q, (hgrows.hasPart_iff hs hx).2 hq, hsame.grows hgrows⟩

theorem Includes.unknown (h : s.Includes x t) (hs : s.Good) (ht : s.HasPart t .unknown) : s.HasPart x .unknown := by
  refine h.elim id fun hall => ?_
  obtain ⟨q, hq, hsame⟩ := hall _ ht
  by_cases hunknown : q = .unknown
  · rwa [hunknown] at hq
  · have hatom : s.Atom .unknown := (hq.genuine hunknown).atom hs.wellFormed hs.slotsFollow hsame.typeOf?_eq
    rw [Atom, hs.wellFormed.unknown_first] at hatom
    exact hatom.elim

/-- Inclusion is transitive: parts of parts are parts. -/
theorem Includes.trans (h : s.Includes x y) (hs : s.Good) (h' : s.Includes y t) : s.Includes x t := by
  grind [Includes, unknown, SamePart.trans]

section

variable (hs : s.Good) (h : s.IsUnionOf ts u)

include hs h

theorem IsUnionOf.same (hne : ts ≠ []) : s.Same (fun p => ∃ t ∈ ts, s.HasPart t p) (s.HasPart u) :=
  ((h.answers hne).settled hs.wellFormed hs.slotsFollow fun _ ⟨_, _, hp⟩ => hp.genuine).2

theorem IsUnionOf.includes_of_mem (ht : t ∈ ts) : s.Includes u t := by
  have hsame := h.same hs (List.ne_nil_of_mem ht)
  by_cases hunknown : ∃ t ∈ ts, s.HasPart t .unknown
  · exact .inl (hsame.unknown_iff.1 hunknown)
  · refine .inr fun p hp => ?_
    obtain ⟨z, hz, q, hq, hqz⟩ := hsame.left hunknown p ⟨t, ht, hp⟩
    exact ⟨q, hq, .inr ⟨z, hz, hqz⟩⟩

theorem IsUnionOf.includes (hne : ts ≠ []) (hall : ∀ t ∈ ts, s.Includes x t) : s.Includes x u := by
  have hsame := h.same hs hne
  by_cases hunknown : ∃ t ∈ ts, s.HasPart t .unknown
  · obtain ⟨t, ht, hpart⟩ := hunknown
    exact .inl ((hall t ht).unknown hs hpart)
  · by_cases hx : s.HasPart x .unknown
    · exact .inl hx
    · refine .inr fun p hp => ?_
      obtain ⟨z, hz, q, ⟨t, ht, hq⟩, hqz⟩ := hsame.right hunknown p hp
      obtain ⟨r, hr, hqr⟩ := (hall t ht).resolve_left hx q hq
      exact ⟨r, hr, .trans (.inr ⟨z, hz, hqz⟩) hqr⟩

end

theorem Good.includes_union (hs : s.Good) (hs' : (TypeStore.union x t s).2.Good) (hx : s.Known x)
    (ht : s.Known t) : (TypeStore.union x t s).2.Includes (TypeStore.union x t s).1 x ∧
      (TypeStore.union x t s).2.Includes (TypeStore.union x t s).1 t := by
  unfold TypeStore.union at hs' ⊢
  split
  · rename_i heq
    exact ⟨.refl s x, heq ▸ .refl s x⟩
  · grind [isUnionOf, IsUnionOf.includes_of_mem]

/-! ## Least upper bounds -/

/-- The type is joined from types with a property: from now on, what includes all of these includes
it. -/
structure JoinOf (s : TypeStore) (P : TypeId → Prop) (t : TypeId) : Prop where
  known : s.Known t
  exists_part : ∃ u, P u
  least : ∀ s', s.Grows s' → s'.Good → ∀ x, (∀ u, P u → s'.Includes x u) → s'.Includes x t

theorem JoinOf.of_mem (ht : s.Known t) (h : P t) : s.JoinOf P t := ⟨ht, ⟨t, h⟩, fun _ _ _ _ hall => hall t h⟩

theorem JoinOf.grows (h : s.JoinOf P t) (hgrows : s.Grows s') : s'.JoinOf P t :=
  ⟨hgrows.known h.known, h.exists_part, fun s'' hgrows' => h.least s'' (hgrows.trans hgrows')⟩

theorem JoinOf.imp {Q : TypeId → Prop} (h : s.JoinOf P t) (hPQ : ∀ u, P u → Q u) : s.JoinOf Q t :=
  ⟨h.known, h.exists_part.imp hPQ, fun s' hgrows hs' x hall => h.least s' hgrows hs' x fun u hu => hall u (hPQ u hu)⟩

theorem JoinOf.bind {Q : TypeId → Prop} (h : s.JoinOf P t) (hPQ : ∀ u, P u → s.JoinOf Q u) : s.JoinOf Q t := by
  obtain ⟨u, hu⟩ := h.exists_part
  exact ⟨h.known, (hPQ u hu).exists_part, fun s' hgrows hs' x hall =>
    h.least s' hgrows hs' x fun u hu => (hPQ u hu).least s' hgrows hs' x hall⟩

/-- The union of two joins of the same parts is a join of them. -/
theorem JoinOf.union (hs : s.Good) (hx : s.JoinOf P x) (ht : s.JoinOf P t) :
    (TypeStore.union x t s).2.JoinOf P (TypeStore.union x t s).1 := by
  obtain ⟨-, hgrows, hknown⟩ := union_sound hs.wellFormed hx.known ht.known
  unfold TypeStore.union at hgrows hknown ⊢
  split at hgrows
  · rename_i heq
    rw [if_pos heq]
    exact hx
  · rename_i hne
    rw [if_neg hne] at hknown ⊢
    have hboth : ∀ y ∈ [x, t], s.Known y := by simp [hx.known, ht.known]
    have hunion := hs.isUnionOf hboth
    have hwell := (unionOf_sound hs.wellFormed hboth).1
    refine ⟨hknown, hx.exists_part, fun s' hgrows' hs' y hall => ?_⟩
    refine (hunion.grows hwell hgrows').includes hs' (by simp) fun u hu => ?_
    grind [least, Grows.trans]

/-! ## Covering -/

/-- Whether a type is unknown or covers another one, once both are replaced by what they stand
for. -/
def CoversFollowed (s : TypeStore) (x t : TypeId) : Prop :=
  let (whole, s₁) := unionOf [x] s
  let (part, s₂) := unionOf [t] s₁
  whole = .unknown ∨ s₂.covers whole part = true

theorem Joins.covers (hs : s.WellFormed) {cs ds : List TypeId} (hcs : ∀ c ∈ cs, s.Atom c) (hnodup : cs.Nodup) (hne : cs ≠ [])
    (hsub : cs ⊆ ds) (ht : s.Joins cs t) (hx : s.Joins ds x) : s.covers x t = true := by
  have hcandidates : ∀ {cs u}, 2 ≤ cs.length → s.Joins cs u → ∃ cs', s.candidates? u = some cs' ∧ cs'.Perm cs := by
    intro cs u hlength hu
    rw [joins_of_length hlength] at hu
    obtain ⟨cs', hcs', hkey, -⟩ := hs.unions _ u hu
    exact ⟨cs', hcs', unionKey_eq_iff.1 hkey⟩
  have hpos := List.length_pos_iff.2 hne
  have hle := hnodup.length_le_of_subset hsub
  unfold TypeStore.covers
  by_cases hmany : 2 ≤ ds.length
  · obtain ⟨ds', hds', hperm⟩ := hcandidates hmany hx
    rw [hds']
    by_cases hseveral : 2 ≤ cs.length
    · obtain ⟨cs', hcs', hperm'⟩ := hcandidates hseveral ht
      grind
    · have hone : cs.length = 1 := by omega
      obtain ⟨c, rfl⟩ := List.length_eq_one_iff.1 hone
      grind [Joins, Atom.candidates?_eq_none]
  · -- There is one type only on both sides.
    have hone : cs.length = 1 := by omega
    have hone' : ds.length = 1 := by omega
    obtain ⟨c, rfl⟩ := List.length_eq_one_iff.1 hone
    obtain ⟨d, rfl⟩ := List.length_eq_one_iff.1 hone'
    simp_all [Joins]

theorem Includes.coversFollowed (h : s.Includes x t) (hs : s.Good) (hx : s.Known x)
    (ht : s.Known t) : s.CoversFollowed x t := by
  have hxs : ∀ y ∈ [x], s.Known y := by simp [hx]
  have hwhole := hs.isUnionOf hxs
  obtain ⟨hwell1, hgrows1, -⟩ := unionOf_sound hs.wellFormed hxs
  have hs1 : (unionOf [x] s).2.Good := hs.grows hgrows1 hwell1
  have hts : ∀ y ∈ [t], (unionOf [x] s).2.Known y := by simp [hgrows1.known ht]
  have hpart := hs1.isUnionOf hts
  obtain ⟨hwell2, hgrows2, -⟩ := unionOf_sound hwell1 hts
  have hs2 := hs1.grows hgrows2 hwell2
  show (unionOf [x] s).1 = .unknown ∨ (unionOf [t] (unionOf [x] s).2).2.covers (unionOf [x] s).1
    (unionOf [t] (unionOf [x] s).2).1 = true
  generalize (unionOf [t] (unionOf [x] s).2).1 = part at hpart
  generalize (unionOf [x] s).1 = whole at hwhole
  obtain ⟨s2, heq⟩ : ∃ s2, (unionOf [t] (unionOf [x] s).2).2 = s2 := ⟨_, rfl⟩
  rw [heq] at hpart hwell2 hgrows2 hs2 ⊢
  have hincludes := h.grows hs.wellFormed (hgrows1.trans hgrows2) hx ht
  have hwhole2 := ((hwhole.grows hwell1 hgrows2).answers (by simp)).of_iff (Q := s2.HasPart x) fun p => by simp
  have hpart2 := (hpart.answers (by simp)).of_iff (Q := s2.HasPart t) fun p => by simp
  cases hwhole2 with
  | unknown => exact .inl rfl
  | known hxknown hleft hright _ _ hjoins =>
    refine .inr ?_
    cases hpart2 with
    | unknown htunknown => grind [unknown]
    | known htknown hleft' hright' hnodup hne hjoins' =>
      refine Joins.covers hwell2 (fun c hc => ?_) hnodup hne (fun c hc => ?_) hjoins' hjoins
      · obtain ⟨p, hp, hpc⟩ := hright' c hc
        exact (hp.genuine fun hunknown => htknown (hunknown ▸ hp)).atom hwell2 hs2.slotsFollow hpc
      · obtain ⟨p, hp, hpc⟩ := hright' c hc
        grind [Includes, SamePart.typeOf?_eq]

end PythonTypes.TypeStore
