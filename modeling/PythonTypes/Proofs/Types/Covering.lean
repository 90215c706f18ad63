import PythonTypes.Proofs.Types.Canonical

/-!
# How canonical types cover each other

Unknown covers every type (`Above`), and apart from that a canonical type that is not unknown covers
another exactly if it has all its members. Among canonical types this is an order, and the union of
two of them is the least type that covers both (`IsUnion.above_iff`). A type that remembers a
failed import is unknown without being the greatest: it is only covered by itself and by unknown.
-/

set_option autoImplicit false

namespace PythonTypes.TypeStore

variable {s : TypeStore}

/-- Whether a type covers another, as unknown does every type. -/
def Above (s : TypeStore) (whole part : TypeId) : Prop := whole = .unknown ∨ s.covers whole part = true

theorem covers_iff {whole part : TypeId} :
    s.covers whole part = true ↔ whole = part ∨ ∃ cs, s.candidates? whole = some cs ∧ ∀ c ∈ s.members part, c ∈ cs := by
  grind [covers, members]

section Order

variable {a b u w p : TypeId} {s' : TypeStore}

theorem FullyCanonical.eq_of_members (h : s.Intact) (ha : s.FullyCanonical a) (hb : s.FullyCanonical b)
    (hunknown : (s.shape a).isUnknown = false) (hunknown' : (s.shape b).isUnknown = false)
    (hsame : ∀ c, c ∈ s.members a ↔ c ∈ s.members b) : a = b := by
  obtain ⟨hnodup, -, hjoins, -⟩ := ha.joins_members h hunknown
  obtain ⟨hnodup', -, hjoins', -⟩ := hb.joins_members h hunknown'
  exact hjoins.unique ((List.perm_ext_iff_of_nodup hnodup hnodup').2 hsame) hjoins'

theorem FullyCanonical.above_unknown (h : s.Intact) (hw : s.FullyCanonical w)
    (hp : (s.shape p).isUnknown = true) : s.Above w p ↔ w = .unknown ∨ w = p := by
  refine or_congr_right (covers_iff.trans (or_iff_left ?_))
  rintro ⟨cs, hcs, hmembers⟩
  have hsingle : (s.shape p).isSingle = true := by
    cases hshape : s.shape p <;> first | rfl | simp [hshape, TypeForm.isUnknown] at hp
  have hmem : p ∈ cs := hmembers p (by simp [members_of_isSingle hsingle])
  obtain ⟨-, -, -, hproper, -⟩ := hw.union h hcs
  exact absurd ((hproper p hmem).not_unknown.symm.trans hp) (by simp)

theorem FullyCanonical.above_iff (h : s.Intact) (hw : s.FullyCanonical w) (hp : s.FullyCanonical p)
    (hunknown : (s.shape p).isUnknown = false) :
    s.Above w p ↔ w = .unknown ∨ (s.shape w).isUnknown = false ∧ ∀ c ∈ s.members p, c ∈ s.members w := by
  refine or_congr_right (covers_iff.trans ⟨?_, ?_⟩)
  · rintro (rfl | ⟨cs, hcs, hmembers⟩)
    · exact ⟨hunknown, fun c hc => hc⟩
    · refine ⟨?_, fun c hc => ?_⟩
      · rcases candidates?_eq_some_iff.1 hcs with hshape | hshape <;> rw [hshape] <;> rfl
      · grind [members_of_candidates]
  · rintro ⟨hknown, hmembers⟩
    cases hcs : s.candidates? w with
    | some cs =>
      grind [members_of_candidates]
    | none =>
      -- a single type only has itself as a member, and so has what it covers
      have hself := members_of_none hcs
      grind [joins_members, eq_of_members, List.exists_mem_of_ne_nil]

theorem isUnknown_unknown (hs : s.WellFormed) : (s.shape .unknown).isUnknown = true := by
  rw [hs.unknown_first]
  rfl

/-- Two canonical types of which each is above the other are the same. -/
theorem Above.antisymm (h : s.Intact) (ha : s.FullyCanonical a) (hb : s.FullyCanonical b)
    (hab : s.Above a b) (hba : s.Above b a) : a = b := by
  have hunknown := isUnknown_unknown h.wellFormed
  cases hA : (s.shape a).isUnknown with
  | true =>
    rcases (hb.above_unknown h hA).1 hba with rfl | rfl
    · exact ((ha.above_unknown h hunknown).1 hab).elim id id
    · rfl
  | false =>
    rcases (hb.above_iff h ha hA).1 hba with rfl | ⟨hB, hsub⟩
    · exact ((ha.above_unknown h hunknown).1 hab).elim id id
    · rcases (ha.above_iff h hb hB).1 hab with rfl | ⟨-, hsub'⟩
      · rw [hunknown] at hA
        cases hA
      · exact ha.eq_of_members h hb hA hB fun c => ⟨hsub c, hsub' c⟩

/-- Above an unknown type and another one there is only the greatest. -/
theorem FullyCanonical.eq_unknown_of_above (h : s.Intact) (hw : s.FullyCanonical w) (hb : s.FullyCanonical b)
    (hA : (s.shape a).isUnknown = true) (hne : a ≠ b) (hwa : s.Above w a) (hwb : s.Above w b) : w = .unknown := by
  rcases (hw.above_unknown h hA).1 hwa with hw | rfl
  · exact hw
  cases hB : (s.shape b).isUnknown with
  | true => exact ((hw.above_unknown h hB).1 hwb).resolve_right hne
  | false =>
    refine ((hw.above_iff h hb hB).1 hwb).resolve_right fun hknown => ?_
    rw [hA] at hknown
    cases hknown.1

/-- What the union of two canonical types is. -/
inductive IsUnion (s : TypeStore) (a : TypeId) : TypeId → TypeId → Prop
  | same : IsUnion s a a a
  | unknown {b : TypeId} : a ≠ b → (s.shape a).isUnknown = true ∨ (s.shape b).isUnknown = true → IsUnion s a b .unknown
  | known {b u : TypeId} : (s.shape a).isUnknown = false → (s.shape b).isUnknown = false → (s.shape u).isUnknown = false →
      (∀ c, c ∈ s.members u ↔ c ∈ s.members a ∨ c ∈ s.members b) → IsUnion s a b u

theorem Grows.members_eq (hgrows : s.Grows s') (hu : s.Known u) : s'.members u = s.members u := by
  rw [members, members, candidates?_congr (hgrows.shape_eq u hu)]

theorem IsUnion.grows (hgrows : s.Grows s') (ha : s.Known a) (hb : s.Known b) (hu : s.Known u)
    (h : s.IsUnion a b u) : s'.IsUnion a b u := by
  cases h with
  | same => exact .same
  | unknown hne hunknown =>
    refine .unknown hne ?_
    rwa [hgrows.shape_eq a ha, hgrows.shape_eq b hb]
  | known hA hB hU hmembers =>
    refine .known ?_ ?_ ?_ fun c => ?_
    · rwa [hgrows.shape_eq a ha]
    · rwa [hgrows.shape_eq b hb]
    · rwa [hgrows.shape_eq u hu]
    · grind [Grows.members_eq]

theorem IsUnion.above_iff (h : s.Intact) (ha : s.FullyCanonical a) (hb : s.FullyCanonical b) (hu : s.FullyCanonical u)
    (hw : s.FullyCanonical w) (hunion : s.IsUnion a b u) : s.Above w u ↔ s.Above w a ∧ s.Above w b := by
  cases hunion with
  | same => exact (and_self_iff).symm
  | unknown hne hunknown =>
    rw [hw.above_unknown h (isUnknown_unknown h.wellFormed), or_self_iff]
    refine ⟨fun hw => ⟨.inl hw, .inl hw⟩, fun ⟨hwa, hwb⟩ => ?_⟩
    grind [FullyCanonical.eq_unknown_of_above]
  | known hA hB hU hmembers =>
    grind [FullyCanonical.above_iff]

end Order

theorem Intact.fullyCanonical_unknown (h : s.Intact) : s.FullyCanonical .unknown := by
  have hsteady := h.wellFormed.rests_unknown.steady h.wellFormed h.chainsEnd h.wellFormed.unknown_known
  exact .of_isSingle h.wellFormed.unknown_known (hsteady.isCanonical (.refl h))
    (by rw [h.wellFormed.unknown_first]; rfl)

theorem Answers.isUnion {s' : TypeStore} (h : s.Intact) (hs' : Since s s') {a b u : TypeId}
    (ha : s.FullyCanonical a) (hb : s.FullyCanonical b) (hne : a ≠ b)
    (hu : s'.Answers (fun p => ∃ t ∈ [a, b], s.ownParts t p) u) : s'.FullyCanonical u ∧ s'.IsUnion a b u := by
  have hgrows := hs'.grows
  cases hu with
  | unknown hunknown =>
    refine ⟨hs'.intact.fullyCanonical_unknown, .unknown hne ?_⟩
    grind [Grows.shape_eq, FullyCanonical.known, ownParts_unknown_iff]
  | @known xs _ hknown hleft hright hnodup hne hjoins =>
    have hunknown : (s.shape a).isUnknown = false ∧ (s.shape b).isUnknown = false := by
      simpa [ownParts_unknown_iff] using hknown
    have hmem : ∀ x, x ∈ xs ↔ x ∈ s.members a ∨ x ∈ s.members b := by
      intro x
      constructor
      · intro hx
        obtain ⟨p, ⟨t, ht, hp⟩, hpx⟩ := hright x hx
        rcases List.mem_pair.1 ht with rfl | rfl
        · obtain ⟨c, hc, rfl⟩ := (ownParts_iff hunknown.1).1 hp
          exact .inl (Option.some.inj hpx ▸ hc)
        · obtain ⟨c, hc, rfl⟩ := (ownParts_iff hunknown.2).1 hp
          exact .inr (Option.some.inj hpx ▸ hc)
      · rintro (hx | hx)
        · obtain ⟨y, hy, hpy⟩ := hleft (.type x) ⟨a, by simp, (ownParts_iff hunknown.1).2 ⟨x, hx, rfl⟩⟩
          exact Option.some.inj hpy ▸ hy
        · obtain ⟨y, hy, hpy⟩ := hleft (.type x) ⟨b, by simp, (ownParts_iff hunknown.2).2 ⟨x, hx, rfl⟩⟩
          exact Option.some.inj hpy ▸ hy
    have hproper : ∀ x ∈ xs, s'.Proper x := by
      intro x hx
      refine Proper.since h hs' ?_
      rcases (hmem x).1 hx with hx | hx
      · exact (ha.joins_members h hunknown.1).2.2.2 x hx
      · exact (hb.joins_members h hunknown.2).2.2.2 x hx
    obtain ⟨hcanonical, hu, hperm⟩ := hjoins.fullyCanonical hs'.intact hne hproper
    refine ⟨hcanonical, .known ?_ ?_ hu fun c => ?_⟩
    · rw [hgrows.shape_eq a ha.known]
      exact hunknown.1
    · rw [hgrows.shape_eq b hb.known]
      exact hunknown.2
    · rw [hperm.mem_iff, hmem, hgrows.members_eq ha.known, hgrows.members_eq hb.known]

theorem Intact.union_isUnion (h : s.Intact) {a b : TypeId} (ha : s.FullyCanonical a) (hb : s.FullyCanonical b) :
    Since s (TypeStore.union a b s).2 ∧ (TypeStore.union a b s).2.FullyCanonical (TypeStore.union a b s).1 ∧
      (TypeStore.union a b s).2.IsUnion a b (TypeStore.union a b s).1 := by
  unfold TypeStore.union
  split
  · rename_i heq
    subst heq
    exact ⟨.refl h, ha, .same⟩
  · rename_i hne
    have hknown : ∀ t ∈ [a, b], s.Known t := by simp [ha.known, hb.known]
    have hcanonical : ∀ t ∈ [a, b], s.FullyCanonical t := by simp [ha, hb]
    have hs' := ((kept_since s).unionOf (.refl h) hknown).1
    obtain ⟨-, -, hanswer⟩ :=
      Runs.within (unionOfAt · [a, b]) h.wellFormed False.elim (h.runs_unionOf_canonical (by simp) hcanonical)
    exact ⟨hs', hanswer.isUnion h hs' ha hb hne⟩

end PythonTypes.TypeStore
