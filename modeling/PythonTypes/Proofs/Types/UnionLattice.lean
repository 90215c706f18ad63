import PythonTypes.Proofs.Types.Flattening

/-!
# Unions form a semilattice

As long as nothing is resolved, the union of types only depends on which types they are, and a part
of them may be replaced by its union: the answers are equal as ids, in whatever order the unions are
asked for and whatever else is added to the store in between.
-/

set_option autoImplicit false

namespace PythonTypes.TypeStore

/-- A run of actions that resolve nothing, with the unions that were asked for and the answers. -/
inductive UnionLog (s₀ : TypeStore) : TypeStore → List (List TypeId × TypeId) → Prop
  | start : UnionLog s₀ s₀ []
  | action {s : TypeStore} {log : List (List TypeId × TypeId)} (a : StoreAction) : UnionLog s₀ s log → a.Valid s →
      a.OffersCandidates → ¬ a.Resolves → UnionLog s₀ (a.perform s) log
  | unionOf {s : TypeStore} {log : List (List TypeId × TypeId)} (ts : List TypeId) : UnionLog s₀ s log →
      (∀ t ∈ ts, s.Known t) → UnionLog s₀ (unionOf ts s).2 (log ++ [(ts, (unionOf ts s).1)])

/-- Whether a type is the union of others. -/
structure IsUnionOf (s : TypeStore) (ts : List TypeId) (u : TypeId) : Prop where
  known : ∀ t ∈ ts, s.Known t
  nil : ts = [] → u = .unknown
  answers : ts ≠ [] → s.Answers (fun p => ∃ t ∈ ts, s.HasPart t p) u

theorem IsUnionOf.grows {s s' : TypeStore} {ts : List TypeId} {u : TypeId} (hs : s.WellFormed)
    (h : s.IsUnionOf ts u) (hgrows : s.Grows s') : s'.IsUnionOf ts u := by
  refine ⟨fun t ht => hgrows.known (h.known t ht), h.nil, fun hne => ?_⟩
  refine ((h.answers hne).grows hgrows).of_iff fun p => ?_
  exact exists_congr fun t => and_congr_right fun ht => (hgrows.hasPart_iff hs (h.known t ht)).symm

theorem Good.isUnionOf {s : TypeStore} (h : s.Good) {ts : List TypeId} (hts : ∀ t ∈ ts, s.Known t) :
    (TypeStore.unionOf ts s).2.IsUnionOf ts (TypeStore.unionOf ts s).1 := by
  obtain ⟨-, hgrows, -⟩ := unionOf_sound h.wellFormed hts
  refine ⟨fun t ht => hgrows.known (hts t ht), ?_, fun hne => ?_⟩
  · rintro rfl
    rw [unionOf_nil]
  · grind [unionOf_answers, Grows.hasPart_iff, wellFormed]

theorem UnionLog.isUnionOf {s0 s : TypeStore} {log : List (List TypeId × TypeId)} (h0 : s0.Good)
    (h : UnionLog s0 s log) : s.Good ∧ ∀ ts u, (ts, u) ∈ log → s.IsUnionOf ts u := by
  induction h with
  | start => exact ⟨h0, by simp⟩
  | action a _ hvalid hoffers hkeeps ih =>
    grind [StoreAction.perform_sound, Good.wellFormed, Good.grows, IsUnionOf.grows]
  | unionOf ts _ hts ih =>
    grind [unionOf_sound, Good.wellFormed, Good.grows, IsUnionOf.grows, Good.isUnionOf]

section Laws

variable {s : TypeStore} {ts ts' : List TypeId} {u u' : TypeId}

theorem IsUnionOf.unique (h : s.IsUnionOf ts u) (h' : s.IsUnionOf ts' u') (hmem : ∀ t, t ∈ ts ↔ t ∈ ts') : u = u' := by
  by_cases hts : ts = []
  · subst hts
    have hts' : ts' = [] := List.eq_nil_iff_forall_not_mem.2 fun t ht => List.not_mem_nil ((hmem t).2 ht)
    rw [h.nil rfl, h'.nil hts']
  · have hts' : ts' ≠ [] := by
      obtain ⟨t, ht⟩ := List.exists_mem_of_ne_nil ts hts
      exact List.ne_nil_of_mem ((hmem t).1 ht)
    have hanswer := (h'.answers hts').of_iff fun p => exists_congr fun t => and_congr_left' (hmem t).symm
    exact (h.answers hts).unique (.refl (h.answers hts).typeOf?) hanswer

theorem IsUnionOf.replace (hs : s.Good) {sub rest : List TypeId} {q : TypeId}
    (hq : s.IsUnionOf sub q) (hsub : sub ≠ []) (h : s.IsUnionOf ts u) (h' : s.IsUnionOf ts' u')
    (hts : ∀ t, t ∈ ts ↔ t ∈ sub ∨ t ∈ rest) (hts' : ∀ t, t ∈ ts' ↔ t = q ∨ t ∈ rest) : u = u' := by
  have hne : ts ≠ [] := by
    obtain ⟨t, ht⟩ := List.exists_mem_of_ne_nil sub hsub
    exact List.ne_nil_of_mem ((hts t).2 (.inl ht))
  have hne' : ts' ≠ [] := List.ne_nil_of_mem ((hts' q).2 (.inl rfl))
  have hanswer := (h.answers hne).of_iff (Q := fun p => (∃ t ∈ sub, s.HasPart t p) ∨ ∃ t ∈ rest, s.HasPart t p) fun p => by
    simp only [hts, or_and_right, exists_or]
  have hanswer' := (h'.answers hne').of_iff (Q := fun p => s.HasPart q p ∨ ∃ t ∈ rest, s.HasPart t p) fun p => by
    simp_all
  obtain ⟨-, hsame⟩ := (hq.answers hsub).settled hs.wellFormed hs.slotsFollow fun p ⟨t, _, hp⟩ => hp.genuine
  exact hanswer.unique (hsame.or fun hnot p hp => hanswer.typeOf? hnot p (.inr hp)) hanswer'

theorem IsUnionOf.eq_unknown_iff (hs : s.Good) (h : s.IsUnionOf ts u) :
    u = .unknown ↔ ts = [] ∨ ∃ t ∈ ts, s.HasPart t .unknown := by
  by_cases hts : ts = []
  · exact iff_of_true (h.nil hts) (.inl hts)
  · rw [(h.answers hts).eq_unknown_iff hs.wellFormed hs.slotsFollow fun p ⟨t, _, hp⟩ => hp.genuine]
    exact (or_iff_right hts).symm

end Laws

/-- Unions in a store that has been reached with every added union offering candidates, in which
lazy types do not lead back to themselves and no slot has been redirected before its lazy type.
While nothing is resolved, types that are the same up to order and repetition have the same union,
some types may be replaced by their union, the union of two types is the union of the list of them
unless they are equal, and a union is unknown exactly if there are no types or one of them has an
unknown part. -/
theorem union_semilattice {s₀ s : TypeStore} {log : List (List TypeId × TypeId)}
    (hreached : Reached StoreAction.OffersCandidates s₀) (hacyclic : s₀.Acyclic)
    (hslots : s₀.SlotsFollow) (hlog : UnionLog s₀ s log) :
    (∀ ts u ts' u', (ts, u) ∈ log → (ts', u') ∈ log → (∀ t, t ∈ ts ↔ t ∈ ts') → u = u') ∧
    (∀ sub q (rest : List TypeId) ts u ts' u', (sub, q) ∈ log → (ts, u) ∈ log → (ts', u') ∈ log → sub ≠ [] →
      (∀ t, t ∈ ts ↔ t ∈ sub ∨ t ∈ rest) → (∀ t, t ∈ ts' ↔ t = q ∨ t ∈ rest) → u = u') ∧
    (∀ a b, union a b s = if a = b then (a, s) else unionOf [a, b] s) ∧
    (∀ ts u, (ts, u) ∈ log → (u = .unknown ↔ ts = [] ∨ ∃ t ∈ ts, s.HasPart t .unknown)) := by
  obtain ⟨hgood, hunions⟩ := hlog.isUnionOf ⟨hreached.wellFormed, hreached.noEmptyUnion, hacyclic, hslots⟩
  refine ⟨?_, ?_, ?_, ?_⟩
  · intro ts u ts' u' h h' hmem
    exact (hunions ts u h).unique (hunions ts' u' h') hmem
  · intro sub q rest ts u ts' u' hq h h' hsub hts hts'
    exact (hunions sub q hq).replace hgood hsub (hunions ts u h) (hunions ts' u' h') hts hts'
  · intro a b
    unfold TypeStore.union
    split <;> rfl
  · intro ts u h
    exact (hunions ts u h).eq_unknown_iff hgood

/-- A store with an instance of a class that was only looked up later, and with another class. -/
def lookedUpLate : TypeStore :=
  performAll {} [.alloc (.lazy "m.L" (.pending [])), .wrap ⟨1⟩, .instanceOf (.slot ⟨0⟩),
    .alloc (.ofClass ⟨"A", none, {}, [], false, .project⟩), .alloc (.ofClass ⟨"B", none, {}, [], false, .project⟩),
    .resolveLazy ⟨1⟩ ⟨3⟩]

/-- Joining the instance again, under the id that it had before the class was looked up, changes
nothing. -/
theorem union_semilattice_lookedUpLate :
    Reached StoreAction.OffersCandidates lookedUpLate ∧ lookedUpLate.Acyclic ∧ lookedUpLate.SlotsFollow ∧
      ∃ s log u u', UnionLog lookedUpLate s log ∧ ([⟨4⟩, ⟨2⟩], ⟨6⟩) ∈ log ∧
        ([⟨2⟩, ⟨4⟩, ⟨2⟩], u) ∈ log ∧ ([⟨6⟩, ⟨2⟩], u') ∈ log ∧ u = ⟨6⟩ ∧ u' = ⟨6⟩ := by
  have hreached : Reached StoreAction.OffersCandidates lookedUpLate :=
    Reached.new.performAll _ (by decide +kernel) (by simp [StoreAction.OffersCandidates])
  have hacyclic : lookedUpLate.Acyclic := acyclic_of_rank (fun t => if t = ⟨1⟩ then 1 else 0) (by decide +kernel)
  have hslots : lookedUpLate.SlotsFollow := by decide +kernel
  have hfirst : (unionOf [⟨4⟩, ⟨2⟩] lookedUpLate).1 = ⟨6⟩ := by decide +kernel
  have hlog₁ : UnionLog lookedUpLate _ _ := UnionLog.start.unionOf [⟨4⟩, ⟨2⟩] (by decide +kernel)
  have hknown₁ : ∀ t ∈ [⟨2⟩, ⟨4⟩, ⟨2⟩], (unionOf [⟨4⟩, ⟨2⟩] lookedUpLate).2.Known t := by decide +kernel
  have hknown₂ : ∀ t ∈ [⟨6⟩, ⟨2⟩], (unionOf [⟨4⟩, ⟨2⟩] lookedUpLate).2.Known t := by decide +kernel
  -- The kernel does not sort, so what is known after the second union comes from the growth of the
  -- store.
  obtain ⟨hgood, -⟩ := hlog₁.isUnionOf ⟨hreached.wellFormed, hreached.noEmptyUnion, hacyclic, hslots⟩
  obtain ⟨-, hgrows, -⟩ := unionOf_sound hgood.wellFormed hknown₁
  have hlog := (hlog₁.unionOf _ hknown₁).unionOf [⟨6⟩, ⟨2⟩] fun t ht => hgrows.known (hknown₂ t ht)
  rw [hfirst] at hlog
  obtain ⟨hsame, hreplaced, -⟩ := union_semilattice hreached hacyclic hslots hlog
  have hu := hsame [⟨4⟩, ⟨2⟩] ⟨6⟩ [⟨2⟩, ⟨4⟩, ⟨2⟩] _ (by simp) (by simp; rfl) (by simp [or_comm])
  have hu' := hreplaced [⟨4⟩, ⟨2⟩] ⟨6⟩ [⟨2⟩] [⟨4⟩, ⟨2⟩] ⟨6⟩ [⟨6⟩, ⟨2⟩] _ (by simp) (by simp)
    (by simp; rfl) (by simp) (by simp) (by simp)
  exact ⟨hreached, hacyclic, hslots, _, _, _, _, hlog, by simp, by simp, by simp, hu.symm, hu'.symm⟩

/-- A store in which a slot was redirected while its lazy type stayed pending, and another lazy type
was resolved to that one. -/
def redirectedEarly : TypeStore :=
  performAll {} [.alloc (.lazy "m.L" (.pending [])), .wrap ⟨1⟩, .instanceOf (.slot ⟨0⟩),
    .alloc (.ofClass ⟨"B", none, {}, [], false, .project⟩), .resolveSlot ⟨0⟩ ⟨3⟩, .alloc (.lazy "m.M" (.pending [])),
    .wrap ⟨4⟩, .instanceOf (.slot ⟨1⟩), .resolveLazy ⟨4⟩ ⟨1⟩]

/-- Slots have to follow their lazy types: otherwise the union of a type may not be its own
union. -/
theorem union_of_union_redirectedEarly :
    Reached StoreAction.OffersCandidates redirectedEarly ∧ redirectedEarly.Acyclic ∧
      ∃ s log, UnionLog redirectedEarly s log ∧ ([⟨5⟩], ⟨2⟩) ∈ log ∧ ([⟨2⟩], ⟨6⟩) ∈ log := by
  have hlog : UnionLog redirectedEarly _ _ :=
    (UnionLog.start.unionOf [⟨5⟩] (by decide +kernel)).unionOf [⟨2⟩] (by decide +kernel)
  refine ⟨Reached.new.performAll _ (by decide +kernel) (by simp [StoreAction.OffersCandidates]),
    acyclic_of_rank (fun t => if t = ⟨4⟩ then 1 else 0) (by decide +kernel), _, _, hlog, ?_, ?_⟩
  · have hfirst : (unionOf [⟨5⟩] redirectedEarly).1 = ⟨2⟩ := by decide +kernel
    simp [hfirst]
  · have hsecond : (unionOf [⟨2⟩] (unionOf [⟨5⟩] redirectedEarly).2).1 = ⟨6⟩ := by decide +kernel
    simp [hsecond]

end PythonTypes.TypeStore
