import Mathlib.Data.Set.Card
import PythonTypes.Proofs.Types.Action

/-!
# What a type stands for

A type stands for one or several parts (`HasPart`): an unknown type, a type that is neither a union
nor resolved to another one, or the instance of a class. Which parts it has only depends on the
types and slots of the store, and is the same after the store has grown. Which type a part is, is
left to the tables of instances.

In a store where lazy types do not lead back to themselves, the way from a type to its parts is
shorter than the store has types (`heightLe_size`). If only chains of lazy types come to an end
(`ChainsEnd`), it may lead round in circles, but a lazy type can still be followed to where its
chain ends.
-/

set_option autoImplicit false

namespace PythonTypes

/-- What a type may stand for. -/
inductive Part where
  | unknown
  /-- The type with this id. -/
  | type (t : TypeId)
  /-- The instance of a class. -/
  | instanceOf (cls : TypeId)
  /-- The instance of a class that is not looked up yet. -/
  | pendingInstanceOf (lazy : TypeId)

/-- Whether classes of this form have one instance type of their own. -/
def TypeForm.IsInstantiable : TypeForm → Prop
  | .unknown => False
  | .unresolvedImport _ => False
  | .union _ => False
  | .lazy _ _ => False
  | _ => True

namespace TypeStore

variable {K : TypeId → Prop} {s s' : TypeStore} {t u : TypeId}

/-- No lazy type is resolved to a type that leads back to it. -/
def Acyclic (s : TypeStore) : Prop := ∀ l t, s.lazyTarget? l = some t → ¬ Relation.ReflTransGen s.Unfolds t l

/-- No slot has been redirected while its lazy type is pending. -/
def SlotsFollow (s : TypeStore) : Prop := ∀ w, (s.slot w).isResolved = true → s.isPending (s.slot w).lazy = false

theorem slotsFollow_iff : s.SlotsFollow ↔
    ∀ i < s.slots.size, (s.slot ⟨i⟩).isResolved = true → s.isPending (s.slot ⟨i⟩).lazy = false := by
  refine ⟨fun h i _ => h ⟨i⟩, fun h w hw => ?_⟩
  by_cases hknown : s.SlotKnown w
  · exact h w.index hknown hw
  · rw [slot_of_not_known hknown] at hw
    contradiction

instance (s : TypeStore) : Decidable s.SlotsFollow := decidable_of_iff _ slotsFollow_iff.symm

/-- At most `n` steps lead from a type to what it stands for. -/
def HeightLe (s : TypeStore) : Nat → TypeId → Prop
  | 0, t => ∀ u, ¬ s.Unfolds t u
  | n + 1, t => ∀ u, s.Unfolds t u → s.HeightLe n u

theorem HeightLe.mono {n m : Nat} (h : s.HeightLe n t) (hnm : n ≤ m) : s.HeightLe m t := by
  induction n generalizing m t with
  | zero =>
    cases m with
    | zero => exact h
    | succ m => exact fun u hu => absurd hu (h u)
  | succ n ih =>
    cases m with
    | zero => omega
    | succ m => exact fun u hu => ih (h u hu) (by omega)

theorem HeightLe.of_unfolds {n : Nat} (h : s.HeightLe n t) (hu : s.Unfolds t u) : ∃ m, n = m + 1 ∧ s.HeightLe m u := by
  cases n with
  | zero => exact absurd hu (h u)
  | succ m => exact ⟨m, rfl, h u hu⟩

/-- A way down that does not lead to earlier types passes a resolved lazy type. -/
theorem WellFormed.descends_or_resolved (h : s.WellFormed) (htu : Relation.TransGen s.Unfolds t u) :
    u.index < t.index ∨ ∃ l v, s.lazyTarget? l = some v ∧ Relation.ReflTransGen s.Unfolds t l ∧
      Relation.ReflTransGen s.Unfolds v u := by
  induction htu with
  | single hstep =>
    rcases hstep with hstep | ⟨cs, hcs, hmem⟩
    · exact .inr ⟨_, _, hstep, .refl, .refl⟩
    · exact .inl (h.candidates_descend _ cs hcs _ hmem)
  | tail hpath hstep ih =>
    rcases ih with hlt | ⟨l, v, hl, htl, hvu⟩
    · rcases hstep with hstep | ⟨cs, hcs, hmem⟩
      · grind
      · exact .inl (Nat.lt_trans (h.candidates_descend _ cs hcs _ hmem) hlt)
    · exact .inr ⟨l, v, hl, htl, hvu.tail hstep⟩

theorem Acyclic.not_transGen_self (h : s.Acyclic) (hs : s.WellFormed) (t : TypeId) : ¬ Relation.TransGen s.Unfolds t t := by
  intro hloop
  rcases hs.descends_or_resolved hloop with hlt | ⟨l, v, hl, htl, hvt⟩
  · exact Nat.lt_irrefl _ hlt
  · exact h l v hl (hvt.trans htl)

/-- A rank that falls on every way down shows that no way leads back. -/
theorem acyclic_of_rank (rank : TypeId → Nat)
    (h : ∀ i < s.size, ∀ u ∈ (s.lazyTarget? ⟨i⟩).toList ++ (s.candidates? ⟨i⟩).getD [], rank u < rank ⟨i⟩) : s.Acyclic := by
  have hstep : ∀ t u, s.Unfolds t u → rank u < rank t := by
    intro t u htu
    refine h t.index (known_of_unfolds htu) u (List.mem_append.2 ?_)
    rcases htu with hu | ⟨cs, hcs, hu⟩
    · exact .inl (by simp [hu])
    · exact .inr (by simp [hcs, hu])
  have hpath : ∀ t u, Relation.ReflTransGen s.Unfolds t u → rank u ≤ rank t := by
    intro t u htu
    induction htu with
    | refl => exact Nat.le_refl _
    | tail _ hlast ih => grind
  intro l t hl hback
  exact absurd (hpath t l hback) (Nat.not_le_of_lt (hstep l t (.inl hl)))

theorem finite_known (s : TypeStore) : { t | s.Known t }.Finite ∧ { t | s.Known t }.ncard ≤ s.size := by
  have hset : { t | s.Known t } = ↑((Finset.range s.size).image TypeId.mk) := by
    ext ⟨i⟩
    simp [Known]
  rw [hset]
  refine ⟨Finset.finite_toSet _, ?_⟩
  rw [Set.ncard_coe_finset]
  exact Finset.card_image_le.trans (Finset.card_range _).le

section Ahead

variable {R : TypeId → TypeId → Prop}

section

variable (hknown : ∀ t u, R t u → s.Known u)

include hknown

theorem ahead_known (t : TypeId) : { v | Relation.TransGen R t v } ⊆ { v | s.Known v } := by
  grind

theorem ncard_ahead_le (t : TypeId) : { v | Relation.TransGen R t v }.ncard ≤ s.size :=
  (Set.ncard_le_ncard (ahead_known hknown t) s.finite_known.1).trans s.finite_known.2

/-- Where no way leads back, every step leaves the type that it comes to behind. -/
theorem ncard_ahead_lt (hloop : ∀ t, ¬ Relation.TransGen R t t)
    (htu : R t u) : { v | Relation.TransGen R u v }.ncard < { v | Relation.TransGen R t v }.ncard := by
  refine Set.ncard_lt_ncard ⟨fun v huv => .head htu huv, fun hsub => ?_⟩ (s.finite_known.1.subset (ahead_known hknown t))
  exact hloop u (hsub (.single htu))

end

end Ahead

theorem Acyclic.heightLe_size (h : s.Acyclic) (hs : s.WellFormed) (t : TypeId) : s.HeightLe s.size t := by
  have hknown : ∀ t u, s.Unfolds t u → s.Known u := fun _ _ => hs.unfolds_known
  have hstep : ∀ t u, s.Unfolds t u → _ := fun _ _ => ncard_ahead_lt hknown (h.not_transGen_self hs)
  -- on the number of types below
  have hheight : ∀ n u, { v | Relation.TransGen s.Unfolds u v }.ncard ≤ n → s.HeightLe n u := by
    intro n
    induction n with
    | zero =>
      intro u hu v huv
      have hlt := hstep u v huv
      omega
    | succ n ih =>
      intro u hu v huv
      grind
  exact hheight _ t (ncard_ahead_le hknown t)

/-! ## Chains of lazy types -/

/-- Whether a lazy type is resolved to a type. -/
def Links (s : TypeStore) (l t : TypeId) : Prop := s.lazyTarget? l = some t

/-- No lazy type is resolved to one that is resolved back to it, at once or through others. -/
def ChainsEnd (s : TypeStore) : Prop := ∀ t, ¬ Relation.TransGen s.Links t t

theorem links_le_unfolds (s : TypeStore) : s.Links ≤ s.Unfolds := fun _ _ hlink => .inl hlink

theorem Acyclic.chainsEnd (h : s.Acyclic) (hs : s.WellFormed) : s.ChainsEnd :=
  fun t hloop => h.not_transGen_self hs t (Relation.TransGen.mono s.links_le_unfolds t t hloop)

theorem ChainsEnd.not_self (h : s.ChainsEnd) (ht : s.lazyTarget? t = some u) : u ≠ t := by
  rintro rfl
  exact h u (.single ht)

/-- The bound on the links that are followed is never met, also where more would be followed. -/
theorem ChainsEnd.derefWithin (h : s.ChainsEnd) (hs : s.WellFormed) (t : TypeId) {fuel : Nat} (hfuel : s.size ≤ fuel) :
    s.derefWithin fuel t = s.derefLazy t ∧ s.lazyTarget? (s.derefWithin fuel t) = none := by
  have hknown : ∀ t u, s.Links t u → s.Known u := hs.target_known
  -- with as many links to follow as there are types ahead, there is an end, which more links do not
  -- change
  have hend : ∀ n m t, { v | Relation.TransGen s.Links t v }.ncard ≤ n → n ≤ m →
      s.derefWithin m t = s.derefWithin n t ∧ s.lazyTarget? (s.derefWithin n t) = none := by
    intro n
    induction n with
    | zero =>
      intro m t hn _
      have hnone : s.lazyTarget? t = none := by
        refine Option.eq_none_iff_forall_not_mem.2 fun u hu => ?_
        have hlt := ncard_ahead_lt hknown h hu
        omega
      refine ⟨?_, hnone⟩
      cases m with
      | zero => rfl
      | succ m => simp [TypeStore.derefWithin, hnone]
    | succ n ih =>
      intro m t hn hnm
      obtain ⟨k, rfl⟩ : ∃ k, m = k + 1 := ⟨m - 1, by omega⟩
      unfold TypeStore.derefWithin
      cases htarget : s.lazyTarget? t with
      | none => exact ⟨rfl, htarget⟩
      | some u =>
        have hlt := ncard_ahead_lt hknown h htarget
        grind
  obtain ⟨hsame, hnone⟩ := hend s.size fuel t (ncard_ahead_le hknown t) hfuel
  exact ⟨hsame, hsame ▸ hnone⟩

theorem ChainsEnd.derefLazy_target (h : s.ChainsEnd) (hs : s.WellFormed) (t : TypeId) : s.lazyTarget? (s.derefLazy t) = none :=
  (h.derefWithin hs t (Nat.le_refl _)).2

/-! ## Parts -/

/-- Whether a type stands for nothing but itself. -/
def Atom (s : TypeStore) (t : TypeId) : Prop :=
  match s.shape t with
  | .ofModule _ => True
  | .ofClass _ => True
  | .ofFunction _ => True
  | .object (.direct _) => True
  | .object (.slot w) => (s.slot w).isResolved = false
  | .lazy _ (.pending _) => True
  | _ => False

/-- Whether the instances of a class, be it a union or lazy, include a part. -/
inductive InstancePart (s : TypeStore) : TypeId → Part → Prop
  | target {c t : TypeId} {p : Part} : s.lazyTarget? c = some t → InstancePart s t p → InstancePart s c p
  | candidate {c d : TypeId} {cs : List TypeId} {p : Part} :
      s.shape c = .union cs → d ∈ cs → InstancePart s d p → InstancePart s c p
  | unknown {c : TypeId} : (s.shape c).isUnknown = true → InstancePart s c .unknown
  | pending {c : TypeId} : s.isPending c = true → InstancePart s c (.pendingInstanceOf c)
  | known {c : TypeId} : (s.shape c).IsInstantiable → InstancePart s c (.instanceOf c)

/-- Whether a type stands for a part, alone or among others: lazy types stand for their targets,
unions for their candidates, and instances of a class that has been looked up for the instances of
what was found. -/
inductive HasPart (s : TypeStore) : TypeId → Part → Prop
  | target {t u : TypeId} {p : Part} : s.lazyTarget? t = some u → HasPart s u p → HasPart s t p
  | candidate {t c : TypeId} {cs : List TypeId} {p : Part} :
      s.candidates? t = some cs → c ∈ cs → HasPart s c p → HasPart s t p
  | unknown {t : TypeId} : (s.shape t).isUnknown = true → HasPart s t .unknown
  | instances {t : TypeId} {w : SlotId} {p : Part} : s.shape t = .object (.slot w) →
      (s.slot w).isResolved = true → InstancePart s (s.slot w).target p → HasPart s t p
  | atom {t : TypeId} : s.Atom t → HasPart s t (.type t)

section Inversion

variable {p : Part}

theorem hasPart_iff : s.HasPart t p ↔
    match s.shape t with
    | .unknown => p = .unknown
    | .unresolvedImport _ => p = .unknown
    | .union cs => ∃ c ∈ cs, s.HasPart c p
    | .lazyUnion cs => ∃ c ∈ cs, s.HasPart c p
    | .lazy _ (.resolved u) => s.HasPart u p
    | .object (.slot w) => if (s.slot w).isResolved then s.InstancePart (s.slot w).target p else p = .type t
    | _ => p = .type t := by
  constructor
  · intro hp
    cases hp with
    | target hu hp =>
      grind [lazyTarget?_eq_some_iff]
    | candidate hcs hc hp =>
      grind [candidates?_eq_some_iff]
    | unknown hunknown => cases hshape : s.shape t <;> simp_all [TypeForm.isUnknown]
    | instances hslot hw hp =>
      rw [hslot]
      simpa [hw] using hp
    | atom hatom =>
      grind [Atom]
  · cases hshape : s.shape t with
    | unknown | unresolvedImport _ =>
      rintro rfl
      exact .unknown (by rw [hshape]; rfl)
    | union cs => exact fun ⟨c, hc, hp⟩ => .candidate (candidates?_eq_some_iff.2 (.inl hshape)) hc hp
    | lazyUnion cs => exact fun ⟨c, hc, hp⟩ => .candidate (candidates?_eq_some_iff.2 (.inr hshape)) hc hp
    | lazy path state =>
      cases state with
      | resolved u => exact .target (lazyTarget?_eq_some_iff.2 ⟨path, hshape⟩)
      | pending ws =>
        rintro rfl
        exact .atom (by rw [Atom, hshape]; trivial)
    | object cls =>
      cases cls with
      | direct c =>
        rintro rfl
        exact .atom (by rw [Atom, hshape]; trivial)
      | slot w =>
        dsimp only
        split
        · rename_i hw
          exact .instances hshape hw
        · rename_i hw
          rintro rfl
          exact .atom (by rw [Atom, hshape]; simpa using hw)
    | _ =>
      rintro rfl
      exact .atom (by rw [Atom, hshape]; trivial)

theorem instancePart_iff : s.InstancePart t p ↔
    match s.shape t with
    | .unknown => p = .unknown
    | .unresolvedImport _ => p = .unknown
    | .union cs => ∃ c ∈ cs, s.InstancePart c p
    | .lazy _ (.resolved u) => s.InstancePart u p
    | .lazy _ (.pending _) => p = .pendingInstanceOf t
    | _ => p = .instanceOf t := by
  constructor
  · intro hp
    cases hp with
    | target hu hp =>
      grind [lazyTarget?_eq_some_iff]
    | candidate hcs hc hp =>
      rw [hcs]
      exact ⟨_, hc, hp⟩
    | unknown hunknown => cases hshape : s.shape t <;> simp_all [TypeForm.isUnknown]
    | pending hpending =>
      grind [isPending_iff]
    | known hknown => cases hshape : s.shape t <;> simp_all [TypeForm.IsInstantiable]
  · cases hshape : s.shape t with
    | unknown | unresolvedImport _ =>
      rintro rfl
      exact .unknown (by rw [hshape]; rfl)
    | union cs => exact fun ⟨c, hc, hp⟩ => .candidate hshape hc hp
    | lazy path state =>
      cases state with
      | resolved u => exact .target (lazyTarget?_eq_some_iff.2 ⟨path, hshape⟩)
      | pending ws =>
        rintro rfl
        exact .pending (isPending_of_shape hshape)
    | _ =>
      rintro rfl
      exact .known (by rw [hshape]; trivial)

theorem hasPart_of_target (h : s.lazyTarget? t = some u) : s.HasPart t p ↔ s.HasPart u p := by
  grind [lazyTarget?_eq_some_iff, hasPart_iff]

theorem instancePart_of_target (h : s.lazyTarget? t = some u) : s.InstancePart t p ↔ s.InstancePart u p := by
  grind [lazyTarget?_eq_some_iff, instancePart_iff]

theorem hasPart_of_candidates {cs : List TypeId} (h : s.candidates? t = some cs) :
    s.HasPart t p ↔ ∃ c ∈ cs, s.HasPart c p := by
  grind [candidates?_eq_some_iff, hasPart_iff]

theorem hasPart_of_atom (h : s.Atom t) : s.HasPart t p ↔ p = .type t := by
  grind [Atom, hasPart_iff]

end Inversion

theorem Atom.known (h : s.Atom t) : s.Known t := by
  grind [known_of_shape, eq_1]

/-! ## Growth -/

/-- Two stores hold the same for the types in question and for the types that those lead to. -/
structure Agrees (K : TypeId → Prop) (s s' : TypeStore) : Prop where
  shape_eq : ∀ t, K t → s'.shape t = s.shape t
  unfolds : ∀ t u, K t → s.Unfolds t u → K u
  slot_eq : ∀ t w, K t → s.shape t = .object (.slot w) → s'.slot w = s.slot w ∧ K (s.slot w).target

theorem Agrees.symm (h : Agrees K s s') : Agrees K s' s where
  shape_eq t ht := (h.shape_eq t ht).symm
  unfolds t u ht htu := h.unfolds t u ht ((unfolds_congr (h.shape_eq t ht)).1 htu)
  slot_eq t w ht hw := by
    obtain ⟨hslot, htarget⟩ := h.slot_eq t w ht ((h.shape_eq t ht).symm.trans hw)
    exact ⟨hslot.symm, hslot.symm ▸ htarget⟩

theorem Agrees.atom (h : Agrees K s s') (ht : K t) (hatom : s.Atom t) : s'.Atom t := by
  unfold Atom at hatom ⊢
  grind [shape_eq, slot_eq]

theorem Agrees.instancePart (h : Agrees K s s') {p : Part} (ht : K t) (hp : s.InstancePart t p) : s'.InstancePart t p := by
  induction hp with
  | target hu _ ih => exact .target (lazyTarget?_congr (h.shape_eq _ ht) ▸ hu) (ih (h.unfolds _ _ ht (.inl hu)))
  | candidate hcs hc _ ih =>
    have hcandidates := candidates?_eq_some_iff.2 (.inl hcs)
    exact .candidate ((h.shape_eq _ ht).trans hcs) hc (ih (h.unfolds _ _ ht (.inr ⟨_, hcandidates, hc⟩)))
  | unknown hunknown => exact .unknown ((h.shape_eq _ ht).symm ▸ hunknown)
  | pending hpending => exact .pending ((isPending_congr (h.shape_eq _ ht)).trans hpending)
  | known hknown => exact .known ((h.shape_eq _ ht).symm ▸ hknown)

theorem Agrees.hasPart (h : Agrees K s s') {p : Part} (ht : K t) (hp : s.HasPart t p) : s'.HasPart t p := by
  induction hp with
  | target hu _ ih => exact .target (lazyTarget?_congr (h.shape_eq _ ht) ▸ hu) (ih (h.unfolds _ _ ht (.inl hu)))
  | candidate hcs hc _ ih =>
    exact .candidate (candidates?_congr (h.shape_eq _ ht) ▸ hcs) hc (ih (h.unfolds _ _ ht (.inr ⟨_, hcs, hc⟩)))
  | unknown hunknown => exact .unknown ((h.shape_eq _ ht).symm ▸ hunknown)
  | instances hslot hw hp =>
    obtain ⟨hsame, htarget⟩ := h.slot_eq _ _ ht hslot
    refine .instances ((h.shape_eq _ ht).trans hslot) (hsame.symm ▸ hw) ?_
    rw [hsame]
    exact h.instancePart htarget hp
  | atom hatom => exact .atom (h.atom ht hatom)

section Growth

variable {p : Part}

section

variable (h : s.Grows s') (hs : s.WellFormed)

include h hs

theorem Grows.agrees : Agrees s.Known s s' where
  shape_eq := h.shape_eq
  unfolds _ _ _ htu := hs.unfolds_known htu
  slot_eq t w _ hw := ⟨h.slot_eq w (hs.object_known t w hw), (hs.slot_known w).2⟩

theorem Grows.atom_iff (ht : s.Known t) : s'.Atom t ↔ s.Atom t :=
  ⟨(h.agrees hs).symm.atom ht, (h.agrees hs).atom ht⟩

theorem Grows.hasPart_iff (ht : s.Known t) : s'.HasPart t p ↔ s.HasPart t p :=
  ⟨(h.agrees hs).symm.hasPart ht, (h.agrees hs).hasPart ht⟩

end

end Growth

theorem Grows.known_of_path (h : s.Grows s') (hs : s.WellFormed) (ht : s.Known t)
    (hpath : Relation.ReflTransGen s'.Unfolds t u) : s.Known u ∧ Relation.ReflTransGen s.Unfolds t u := by
  induction hpath with
  | refl => exact ⟨ht, .refl⟩
  | tail _ hstep ih =>
    grind [unfolds_congr, shape_eq, WellFormed.unfolds_known]

theorem Grows.known_of_loop (h : s.Grows s') (hs : s.WellFormed) (hloop : Relation.TransGen s'.Unfolds t t) : s.Known t := by
  by_contra hknown
  have hle : ∀ x, Relation.ReflTransGen s'.Unfolds x t → t.index ≤ x.index := by
    intro x hx
    induction hx using Relation.ReflTransGen.head_induction_on with
    | refl => exact Nat.le_refl _
    | head hstep hpath ih =>
      have hfresh : ¬ s.Known _ := fun hx => hknown (h.known_of_path hs hx (.head hstep hpath)).1
      exact Nat.le_trans ih (Nat.le_of_lt (h.fresh_descends _ _ hfresh hstep))
  obtain ⟨x, hstep, hpath⟩ := Relation.TransGen.head'_iff.1 hloop
  exact absurd (hle x hpath) (Nat.not_le_of_lt (h.fresh_descends t x hknown hstep))

theorem Acyclic.grows (h : s.Acyclic) (hs : s.WellFormed) (hgrows : s.Grows s') : s'.Acyclic := by
  intro l t hl hpath
  have hknown : s.Known l := hgrows.known_of_loop hs (.head' (.inl hl) hpath)
  rw [lazyTarget?_congr (hgrows.shape_eq l hknown)] at hl
  exact h l t hl (hgrows.known_of_path hs (hs.target_known l t hl) hpath).2

theorem ChainsEnd.grows (h : s.ChainsEnd) (hs : s.WellFormed) (hgrows : s.Grows s') : s'.ChainsEnd := by
  intro t hloop
  have hknown : s.Known t := hgrows.known_of_loop hs (Relation.TransGen.mono s'.links_le_unfolds t t hloop)
  have hback : ∀ u, Relation.TransGen s'.Links t u → s.Known u ∧ Relation.TransGen s.Links t u := by
    intro u hpath
    induction hpath with
    | single hstep =>
      have hstep : s.Links t _ := (lazyTarget?_congr (hgrows.shape_eq t hknown)).symm.trans hstep
      exact ⟨hs.target_known _ _ hstep, .single hstep⟩
    | @tail v _ _ hstep ih =>
      have hstep : s.Links v _ := (lazyTarget?_congr (hgrows.shape_eq v ih.1)).symm.trans hstep
      exact ⟨hs.target_known _ _ hstep, ih.2.tail hstep⟩
  exact h t (hback t hloop).2

theorem SlotsFollow.grows (h : s.SlotsFollow) (hs : s.WellFormed) (hgrows : s.Grows s') : s'.SlotsFollow := by
  intro w hw
  by_cases hknown : s.SlotKnown w
  · rw [hgrows.slot_eq w hknown] at hw ⊢
    rw [isPending_congr (hgrows.shape_eq _ (hs.slot_known w).1)]
    exact h w hw
  · grind [Grows.fresh_waits]

/-- A store in which lazy types can be followed, and types that can be followed all the way stand
for something. -/
structure Orderly (s : TypeStore) : Prop where
  wellFormed : s.WellFormed
  noEmptyUnion : s.NoEmptyUnion
  chainsEnd : s.ChainsEnd
  slotsFollow : s.SlotsFollow

/-- A store in which types can be followed to what they stand for. -/
structure Good (s : TypeStore) : Prop where
  wellFormed : s.WellFormed
  noEmptyUnion : s.NoEmptyUnion
  acyclic : s.Acyclic
  slotsFollow : s.SlotsFollow

theorem Good.orderly (h : s.Good) : s.Orderly :=
  ⟨h.wellFormed, h.noEmptyUnion, h.acyclic.chainsEnd h.wellFormed, h.slotsFollow⟩

theorem Orderly.grows (h : s.Orderly) (hgrows : s.Grows s') (hs' : s'.WellFormed) : s'.Orderly :=
  ⟨hs', h.noEmptyUnion.grows hgrows, h.chainsEnd.grows h.wellFormed hgrows, h.slotsFollow.grows h.wellFormed hgrows⟩

theorem Good.grows (h : s.Good) (hgrows : s.Grows s') (hs' : s'.WellFormed) : s'.Good :=
  ⟨hs', h.noEmptyUnion.grows hgrows, h.acyclic.grows h.wellFormed hgrows, h.slotsFollow.grows h.wellFormed hgrows⟩

/-- What following resolved lazy types leads to: a type that stands for the same and is not resolved
to another. -/
structure Derefs (s : TypeStore) (t d : TypeId) : Prop where
  known : s.Known d
  target_eq_none : s.lazyTarget? d = none
  heightLe : ∀ n, s.HeightLe n t → s.HeightLe n d
  hasPart_iff : ∀ p, s.HasPart t p ↔ s.HasPart d p
  instancePart_iff : ∀ p, s.InstancePart t p ↔ s.InstancePart d p

theorem ChainsEnd.derefs (h : s.ChainsEnd) (hs : s.WellFormed) (ht : s.Known t) : s.Derefs t (s.derefLazy t) := by
  have hend := h.derefLazy_target hs t
  unfold TypeStore.derefLazy at hend ⊢
  generalize s.size = fuel at hend ⊢
  induction fuel generalizing t with
  | zero => exact ⟨ht, hend, fun _ hn => hn, fun _ => .rfl, fun _ => .rfl⟩
  | succ fuel ih =>
    unfold TypeStore.derefWithin at hend ⊢
    cases htarget : s.lazyTarget? t with
    | none => exact ⟨ht, htarget, fun _ hn => hn, fun _ => .rfl, fun _ => .rfl⟩
    | some u =>
      simp only [htarget, if_neg (h.not_self htarget)] at hend ⊢
      obtain ⟨hknown, hnone, hheight, hparts, hinstances⟩ := ih (hs.target_known t u htarget) hend
      refine ⟨hknown, hnone, fun n hn => ?_, fun p => ?_, fun p => ?_⟩
      · obtain ⟨m, rfl, hm⟩ := hn.of_unfolds (.inl htarget)
        exact (hheight m hm).mono (Nat.le_succ m)
      · rw [hasPart_of_target htarget, hparts]
      · rw [instancePart_of_target htarget, hinstances]

theorem Grows.derefLazy_eq (hgrows : s.Grows s') (hs : s.WellFormed) (h : s.ChainsEnd)
    (ht : s.Known t) : s'.derefLazy t = s.derefLazy t := by
  have hsame : ∀ fuel t, s.Known t → s'.derefWithin fuel t = s.derefWithin fuel t := by
    intro fuel
    induction fuel with
    | zero => exact fun _ _ => rfl
    | succ fuel ih =>
      intro t ht
      unfold TypeStore.derefWithin
      grind [lazyTarget?_congr, shape_eq, WellFormed.target_known]
  exact (hsame s'.size t ht).trans (h.derefWithin hs t hgrows.size_le).1

end TypeStore

end PythonTypes
