import PythonTypes.Proofs.Table.Progress

/-!
# How deep look-ups go

Looking things up goes deeper for three reasons, and each wears out. A lazy type is resolved inside
the look-up of a path that was not looked up before, of which there are at most as many as
`Table.paths`. In between, each base of a class leads to a class that was not visited before, of
which there are at most `Table.capacity`. And from a type to the candidates of what it resolves to,
the grade goes down (`TypeForm.grade`). A budget bounds the first two, and a look-up affords what it
costs (`Affords`) if the depth that is left is enough for it. The depth with which queries start
always is (`affords_depthBound`).
-/

set_option autoImplicit false

namespace PythonTypes

namespace TypeForm

variable {f : TypeForm}

/-- How many steps it takes until a type is plain, and one more for an instance that waits for its
class. -/
def rank : TypeForm → Nat
  | lazyUnion _ => 5
  | lazy _ _ => 3
  | _ => 2

/-- How often a type may turn out to be a union: an instance that waits for its class may be one,
and whatever is no single plain type may be a union of such instances. -/
def grade : TypeForm → Nat
  | object (.slot _) => 1
  | union _ => 2
  | lazyUnion _ => 2
  | lazy _ _ => 2
  | _ => 0

theorem rank_le (f : TypeForm) : f.rank ≤ 5 := by cases f <;> simp [rank]

theorem rank_of_isSingle (h : f.isSingle = true) : f.rank ≤ 3 := by
  cases f <;> simp_all [rank, isSingle]

theorem rank_of_isPlain (h : f.isPlain = true) : f.rank = 2 := by
  cases f <;> simp_all [rank, isPlain]

theorem grade_le (f : TypeForm) : f.grade ≤ 2 := by
  cases f with
  | object cls => cases cls <;> simp [grade]
  | _ => simp [grade]

theorem grade_of_isSingle (hsingle : f.isSingle = true) (hplain : f.isPlain = true) : f.grade ≤ 1 := by
  cases f with
  | object cls => cases cls <;> simp [grade]
  | _ => simp_all [grade, isSingle, isPlain]

theorem grade_outline (f : TypeForm) : f.outline.grade = f.grade := by
  cases f with
  | object cls => cases cls <;> rfl
  | _ => rfl

end TypeForm

namespace TypeStore

variable {s : TypeStore}

theorem Evolves.grade_eq {s' : TypeStore} (h : s.Evolves s') {t : TypeId} (ht : s.Known t) :
    (s'.shape t).grade = (s.shape t).grade := by
  grind [TypeForm.grade_outline, outline_eq]

/-- Whether the candidates of a type are of lower grade than `n`. -/
def SplitsBelow (s : TypeStore) (n : Nat) (u : TypeId) : Prop := ∀ cs, s.shape u = .union cs → ∀ c ∈ cs, (s.shape c).grade < n

theorem Tidy.splitsBelow (h : s.Tidy) (u : TypeId) : s.SplitsBelow 2 u := by
  intro cs hcs c hc
  have hcandidates : s.candidates? u = some cs := candidates?_eq_some_iff.2 (.inl hcs)
  exact Nat.lt_succ_of_le (TypeForm.grade_of_isSingle (h.single hcandidates hc) (h.plain hcs hc))

theorem Tidy.splitsBelow_self (h : s.Tidy) (u : TypeId) : s.SplitsBelow (s.shape u).grade u := by
  intro cs hcs
  rw [hcs]
  exact h.splitsBelow u cs hcs

theorem MadeOf.splitsBelow {u : TypeId} (h : s.MadeOf (·.isDirect = true) u) : s.SplitsBelow 1 u := by
  intro cs hcs c hc
  cases h with
  | unknown hu | single hu =>
    rw [hcs] at hu
    contradiction
  | union hu hall =>
    have hsame : TypeForm.union cs = _ := hcs.symm.trans hu
    cases hsame
    have hdirect := hall c hc
    cases hshape : s.shape c with
    | object cls =>
      rw [hshape] at hdirect
      cases cls with
      | direct d => exact Nat.one_pos
      | slot w => contradiction
    | _ =>
      rw [hshape] at hdirect
      contradiction

theorem Tidy.plain_target (h : s.Tidy) {l t : TypeId} (hl : s.lazyTarget? l = some t) : s.Plain (s.derefLazy t) := by
  have hplain := h.target_plain hl
  rw [derefLazy_of_no_target (lazyTarget?_of_isPlain hplain)]
  exact ⟨h.wellFormed.target_known l t hl, hplain⟩

end TypeStore

namespace Table

variable {t t' : Table} {mayStop : Prop} {depth : Nat}

/-- Number of classes among those visited. -/
def met (s : TypeStore) (visited : List TypeId) : Nat := (s.classes ∩ visited.toFinset).card

theorem met_le_of_subset {s s' : TypeStore} (h : s.Evolves s') {visited visited' : List TypeId}
    (hsub : visited ⊆ visited') : met s visited ≤ met s' visited' := by
  refine Finset.card_le_card fun t ht => ?_
  rw [Finset.mem_inter, TypeStore.mem_classes, List.mem_toFinset] at ht ⊢
  exact ⟨h.isClass ht.1, hsub ht.2⟩

/-- A class that is visited for the first time counts once more. -/
theorem met_cons {s : TypeStore} {cls : TypeId} (hcls : (s.form cls).isClass = true) {visited : List TypeId}
    (hnew : cls ∉ visited) : met s (cls :: visited) = met s visited + 1 := by
  unfold met
  simp_all [TypeStore.mem_classes]

/-- Bounds on what a table can still add, and on the number of paths that are not being looked
up. -/
structure Budget where
  paths : Finset String
  classes : Nat
  room : Nat

/-- What a table can still add is within a budget. -/
structure Bounded (t : Table) (b : Budget) : Prop where
  paths_subset : t.paths ⊆ b.paths
  capacity_le : t.capacity ≤ b.classes
  room_le : (b.paths \ t.space.registry.inProgress.toFinset).card ≤ b.room

theorem Bounded.met_le {b : Budget} (h : t.Bounded b) (visited : List TypeId) : met t.store visited ≤ b.classes := by
  have hclasses : met t.store visited ≤ t.store.classes.card := Finset.card_le_card Finset.inter_subset_left
  have hcapacity := h.capacity_le
  unfold capacity at hcapacity
  omega

/-- What looking things up keeps, and no more to add than before. -/
structure Passes (t t' : Table) : Prop extends t.Carries t', t.Bounds t'

theorem Passes.refl (t : Table) : t.Passes t := ⟨.refl t, .refl t⟩

theorem Passes.trans {t'' : Table} (h : t.Passes t') (h' : t'.Passes t'') : t.Passes t'' :=
  ⟨h.toCarries.trans h'.toCarries, h.toBounds.trans h'.toBounds⟩

/-- The depth that is left is enough for what a look-up costs and for those of the paths that there
is room for; or it may give up. -/
def Affords (mayStop : Prop) (t : Table) (cost : Budget → Nat) (depth : Nat) : Prop :=
  mayStop ∨ ∃ b, t.Bounded b ∧ b.room * (b.classes + 10) + cost b ≤ depth

namespace Affords

variable {cost cost' : Budget → Nat} {visited : List TypeId}

theorem le (h : t.Affords mayStop cost depth) (hcost : ∀ b, t.Bounded b → cost' b ≤ cost b) :
    t.Affords mayStop cost' depth := by
  grind [Affords]

theorem next (h : t.Affords mayStop cost (depth + 1))
    (hcost : ∀ b, t.Bounded b → cost' b < cost b) : t.Affords mayStop cost' depth := by
  grind [Affords]

theorem stop (h : t.Affords mayStop cost 0) (hcost : ∀ b, 0 < cost b) : mayStop := by
  grind [Affords]

theorem passes (h : t.Affords mayStop cost depth) (hpasses : t.Passes t') : t'.Affords mayStop cost depth := by
  refine h.imp_right fun ⟨b, hb, hdepth⟩ => ⟨b, ⟨hpasses.paths_subset.trans hb.paths_subset,
    Nat.le_trans hpasses.capacity_le hb.capacity_le, ?_⟩, hdepth⟩
  rw [hpasses.inProgress_eq]
  exact hb.room_le

theorem entered (h : t.Affords mayStop (fun _ => 0) depth) {path : String} (hpath : path ∈ t.paths)
    (hnew : path ∉ t.space.registry.inProgress) : (t.entered path).Affords mayStop (fun b => b.classes + 10) depth := by
  refine h.imp_right fun ⟨b, hb, hdepth⟩ => ⟨{ b with room := b.room - 1 }, ⟨hb.paths_subset, hb.capacity_le, ?_⟩, ?_⟩
  all_goals
    have hmem : path ∈ b.paths \ t.space.registry.inProgress.toFinset := by simp [hb.paths_subset hpath, hnew]
    have hroom := hb.room_le
  · have herase : b.paths \ (path :: t.space.registry.inProgress).toFinset =
        (b.paths \ t.space.registry.inProgress.toFinset).erase path := by
      ext p
      simp only [List.toFinset_cons, Finset.mem_sdiff, Finset.mem_insert, Finset.mem_erase, not_or]
      tauto
    show (b.paths \ (path :: t.space.registry.inProgress).toFinset).card ≤ b.room - 1
    grind
  · obtain ⟨k, hk⟩ : ∃ k, b.room = k + 1 := by
      refine Nat.exists_eq_add_one_of_ne_zero fun hzero => ?_
      grind
    grind [Nat.succ_mul]

theorem visit {cls : TypeId}
    (h : t.Affords mayStop (fun b => 6 + (b.classes - met t.store visited)) (depth + 1)) (hcls : (t.form cls).isClass = true)
    (hnew : cls ∉ visited) : t.Affords mayStop (fun b => 6 + (b.classes - met t.store (cls :: visited))) depth := by
  refine h.next fun b hb => ?_
  have hcons := met_cons hcls hnew
  have hle := hb.met_le (cls :: visited)
  omega

theorem more (h : t.Affords mayStop (fun b => 6 + (b.classes - met t.store visited)) depth)
    (hpasses : t.Passes t') {visited' : List TypeId} (hsub : visited ⊆ visited') :
    t'.Affords mayStop (fun b => 6 + (b.classes - met t'.store visited')) depth := by
  refine (h.passes hpasses).le fun b _ => ?_
  have hmet := met_le_of_subset hpasses.retains.toEvolves hsub
  omega

end Affords

/-- What a table can still add, and the paths that are not being looked up. -/
def budget (t : Table) : Budget := ⟨t.paths, t.capacity, (t.paths \ t.space.registry.inProgress.toFinset).card⟩

/-- The depth with which queries start is enough for all that the table can still add. -/
theorem affords_depthBound (t : Table) : t.Affords mayStop (fun b => b.classes + 10) t.depthBound := by
  refine .inr ⟨t.budget, ⟨Finset.Subset.refl _, Nat.le_refl _, Nat.le_refl _⟩, ?_⟩
  have hroom : t.budget.room ≤ t.weight := (Finset.card_le_card Finset.sdiff_subset).trans t.card_paths_le
  have hcapacity : t.budget.classes ≤ t.weight := t.capacity_le
  calc _ = (t.budget.room + 1) * (t.budget.classes + 10) := (Nat.succ_mul _ _).symm
    _ ≤ (t.weight + 1) * (t.weight + 10) := Nat.mul_le_mul (by omega) (by omega)
    _ ≤ (t.weight + 1) * (16 * (t.weight + 1)) := Nat.mul_le_mul_left _ (by omega)
    _ = t.depthBound := by
      grind [depthBound]

end Table

end PythonTypes
