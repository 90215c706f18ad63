import Mathlib.Data.Finset.Card
import PythonTypes.Proofs.Table.History

/-!
# Texts of types that end

The text of a type contains the texts of other types (`Shows`), so it has no end if it leads back to
a type whose text it is part of. There is no other reason (`describe_isSome_iff`): on a way that is
longer than there are types, some type occurs twice. In the types of a table, lazy types and unions
never lead back to themselves on their own, so there is always an instance on such a way: one that
is shown by its own class.
-/

set_option autoImplicit false

namespace PythonTypes

namespace TypeStore

variable {s : TypeStore} {t u x y : TypeId} {fuel : Nat}

/-- The types whose texts the text of a type contains. -/
def shown (s : TypeStore) (t : TypeId) : List TypeId :=
  match s.form t with
  | .object cls => if (s.refPath? cls).isSome && !s.isResolved cls then [] else [s.target cls]
  | .union candidates | .lazyUnion candidates => candidates
  | .lazy _ (.resolved target) => [target]
  | _ => []

/-- Whether the text of a type contains the text of another. -/
def Shows (s : TypeStore) (t u : TypeId) : Prop := u ∈ s.shown t

theorem mapM_isSome_iff {α β : Type} {f : α → Option β} (xs : List α) :
    (xs.mapM f).isSome = true ↔ ∀ x ∈ xs, (f x).isSome = true := by
  induction xs with
  | nil => simp
  | cons x rest ih =>
    rw [List.mapM_cons, List.forall_mem_cons, ← ih]
    cases f x <;> cases rest.mapM f <;> simp

theorem describeWithin_isSome_iff :
    (s.describeWithin (fuel + 1) t).isSome = true ↔ ∀ u, s.Shows t u → (s.describeWithin fuel u).isSome = true := by
  rw [describeWithin]
  unfold Shows shown
  cases s.form t with
  | object cls => cases hpath : s.refPath? cls <;> cases hresolved : s.isResolved cls <;> simp [hpath, hresolved]
  | union cs | lazyUnion cs => simp [mapM_isSome_iff]
  | lazy path state => cases state <;> simp
  | _ => simp

theorem Shows.known (h : s.Shows t u) : s.Known t := by
  refine known_of_shape fun hshape => ?_
  have hform : s.form t = .unknown := form_of_shape (by simp) hshape
  simp [Shows, shown, hform] at h

open Relation

/-- Whether a type shows, directly or not, a type that shows itself. -/
def Endless (s : TypeStore) (x : TypeId) : Prop := ∃ y, ReflTransGen s.Shows x y ∧ TransGen s.Shows y y

theorem Endless.step (h : s.Endless x) : ∃ u, s.Shows x u ∧ s.Endless u := by
  obtain ⟨y, hxy, hy⟩ := h
  rcases ReflTransGen.cases_head hxy with rfl | ⟨u, hu, huy⟩
  · obtain ⟨u, hu, huy⟩ := TransGen.head'_iff.1 hy
    exact ⟨u, hu, x, huy, hy⟩
  · exact ⟨u, hu, y, huy, hy⟩

theorem Endless.describeWithin (h : s.Endless x) (fuel : Nat) : s.describeWithin fuel x = none := by
  induction fuel generalizing x with
  | zero => rfl
  | succ fuel ih =>
    obtain ⟨u, hu, hendless⟩ := h.step
    rw [← Option.not_isSome_iff_eq_none, describeWithin_isSome_iff]
    exact fun hall => by simpa [ih hendless] using hall u hu

/-- Where the text of a type does not end within some depth, types show each other that deep. -/
theorem exists_path (h : s.describeWithin fuel x = none) :
    ∃ f : Nat → TypeId, f 0 = x ∧ ∀ i < fuel, s.Shows (f i) (f (i + 1)) := by
  induction fuel generalizing x with
  | zero => exact ⟨fun _ => x, rfl, fun i hi => absurd hi (Nat.not_lt_zero i)⟩
  | succ fuel ih =>
    rw [← Option.not_isSome_iff_eq_none, describeWithin_isSome_iff] at h
    obtain ⟨u, hu, hnone⟩ : ∃ u, s.Shows x u ∧ ¬ (s.describeWithin fuel u).isSome = true := by simpa using h
    obtain ⟨f, rfl, hf⟩ := ih (by simpa using hnone)
    refine ⟨fun i => i.casesOn x f, rfl, fun i hi => ?_⟩
    cases i with
    | zero => exact hu
    | succ i => exact hf i (Nat.lt_of_succ_lt_succ hi)

/-- The text of a type ends exactly if the type shows none that shows itself. -/
theorem describe_isSome_iff : (s.describe x).isSome = true ↔ ¬ s.Endless x := by
  refine ⟨fun h hendless => by simp [describe, hendless.describeWithin] at h, fun hnot => ?_⟩
  by_contra hnone
  obtain ⟨f, rfl, hf⟩ := exists_path (Option.not_isSome_iff_eq_none.1 hnone)
  have hreach : ∀ i j, i ≤ j → j ≤ s.size + 1 → ReflTransGen s.Shows (f i) (f j) := by
    intro i j hij
    induction j, hij using Nat.le_induction with
    | base => exact fun _ => .refl
    | succ j hij ih => exact fun hj => (ih (Nat.le_of_succ_le hj)).tail (hf j hj)
  obtain ⟨i, hi, j, hj, hne, heq⟩ := Finset.exists_ne_map_eq_of_card_lt_of_maps_to (s := Finset.range (s.size + 1))
    (t := Finset.range s.size) (by simp) (f := fun i => (f i).index)
    (fun i hi => Finset.mem_coe.2 (Finset.mem_range.2 (hf i (Finset.mem_range.1 hi)).known))
  have hcycle : ∀ i j, i < j → j < s.size + 1 → f i ≠ f j := fun i j hij hj heq => by
    refine hnot ⟨f i, hreach 0 i (Nat.zero_le i) (by omega), .head' (hf i (by omega)) ?_⟩
    rw [heq]
    exact hreach (i + 1) j hij (by omega)
  have hsame : f i = f j := congrArg TypeId.mk heq
  rcases Nat.lt_or_gt_of_ne hne with hij | hji
  · exact hcycle i j hij (Finset.mem_range.1 hj) hsame
  · exact hcycle j i hji (Finset.mem_range.1 hi) hsame.symm

theorem Shows.unfolds (h : s.Shows t u) (ht : ∀ cls, s.form t ≠ .object cls) : s.Unfolds t u := by
  unfold Shows shown at h
  cases hform : s.form t with
  | object cls => exact absurd hform (ht cls)
  | union cs | lazyUnion cs =>
    rw [hform] at h
    exact .inr ⟨cs, by rw [candidates?, hform], h⟩
  | lazy path state =>
    rw [hform] at h
    cases state with
    | pending ws => cases h
    | resolved target =>
      obtain rfl := List.mem_singleton.1 h
      exact .inl (by rw [lazyTarget?, hform])
  | _ =>
    rw [hform] at h
    cases h

/-- Types get simpler on every way on which there is no instance. -/
theorem Tidy.level_lt_or_instance (h : s.Tidy) (hxy : TransGen s.Shows x y) : (s.shape y).level < (s.shape x).level ∨
    ∃ o cls k, ReflTransGen s.Shows x o ∧ s.form o = .object cls ∧ s.Shows o k ∧ ReflTransGen s.Shows k y := by
  have hstep : ∀ {b c}, s.Shows b c → (s.shape c).level < (s.shape b).level ∨ ∃ cls, s.form b = .object cls := by
    intro b c hbc
    by_cases hb : ∃ cls, s.form b = .object cls
    · exact .inr hb
    · exact .inl (h.level_lt (hbc.unfolds fun cls hcls => hb ⟨cls, hcls⟩))
  induction hxy with
  | single hbc => exact (hstep hbc).imp_right fun ⟨cls, hcls⟩ => ⟨x, cls, _, .refl, hcls, hbc, .refl⟩
  | tail hxb hbc ih =>
    rcases ih with hlt | ⟨o, cls, k, hxo, hcls, hok, hkb⟩
    · exact (hstep hbc).imp (fun hlt' => hlt'.trans hlt) fun ⟨cls, hcls⟩ => ⟨_, cls, _, hxb.to_reflTransGen, hcls, hbc, .refl⟩
    · exact .inr ⟨o, cls, k, hxo, hcls, hok, hkb.tail hbc⟩

theorem Tidy.endless_iff (h : s.Tidy) : s.Endless x ↔
    ∃ o cls k, ReflTransGen s.Shows x o ∧ s.form o = .object cls ∧ s.Shows o k ∧ ReflTransGen s.Shows k o := by
  constructor
  · rintro ⟨y, hxy, hyy⟩
    rcases h.level_lt_or_instance hyy with hlt | ⟨o, cls, k, hyo, hcls, hok, hky⟩
    · exact absurd hlt (Nat.lt_irrefl _)
    · exact ⟨o, cls, k, hxy.trans hyo, hcls, hok, hky.trans hyo⟩
  · rintro ⟨o, cls, k, hxo, -, hok, hko⟩
    exact ⟨o, hxo, .head' hok hko⟩

end TypeStore

namespace Table

open Relation TypeStore

/-- In whatever state a table is, the text of a type ends exactly if no instance that it shows is
shown by its own class. So the texts of all types end exactly if no type is part of its own text. -/
theorem describe_ends_iff (project : Project) (stubs : StubStore) (settings : Settings) (stubPackages : Bool)
    (as : List TableAction) (has : (create project stubs settings stubPackages).ValidAll as) :
    let s := ((create project stubs settings stubPackages).performAll as).store
    (∀ x, (s.describe x).isSome = true ↔
      ∀ o cls k, ReflTransGen s.Shows x o → s.form o = .object cls → s.Shows o k → ¬ ReflTransGen s.Shows k o) ∧
    ((∀ x, (s.describe x).isSome = true) ↔ ∀ x, ¬ TransGen s.Shows x x) := by
  intro s
  have hs : s.Tidy := ((atRest_create project stubs settings stubPackages).performAll has).store
  refine ⟨fun x => ?_, ?_⟩
  · rw [describe_isSome_iff, hs.endless_iff]
    exact ⟨fun hnot o cls k hxo hcls hok hko => hnot ⟨o, cls, k, hxo, hcls, hok, hko⟩,
      fun hall ⟨o, cls, k, hxo, hcls, hok, hko⟩ => hall o cls k hxo hcls hok hko⟩
  · simp only [describe_isSome_iff]
    exact ⟨fun hall x hx => hall x ⟨x, .refl, hx⟩, fun hall x ⟨y, _, hy⟩ => hall y hy⟩

/-- A variable that is annotated with itself. -/
def selfAnnotated : Project :=
  Project.addModule {}
    (ModuleDescriptor.addMember (.ofPath "m") (.ofVariable { name := "x", hint := "m.x" }))

/-- As long as the annotation has not been looked up, the variable is an instance of something
else. -/
theorem describe_ends_selfAnnotated :
    let s := ((create selfAnnotated {} {}).performAll [.getType "m"]).store
    s.describe ⟨3⟩ = some "instance of Lazy(m.x)" ∧
      ∀ o cls k, ReflTransGen s.Shows ⟨3⟩ o → s.form o = .object cls → s.Shows o k → ¬ ReflTransGen s.Shows k o :=
  ⟨by decide +kernel,
    ((describe_ends_iff selfAnnotated {} {} true [.getType "m"] (by decide +kernel)).1 ⟨3⟩).1
    (by decide +kernel)⟩

/-- Once it has been looked up, the variable is an instance of itself, and there is no end to its
text. -/
theorem describe_endless_selfAnnotated :
    (create selfAnnotated {} {}).ValidAll [.getType "m.x", .resolved ⟨3⟩] ∧
      ∀ fuel,
        ((create selfAnnotated {} {}).performAll [.getType "m.x",
        .resolved ⟨3⟩]).store.describeWithin fuel ⟨3⟩ = none := by
  have hself :
    ⟨3⟩ ∈ ((create selfAnnotated {} {}).performAll [.getType "m.x", .resolved ⟨3⟩]).store.shown
    ⟨3⟩ := by decide +kernel
  exact ⟨by decide +kernel, fun fuel => Endless.describeWithin ⟨⟨3⟩, .refl, .single hself⟩ fuel⟩

-- a query that has to log such a type has no answer
example :
    let p :=
      (selfAnnotated.addModule (ModuleDescriptor.addMember (.ofPath "n")
      (.ofVariable { name := "y", path := "m.x" }))).addModule
      (ModuleDescriptor.addMember (.ofPath "k") (.ofVariable { name := "z", path := "n.y" }))
    let t := (create p {} {}).performAll [.getType "m.x", .resolved ⟨3⟩]
    (Query.getType "k.z" t).isSome = true ∧ (Query.getType "k.z" { t with traced := true }).isNone = true := by
  decide +kernel

end Table

end PythonTypes
