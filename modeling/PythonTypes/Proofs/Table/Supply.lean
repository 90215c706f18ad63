import Mathlib.Algebra.Order.BigOperators.Group.Finset
import PythonTypes.Proofs.Descriptor.Conversion
import PythonTypes.Table.Lookup

/-!
# What a table can still add

Looking things up in a table adds to it, but not without end: lazy types only for paths that its
descriptors name (`Table.paths`), and classes only as long as there are modules to load
(`Table.capacity`). Both are at most the weight of the table, and neither grows as long as nothing
is registered.
-/

set_option autoImplicit false

namespace PythonTypes

/-! ## Sums over descriptors -/

namespace Descriptor

theorem classCountAll_eq (ds : List Descriptor) : classCountAll ds = (ds.map classCount).sum := by
  induction ds with
  | nil => rfl
  | cons d rest ih => rw [classCountAll, ih, List.map_cons, List.sum_cons]

theorem mem_pathsAll {path : String} {ds : List Descriptor} : path ∈ pathsAll ds ↔ ∃ d ∈ ds, path ∈ d.paths := by
  induction ds with
  | nil => simp [pathsAll]
  | cons d rest ih => simp [pathsAll, ih]

mutual

theorem length_paths_le : (d : Descriptor) → d.paths.length ≤ d.weight
  | .ofClass _ path bases members _ _ => by
    have hmembers := length_pathsAll_le members
    grind [paths, weight]
  | .ofFunction f => by
    have hpath : f.path.toList.length ≤ 1 := by cases f.path <;> simp
    have hreturns : f.returns.toList.length ≤ 1 := by cases f.returns <;> simp
    have hhints : (f.parameters.flatMap (·.hint.toList)).length ≤ f.parameters.length := by
      induction f.parameters with
      | nil => simp
      | cons p rest ih =>
        grind
    grind [paths, weight]
  | .ofVariable v => by
    grind [paths, weight]
  | .ambiguous _ path alternatives => by
    have halternatives := length_pathsAll_le alternatives
    grind [paths, weight]
  | .unknown _ path => by
    cases path <;> simp [paths, weight]

theorem length_pathsAll_le : (ds : List Descriptor) → (pathsAll ds).length ≤ weightAll ds
  | [] => Nat.le_refl _
  | d :: rest => by
    have hfirst := length_paths_le d
    have hrest := length_pathsAll_le rest
    grind [pathsAll, weightAll]

end

mutual

theorem classCount_le : (d : Descriptor) → d.classCount ≤ d.weight
  | .ofClass _ _ bases members _ _ => by
    have hmembers := classCountAll_le members
    simp only [classCount, weight]
    omega
  | .ambiguous _ _ alternatives => by
    have halternatives := classCountAll_le alternatives
    simp only [classCount, weight]
    omega
  | .ofFunction f => Nat.zero_le _
  | .ofVariable v => Nat.zero_le _
  | .unknown _ _ => Nat.zero_le _

theorem classCountAll_le : (ds : List Descriptor) → classCountAll ds ≤ weightAll ds
  | [] => Nat.le_refl _
  | d :: rest => by
    have hfirst := classCount_le d
    have hrest := classCountAll_le rest
    simp only [classCountAll, weightAll]
    omega

end

theorem classCountAll_alternatives (d : Descriptor) : classCountAll d.alternatives = d.classCount := by
  cases d <;> simp [alternatives, classCountAll, classCount]

theorem pathsAll_alternatives {d : Descriptor} {path : String} (h : path ∈ pathsAll d.alternatives) : path ∈ d.paths := by
  cases d <;> simp_all [alternatives, pathsAll, paths]

end Descriptor

namespace Entries

variable {α β : Type} [DecidableEq α] {k : α} {l : List (α × β)}

theorem swapErase_perm_cons {v : β} (h : find? k l = some v) : ((k, v) :: swapErase k l).Perm l := by
  induction l with
  | nil => contradiction
  | cons e rest ih =>
    obtain ⟨k', v'⟩ := e
    by_cases hk : k' = k
    · simp_all [find?, swapErase, rotateLast_perm]
    · have hrest : find? k rest = some v := by simpa [find?, hk] using h
      simp only [swapErase, hk, if_false]
      exact (List.Perm.swap _ _ _).trans ((ih hrest).cons _)

theorem put_of_absent (h : k ∉ l.map Prod.fst) (v : β) : put k v l = l ++ [(k, v)] := by
  induction l with
  | nil => rfl
  | cons e rest ih =>
    grind [put]

end Entries

namespace ModuleDescriptor

variable {m : ModuleDescriptor} {path : String}

/-- Adding a member to a module adds the classes that it describes. -/
theorem classCount_addMember (m : ModuleDescriptor) (d : Descriptor) :
    (m.addMember d).classCount = m.classCount + d.classCount := by
  unfold addMember classCount
  cases hget : m.members.get? d.name with
  | none =>
    have habsent : d.name ∉ m.members.entries.map Prod.fst := fun hmem =>
      absurd ((Entries.find?_isSome_iff _ _).2 hmem) (by simp [show Entries.find? d.name _ = none from hget])
    show Descriptor.classCountAll ((Entries.put d.name d m.members.entries).map Prod.snd) = _
    simp_all [OrderedMap.values, Entries.put_of_absent, Descriptor.classCountAll_eq]
  | some old =>
    have hperm := Entries.swapErase_perm_cons hget
    have habsent : d.name ∉ (Entries.swapErase d.name m.members.entries).map Prod.fst := by
      have hnodup := (hperm.map Prod.fst).nodup_iff.2 m.members.nodup
      exact (List.nodup_cons.1 hnodup).1
    have hmerged : (Descriptor.merge d.name old.path [old, d]).classCount = old.classCount + d.classCount := by
      unfold Descriptor.merge
      have happend : ∀ xs ys, Descriptor.classCountAll (xs ++ ys) =
          Descriptor.classCountAll xs + Descriptor.classCountAll ys := by
        intro xs ys
        simp [Descriptor.classCountAll_eq]
      simp [Descriptor.classCount, happend, Descriptor.classCountAll_alternatives]
    show Descriptor.classCountAll ((Entries.put d.name _ (Entries.swapErase d.name m.members.entries)).map Prod.snd) = _
    have hsum : (m.members.values.map Descriptor.classCount).sum =
        old.classCount + ((Entries.swapErase d.name m.members.entries).map fun e => e.2.classCount).sum := by
      have hsame := ((hperm.map fun e => e.2.classCount)).sum_eq
      simp only [List.map_cons, List.sum_cons] at hsame
      rw [hsame]
      simp [OrderedMap.values, Function.comp_def]
    rw [Entries.put_of_absent habsent, Descriptor.classCountAll_eq, Descriptor.classCountAll_eq, hsum]
    simp [hmerged, Function.comp_def]
    omega

theorem mem_paths_addMember {d : Descriptor} (h : path ∈ (m.addMember d).paths) : path ∈ m.paths ∨ path ∈ d.paths := by
  unfold addMember paths at h
  obtain ⟨d', hd', hpath⟩ := Descriptor.mem_pathsAll.1 h
  have hold : d' ∈ m.members.values → path ∈ m.paths := fun hd' => Descriptor.mem_pathsAll.2 ⟨d', hd', hpath⟩
  cases hget : m.members.get? d.name with
  | none =>
    grind [OrderedMap.mem_values_insert]
  | some old =>
    rw [hget] at hd'
    rcases OrderedMap.mem_values_insert hd' with rfl | hd'
    · unfold Descriptor.merge at hpath
      simp only [Descriptor.paths, List.mem_append, Option.mem_toList] at hpath
      have hown : path ∈ old.path → path ∈ old.paths := by
        intro hpath
        cases old <;> simp_all [Descriptor.path, Descriptor.paths]
      have holdPaths : path ∈ old.paths → path ∈ m.paths := fun hmem =>
        Descriptor.mem_pathsAll.2 ⟨old, OrderedMap.mem_values_iff.2 ⟨d.name, hget⟩, hmem⟩
      grind [Descriptor.mem_pathsAll, Descriptor.pathsAll_alternatives]
    · refine .inl (hold ?_)
      obtain ⟨e, he, rfl⟩ := List.mem_map.1 hd'
      exact List.mem_map.2 ⟨e, (Entries.swapErase_perm_cons hget).mem_iff.1 (List.mem_cons_of_mem _ he), rfl⟩

theorem classCount_addMembers (m : ModuleDescriptor) (ds : List Descriptor) :
    (m.addMembers ds).classCount = m.classCount + Descriptor.classCountAll ds := by
  unfold addMembers
  induction ds generalizing m with
  | nil => rfl
  | cons d rest ih =>
    rw [List.foldl_cons, ih, classCount_addMember, Descriptor.classCountAll]
    omega

theorem mem_paths_addMembers {ds : List Descriptor}
    (h : path ∈ (m.addMembers ds).paths) : path ∈ m.paths ∨ path ∈ Descriptor.pathsAll ds := by
  unfold addMembers at h
  induction ds generalizing m with
  | nil => exact .inl h
  | cons d rest ih =>
    grind [Descriptor.pathsAll, mem_paths_addMember]

end ModuleDescriptor

namespace StubStore

theorem lookup_bounds {s : StubStore} {path : String} {m : ModuleDescriptor}
    (h : s.lookup path = some m) : ∃ symbols, s.modules.get? path = some symbols ∧
      m.classCount ≤ Descriptor.classCountAll (symbols.map StubSymbol.descriptor) ∧
      ∀ p ∈ m.paths, p ∈ Descriptor.pathsAll (symbols.map StubSymbol.descriptor) := by
  obtain ⟨symbols, hsymbols, rfl⟩ := Option.map_eq_some_iff.1 h
  refine ⟨symbols, hsymbols, ?_, fun p hp => ?_⟩
  · rw [ModuleDescriptor.classCount_addMembers, Descriptor.classCountAll_eq, Descriptor.classCountAll_eq]
    have hsub := ((List.filter_sublist (p := StubSymbol.isVisible s.versions) (l := symbols)).map StubSymbol.descriptor).map
      Descriptor.classCount
    have hempty : (ModuleDescriptor.ofPath path).classCount = 0 := rfl
    rw [hempty, Nat.zero_add]
    exact hsub.sum_le_sum (by simp)
  · rcases ModuleDescriptor.mem_paths_addMembers hp with hp | hp
    · contradiction
    · grind [Descriptor.mem_pathsAll]

end StubStore

/-! ## Tables -/

/-- Number of classes that the symbols of a library module describe. -/
def StubSymbol.classCountAll (symbols : List StubSymbol) : Nat :=
  Descriptor.classCountAll (symbols.map StubSymbol.descriptor)

namespace Table

variable (s : TypeStore)

/-- The paths that the descriptors of a table refer to. -/
def sourcePaths (t : Table) : List String :=
  t.project.modules.values.flatMap ModuleDescriptor.paths ++
    t.stubs.modules.values.flatMap fun symbols => Descriptor.pathsAll (symbols.map StubSymbol.descriptor)

/-- The paths for which a table has lazy types or can add them. -/
def paths (t : Table) : Finset String := t.store.lazyPaths ∪ t.sourcePaths.toFinset

/-- What the entries count that are not loaded. -/
def unloaded {α : Type} (loaded : String → Bool) (count : α → Nat) (entries : List (String × α)) : Nat :=
  (entries.map fun e => if loaded e.1 then 0 else count e.2).sum

/-- Number of classes that a table has or can add. -/
def capacity (t : Table) : Nat :=
  t.store.classes.card + unloaded t.modules.contains ModuleDescriptor.classCount t.project.modules.entries +
    unloaded t.modules.contains StubSymbol.classCountAll t.stubs.modules.entries

section Unloaded

variable {α : Type} {loaded loaded' : String → Bool} (count : α → Nat)

theorem unloaded_le_of_loaded (entries : List (String × α)) (h : ∀ path, loaded path = true → loaded' path = true) :
    unloaded loaded' count entries ≤ unloaded loaded count entries := by
  unfold unloaded
  induction entries with
  | nil => exact Nat.le_refl _
  | cons e rest ih =>
    grind

theorem unloaded_add_le {entries : List (String × α)} (h : ∀ path, loaded path = true → loaded' path = true) {path : String}
    {a : α} (hmem : (path, a) ∈ entries) (hbefore : loaded path = false) (hafter : loaded' path = true) :
    unloaded loaded' count entries + count a ≤ unloaded loaded count entries := by
  induction entries with
  | nil => simp at hmem
  | cons e rest ih =>
    have hcons : ∀ f, unloaded f count (e :: rest) = (if f e.1 then 0 else count e.2) + unloaded f count rest := by
      intro f
      simp [unloaded]
    rw [hcons, hcons]
    rcases List.mem_cons.1 hmem with rfl | hmem
    · have hrest := unloaded_le_of_loaded count rest h
      grind
    · grind

theorem unloaded_le (loaded : String → Bool) (entries : List (String × α)) (weigh : α → Nat) (h : ∀ a, count a ≤ weigh a) :
    unloaded loaded count entries ≤ (entries.map Prod.snd).foldr (fun a n => weigh a + 1 + n) 0 := by
  unfold unloaded
  induction entries with
  | nil => exact Nat.le_refl _
  | cons e rest ih =>
    grind

end Unloaded

theorem length_flatMap_le {α β : Type} (f : α → List β) (weigh : α → Nat) (h : ∀ a, (f a).length ≤ weigh a) (as : List α) :
    (as.flatMap f).length ≤ as.foldr (fun a n => weigh a + 1 + n) 0 := by
  induction as with
  | nil => exact Nat.le_refl _
  | cons a rest ih =>
    grind

theorem card_classes_le : s.classes.card ≤ s.size :=
  calc s.classes.card ≤ ((Finset.range s.size).image TypeId.mk).card := Finset.card_filter_le _ _
    _ ≤ (Finset.range s.size).card := Finset.card_image_le
    _ = s.size := Finset.card_range _

theorem card_lazyPaths_le : s.lazyPaths.card ≤ s.size := by
  have hone : ∀ i ∈ Finset.range s.size, (s.lazyPath? ⟨i⟩).toFinset.card ≤ 1 := by
    intro i _
    cases s.lazyPath? ⟨i⟩ <;> simp
  calc s.lazyPaths.card ≤ (Finset.range s.size).card * 1 := Finset.card_biUnion_le_card_mul _ _ _ hone
    _ = s.size := by simp

theorem card_paths_le (t : Table) : t.paths.card ≤ t.weight := by
  have hlazy := card_lazyPaths_le t.store
  have hunion : t.paths.card ≤ t.store.lazyPaths.card + t.sourcePaths.length :=
    (Finset.card_union_le _ _).trans (Nat.add_le_add_left (List.toFinset_card_le _) _)
  have hproject := length_flatMap_le ModuleDescriptor.paths (fun m => Descriptor.weightAll m.members.values)
    (fun m => Descriptor.length_pathsAll_le _) t.project.modules.values
  have hstubs := length_flatMap_le (fun symbols : List StubSymbol => Descriptor.pathsAll (symbols.map StubSymbol.descriptor))
    (fun symbols => Descriptor.weightAll (symbols.map StubSymbol.descriptor)) (fun _ => Descriptor.length_pathsAll_le _)
    t.stubs.modules.values
  grind [sourcePaths, weight]

/-- A table has no more classes, and describes no more, than it weighs. -/
theorem capacity_le (t : Table) : t.capacity ≤ t.weight := by
  have hclasses := card_classes_le t.store
  have hproject := unloaded_le ModuleDescriptor.classCount t.modules.contains t.project.modules.entries
    (fun m => Descriptor.weightAll m.members.values) fun m => Descriptor.classCountAll_le m.members.values
  have hstubs := unloaded_le StubSymbol.classCountAll t.modules.contains t.stubs.modules.entries
    (fun symbols => Descriptor.weightAll (symbols.map StubSymbol.descriptor))
    fun symbols => Descriptor.classCountAll_le (symbols.map StubSymbol.descriptor)
  unfold capacity weight
  exact Nat.add_le_add (Nat.add_le_add hclasses hproject) hstubs

/-- Loading a module takes its paths and classes from what the table still describes. -/
theorem source?_bounds {t : Table} {path : String} {d : ModuleDescriptor} {origin : Origin}
    (h : t.source? path = some (d, origin)) : (∀ p ∈ d.paths, p ∈ t.sourcePaths) ∧
      ∀ loaded' : String → Bool, (∀ p, t.modules.contains p = true → loaded' p = true) →
        t.modules.contains path = false → loaded' path = true →
        unloaded loaded' ModuleDescriptor.classCount t.project.modules.entries +
            unloaded loaded' StubSymbol.classCountAll t.stubs.modules.entries + d.classCount ≤
          unloaded t.modules.contains ModuleDescriptor.classCount t.project.modules.entries +
            unloaded t.modules.contains StubSymbol.classCountAll t.stubs.modules.entries := by
  unfold source? at h
  split at h
  · rename_i m hm
    cases h
    have hentry := (OrderedMap.get?_eq_some_iff _ _ _).1 hm
    refine ⟨fun p hp => ?_, fun loaded' hmono hbefore hafter => ?_⟩
    · exact List.mem_append_left _ (List.mem_flatMap.2 ⟨d, List.mem_map.2 ⟨_, hentry, rfl⟩, hp⟩)
    · have hproject := unloaded_add_le ModuleDescriptor.classCount hmono hentry hbefore hafter
      have hstubs := unloaded_le_of_loaded StubSymbol.classCountAll t.stubs.modules.entries hmono
      omega
  · split at h
    · rename_i m hm
      cases h
      obtain ⟨symbols, hsymbols, hcount, hpaths⟩ := StubStore.lookup_bounds hm
      have hentry := (OrderedMap.get?_eq_some_iff _ _ _).1 hsymbols
      refine ⟨fun p hp => ?_, fun loaded' hmono hbefore hafter => ?_⟩
      · exact List.mem_append_right _ (List.mem_flatMap.2 ⟨symbols, List.mem_map.2 ⟨_, hentry, rfl⟩, hpaths p hp⟩)
      · have hproject := unloaded_le_of_loaded ModuleDescriptor.classCount t.project.modules.entries hmono
        have hstubs := unloaded_add_le StubSymbol.classCountAll hmono hentry hbefore hafter
        grind [StubSymbol.classCountAll]
    · split at h
      · cases h
        refine ⟨fun p hp => absurd hp (List.not_mem_nil), fun loaded' hmono _ _ => ?_⟩
        have hproject := unloaded_le_of_loaded ModuleDescriptor.classCount t.project.modules.entries hmono
        have hstubs := unloaded_le_of_loaded StubSymbol.classCountAll t.stubs.modules.entries hmono
        have hempty : (ModuleDescriptor.ofPath path).classCount = 0 := rfl
        omega
      · contradiction

end Table

end PythonTypes
