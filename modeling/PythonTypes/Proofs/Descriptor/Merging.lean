import Mathlib.Data.List.Basic
import Mathlib.Data.List.Flatten
import Mathlib.Data.List.Induction
import PythonTypes.Proofs.Data.OrderedMap
import PythonTypes.Stub.Basic

/-!
# Members that share a name

Members are added one by one, and each repetition of a name takes the earlier member out and puts a
merged one in. What comes of it is that each name has what was added under it, in order
(`ModuleDescriptor.get?_addMembers`). So a library module shows the more the more versions are
active, and it makes no difference in how many pieces it was delivered
(`StubStore.get?_addModules`).
-/

set_option autoImplicit false

namespace PythonTypes

namespace ModuleDescriptor

variable (m : ModuleDescriptor) (ds : List Descriptor) (name : String)

/-- What the descriptors added under one name come to. -/
def merged? (name : String) : List Descriptor → Option Descriptor
  | [] => none
  | [d] => some d
  | d :: rest => some (.ambiguous name d.path ((d :: rest).flatMap Descriptor.alternatives))

theorem get?_addMember (d : Descriptor) (name : String) : (m.addMember d).members.get? name =
    if name = d.name then some ((m.members.get? name).elim d fun old => .merge name old.path [old, d])
    else m.members.get? name := by
  unfold addMember
  cases hold : m.members.get? d.name with
  | none => grind [OrderedMap.get?_insert]
  | some old => grind [OrderedMap.get?_insert, OrderedMap.get?_swapErase]

theorem merged?_append (ds : List Descriptor) (d : Descriptor) :
    merged? name (ds ++ [d]) = some ((merged? name ds).elim d fun old => .merge name old.path [old, d]) := by
  rcases ds with _ | ⟨a, _ | ⟨b, rest⟩⟩
  · rfl
  · rfl
  -- what was merged before is extended rather than nested
  · simp [merged?, Descriptor.merge, Descriptor.path, Descriptor.alternatives]

theorem get?_addMembers :
    (addMembers { m with members := ∅ } ds).members.get? name = merged? name (ds.filter (·.name = name)) := by
  induction ds using List.reverseRecOn with
  | nil => rfl
  | append_singleton ds d ih =>
    rw [show addMembers _ (ds ++ [d]) = (addMembers { m with members := ∅ } ds).addMember
      d by simp [addMembers], get?_addMember, ih, List.filter_append]
    by_cases hname : name = d.name
    · subst hname
      simp [merged?_append]
    · simp [hname, Ne.symm hname]

theorem contains_addMembers :
    (addMembers { m with members := ∅ } ds).members.contains name = true ↔ ∃ d ∈ ds, d.name = name := by
  have hsome : ∀ ds : List Descriptor, (merged? name ds).isSome = true ↔ ds ≠ [] := by
    intro ds
    rcases ds with _ | ⟨a, _ | ⟨b, rest⟩⟩ <;> simp [merged?]
  simp [OrderedMap.contains, get?_addMembers, hsome]

/-- A module to which descriptors are added has their names, each with what was added under it: one
descriptor as it is, and several merged in order, at the path of the first. -/
theorem addMembers_merges_by_name (m : ModuleDescriptor) (ds : List Descriptor) :
    let added := addMembers { m with members := ∅ } ds
    (∀ name, name ∈ added.members.keys ↔ ∃ d ∈ ds, d.name = name) ∧ added.members.keys.Nodup ∧
      ∀ name, added.members.get? name = match ds.filter (·.name = name) with
        | [] => none
        | [d] => some d
        | d :: rest => some (.ambiguous name d.path ((d :: rest).flatMap Descriptor.alternatives)) := by
  refine ⟨fun name => ?_, OrderedMap.nodup _, get?_addMembers m ds⟩
  rw [← OrderedMap.contains_iff, contains_addMembers]

/-- The descriptors that a module has under a name. -/
def alternatives (m : ModuleDescriptor) (name : String) : List Descriptor :=
  ((m.members.get? name).map Descriptor.alternatives).getD []

theorem alternatives_addMembers :
    (addMembers { m with members := ∅ } ds).alternatives name =
    (ds.filter (·.name = name)).flatMap Descriptor.alternatives := by
  rw [alternatives, get?_addMembers]
  generalize ds.filter (·.name = name) = same
  rcases same with _ | ⟨a, _ | ⟨b, rest⟩⟩ <;> simp [merged?, Descriptor.alternatives]

end ModuleDescriptor

theorem StubSymbol.isVisible_of_subset {active active' : VersionSet}
    (h : ∀ v, active.contains v = true → active'.contains v = true)
    (symbol : StubSymbol) (hsymbol : symbol.isVisible active = true) : symbol.isVisible active' = true := by
  simp only [isVisible, VersionSet.meets, Bool.or_eq_true, List.any_eq_true] at hsymbol ⊢
  exact hsymbol.imp_right fun ⟨v, hv, hactive⟩ => ⟨v, hv, h v hactive⟩

namespace StubStore

open StubModule (symbols)

/-- Each module has the symbols of its pieces, in order. -/
theorem get?_addModules (s : StubStore) (ms : List StubModule) (path : String) :
    (ms.foldl addModule s).modules.get? path = if ms.filter (·.path = path) = [] then s.modules.get? path
      else some ((s.modules.get? path).getD [] ++ (ms.filter (·.path = path)).flatMap symbols) := by
  induction ms generalizing s with
  | nil => rfl
  | cons m rest ih =>
    rw [List.foldl_cons, ih, addModule]
    by_cases hpath : path = m.path
    · by_cases hrest : rest.filter (·.path = path) = [] <;> simp_all [OrderedMap.get?_insert]
    · simp [OrderedMap.get?_insert, hpath, Ne.symm hpath]

theorem versions_addModules (s : StubStore) (ms : List StubModule) : (ms.foldl addModule s).versions = s.versions := by
  induction ms generalizing s with
  | nil => rfl
  | cons m rest ih => exact ih _

/-- With more versions active, a library module shows as many members or more, and of each as many
alternatives or more, in the same order. A module that is delivered in pieces, between other
modules, is the same as one that is delivered as a whole anywhere. -/
theorem lookup_monotone_whatever_pieces (ms : List StubModule) :
    (∀ (active active' : VersionSet) (path : String) (m : ModuleDescriptor),
      (∀ v, active.contains v = true → active'.contains v = true) →
      (ms.foldl addModule { versions := active }).lookup path = some m →
        ∃ m', (ms.foldl addModule { versions := active' }).lookup path = some m' ∧ ∀ name,
          (m.members.contains name = true → m'.members.contains name = true) ∧
            (m.alternatives name).Sublist (m'.alternatives name)) ∧
      ∀ (s : StubStore) (path : String) (before after : List StubModule), path ∈ ms.map (·.path) →
        before ++ after = ms.filter (·.path ≠ path) → ∀ path',
          ((before ++ ⟨path, (ms.filter (·.path = path)).flatMap symbols⟩ :: after).foldl addModule
            s).lookup path' = (ms.foldl addModule s).lookup path' := by
  constructor
  · intro active active' path m hsub hm
    simp only [lookup, versions_addModules, get?_addModules, Option.map_eq_some_iff] at hm ⊢
    obtain ⟨symbols, hsymbols, rfl⟩ := hm
    refine ⟨_, ⟨symbols, hsymbols, rfl⟩, fun name => ?_⟩
    have hvisible := (List.monotone_filter_right symbols (StubSymbol.isVisible_of_subset hsub)).map StubSymbol.descriptor
    have hempty : ModuleDescriptor.ofPath path = { ModuleDescriptor.ofPath path with members := ∅ } := rfl
    rw [hempty, ModuleDescriptor.contains_addMembers, ModuleDescriptor.contains_addMembers,
      ModuleDescriptor.alternatives_addMembers, ModuleDescriptor.alternatives_addMembers]
    refine ⟨?_, (hvisible.filter _).flatMap _⟩
    rintro ⟨d, hd, hname⟩
    exact ⟨d, hvisible.subset hd, hname⟩
  · intro s path before after hpath hothers path'
    simp only [lookup, versions_addModules, get?_addModules]
    by_cases hsame : path' = path
    · subst hsame
      have hnone : before.filter (·.path = path') ++ after.filter (·.path = path') = [] := by
        rw [← List.filter_append, hothers]
        simp
      obtain ⟨hbefore, hafter⟩ := List.append_eq_nil_iff.1 hnone
      rw [List.filter_append, List.filter_cons_of_pos (by simp), hbefore, hafter, if_neg (by simp),
        if_neg (by simpa using hpath)]
      simp
    · rw [List.filter_append, List.filter_cons_of_neg (by simpa using Ne.symm hsame), ← List.filter_append, hothers,
        List.filter_filter]
      have hboth : ∀ m ∈ ms, (decide (m.path = path') && decide (m.path ≠ path)) = decide (m.path = path') := by grind
      rw [List.filter_congr hboth]

/-- A function that exists in one version only, and one that exists in all of them, in different
pieces of a module. -/
theorem lookup_monotone_whatever_pieces_twoPieces :
    let ms : List StubModule := [⟨"m", [⟨.ofList [.v38], .ofFunction { name := "f", isAsync := true }⟩]⟩, ⟨"n", []⟩,
      ⟨"m", [⟨.empty, .ofFunction { name := "f" }⟩]⟩]
    let whole : StubModule := ⟨"m", [⟨.ofList [.v38], .ofFunction { name := "f", isAsync := true }⟩,
      ⟨.empty, .ofFunction { name := "f" }⟩]⟩
    (∀ v, (VersionSet.ofList [.v39]).contains v = true → VersionSet.all.contains v = true) ∧ "m" ∈ ms.map (·.path) ∧
      (∃ m m', (ms.foldl addModule { versions := .ofList [.v39] }).lookup "m" = some m ∧
        (ms.foldl addModule {}).lookup "m" = some m' ∧ m.members.contains "f" = true ∧ m'.members.contains "f" = true ∧
          (m.alternatives "f").Sublist (m'.alternatives "f")) ∧
      ∀ path, ([⟨"n", []⟩, whole].foldl addModule {}).lookup path = (ms.foldl addModule {}).lookup path := by
  intro ms whole
  obtain ⟨hmonotone, hpieces⟩ := lookup_monotone_whatever_pieces ms
  have hsub : ∀ v, (VersionSet.ofList [.v39]).contains v = true → VersionSet.all.contains v = true := fun _ _ => rfl
  obtain ⟨m', hm', h⟩ := hmonotone (.ofList [.v39]) .all "m" _ hsub rfl
  exact ⟨hsub, by decide, ⟨_, m', rfl, hm', rfl, (h "f").1 rfl, (h "f").2⟩, hpieces {} "m" [⟨"n", []⟩] [] (by decide) rfl⟩

end StubStore

end PythonTypes
