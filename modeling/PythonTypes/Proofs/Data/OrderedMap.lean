import PythonTypes.Data.OrderedMap

/-!
# Looking up in maps

What a map answers after insertions, in the form that proofs about its users need: one equation for
both the inserted key and the others.
-/

set_option autoImplicit false

namespace PythonTypes.OrderedMap

variable {α β : Type} [DecidableEq α] {m : OrderedMap α β} {k k' : α} {v v' : β} {pairs : List (α × β)}

/-- Inserting a key changes the look-up of this key only. -/
theorem get?_insert (m : OrderedMap α β) (k k' : α) (v : β) :
    (m.insert k v).get? k' = if k' = k then some v else m.get? k' := by
  grind [get?_insert_self, get?_insert_of_ne]

theorem get?_insert_of_absent (hk : m.get? k = none) (hk' : m.get? k' = some v') : (m.insert k v).get? k' = some v' := by
  grind [get?_insert_of_ne]

theorem get?_insert_cases (h : (m.insert k v).get? k' = some v') : k' = k ∧ v' = v ∨ m.get? k' = some v' := by
  grind [get?_insert]

@[simp] theorem get?_emptyCollection (k : α) : (∅ : OrderedMap α β).get? k = none := rfl

omit [DecidableEq α] in
@[simp] theorem values_emptyCollection : (∅ : OrderedMap α β).values = [] := rfl

theorem mem_values_iff : v ∈ m.values ↔ ∃ k, m.get? k = some v := by
  simp only [get?_eq_some_iff]
  unfold values
  simp

theorem mem_values_insert (h : v' ∈ (m.insert k v).values) : v' = v ∨ v' ∈ m.values := by
  obtain ⟨k', hk'⟩ := mem_values_iff.1 h
  rcases get?_insert_cases hk' with ⟨-, hv⟩ | hk'
  · exact .inl hv
  · exact .inr (mem_values_iff.2 ⟨k', hk'⟩)

theorem entries_insert_of_absent (hk : m.get? k = none) (v : β) : (m.insert k v).entries = m.entries ++ [(k, v)] := by
  have hput : ∀ l : List (α × β), Entries.find? k l = none → Entries.put k v l = l ++ [(k, v)] := by
    intro l hl
    induction l with
    | nil => rfl
    | cons e rest ih =>
      grind [Entries.find?, Entries.put]
  exact hput m.entries hk

theorem values_insert_of_absent (hk : m.get? k = none) (v : β) : (m.insert k v).values = m.values ++ [v] := by
  simp_all [values, entries_insert_of_absent]

theorem entries_insertAll (h : ((m.entries ++ pairs).map Prod.fst).Nodup) :
    (m.insertAll pairs).entries = m.entries ++ pairs := by
  induction pairs generalizing m with
  | nil => exact (List.append_nil _).symm
  | cons p rest ih =>
    obtain ⟨k, v⟩ := p
    have hk : m.get? k = none := by
      rw [← Option.not_isSome_iff_eq_none, get?, Entries.find?_isSome_iff]
      intro hmem
      rw [List.map_append] at h
      exact (List.nodup_append.1 h).2.2 k hmem k (by simp) rfl
    simp_all [insertAll, entries_insert_of_absent]

/-- Inserting the entries of a map one by one gives the map back. -/
theorem ofList_entries (m : OrderedMap α β) : ofList m.entries = m := by
  obtain ⟨entries, hnodup⟩ := m
  have hentries : (ofList entries).entries = entries := entries_insertAll hnodup
  cases hmap : ofList entries
  simp_all

theorem get?_ofList_const (ks : List α) (v : β) (k : α) :
    (ofList (ks.map (·, v))).get? k = if k ∈ ks then some v else none := by
  have hall : ∀ m : OrderedMap α β,
      (m.insertAll (ks.map (·, v))).get? k = if k ∈ ks then some v else m.get? k := by
    induction ks with
    | nil =>
      intro m
      rfl
    | cons k' rest ih =>
      intro m
      have hstep : m.insertAll ((k' :: rest).map (·, v)) = (m.insert k' v).insertAll (rest.map (·, v)) := rfl
      grind [get?_insert]
  exact hall empty

theorem mem_swapErase {l : List (α × β)} (h : (l.map Prod.fst).Nodup) (e : α × β) :
    e ∈ Entries.swapErase k l ↔ e.1 ≠ k ∧ e ∈ l := by
  induction l with
  | nil => simp [Entries.swapErase]
  | cons f rest ih =>
    grind [Entries.swapErase, Entries.rotateLast_perm]

theorem get?_swapErase (m : OrderedMap α β) (k k' : α) : (m.swapErase k).get? k' = if k' = k then none else m.get? k' := by
  refine Option.ext fun v => ?_
  rw [get?_eq_some_iff, show (m.swapErase k).entries = Entries.swapErase k m.entries from rfl, mem_swapErase m.nodup]
  grind [get?_eq_some_iff]

theorem mem_of_get?_insertAll (h : (m.insertAll pairs).get? k = some v) : m.get? k = some v ∨ (k, v) ∈ pairs := by
  induction pairs generalizing m with
  | nil => exact .inl h
  | cons p rest ih =>
    rcases ih h with h | h
    · grind [get?_insert_cases]
    · exact .inr (List.mem_cons_of_mem _ h)

theorem get?_insertAll_of_absent (h : ∀ v, (k, v) ∉ pairs) : (m.insertAll pairs).get? k = m.get? k := by
  induction pairs generalizing m with
  | nil => rfl
  | cons p rest ih =>
    have hne : k ≠ p.1 := fun heq => h p.2 (by simp [heq])
    refine (ih fun v hv => h v (List.mem_cons_of_mem _ hv)).trans ?_
    rw [get?_insert, if_neg hne]

/-- Maps with the same bindings answer alike. -/
theorem get?_of_sameBindings [BEq β] [LawfulBEq β] {n : OrderedMap α β}
    (h : m.sameBindings n = true) (k : α) : m.get? k = n.get? k := by
  unfold sameBindings at h
  simp only [Bool.and_eq_true, beq_iff_eq, List.all_eq_true] at h
  obtain ⟨hsize, hall⟩ := h
  have hvalue : ∀ k v, m.get? k = some v → n.get? k = some v := by
    intro k v hv
    have hentry := hall (k, v) ((m.get?_eq_some_iff k v).1 hv)
    dsimp only at hentry
    split at hentry
    · rename_i w hw
      rw [hw, beq_iff_eq.1 hentry]
    · cases hentry
  have hkeys : ∀ (m : OrderedMap α β) k, k ∈ m.entries.map Prod.fst ↔ ∃ v, m.get? k = some v := by
    intro m k
    rw [List.mem_map]
    constructor
    · rintro ⟨⟨k, v⟩, hmem, rfl⟩
      exact ⟨v, (m.get?_eq_some_iff k v).2 hmem⟩
    · rintro ⟨v, hv⟩
      exact ⟨(k, v), (m.get?_eq_some_iff k v).1 hv, rfl⟩
  cases hm : m.get? k with
  | some v => exact (hvalue k v hm).symm
  | none =>
    cases hn : n.get? k with
    | none => rfl
    | some w =>
      -- There is no room for another key in `n`.
      have hsub : k :: m.entries.map Prod.fst ⊆ n.entries.map Prod.fst := by
        refine List.cons_subset.2 ⟨(hkeys n k).2 ⟨w, hn⟩, fun k hk => ?_⟩
        obtain ⟨v, hv⟩ := (hkeys m k).1 hk
        exact (hkeys n k).2 ⟨v, hvalue k v hv⟩
      have hnew : k ∉ m.entries.map Prod.fst := by
        rw [hkeys, hm]
        simp
      have hlength := (List.nodup_cons.2 ⟨hnew, m.nodup⟩).length_le_of_subset hsub
      simp only [List.length_cons, List.length_map] at hlength
      have : m.entries.length = n.entries.length := hsize
      omega

end PythonTypes.OrderedMap
