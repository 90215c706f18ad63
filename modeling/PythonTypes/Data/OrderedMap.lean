/-!
# Maps that remember insertion order

An `OrderedMap` is a finite map whose keys are listed in the order in which they were first
inserted. Inserting a key that is already present replaces its value and keeps its place, and
`swapErase` fills the hole of a removed entry with the last one. The list of entries carries the
proof that no key occurs twice, so a map is determined by its entries and each look-up has at most
one answer.
-/

set_option autoImplicit false

namespace PythonTypes

namespace Entries

variable {α β : Type} [DecidableEq α]

/-- The value of the first entry with key `k`. -/
def find? (k : α) : List (α × β) → Option β
  | [] => none
  | (k', v) :: rest => if k' = k then some v else find? k rest

/-- The entries after binding `k` to `v`, in place if `k` is present and at the end otherwise. -/
def put (k : α) (v : β) : List (α × β) → List (α × β)
  | [] => [(k, v)]
  | (k', v') :: rest => if k' = k then (k, v) :: rest else (k', v') :: put k v rest

/-- The entries with the last one moved to the front. -/
def rotateLast (l : List (α × β)) : List (α × β) :=
  match l.getLast? with
  | none => []
  | some last => last :: l.dropLast

/-- The entries without the one of key `k`, whose place the last entry takes. -/
def swapErase (k : α) : List (α × β) → List (α × β)
  | [] => []
  | (k', v) :: rest => if k' = k then rotateLast rest else (k', v) :: swapErase k rest

omit [DecidableEq α] in
theorem rotateLast_perm (l : List (α × β)) : (rotateLast l).Perm l := by
  rcases List.eq_nil_or_concat l with rfl | ⟨front, last, rfl⟩
  · exact List.Perm.refl _
  · simp only [rotateLast, List.concat_eq_append, List.getLast?_append, List.getLast?_singleton,
      Option.some_or, List.dropLast_concat]
    exact (List.perm_append_singleton last front).symm

theorem keys_put (k : α) (v : β) (l : List (α × β)) :
    (put k v l).map Prod.fst = if k ∈ l.map Prod.fst then l.map Prod.fst else l.map Prod.fst ++ [k] := by
  induction l with
  | nil => simp [put]
  | cons e rest ih =>
    obtain ⟨k', v'⟩ := e
    by_cases h : k' = k
    · simp [put, h]
    · have h' : k ≠ k' := fun e => h e.symm
      by_cases hm : k ∈ rest.map Prod.fst
      · simp_all [put]
      · simp_all [put]

theorem swapErase_perm (k : α) (l : List (α × β)) :
    ((swapErase k l).map Prod.fst).Perm ((l.map Prod.fst).erase k) := by
  induction l with
  | nil => exact List.Perm.refl _
  | cons e rest ih =>
    obtain ⟨k', v⟩ := e
    by_cases h : k' = k
    · simpa [swapErase, h] using (rotateLast_perm rest).map Prod.fst
    · simp only [swapErase, h, if_false, List.map_cons]
      rw [List.erase_cons_tail (by simpa using h)]
      exact ih.cons k'

theorem nodup_put {k : α} {v : β} {l : List (α × β)} (h : (l.map Prod.fst).Nodup) :
    ((put k v l).map Prod.fst).Nodup := by
  rw [keys_put]
  split
  · exact h
  · rename_i hk
    exact List.nodup_append.2 ⟨h, by simp, by simpa using fun a b hab e => hk (by simp [← e]; exact ⟨b, hab⟩)⟩

theorem nodup_swapErase {k : α} {l : List (α × β)} (h : (l.map Prod.fst).Nodup) :
    ((swapErase k l).map Prod.fst).Nodup :=
  (swapErase_perm k l).nodup_iff.2 (h.erase k)

theorem find?_put_self (k : α) (v : β) (l : List (α × β)) : find? k (put k v l) = some v := by
  induction l with
  | nil => simp [put, find?]
  | cons e rest ih =>
    obtain ⟨k', v'⟩ := e
    by_cases h : k' = k
    · simp [put, find?, h]
    · simp [put, find?, h, ih]

theorem find?_put_of_ne {k k' : α} (h : k' ≠ k) (v : β) (l : List (α × β)) : find? k' (put k v l) = find? k' l := by
  induction l with
  | nil => simp [put, find?, h.symm]
  | cons e rest ih =>
    obtain ⟨j, w⟩ := e
    by_cases hj : j = k
    · subst hj
      simp [put, find?, h.symm]
    · by_cases hj' : j = k'
      · subst hj'
        simp [put, find?, h]
      · simp [put, find?, hj, hj', ih]

theorem find?_isSome_iff (k : α) (l : List (α × β)) : (find? k l).isSome ↔ k ∈ l.map Prod.fst := by
  induction l with
  | nil => simp [find?]
  | cons e rest ih =>
    obtain ⟨k', v⟩ := e
    by_cases h : k' = k
    · simp [find?, h]
    · have h' : k ≠ k' := fun e => h e.symm
      simp [find?, h, h', ih]

theorem find?_eq_some_iff {k : α} {v : β} {l : List (α × β)} (h : (l.map Prod.fst).Nodup) :
    find? k l = some v ↔ (k, v) ∈ l := by
  induction l with
  | nil => simp [find?]
  | cons e rest ih =>
    obtain ⟨k', w⟩ := e
    rw [List.map_cons, List.nodup_cons] at h
    by_cases hk : k' = k
    · subst hk
      have hv : (k', v) ∉ rest := fun hv => h.1 (List.mem_map.2 ⟨(k', v), hv, rfl⟩)
      simp [find?, hv, eq_comm]
    · have hk' : k ≠ k' := fun e => hk e.symm
      simp [find?, hk, hk', ih h.2]

end Entries

/-- A finite map with its entries in order of first insertion. -/
structure OrderedMap (α β : Type) where
  /-- The entries, oldest first. -/
  entries : List (α × β)
  /-- No key occurs twice. -/
  nodup : (entries.map Prod.fst).Nodup

namespace OrderedMap

variable {α β : Type}

def empty : OrderedMap α β := ⟨[], List.nodup_nil⟩

instance : EmptyCollection (OrderedMap α β) := ⟨empty⟩

instance : Inhabited (OrderedMap α β) := ⟨empty⟩

def size (m : OrderedMap α β) : Nat := m.entries.length

def isEmpty (m : OrderedMap α β) : Bool := m.entries.isEmpty

def keys (m : OrderedMap α β) : List α := m.entries.map Prod.fst

def values (m : OrderedMap α β) : List β := m.entries.map Prod.snd

variable [DecidableEq α]

def get? (m : OrderedMap α β) (k : α) : Option β := Entries.find? k m.entries

def contains (m : OrderedMap α β) (k : α) : Bool := (m.get? k).isSome

/-- Binds `k` to `v`; a key that is already bound keeps its place. -/
def insert (m : OrderedMap α β) (k : α) (v : β) : OrderedMap α β :=
  ⟨Entries.put k v m.entries, Entries.nodup_put m.nodup⟩

theorem get?_empty (k : α) : (empty : OrderedMap α β).get? k = none := rfl

theorem get?_insert_self (m : OrderedMap α β) (k : α) (v : β) : (m.insert k v).get? k = some v :=
  Entries.find?_put_self k v m.entries

theorem get?_insert_of_ne (m : OrderedMap α β) {k k' : α} (h : k' ≠ k) (v : β) :
    (m.insert k v).get? k' = m.get? k' :=
  Entries.find?_put_of_ne h v m.entries

/-- Inserting adds a new key at the end and leaves the keys alone otherwise. -/
theorem keys_insert (m : OrderedMap α β) (k : α) (v : β) :
    (m.insert k v).keys = if k ∈ m.keys then m.keys else m.keys ++ [k] :=
  Entries.keys_put k v m.entries

theorem contains_iff (m : OrderedMap α β) (k : α) : m.contains k ↔ k ∈ m.keys :=
  Entries.find?_isSome_iff k m.entries

theorem get?_eq_some_iff (m : OrderedMap α β) (k : α) (v : β) : m.get? k = some v ↔ (k, v) ∈ m.entries :=
  Entries.find?_eq_some_iff m.nodup

/-- Removes `k`; the last entry takes its place. -/
def swapErase (m : OrderedMap α β) (k : α) : OrderedMap α β :=
  ⟨Entries.swapErase k m.entries, Entries.nodup_swapErase m.nodup⟩

def insertAll (m : OrderedMap α β) (pairs : List (α × β)) : OrderedMap α β :=
  pairs.foldl (fun m p => m.insert p.1 p.2) m

/-- The map that binds each pair in turn, starting from nothing. -/
def ofList (pairs : List (α × β)) : OrderedMap α β := (empty : OrderedMap α β).insertAll pairs

/-- Whether two maps bind the same keys to the same values, in whatever order. -/
def sameBindings [BEq β] (m n : OrderedMap α β) : Bool :=
  m.size == n.size && m.entries.all fun (k, v) =>
    match n.get? k with
    | some w => v == w
    | none => false

end OrderedMap

end PythonTypes
