import Mathlib
import PythonTypes.Proofs.Types.Upkeep

/-!
# How a store represents types

Whatever is done with a store, the ids in it exist, a type never becomes one of another kind
(`evolves_perform`), and the four tables of interned types stand for one table without repetitions:
what a type was interned for can be read off the type (`Intact.internKey?_of_interned`). A union is
interned for its candidates in increasing order, none of which is unknown or a union, and it is a
lazy one exactly if one of them is lazy (`Intact.unions`).

The last of these rests on the other: a lazy type that becomes a candidate is still pending, since
resolved ones are followed to their end, and a type that is lazy once is lazy for good. All of
Mathlib is imported for the equations with which `cbv` evaluates a run with strings and sorted
lists.
-/

set_option autoImplicit false

namespace PythonTypes

namespace TypeForm

variable (f : TypeForm)

/-- The types and slots to which a type refers. -/
def mentions : TypeForm → List TypeRef
  | ofModule m => m.members.values
  | ofClass c => c.members.values ++ c.bases
  | ofFunction f => f.owner.toList.map .direct ++ f.parameters.filterMap (·.declared) ++ f.returns :: f.decorators
  | object cls => [cls]
  | union cs => cs.map .direct
  | lazyUnion cs => cs.map .direct
  | lazy _ (.resolved target) => [.direct target]
  | _ => []

theorem mentions_unwatched : f.unwatched.mentions = f.mentions := by
  cases f with
  | lazy path state => cases state <;> rfl
  | _ => rfl

theorem kind_unwatched : f.unwatched.kind = f.kind := by
  cases f with
  | lazy path state => cases state <;> rfl
  | _ => rfl

theorem kind_outline : f.outline.kind = f.kind := by cases f <;> rfl

/-- The kinds that no candidate of a union has. -/
def nestedKinds : List String := ["unknown", "unresolved_import", "union", "lazy_union"]

theorem kind_not_mem_nestedKinds {f : TypeForm} (hsingle : f.isSingle = true)
    (hunknown : f.isUnknown = false) : f.kind ∉ nestedKinds := by
  cases f <;> first | contradiction | simp [kind, nestedKinds]

theorem kind_eq_lazy {f : TypeForm} (h : f.kind = "lazy") : ∃ path state, f = lazy path state := by
  cases f <;> simp_all [kind]

end TypeForm

/-- What a type is interned for. -/
inductive InternKey where
  | unresolvedImport (path : String)
  | instanceOf (cls : TypeId)
  /-- Instances of a class that is pending. -/
  | lazyInstanceOf (lazy : TypeId)
  | unionOf (candidates : List TypeId)
  deriving DecidableEq

/-- The types of a key. -/
def InternKey.types : InternKey → List TypeId
  | unresolvedImport _ => []
  | instanceOf cls => [cls]
  | lazyInstanceOf lazy => [lazy]
  | unionOf candidates => candidates

namespace TypeStore

variable (s : TypeStore)

/-- The type that is interned for a key. -/
def interned? (s : TypeStore) : InternKey → Option TypeId
  | .unresolvedImport path => s.imports.get? path
  | .instanceOf cls => s.instances.get? cls
  | .lazyInstanceOf lazy => s.lazyInstances.get? lazy
  | .unionOf candidates => s.unions.get? candidates

/-- The key for which a type would be interned. -/
def internKey? (s : TypeStore) (t : TypeId) : Option InternKey :=
  match s.shape t with
  | .unresolvedImport path => some (.unresolvedImport path)
  | .object (.direct cls) => some (.instanceOf cls)
  | .object (.slot w) => some (.lazyInstanceOf (s.slot w).lazy)
  | .union cs => some (.unionOf (unionKey cs))
  | .lazyUnion cs => some (.unionOf (unionKey cs))
  | _ => none

/-- Whether a union may be interned for candidates: none is unknown or a union, and it is lazy if
one of them is. -/
def Unites (s : TypeStore) (u : TypeId) (key : List TypeId) : Prop :=
  (∀ c ∈ key, (s.shape c).kind ∉ TypeForm.nestedKinds) ∧
    ((s.shape u).kind = "lazy_union" ↔ ∃ c ∈ key, (s.shape c).kind = "lazy")

/-- A store whose ids exist and whose tables lead to the types that they were made for. -/
structure Intact (s : TypeStore) : Prop where
  wellFormed : s.WellFormed
  chainsEnd : s.ChainsEnd
  mentions : ∀ t, ∀ ref ∈ (s.shape t).mentions, s.RefKnown ref
  unions : ∀ key u, s.unions.get? key = some u → s.Unites u key

theorem admits_of_mentions {form : TypeForm} (h : ∀ ref ∈ form.mentions, s.RefKnown ref) : s.Admits form := by
  cases form with
  | object cls =>
    cases cls with
    | direct c => trivial
    | slot w => exact h (.slot w) (by simp [TypeForm.mentions])
  | union cs | lazyUnion cs => exact fun c hc => h (.direct c) (by simpa [TypeForm.mentions] using hc)
  | lazy path state =>
    cases state with
    | pending ws => trivial
    | resolved target => exact h (.direct target) (by simp [TypeForm.mentions])
  | _ => trivial

/-! ## What actions leave alone -/

theorem Evolves.kind_eq {s s' : TypeStore} (h : s.Evolves s') {t : TypeId} (ht : s.Known t) :
    (s'.shape t).kind = (s.shape t).kind := by
  grind [TypeForm.kind_outline, outline_eq]

theorem Evolves.unites {s s' : TypeStore} (h : s.Evolves s') {u : TypeId} {key : List TypeId} (hu : s.Known u)
    (hkey : ∀ c ∈ key, s.Known c) (hunites : s.Unites u key) : s'.Unites u key := by
  have hkind : ∀ c ∈ key, (s'.shape c).kind = (s.shape c).kind := fun c hc => h.kind_eq (hkey c hc)
  refine ⟨fun c hc => ?_, ?_⟩
  · rw [hkind c hc]
    exact hunites.1 c hc
  · rw [h.kind_eq hu, hunites.2]
    exact exists_congr fun c => and_congr_right fun hc => by rw [hkind c hc]

theorem evolves_added (form : TypeForm) : s.Evolves (s.added form) where
  size_le := by rw [size_added]; omega
  slots_le := Nat.le_refl _
  outline_eq t ht := by rw [s.shape_added_of_known form ht]
  target_eq l t hl := (lazyTarget?_congr (s.shape_added_of_known form (known_of_unfolds (.inl hl)))).trans hl

theorem evolves_redirected (id : SlotId) (target : TypeId) : s.Evolves (s.redirected id target) :=
  ⟨Nat.le_refl _, Nat.le_of_eq Array.size_setIfInBounds.symm, fun _ _ => rfl, fun _ _ h => h⟩

theorem evolves_resolveLazy (l target : TypeId) : s.Evolves (s.resolveLazy l target).store := by
  cases hl : s.isPending l with
  | false =>
    rw [resolveLazy_of_not_pending hl]
    exact .refl s
  | true =>
    obtain ⟨path, slots, hform, hslots, hstore⟩ := store_resolveLazy hl target
    have hother : ∀ t, t ≠ l → (s.resolveLazy l target).store.shape t = s.shape t := fun t => shape_resolveLazy hl target
    refine ⟨?_, ?_, fun t _ => ?_, fun k t hk => ?_⟩
    · rw [hstore]
      exact Nat.le_of_eq (s.size_setForm l _).symm
    · simp_all
    · by_cases ht : t = l
      · subst ht
        have hself := s.shape_setForm_self (.lazy path (.resolved (s.lazyGoal t target))) (known_of_form hform)
        rw [hstore, shape_of_form hform]
        exact (congrArg TypeForm.outline hself).trans rfl
      · rw [hother t ht]
    · have hne : k ≠ l := by
        rintro rfl
        exact not_unfolds_of_isPending hl t (.inl hk)
      exact (lazyTarget?_congr (hother k hne)).trans hk

end TypeStore

namespace StoreAction

variable {s : TypeStore} {a : StoreAction}

/-- Whether the types and slots that an action names exist, those included to which a new type
refers. -/
def InRange (s : TypeStore) : StoreAction → Prop
  | alloc form => ∀ ref ∈ form.mentions, s.RefKnown ref
  | a => a.Valid s

instance (s : TypeStore) : (a : StoreAction) → Decidable (a.InRange s)
  | alloc form => inferInstanceAs (Decidable (∀ ref ∈ form.mentions, s.RefKnown ref))
  | unresolvedImport path => inferInstanceAs (Decidable ((unresolvedImport path).Valid s))
  | wrap t => inferInstanceAs (Decidable ((wrap t).Valid s))
  | watch t w => inferInstanceAs (Decidable ((watch t w).Valid s))
  | resolveSlot id target => inferInstanceAs (Decidable ((resolveSlot id target).Valid s))
  | resolveLazy lazy target => inferInstanceAs (Decidable ((resolveLazy lazy target).Valid s))
  | instanceOf cls => inferInstanceAs (Decidable ((instanceOf cls).Valid s))
  | canonical t => inferInstanceAs (Decidable ((canonical t).Valid s))
  | union left right => inferInstanceAs (Decidable ((union left right).Valid s))
  | unionOf ts => inferInstanceAs (Decidable ((unionOf ts).Valid s))

theorem InRange.valid (h : a.InRange s) : a.Valid s := by
  cases a with
  | alloc form => exact s.admits_of_mentions h
  | _ => exact h

/-- Actions add types and resolve lazy ones, so that no type becomes one of another kind. -/
theorem evolves_perform (h : s.WellFormed) (ha : a.Valid s) : s.Evolves (a.perform s) := by
  cases a with
  | alloc form => exact s.evolves_added form
  | resolveSlot id target => exact perform_resolveSlot (.refl s) (s.evolves_redirected id target)
  | resolveLazy lazy target => exact s.evolves_resolveLazy lazy target
  | _ => exact ((perform_sound h ha).2 (by simp [OffersCandidates]) fun h => h).evolves

end StoreAction

namespace TypeStore

variable {s : TypeStore} {cs : List TypeId}

/-! ## Steps that keep a store intact -/

theorem unions_addWatcher (s : TypeStore) (t : TypeId) (w : Watcher) : (s.addWatcher t w).unions = s.unions := by
  unfold addWatcher
  split <;> rfl

/-- A new union is lazy exactly if one of its candidates is: a candidate that is resolved would have
been followed. -/
theorem Eligible.unites (h : s.Eligible cs) : (s.added (s.unionForm cs)).Unites s.fresh (unionKey cs) := by
  have hkind : ∀ c ∈ cs, ((s.added (s.unionForm cs)).shape c).kind = (s.shape c).kind := fun c hc => by
    rw [s.shape_added_of_known _ (h.2 c hc).1.1]
  have hpending : ∀ c ∈ cs, s.isPending c = true ↔ (s.shape c).kind = "lazy" := by
    intro c hc
    obtain ⟨hends, -⟩ := h.2 c hc
    rw [isPending_iff]
    constructor
    · rintro ⟨path, hshape⟩
      rw [hshape]
      rfl
    · intro hlazy
      obtain ⟨path, state, hshape⟩ := TypeForm.kind_eq_lazy hlazy
      cases state with
      | pending ws => exact isPending_iff.1 (isPending_of_shape hshape)
      | resolved target => exact absurd ((lazyTarget?_eq_some_iff.2 ⟨path, hshape⟩).symm.trans hends.2) (by simp)
  refine ⟨fun c hc => ?_, ?_⟩
  · grind [Eligible, unionKey_perm, TypeForm.kind_not_mem_nestedKinds]
  · grind [unionForm, TypeForm.kind, shape_added_fresh, TypeForm.kind_unwatched, unionKey_perm]

namespace Intact

variable {s' : TypeStore}

section

variable (h : s.Intact)

include h

theorem instance_key {cls x : TypeId} (hx : s.instances.get? cls = some x) : s.Known cls := by
  have hmention : TypeRef.direct cls ∈ (s.shape x).mentions := by simp [h.wellFormed.instances cls x hx, TypeForm.mentions]
  exact h.mentions x _ hmention

theorem union_key {key : List TypeId} {u : TypeId} (hu : s.unions.get? key = some u) : s.Known u ∧ ∀ c ∈ key, s.Known c := by
  obtain ⟨cs, hcs, rfl, -⟩ := h.wellFormed.unions key u hu
  exact ⟨known_of_candidates hcs, fun c hc => h.wellFormed.known_of_form_union hcs c ((unionKey_perm cs).mem_iff.1 hc)⟩

theorem evolves (hwell : s'.WellFormed) (hchains : s'.ChainsEnd) (he : s.Evolves s')
    (hmentions : ∀ t, s'.shape t ≠ s.shape t → ∀ ref ∈ (s'.shape t).mentions, s'.RefKnown ref)
    (hunions : ∀ key u, s'.unions.get? key = some u → s.unions.get? key = some u ∨ s'.Unites u key) : s'.Intact := by
  refine ⟨hwell, hchains, fun t ref href => ?_, fun key u hu => ?_⟩
  · grind [Evolves.refKnown, mentions]
  · grind [union_key, Evolves.unites, unions]

theorem of_shapes (hwell : s'.WellFormed) (he : s.Evolves s') (hshape : ∀ t, s'.shape t = s.shape t)
    (hunions : s'.unions = s.unions) : s'.Intact := by
  have hchains : s'.ChainsEnd := by
    have hlinks : s'.Links = s.Links := by
      funext t u
      unfold Links
      rw [lazyTarget?_congr (hshape t)]
    unfold ChainsEnd
    rw [hlinks]
    exact h.chainsEnd
  grind [evolves]

theorem added (form : TypeForm) (hform : ∀ ref ∈ form.mentions, s.RefKnown ref) : (s.added form).Intact := by
  have hadmits := s.admits_of_mentions hform
  have he := s.evolves_added form
  refine h.evolves (h.wellFormed.added form hadmits) (h.chainsEnd.added h.wellFormed hadmits) he
    (fun t ht ref href => ?_) fun _ _ hu => .inl hu
  grind [shape_added_of_ne, shape_added_fresh, TypeForm.mentions_unwatched, Evolves.refKnown]

theorem unresolvedImport (path : String) : (TypeStore.unresolvedImport path s).2.Intact := by
  have hwell := (unresolvedImport_sound h.wellFormed path).1
  rw [unresolvedImport_apply] at hwell ⊢
  split at hwell
  · exact h
  · have hadded := h.added (.unresolvedImport path) (by simp [TypeForm.mentions])
    exact { hadded with wellFormed := hwell }

theorem wrap {t : TypeId} (ht : s.Known t) : (TypeStore.wrap t s).2.Intact := by
  obtain ⟨cls, s', heq, hwell, hgrows, -⟩ := wrap_spec h.wellFormed ht
  have happly := wrap_apply t s
  rw [heq] at happly ⊢
  split at happly
  · refine h.of_shapes hwell hgrows.evolves (fun u => ?_) ?_ <;> rw [(Prod.mk.inj happly).2]
    · exact shape_addWatcher _ _ _ u
    · exact unions_addWatcher _ _ _
  · rw [(Prod.mk.inj happly).2]
    exact h

theorem internInstance {cls : TypeId} (hcls : s.Known cls) : (TypeStore.internInstance cls s).2.Intact := by
  obtain ⟨x, s', heq, hwell, -⟩ := internInstance_spec h.wellFormed cls
  have happly := internInstance_apply cls s
  rw [heq] at happly ⊢
  split at happly
  · rw [(Prod.mk.inj happly).2]
    exact h
  · have hadded := h.added (.object (.direct cls)) (by simpa [TypeForm.mentions, RefKnown] using hcls)
    rw [(Prod.mk.inj happly).2] at hwell ⊢
    exact { hadded with wellFormed := hwell }

theorem internLazyInstance {w : SlotId} (hw : s.SlotKnown w) :
    (TypeStore.internLazyInstance (s.slot w).lazy (.slot w) s).2.Intact := by
  obtain ⟨x, s', heq, hwell, -⟩ := internLazyInstance_spec h.wellFormed hw
  have happly := internLazyInstance_apply (s.slot w).lazy (.slot w) s
  rw [heq] at happly ⊢
  split at happly
  · rw [(Prod.mk.inj happly).2]
    exact h
  · have hadded := h.added (.object (.slot w)) (by simpa [TypeForm.mentions, RefKnown] using hw)
    rw [(Prod.mk.inj happly).2] at hwell ⊢
    exact { hadded with wellFormed := hwell }

theorem internUnion {cs : List TypeId} (hcs : s.Eligible cs) : (TypeStore.internUnion cs s).2.Intact := by
  obtain ⟨u, s', heq, hwell, -⟩ := internUnion_spec h.wellFormed (fun c hc => (hcs.2 c hc).1.1) hcs.1
  rcases cs with _ | ⟨c, _ | ⟨d, rest⟩⟩
  · exact h
  · exact h
  · have happly := internUnion_apply c d rest s
    rw [heq] at happly ⊢
    split at happly
    · rw [(Prod.mk.inj happly).2]
      exact h
    · have hadded : (s.added (s.unionForm (c :: d :: rest))).Intact := by
        refine h.added _ ?_
        have hknown : ∀ ref ∈ (c :: d :: rest).map TypeRef.direct, s.RefKnown ref := by
          intro ref href
          obtain ⟨x, hx, rfl⟩ := List.mem_map.1 href
          exact (hcs.2 x hx).1.1
        rcases s.unionForm_cases (c :: d :: rest) with hform | ⟨hform, -⟩ <;> rw [hform] <;> exact hknown
      rw [(Prod.mk.inj happly).2] at hwell ⊢
      refine { hadded with wellFormed := hwell, unions := fun key u hu => ?_ }
      rcases OrderedMap.get?_insert_cases hu with ⟨rfl, rfl⟩ | hu
      · exact hcs.unites
      · exact hadded.unions key u hu

theorem watch (t : TypeId) (w : Watcher) : (s.addWatcher t w).Intact :=
  h.of_shapes (h.wellFormed.addWatcher t w) (s.grows_addWatcher t w).evolves (s.shape_addWatcher t w) (s.unions_addWatcher t w)

theorem resolveLazy (l : TypeId) {target : TypeId} (htarget : s.Known target) : (s.resolveLazy l target).store.Intact := by
  have hwell := (h.wellFormed.resolveLazy l htarget).1
  have he := s.evolves_resolveLazy l target
  cases hl : s.isPending l with
  | false =>
    rw [resolveLazy_of_not_pending hl]
    exact h
  | true =>
    obtain ⟨path, slots, -, -, hstore⟩ := store_resolveLazy hl target
    refine h.evolves hwell (h.chainsEnd.resolveLazy h.wellFormed l target) he (fun t ht ref href =>
      ?_) fun key u hu => .inl ?_
    · have hself : t = l := by
        by_contra hne
        exact ht (shape_resolveLazy hl target hne)
      obtain ⟨path, hafter⟩ := lazyTarget?_eq_some_iff.1 (lazyTarget?_resolveLazy hl target)
      rw [hself, hafter] at href
      rw [List.mem_singleton.1 href]
      exact he.known (h.wellFormed.lazyGoal_known l htarget)
    · rw [hstore] at hu
      exact hu

end

end Intact

theorem kept_intact : Kept Intact where
  wellFormed h := h.wellFormed
  chainsEnd h := h.chainsEnd
  wrap h ht _ := h.wrap ht
  internInstance h hcls _ := h.internInstance hcls
  internLazyInstance h hw _ _ := h.internLazyInstance hw
  internUnion h hcs _ := h.internUnion hcs

theorem Intact.perform (h : s.Intact) {a : StoreAction} (ha : a.InRange s) : (a.perform s).Intact := by
  cases a with
  | alloc form => exact h.added form ha
  | unresolvedImport path => exact h.unresolvedImport path
  | wrap t => exact h.wrap ha
  | watch t w =>
    grind [StoreAction.perform_watch, watch]
  | resolveSlot id target =>
    exact StoreAction.perform_resolveSlot h
      (h.of_shapes (h.wellFormed.redirected id ha.2) (s.evolves_redirected id target) (fun _ => rfl) rfl)
  | resolveLazy lazy target => exact h.resolveLazy lazy ha.2
  | instanceOf cls => exact (kept_intact.instanceOf h ha).1
  | canonical t => exact (kept_intact.canonical h ha).1
  | union left right => exact (kept_intact.union h ha.1 ha.2).1
  | unionOf ts => exact (kept_intact.unionOf h ha).1

theorem intact_new : Intact {} := by
  refine ⟨wellFormed_new, chainsEnd_new, fun t ref href => ?_, by simp⟩
  rw [shape_new] at href
  contradiction

/-- Whether what each of several actions names exists by then. -/
def AllInRange (s : TypeStore) : List StoreAction → Prop
  | [] => True
  | a :: rest => a.InRange s ∧ (a.perform s).AllInRange rest

instance (s : TypeStore) : (as : List StoreAction) → Decidable (s.AllInRange as)
  | [] => inferInstanceAs (Decidable True)
  | a :: rest =>
    have : Decidable ((a.perform s).AllInRange rest) := instDecidableAllInRange (a.perform s) rest
    inferInstanceAs (Decidable (a.InRange s ∧ (a.perform s).AllInRange rest))

theorem Intact.performAll (h : s.Intact) {as : List StoreAction} (has : s.AllInRange as) : (s.performAll as).Intact := by
  induction as generalizing s with
  | nil => exact h
  | cons a rest ih => exact ih (h.perform has.1) has.2

/-! ## The tables as one -/

theorem sorted_unionKey (h : cs.Nodup) : (unionKey cs).Pairwise fun a b => a.index < b.index := by
  have hle : (unionKey cs).Pairwise fun a b => a.index ≤ b.index := by
    have hsorted : (unionKey cs).Pairwise fun a b => decide (a.index ≤ b.index) :=
      List.pairwise_mergeSort (fun a b c hab hbc => by simp only [decide_eq_true_eq] at *; omega)
      (fun a b => by grind) cs
    exact hsorted.imp fun hab => by simpa using hab
  have hne : (unionKey cs).Pairwise (· ≠ ·) := (unionKey_perm cs).nodup_iff.2 h
  refine (hle.and hne).imp fun {a b} hab => ?_
  have hindex : a.index ≠ b.index := fun heq => hab.2 (congrArg TypeId.mk heq)
  omega

namespace Intact

variable {k : InternKey} {t : TypeId}

theorem internKey?_of_interned (h : s.Intact) (ht : s.interned? k = some t) : s.internKey? t = some k := by
  unfold internKey?
  cases k with
  | unresolvedImport path => rw [h.wellFormed.imports path t ht]
  | instanceOf cls => rw [h.wellFormed.instances cls t ht]
  | lazyInstanceOf lazy =>
    obtain ⟨w, hshape, rfl⟩ := h.wellFormed.lazyInstances lazy t ht
    rw [hshape]
  | unionOf key =>
    obtain ⟨cs, hcs, rfl, -⟩ := h.wellFormed.unions key t ht
    rcases candidates?_eq_some_iff.1 hcs with hshape | hshape <;> rw [hshape]

theorem known_of_interned (h : s.Intact) (ht : s.interned? k = some t) : s.Known t ∧ ∀ c ∈ k.types, s.Known c := by
  cases k with
  | unresolvedImport path =>
    refine ⟨known_of_shape ?_, by simp [InternKey.types]⟩
    rw [h.wellFormed.imports path t ht]
    simp
  | instanceOf cls => exact ⟨h.wellFormed.instance_known ht, by simpa [InternKey.types] using h.instance_key ht⟩
  | lazyInstanceOf lazy =>
    obtain ⟨w, -, rfl⟩ := h.wellFormed.lazyInstances lazy t ht
    exact ⟨h.wellFormed.lazyInstance_known ht, by simpa [InternKey.types] using (h.wellFormed.slot_known w).1⟩
  | unionOf key => exact h.union_key ht

end Intact

/-- How a store represents types. -/
structure Represents (s : TypeStore) : Prop where
  unknown_first : s.types[0]? = some .unknown
  mentions_known : ∀ t, ∀ ref ∈ (s.form t).mentions, s.RefKnown ref
  slots_known : ∀ w, s.SlotKnown w → s.Known (s.slot w).lazy ∧ s.Known (s.slot w).target
  interned_known : ∀ k t, s.interned? k = some t → s.Known t ∧ ∀ c ∈ k.types, s.Known c
  union_sorted : ∀ key u, s.unions.get? key = some u → key.Pairwise (fun a b => a.index < b.index) ∧ 2 ≤ key.length
  union_candidates : ∀ key u, s.unions.get? key = some u → ∃ cs, s.candidates? u = some cs ∧ cs.Perm key
  candidate_kind : ∀ key u, s.unions.get? key = some u → ∀ c ∈ key, (s.form c).kind ∉ TypeForm.nestedKinds
  lazy_iff : ∀ key u, s.unions.get? key = some u →
    ((s.form u).kind = "lazy_union" ↔ ∃ c ∈ key, (s.form c).kind = "lazy")
  interned_inj : ∀ k k' t, s.interned? k = some t → s.interned? k' = some t → k = k'

theorem Intact.represents (h : s.Intact) : s.Represents := by
  have hkind : ∀ t, (s.shape t).kind = (s.form t).kind := fun t => TypeForm.kind_unwatched _
  have hunites : ∀ key u, s.unions.get? key = some u → (∀ c ∈ key, (s.form c).kind ∉ TypeForm.nestedKinds) ∧
      ((s.form u).kind = "lazy_union" ↔ ∃ c ∈ key, (s.form c).kind = "lazy") := by
    intro key u hu
    simpa only [Unites, hkind] using h.unions key u hu
  refine ⟨?_, fun t ref href => ?_, fun w _ => h.wellFormed.slot_known w, fun k t => h.known_of_interned, fun key u hu => ?_,
    fun key u hu => ?_, fun key u hu => (hunites key u hu).1, fun key u hu => (hunites key u hu).2, fun k k' t hk hk' => ?_⟩
  · have hform : s.form .unknown = .unknown := form_of_shape (by simp) h.wellFormed.unknown_first
    have hpos : 0 < s.types.size := h.wellFormed.size_pos
    unfold form at hform
    rw [Array.getD_eq_getD_getElem?] at hform
    rw [Array.getElem?_eq_getElem hpos]
    rw [show TypeId.unknown.index = 0 from rfl, Array.getElem?_eq_getElem hpos] at hform
    exact congrArg some hform
  · grind [mentions, shape, TypeForm.mentions_unwatched]
  · obtain ⟨cs, -, rfl, hnodup, hlength, -⟩ := h.wellFormed.unions key u hu
    grind [List.Perm.length_eq, unionKey_perm, sorted_unionKey]
  · obtain ⟨cs, hcs, rfl, -⟩ := h.wellFormed.unions key u hu
    exact ⟨cs, hcs, (unionKey_perm cs).symm⟩
  · have hsame := (h.internKey?_of_interned hk).symm.trans (h.internKey?_of_interned hk')
    exact Option.some.inj hsame

/-- Whatever is done with a store, it represents types in the same way, and no action makes a type
one of another kind. -/
theorem represents_performAll (as : List StoreAction) (has : AllInRange {} as) :
    (performAll {} as).Represents ∧
      ∀ a : StoreAction, a.InRange (performAll {} as) → ∀ t, (performAll {} as).Known t →
        ((a.perform (performAll {} as)).form t).kind = ((performAll {} as).form t).kind := by
  have h := intact_new.performAll has
  refine ⟨h.represents, fun a ha t ht => ?_⟩
  have hkind := (StoreAction.evolves_perform h.wellFormed ha.valid).kind_eq ht
  rwa [shape, shape, TypeForm.kind_unwatched, TypeForm.kind_unwatched] at hkind

/-- Two classes and an import, unions and instances of them, and then the import is looked up. -/
def unionsOfImport : List StoreAction :=
  let cls (name : String) := StoreAction.alloc (.ofClass ⟨name, none, ∅, [], false, .project⟩)
  [cls "A", cls "B", .alloc (.lazy "m.C" (.pending [])), .unionOf [⟨1⟩, ⟨2⟩], .unionOf [⟨3⟩, ⟨1⟩], .union ⟨4⟩ ⟨5⟩,
    .wrap ⟨3⟩, .instanceOf (.slot ⟨0⟩), .instanceOf (.direct ⟨1⟩), .unresolvedImport "x", .resolveLazy ⟨3⟩ ⟨2⟩]

theorem represents_performAll_unionsOfImport :
    AllInRange {} unionsOfImport ∧ (performAll {} unionsOfImport).Represents ∧
      (performAll {} unionsOfImport).unions.keys = [[⟨1⟩, ⟨2⟩], [⟨1⟩, ⟨3⟩], [⟨1⟩, ⟨2⟩, ⟨3⟩]] ∧
      (((StoreAction.canonical ⟨5⟩).perform (performAll {} unionsOfImport)).form ⟨5⟩).kind = "lazy_union" := by
  have hrange : AllInRange {} unionsOfImport := of_decide_eq_true (by cbv)
  obtain ⟨hrepresents, hkind⟩ := represents_performAll unionsOfImport hrange
  refine ⟨hrange, hrepresents, by cbv, ?_⟩
  rw [hkind _ (of_decide_eq_true (by cbv)) _ (of_decide_eq_true (by cbv))]
  cbv

end TypeStore

end PythonTypes
