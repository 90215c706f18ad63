import PythonTypes.Proofs.Types.Tidy

/-!
# What following types keeps up

Following types changes a store in four ways: it wraps a type, and it interns an instance,
the instance of a pending class, or a union of types that are known and no unions themselves
(`Eligible`). So a property of stores that these steps keep is kept by whatever follows types, at
whatever depth (`Kept.keptAt`), and what is found is then followed no further.
-/

set_option autoImplicit false

namespace PythonTypes.TypeStore

variable {s : TypeStore} {s' : TypeStore} {u : TypeId} {cs : List TypeId}

/-- Whether a type exists and is followed no further. -/
def Ends (s : TypeStore) (u : TypeId) : Prop := s.Known u ∧ s.lazyTarget? u = none

/-- Whether types become the candidates of a union as they are. -/
def Eligible (s : TypeStore) (cs : List TypeId) : Prop :=
  cs.Nodup ∧ ∀ c ∈ cs, s.Ends c ∧ (s.shape c).isSingle = true ∧ (s.shape c).isUnknown = false

theorem Ends.grows (hgrows : s.Grows s') (h : s.Ends u) : s'.Ends u :=
  ⟨hgrows.known h.1, (lazyTarget?_congr (hgrows.shape_eq u h.1)).trans h.2⟩

theorem ends_of_isPlain (hu : s.Known u) (hplain : (s.shape u).isPlain = true) : s.Ends u :=
  ⟨hu, lazyTarget?_of_isPlain hplain⟩

theorem WellFormed.unknown_ends (h : s.WellFormed) : s.Ends .unknown :=
  ends_of_isPlain h.unknown_known (by rw [h.unknown_first]; rfl)

theorem Eligible.nil : s.Eligible [] := ⟨List.nodup_nil, by simp⟩

theorem Eligible.grows (hgrows : s.Grows s') (h : s.Eligible cs) : s'.Eligible cs := by
  refine ⟨h.1, fun c hc => ?_⟩
  obtain ⟨hends, hsingle⟩ := h.2 c hc
  rw [hgrows.shape_eq c hends.1]
  exact ⟨hends.grows hgrows, hsingle⟩

theorem Eligible.found (h : s.Eligible cs) : Found (some cs) s := by
  rintro _ ⟨⟩
  exact ⟨h.1, fun c hc => (h.2 c hc).1.1⟩

theorem isUnknown_shape (s : TypeStore) (t : TypeId) : (s.shape t).isUnknown = s.isUnknown t := by
  unfold shape isUnknown
  cases hform : s.form t with
  | lazy path state => cases state <;> rfl
  | _ => rfl

theorem Eligible.insert {t : TypeId} {acc : List TypeId} (ht : s.Ends t) (h : s.Eligible acc) (hnone : s.candidates? t = none)
    (hunknown : s.isUnknown t = false) : s.Eligible (if acc.contains t then acc else acc ++ [t]) := by
  have hsingle : (s.shape t).isSingle = true := by
    cases hshape : s.shape t with
    | union cs => rw [candidates?_eq_some_iff.2 (.inl hshape)] at hnone; contradiction
    | lazyUnion cs => rw [candidates?_eq_some_iff.2 (.inr hshape)] at hnone; contradiction
    | _ => rfl
  rw [← isUnknown_shape] at hunknown
  grind [Eligible]

/-- A property of stores that the steps of following types keep. -/
structure Kept (I : TypeStore → Prop) : Prop where
  wellFormed : ∀ {s}, I s → s.WellFormed
  chainsEnd : ∀ {s}, I s → s.ChainsEnd
  wrap : ∀ {s t}, I s → s.Known t → s.Grows (TypeStore.wrap t s).2 → I (TypeStore.wrap t s).2
  internInstance : ∀ {s cls}, I s → s.Known cls → s.Grows (TypeStore.internInstance cls s).2 →
    I (TypeStore.internInstance cls s).2
  internLazyInstance : ∀ {s w}, I s → s.SlotKnown w → (s.slot w).isResolved = false →
    s.Grows (TypeStore.internLazyInstance (s.slot w).lazy (.slot w) s).2 →
    I (TypeStore.internLazyInstance (s.slot w).lazy (.slot w) s).2
  internUnion : ∀ {s cs}, I s → s.Eligible cs → s.Grows (TypeStore.internUnion cs s).2 → I (TypeStore.internUnion cs s).2

/-- What the functions that follow types keep with the given depth left. -/
abbrev KeptAt (I : TypeStore → Prop) (depth : Nat) : Prop := UpheldAt I Ends Eligible depth

namespace Kept

variable {I : TypeStore → Prop} {mayStop : Prop} {depth : Nat}
variable {t : TypeId} {cls : TypeRef} {ts : List TypeId}

section

variable (hI : Kept I)

include hI

theorem runs_internInstance (h : I s) {cls : TypeId} (hcls : s.Known cls) :
    Runs mayStop s (liftM (TypeStore.internInstance cls) : DeepM TypeId) fun u s' => I s' ∧ s'.Ends u := by
  obtain ⟨x, s', heq, hwell, hgrows, hx⟩ := internInstance_spec (hI.wellFormed h) cls
  have hkept := hI.internInstance h hcls
  rw [heq] at hkept
  refine .lift heq hwell hgrows ⟨hkept hgrows, ends_of_isPlain (hwell.instance_known hx) ?_⟩
  rw [hwell.instances cls x hx]
  rfl

theorem runs_internLazyInstance (h : I s) {w : SlotId} (hw : s.SlotKnown w) (hwaits : (s.slot w).isResolved = false) :
    Runs mayStop s (liftM (TypeStore.internLazyInstance (s.slot w).lazy (.slot w)) : DeepM TypeId)
      fun u s' => I s' ∧ s'.Ends u := by
  obtain ⟨x, s', heq, hwell, hgrows, hx⟩ := internLazyInstance_spec (hI.wellFormed h) hw
  have hkept := hI.internLazyInstance h hw hwaits
  rw [heq] at hkept
  refine .lift heq hwell hgrows ⟨hkept hgrows, ends_of_isPlain (hwell.lazyInstance_known hx) ?_⟩
  obtain ⟨w', hshape, -⟩ := hwell.lazyInstances _ x hx
  rw [hshape]
  rfl

theorem runs_internUnion (h : I s) (hcs : s.Eligible cs) :
    Runs mayStop s (liftM (TypeStore.internUnion cs) : DeepM TypeId) fun u s' => I s' ∧ s'.Ends u := by
  obtain ⟨u, s', heq, hwell, hgrows, hu⟩ := internUnion_spec (hI.wellFormed h) (fun c hc => (hcs.2 c hc).1.1) hcs.1
  have hkept := hI.internUnion h hcs
  rw [heq] at hkept
  refine .lift heq hwell hgrows ⟨hkept hgrows, ?_⟩
  rcases cs with _ | ⟨c, _ | ⟨d, rest⟩⟩
  · cases heq
    exact hwell.unknown_ends
  · cases heq
    exact (hcs.2 u (by simp)).1
  · obtain ⟨cs', hcs', -⟩ := hwell.unions _ u hu
    refine ⟨known_of_candidates hcs', ?_⟩
    rcases candidates?_eq_some_iff.1 hcs' with hshape | hshape <;> exact no_target_of_shape hshape (by simp)

theorem runs_wrap (h : I s) (ht : s.Known t) :
    Runs mayStop s (liftM (TypeStore.wrap t) : DeepM TypeRef) fun cls s' => I s' ∧ s'.RefKnown cls := by
  obtain ⟨cls, s', heq, hwell, hgrows, hcls, -⟩ := wrap_spec (hI.wellFormed h) ht
  grind [wrap, Runs.lift]

theorem upholds : Upholds I Ends Eligible where
  wellFormed := hI.wellFormed
  known h := h.1
  grows := Ends.grows
  unknown h := (hI.wellFormed h).unknown_ends
  derefLazy h ht := ⟨(hI.wellFormed h).derefLazy_known ht, (hI.chainsEnd h).derefLazy_target (hI.wellFormed h) _⟩
  nil := .nil
  collected := Eligible.grows
  insert := Eligible.insert
  wrap := hI.runs_wrap
  internInstance h := hI.runs_internInstance h
  internLazyInstance h := hI.runs_internLazyInstance h
  internUnion h := hI.runs_internUnion h

/-- Following types keeps, at whatever depth, what its steps keep. -/
theorem keptAt (depth : Nat) : KeptAt I depth := hI.upholds.upheldAt depth

theorem within {α : Type} (h : I s) (default : α) {action : Nat → DeepM α} {Q : α → TypeStore → Prop}
    (hruns : Runs True s (action s.depthBound) fun a s' => I s' ∧ Q a s') :
    I (TypeStore.within default action s).2 ∧ s.Evolves (TypeStore.within default action s).2 := by
  have hkept : (TypeStore.within default action s).2.WellFormed ∧ s.Grows (TypeStore.within default action s).2 ∧
      I (TypeStore.within default action s).2 :=
    Runs.within action (hI.wellFormed h) (fun _ => h) (hruns.imp fun _ _ _ _ ha => ha.1)
  exact ⟨hkept.2.2, hkept.2.1.evolves⟩

theorem instanceOf (h : I s) (hcls : s.RefKnown cls) :
    I (TypeStore.instanceOf cls s).2 ∧ s.Evolves (TypeStore.instanceOf cls s).2 :=
  hI.within h _ ((hI.keptAt _).instanceOf h hcls)

theorem canonical (h : I s) (ht : s.Known t) : I (TypeStore.canonical t s).2 ∧ s.Evolves (TypeStore.canonical t s).2 :=
  hI.within h _ ((hI.keptAt _).canonical h ht)

theorem unionOf (h : I s) (hts : ∀ t ∈ ts, s.Known t) : I (TypeStore.unionOf ts s).2 ∧ s.Evolves (TypeStore.unionOf ts s).2 :=
  hI.within h _ ((hI.keptAt _).unionOf h hts)

theorem union (h : I s) {left right : TypeId} (hleft : s.Known left) (hright : s.Known right) :
    I (TypeStore.union left right s).2 ∧ s.Evolves (TypeStore.union left right s).2 := by
  unfold TypeStore.union
  split
  · exact ⟨h, .refl s⟩
  · exact hI.unionOf h (by simp [hleft, hright])

end

end Kept

end PythonTypes.TypeStore
