import PythonTypes.Proofs.Types.Upkeep

/-!
# Following types in a tidy store

Following types keeps a store tidy, at whatever depth, and with the depth that is offered it comes
to an end. Unions of plain types are plain, and the instances of a plain class are instances of
known classes.
-/

set_option autoImplicit false

namespace PythonTypes.TypeStore

variable {cs : List TypeId} {s : TypeStore} {s' : TypeStore}

/-- Whether types may be the candidates of a union. -/
def Singles (s : TypeStore) (cs : List TypeId) : Prop := cs.Nodup ∧ ∀ c ∈ cs, s.Ends c ∧ (s.shape c).isSingle = true

theorem Eligible.singles (h : s.Eligible cs) : s.Singles cs :=
  ⟨h.1, fun c hc => ⟨(h.2 c hc).1, (h.2 c hc).2.1⟩⟩

theorem Singles.grows (hgrows : s.Grows s') (h : s.Singles cs) : s'.Singles cs := by
  refine ⟨h.1, fun c hc => ?_⟩
  obtain ⟨hends, hsingle⟩ := h.2 c hc
  exact ⟨hends.grows hgrows, hgrows.shape_eq c hends.1 ▸ hsingle⟩

theorem Singles.fits (hgrows : s.Grows s') (hne : cs ≠ []) (h : s.Singles cs) : s'.Fits (s.unionForm cs) := by
  have h' := h.grows hgrows
  unfold unionForm
  split
  · exact ⟨by simp [TypeForm.refs], hne, fun c hc => (h'.2 c hc).2⟩
  · rename_i hpending
    refine ⟨by simp [TypeForm.refs], hne, fun c hc => ⟨(h'.2 c hc).2, ?_⟩⟩
    have hnot : s.isPending c = false := by
      have hall := List.any_eq_false.1 (Bool.eq_false_iff.2 hpending) c hc
      simpa using hall
    have hends := (h.2 c hc).1
    refine isPlain_of_isSingle (h'.2 c hc).2 (h'.2 c hc).1.2 ?_
    rw [isPending_congr (hgrows.shape_eq c hends.1)]
    exact hnot

section Interning

theorem Tidy.interned {s' : TypeStore} (h : s.Tidy) (hwell : s'.WellFormed) (hgrows : s.Grows s') (hr : s.Registers s')
    (hcases : s' = s ∨ ∃ form, s'.types = s.types.push form ∧ s'.Fits form.unwatched) : s'.Tidy := by
  grind [push, InStep.registers, inStep]

theorem tidy_internInstance (h : s.Tidy) {cls : TypeId} (hcls : s.Known cls) : (internInstance cls s).2.Tidy := by
  obtain ⟨x, s', heq, hwell, hgrows, hx⟩ := internInstance_spec h.wellFormed cls
  have hr := framed_registers.internInstance cls s
  have hcases := internInstance_apply cls s
  rw [heq] at hr hcases ⊢
  refine h.interned hwell hgrows hr ?_
  split at hcases
  · exact .inl (Prod.mk.inj hcases).2
  · have hcls' : s'.RefKnown (.direct cls) := hgrows.known hcls
    rw [(Prod.mk.inj hcases).2] at hcls' ⊢
    exact .inr ⟨_, rfl, by simpa [TypeForm.unwatched, TypeForm.refs] using hcls', trivial⟩

theorem tidy_internLazyInstance (h : s.Tidy) {w : SlotId} (hw : s.SlotKnown w) :
    (internLazyInstance (s.slot w).lazy (.slot w) s).2.Tidy := by
  obtain ⟨x, s', heq, hwell, hgrows, hx⟩ := internLazyInstance_spec h.wellFormed hw
  have hr := framed_registers.internLazyInstance (s.slot w).lazy w s
  have hcases := internLazyInstance_apply (s.slot w).lazy (.slot w) s
  rw [heq] at hr hcases ⊢
  refine h.interned hwell hgrows hr ?_
  split at hcases
  · exact .inl (Prod.mk.inj hcases).2
  · have hw' : s'.RefKnown (.slot w) := Nat.lt_of_lt_of_le hw hgrows.slots_le
    rw [(Prod.mk.inj hcases).2] at hw' ⊢
    exact .inr ⟨_, rfl, by simpa [TypeForm.unwatched, TypeForm.refs] using hw', trivial⟩

theorem tidy_internUnion (h : s.Tidy) (hcs : s.Singles cs) : (internUnion cs s).2.Tidy := by
  obtain ⟨u, s', heq, hwell, hgrows, hu⟩ := internUnion_spec h.wellFormed (fun c hc => (hcs.2 c hc).1.1) hcs.1
  rcases cs with _ | ⟨c, _ | ⟨d, rest⟩⟩
  · exact h
  · exact h
  · have hr := framed_registers.internUnion (c :: d :: rest) s
    have hcases := internUnion_apply c d rest s
    rw [heq] at hr hcases ⊢
    refine h.interned hwell hgrows hr ?_
    have hfits := hcs.fits hgrows (List.cons_ne_nil _ _)
    have hsame : (s.unionForm (c :: d :: rest)).unwatched = s.unionForm (c :: d :: rest) := by
      rcases s.unionForm_cases (c :: d :: rest) with hform | ⟨hform, -⟩ <;> rw [hform] <;> rfl
    split at hcases
    · exact .inl (Prod.mk.inj hcases).2
    · rw [(Prod.mk.inj hcases).2] at hfits ⊢
      refine .inr ⟨s.unionForm (c :: d :: rest), rfl, ?_⟩
      rw [hsame]
      exact hfits

end Interning

/-- Each step of following types keeps a store tidy. -/
theorem kept_tidy : Kept Tidy where
  wellFormed h := h.wellFormed
  chainsEnd h := h.acyclic.chainsEnd h.wellFormed
  wrap h ht _ := (h.wrap ht).1
  internInstance h hcls _ := tidy_internInstance h hcls
  internLazyInstance h hw _ _ := tidy_internLazyInstance h hw
  internUnion h hcs _ := tidy_internUnion h hcs.singles

theorem tidyAt (depth : Nat) : KeptAt Tidy depth := kept_tidy.keptAt depth

/-! ## With the depth that is offered -/

/-- Whether a type is unknown, one of certain types, or a union of them. -/
inductive MadeOf (s : TypeStore) (D : TypeForm → Prop) (u : TypeId) : Prop
  | unknown : (s.shape u).isUnknown = true → MadeOf s D u
  | single : D (s.shape u) → MadeOf s D u
  | union {cs : List TypeId} : s.shape u = .union cs → (∀ c ∈ cs, D (s.shape c)) → MadeOf s D u

theorem Answers.madeOf (hs : s.WellFormed) {P : Part → Prop} {D : TypeForm → Prop}
    (hD : ∀ f, D f → f.isPlain = true) (hP : ∀ p x, P p → p ≠ .unknown → s.typeOf? p = some x → D (s.shape x)) {u : TypeId}
    (h : s.Answers P u) : s.MadeOf D u := by
  cases h with
  | unknown _ => exact .unknown (by rw [hs.unknown_first]; rfl)
  | @known cs u hnot _ hright _ hne hjoins =>
    have hcs : ∀ c ∈ cs, D (s.shape c) := by
      intro c hc
      obtain ⟨p, hp, hpc⟩ := hright c hc
      refine hP p c hp ?_ hpc
      rintro rfl
      exact hnot hp
    by_cases hlength : 2 ≤ cs.length
    · rw [joins_of_length hlength] at hjoins
      obtain ⟨cs', hcs', hkey, -, -, hlazy⟩ := hs.unions _ u hjoins
      have hmem : ∀ c ∈ cs', D (s.shape c) := fun c hc => hcs c ((unionKey_eq_iff.1 hkey).mem_iff.1 hc)
      rcases candidates?_eq_some_iff.1 hcs' with hshape | hshape
      · exact .union hshape hmem
      · obtain ⟨c, hc, path, state, hstate⟩ := hlazy hshape
        have hplain := hD _ (hmem c hc)
        rw [hstate] at hplain
        contradiction
    · rcases cs with _ | ⟨x, _ | ⟨d, rest⟩⟩
      · contradiction
      · obtain rfl : u = x := hjoins
        exact .single (hcs u (by simp))
      · simp at hlength

namespace Tidy

theorem instancePart_of_isPlain (h : s.Tidy) {c : TypeId} (hc : (s.shape c).isPlain = true)
    {p : Part} (hp : s.InstancePart c p) : p = .unknown ∨ ∃ d, p = .instanceOf d := by
  have hsingle : ∀ d, (s.shape d).isSingle = true → (s.shape d).isPlain = true → s.InstancePart d p →
      p = .unknown ∨ ∃ d, p = .instanceOf d := by
    intro d hsingle hplain hp
    rw [instancePart_iff] at hp
    cases hshape : s.shape d with
    | unknown | unresolvedImport _ => exact .inl (by simpa [hshape] using hp)
    | union cs | lazyUnion cs => simp [hshape, TypeForm.isSingle] at hsingle
    | lazy path state => simp [hshape, TypeForm.isPlain] at hplain
    | _ => exact .inr ⟨d, by simpa [hshape] using hp⟩
  cases hshape : s.shape c with
  | union cs =>
    rw [instancePart_iff, hshape] at hp
    obtain ⟨d, hd, hp⟩ := hp
    exact hsingle d (h.single (candidates?_eq_some_iff.2 (.inl hshape)) hd) (h.plain hshape hd) hp
  | lazyUnion cs => simp [hshape, TypeForm.isPlain] at hc
  | _ => exact hsingle c (by rw [hshape]; rfl) hc hp

theorem hasPart_of_isPlain (h : s.Tidy) {t : TypeId} (ht : (s.shape t).isPlain = true) {p : Part}
    (hp : s.HasPart t p) : p = .unknown ∨ (∃ d, p = .instanceOf d) ∨
      ∃ x, p = .type x ∧ s.Known x ∧ (s.shape x).isSingle = true ∧ (s.shape x).isPlain = true := by
  have hsingle : ∀ d, (s.shape d).isSingle = true → (s.shape d).isPlain = true → s.HasPart d p →
      p = .unknown ∨ (∃ d, p = .instanceOf d) ∨
        ∃ x, p = .type x ∧ s.Known x ∧ (s.shape x).isSingle = true ∧ (s.shape x).isPlain = true := by
    intro d hsingle hplain hp
    cases hp with
    | target htarget _ => grind [lazyTarget?_of_isPlain]
    | candidate hcs _ _ =>
      grind [TypeForm.isSingle, candidates?_eq_some_iff]
    | unknown _ => exact .inl rfl
    | instances _ hw hp => grind [instancePart_of_isPlain, slot_plain]
    | atom hatom => grind [Atom.known]
  cases hshape : s.shape t with
  | union cs =>
    have hcs := candidates?_eq_some_iff.2 (.inl hshape)
    grind [hasPart_of_candidates, single, plain]
  | lazyUnion cs => simp [hshape, TypeForm.isPlain] at ht
  | _ => exact hsingle t (by rw [hshape]; rfl) ht hp

/-- A union of plain types is plain, and is found within the depth that is offered. -/
theorem runs_unionOf_plain (h : s.Tidy) {ts : List TypeId} (hts : ∀ t ∈ ts, s.Known t)
    (hplain : ∀ t ∈ ts, (s.shape t).isPlain = true) :
    Runs False s (unionOfAt s.depthBound ts) fun u s' => s'.Tidy ∧ s'.Known u ∧ (s'.shape u).isPlain = true := by
  by_cases hne : ts = []
  · rw [hne]
    unfold Runs
    rw [unionOfAt_nil]
    refine ⟨h.wellFormed, .refl s, h, h.wellFormed.unknown_known, ?_⟩
    rw [h.wellFormed.unknown_first]
    rfl
  · refine ((h.good.runs_unionOf_parts hts hne).and ((tidyAt _).unionOf h hts)).imp fun u s' hwell hgrows hu => ?_
    refine ⟨hu.2.1, hu.2.2.1, ?_⟩
    have hmade : s'.MadeOf (fun f => f.isSingle = true ∧ f.isPlain = true) u := by
      refine hu.1.madeOf hwell (fun f hf => hf.2) fun p x hp hunknown hx => ?_
      obtain ⟨t, ht, hp⟩ := hp
      rcases h.hasPart_of_isPlain (hplain t ht) hp with rfl | ⟨d, rfl⟩ | ⟨y, rfl, hknown, hy⟩
      · exact absurd rfl hunknown
      · rw [hwell.instances d x hx]
        exact ⟨rfl, rfl⟩
      · obtain rfl : y = x := Option.some.inj hx
        rw [hgrows.shape_eq y hknown]
        exact hy
    cases hmade with
    | unknown hunknown => cases hshape : s'.shape u <;> simp_all [TypeForm.isUnknown, TypeForm.isPlain]
    | single hsingle => exact hsingle.2
    | union hshape _ =>
      rw [hshape]
      rfl

/-- A depth a little above the size of the store is enough to find the instance of a type. -/
theorem runs_instanceOf_direct (h : s.Tidy) {c : TypeId} (hc : s.Known c) {depth : Nat} (hdepth : s.size + 6 ≤ depth) :
    Runs False s (instanceOfAt depth (.direct c)) fun u s' => (s'.Tidy ∧ s'.Ends u) ∧ s'.Answers (s.InstancePart c) u := by
  have hheight := h.acyclic.heightLe_size h.wellFormed c
  have hruns := h.good.orderly.followed.runs_instanceOf hc (fun _ : ¬ False => ⟨hheight, hdepth⟩) h.wellFormed (.refl s)
  have hc' : s.RefKnown (.direct c) := hc
  exact (hruns.and ((tidyAt depth).instanceOf h hc')).imp fun u s' _ _ hu => ⟨hu.2, hu.1.2 h.good.noEmptyUnion⟩

end Tidy

end PythonTypes.TypeStore
