import PythonTypes.Proofs.Types.Answer

/-!
# Unions join the parts of their types

In an orderly store, the answer of a union joins the parts of the given types unless it gives up
(`Orderly.runs_unionOf_parts`), and in a good store `unionOf` has enough depth
(`Good.unionOf_answers`). Types that are settled need a depth that does not depend on the store. The
types that were there at the start need a depth that grows with their height, and all that they lead
to is settled.
-/

set_option autoImplicit false

namespace PythonTypes.TypeStore

variable {acc ts : List TypeId} {depth : Nat} {mayStop : Prop} {s : TypeStore} {t : TypeId}
variable {canonical : TypeId → DeepM TypeId} {flatten : List TypeId → List TypeId → DeepM (Option (List TypeId))}
variable {P : TypeId → Part → Prop} {E : TypeId → Prop} {f : TypeForm} {s' : TypeStore}

/-- What flattening adds to the candidates found before: the types that the parts are, or nothing
more to find once one of them is unknown. -/
inductive Collects (s : TypeStore) (P : Part → Prop) (acc : List TypeId) : Option (List TypeId) → Prop
  | unknown : P .unknown → Collects s P acc none
  | known {acc' : List TypeId} : ¬ P .unknown → acc'.Nodup → (∀ x ∈ acc', s.Known x) →
      (∀ x ∈ acc, x ∈ acc') → (∀ p, P p → ∃ x ∈ acc', s.typeOf? p = some x) →
      (∀ x ∈ acc', x ∈ acc ∨ s.Denotes P x) → Collects s P acc (some acc')

namespace Collects

variable {P Q : Part → Prop} {r : Option (List TypeId)}

theorem found (h : s.Collects P acc r) : Found r s := by
  cases h with
  | unknown => exact .none
  | known _ hnodup hknown =>
    rintro _ ⟨⟩
    exact ⟨hnodup, hknown⟩

theorem nil (hacc : Found (some acc) s) (hP : ∀ p, ¬ P p) : s.Collects P acc (some acc) :=
  .known (hP _) (hacc acc rfl).1 (hacc acc rfl).2 (fun _ hx => hx) (fun p hp => absurd hp (hP p)) fun _ hx => .inl hx

theorem insert (hacc : Found (some acc) s) (ht : s.Known t) (hP : ∀ p, P p ↔ p = .type t) :
    s.Collects P acc (some (if acc.contains t then acc else acc ++ [t])) := by
  obtain ⟨hnodup, hknown⟩ := hacc.nodup_insert ht _ rfl
  have hmem : ∀ x, x ∈ (if acc.contains t then acc else acc ++ [t]) ↔ x ∈ acc ∨ x = t := by
    intro x
    split
    · rename_i hcontains
      have ht : t ∈ acc := by simpa using hcontains
      exact ⟨.inl, fun h => h.elim id fun h => h ▸ ht⟩
    · rw [List.mem_append, List.mem_singleton]
  refine .known (fun h => Part.noConfusion ((hP _).1 h)) hnodup hknown
    (fun x hx => (hmem x).2 (.inl hx)) (fun p hp => ?_) fun x hx => ?_
  · exact ⟨t, (hmem t).2 (.inr rfl), (hP p).1 hp ▸ rfl⟩
  · exact ((hmem x).1 hx).imp_right fun h => ⟨.type t, (hP _).2 rfl, congrArg some h.symm⟩

theorem trans {s' : TypeStore} {acc' : List TypeId} (h : s.Collects P acc (some acc'))
    (hgrows : s.Grows s') (h' : s'.Collects Q acc' r) : s'.Collects (fun p => P p ∨ Q p) acc r := by
  cases h with
  | known hP _ _ hkeeps hleft hright =>
    cases h' with
    | unknown hQ => exact .unknown (.inr hQ)
    | known hQ hnodup hknown hkeeps' hleft' hright' =>
      refine .known (fun h => h.elim hP hQ) hnodup hknown (fun x hx => hkeeps' x (hkeeps x hx))
        (fun p hp => ?_) fun x hx => ?_
      · grind [Grows.typeOf?]
      · rcases hright' x hx with hx | ⟨q, hq, hqx⟩
        · rcases hright x hx with hx | ⟨p, hp, hpx⟩
          · exact .inl hx
          · exact .inr ⟨p, .inl hp, hgrows.typeOf? hpx⟩
        · exact .inr ⟨q, .inr hq, hqx⟩

theorem congr (h : s.Collects P acc r) (hPQ : s.Same P Q) : s.Collects Q acc r := by
  cases h with
  | unknown hP => exact .unknown (hPQ.unknown_iff.1 hP)
  | known hP hnodup hknown hkeeps hleft hright =>
    refine .known (mt hPQ.unknown_iff.2 hP) hnodup hknown hkeeps (fun q hq => ?_) fun x hx => ?_
    · obtain ⟨x, hqx, p, hp, hpx⟩ := hPQ.right hP q hq
      grind
    · refine (hright x hx).imp_right ?_
      rintro ⟨p, hp, hpx⟩
      obtain ⟨y, hpy, q, hq, hqy⟩ := hPQ.left hP p hp
      exact ⟨q, hq, hqy.trans (hpy.symm.trans hpx)⟩

theorem of_iff (h : s.Collects P acc r) (hPQ : ∀ p, P p ↔ Q p) : s.Collects Q acc r :=
  (funext fun p => propext (hPQ p) : P = Q) ▸ h

end Collects

theorem runs_flattenStep {C : Prop} {J : Option (List TypeId) → TypeStore → Prop} (hfound : ∀ {r s}, J r s → Found r s)
    (ts : List TypeId) (hs : s.WellFormed) (hacc : J (some acc) s)
    (h : ∀ t ∈ ts, ∀ s' acc, s'.WellFormed → s.Grows s' → J (some acc) s' →
      Runs mayStop s' (contribute canonical flatten t acc)
      fun r s'' => J r s'' ∧ (C → s''.Collects (P t) acc r ∧ E t)) :
    Runs mayStop s (flattenStep canonical flatten ts acc) fun r s' =>
      J r s' ∧ (C → s'.Collects (fun p => ∃ t ∈ ts, P t p) acc r ∧ (ts ≠ [] → ∃ t ∈ ts, E t)) := by
  induction ts generalizing s acc with
  | nil =>
    grind [flattenStep, Runs.pure, Collects.nil]
  | cons t rest ih =>
    rw [flattenStep_cons]
    refine (h t (by simp) s acc hs (.refl s) hacc).bind fun r s' hs' hgrows hcollects => ?_
    obtain ⟨hJ, hr⟩ := hcollects
    have hsome : C → t :: rest ≠ [] → ∃ u ∈ t :: rest, E u := fun hC _ => ⟨t, by simp, (hr hC).2⟩
    cases r with
    | none =>
      refine .pure hs' ⟨hJ, fun hC => ⟨?_, hsome hC⟩⟩
      cases (hr hC).1 with
      | unknown hunknown => exact .unknown ⟨t, by simp, hunknown⟩
    | some acc' =>
      grind [Runs.imp, Grows.trans, Collects.trans]

theorem Collects.answers {P : Part → Prop} {cs : List TypeId} {u : TypeId} (h : s.Collects P [] (some cs))
    (hP : ∃ p, P p) (hgrows : s.Grows s') (hu : s'.Joins cs u) : s'.Answers P u := by
  cases h with
  | known hknown hnodup _ _ hleft hright =>
    have hne : cs ≠ [] := by
      obtain ⟨p, hp⟩ := hP
      obtain ⟨x, hx, -⟩ := hleft p hp
      exact List.ne_nil_of_mem hx
    refine .known hknown (fun p hp => ?_) (fun x hx => ?_) hnodup hne hu
    · grind [Grows.typeOf?]
    · rcases hright x hx with hx | ⟨p, hp, hpx⟩
      · exact absurd hx List.not_mem_nil
      · exact ⟨p, hp, hgrows.typeOf? hpx⟩

theorem runs_unionOf {P : Part → Prop}
    (h : Runs mayStop s (flattenAt depth ts []) fun r s' => s'.Collects P [] r ∧ ∃ p, P p) :
    Runs mayStop s (unionOfAt (depth + 1) ts) fun u s' => s'.Answers P u := by
  rw [unionOfAt]
  refine h.bind fun r s' hs' _ hr => ?_
  cases r with
  | none =>
    cases hr.1 with
    | unknown hunknown => exact .pure hs' (.unknown hunknown)
  | some cs => exact (runs_internUnion hs' hr.1.found).imp fun u s'' _ hgrows hu => hr.1.answers hr.2 hgrows hu

theorem Runs.tooDeep {α : Type} {Q : α → TypeStore → Prop} (h : ¬ ¬ mayStop) :
    Runs mayStop s (TypeStore.tooDeep : DeepM α) Q :=
  show mayStop from by_contra h

/-! ## Settled types -/

theorem derefLazy_of_no_target (h : s.lazyTarget? t = none) : s.derefLazy t = t := by
  unfold derefLazy
  cases s.size with
  | zero => rfl
  | succ fuel =>
    unfold derefWithin
    rw [h]

theorem Atom.no_target (h : s.Atom t) : s.lazyTarget? t = none := by
  refine Option.eq_none_iff_forall_not_mem.2 fun u hu => ?_
  obtain ⟨path, hshape⟩ := lazyTarget?_eq_some_iff.1 hu
  rw [Atom, hshape] at h
  exact h

theorem Settled.no_target (h : s.Settled t) : s.lazyTarget? t = none := by
  cases h with
  | unknown _ hunknown =>
    refine Option.eq_none_iff_forall_not_mem.2 fun u hu => ?_
    obtain ⟨path, hshape⟩ := lazyTarget?_eq_some_iff.1 hu
    rw [hshape] at hunknown
    contradiction
  | atom hatom => exact hatom.no_target
  | union hcs =>
    refine Option.eq_none_iff_forall_not_mem.2 fun u hu => ?_
    obtain ⟨path, hshape⟩ := lazyTarget?_eq_some_iff.1 hu
    rcases candidates?_eq_some_iff.1 hcs with h | h <;> exact absurd (h.symm.trans hshape) (by simp)

theorem form_of_shape (hf : ∀ path ws, f ≠ .lazy path (.pending ws)) (h : s.shape t = f) : s.form t = f :=
  (shape_eq_iff hf).1 h

theorem shape_of_form (h : s.form t = f) : s.shape t = f.unwatched :=
  congrArg TypeForm.unwatched h

/-- Whether a type is followed no further: it is not resolved to another, and what it waits for, if
it does, is pending. -/
structure Rests (s : TypeStore) (t : TypeId) : Prop where
  no_target : s.lazyTarget? t = none
  waits : ∀ w, s.shape t = .object (.slot w) → (s.slot w).isResolved = false
  pending : ∀ cs, s.shape t = .lazyUnion cs → ∃ c ∈ cs, s.isPending (s.derefLazy c) = true

theorem Rests.runs_canonical (hs : s.WellFormed) (h : s.Rests t)
    (hdepth : ¬ mayStop → 1 ≤ depth) : Runs mayStop s (canonicalAt depth t) fun u s' => u = t ∧ s' = s := by
  cases depth with
  | zero => exact .tooDeep fun hstop => absurd (hdepth hstop) (by omega)
  | succ depth =>
    have hsame : Runs mayStop s (pure t : DeepM TypeId) fun u s' => u = t ∧ s' = s := .pure hs ⟨rfl, rfl⟩
    rw [canonicalAt]
    unfold canonicalStep
    refine .get_bind ?_
    dsimp only
    rw [derefLazy_of_no_target h.no_target]
    cases hform : s.form t with
    | object cls =>
      cases cls with
      | direct c => exact hsame
      | slot w =>
        dsimp only
        rw [if_neg (by simp [isResolved, h.waits w (shape_of_form hform)])]
        exact hsame
    | lazyUnion cs =>
      dsimp only
      rw [if_pos (List.any_eq_true.2 (h.pending cs (shape_of_form hform)))]
      exact hsame
    | _ => exact hsame

theorem Settled.rests (h : s.Settled t) : s.Rests t := by
  refine ⟨h.no_target, fun w hw => ?_, fun cs hcs => ?_⟩ <;> cases h with
  | unknown _ hunknown =>
    simp_all [TypeForm.isUnknown]
  | atom hatom =>
    simp_all [Atom]
  | union hcandidates hatoms hpending =>
    grind [candidates?_eq_some_iff, derefLazy_of_no_target, Atom.no_target]

theorem runs_addType_single (hs : s.WellFormed) (hnone : s.candidates? t = none) (hunknown : (s.shape t).isUnknown = false)
    (acc : List TypeId) (flatten : List TypeId → List TypeId → DeepM (Option (List TypeId))) :
    Runs mayStop s (addType flatten t acc) fun r s' => r = some (if acc.contains t then acc else acc ++ [t]) ∧ s' = s := by
  unfold addType
  refine .get_bind ?_
  cases hform : s.form t with
  | unknown | unresolvedImport _ => simp [shape_of_form hform, TypeForm.unwatched, TypeForm.isUnknown] at hunknown
  | union _ => simp [candidates?_of_union hform] at hnone
  | lazyUnion _ => simp [candidates?_of_lazyUnion hform] at hnone
  | _ => exact .pure hs ⟨rfl, rfl⟩

theorem runs_addType_unknown (hs : s.WellFormed) (hunknown : (s.shape t).isUnknown = true)
    (acc : List TypeId) (flatten : List TypeId → List TypeId → DeepM (Option (List TypeId))) :
    Runs mayStop s (addType flatten t acc) fun r s' => r = none ∧ s' = s := by
  unfold addType
  refine .get_bind ?_
  cases hform : s.form t with
  | unknown | unresolvedImport _ => exact .pure hs ⟨rfl, rfl⟩
  | lazy path state => cases state <;> simp [shape_of_form hform, TypeForm.unwatched, TypeForm.isUnknown] at hunknown
  | _ => simp [shape_of_form hform, TypeForm.unwatched, TypeForm.isUnknown] at hunknown

theorem runs_addType_candidates {cs : List TypeId} {Q : Option (List TypeId) → TypeStore → Prop}
    (hcs : s.candidates? t = some cs) (h : Runs mayStop s (flatten cs acc) Q) : Runs mayStop s (addType flatten t acc) Q := by
  unfold addType
  refine .get_bind ?_
  rcases candidates?_eq_some_iff.1 hcs with hshape | hshape <;> rw [form_of_shape (by simp) hshape] <;> exact h

theorem Atom.candidates?_eq_none (h : s.Atom t) : s.candidates? t = none := by
  cases hcs : s.candidates? t with
  | none => rfl
  | some cs =>
    grind [candidates?_eq_some_iff, eq_1]

theorem runs_addType_atom (hs : s.WellFormed) (ht : s.Atom t)
    (hacc : Found (some acc) s) (flatten : List TypeId → List TypeId → DeepM (Option (List TypeId))) :
    Runs mayStop s (addType flatten t acc) fun r s' => s'.Collects (· = .type t) acc r := by
  have hunknown : (s.shape t).isUnknown = false := by
    unfold Atom at ht
    cases hshape : s.shape t <;> simp_all [TypeForm.isUnknown]
  refine (runs_addType_single hs ht.candidates?_eq_none hunknown acc flatten).imp ?_
  rintro r s' - - ⟨rfl, rfl⟩
  exact .insert hacc ht.known fun p => .rfl

theorem Settled.grows (hs : s.WellFormed) (hgrows : s.Grows s') (h : s.Settled t) : s'.Settled t := by
  cases h with
  | unknown hknown hunknown => exact .unknown (hgrows.known hknown) ((hgrows.shape_eq t hknown).symm ▸ hunknown)
  | atom hatom => exact .atom ((hgrows.atom_iff hs hatom.known).2 hatom)
  | union hcs hatoms hpending =>
    have hshape := hgrows.shape_eq t (known_of_candidates hcs)
    refine .union ((candidates?_congr hshape).trans hcs)
      (fun c hc => (hgrows.atom_iff hs (hatoms c hc).known).2 (hatoms c hc)) fun hlazy => ?_
    grind [isPending_congr, Grows.shape_eq, Atom.known]

theorem Settled.known (h : s.Settled t) : s.Known t := by
  cases h with
  | unknown hknown => exact hknown
  | atom hatom => exact hatom.known
  | union hcs => exact known_of_candidates hcs

theorem Settled.exists_hasPart (h : s.NoEmptyUnion) (ht : s.Settled t) : ∃ p, s.HasPart t p := by
  cases ht with
  | unknown _ hunknown => exact ⟨_, .unknown hunknown⟩
  | atom hatom => exact ⟨_, .atom hatom⟩
  | @union cs hcs hatoms =>
    obtain ⟨c, hc⟩ := List.exists_mem_of_ne_nil cs (h t cs hcs)
    exact ⟨_, .candidate hcs hc (.atom (hatoms c hc))⟩

section Settled

variable {cs : List TypeId} {r : Option (List TypeId)} {s' : TypeStore}

theorem runs_flatten_each (hs : s.WellFormed) (hcs : ∀ c ∈ cs, s.Settled c)
    (hacc : Found (some acc) s) (hdepth : ¬ mayStop → 2 ≤ depth) (hadd : ∀ c ∈ cs, ∀ s' acc, s'.WellFormed → s.Grows s' →
      Found (some acc) s' → Runs mayStop s' (addType (flattenAt (depth - 1)) c acc) fun r s'' => s''.Collects (P c) acc r) :
    Runs mayStop s (flattenAt depth cs acc) fun r s' => s'.Collects (fun p => ∃ c ∈ cs, P c p) acc r := by
  cases depth with
  | zero => exact .tooDeep fun hstop => absurd (hdepth hstop) (by omega)
  | succ depth =>
    have hcanonical : ¬ mayStop → 1 ≤ depth := fun hstop => Nat.le_of_succ_le_succ (hdepth hstop)
    rw [flattenAt]
    refine (runs_flattenStep (C := True) (E := fun _ => True) id cs hs hacc
      fun c hc s' acc hs' hgrows hacc => ?_).imp fun r s' _ _ hr => (hr.2 trivial).1
    refine (((hcs c hc).grows hs hgrows).rests.runs_canonical hs' hcanonical).bind fun v s'' _ _ hv => ?_
    grind [Collects.found]

theorem runs_flatten_atoms (hs : s.WellFormed) (hcs : ∀ c ∈ cs, s.Atom c)
    (hacc : Found (some acc) s) (hdepth : ¬ mayStop → 2 ≤ depth) :
    Runs mayStop s (flattenAt depth cs acc) fun r s' => s'.Collects (fun p => ∃ c ∈ cs, p = .type c) acc r :=
  runs_flatten_each hs (fun c hc => .atom (hcs c hc)) hacc hdepth fun c hc _ _ hs' hgrows hacc =>
    runs_addType_atom hs' ((hgrows.atom_iff hs (hcs c hc).known).2 (hcs c hc)) hacc _

theorem runs_addType_settled (hs : s.WellFormed) {u : TypeId} (hu : s.Settled u)
    (hacc : Found (some acc) s) (hdepth : ¬ mayStop → 2 ≤ depth) :
    Runs mayStop s (addType (flattenAt depth) u acc) fun r s' => s'.Collects (s.HasPart u) acc r := by
  cases hu with
  | unknown _ hunknown =>
    refine (runs_addType_unknown hs hunknown acc _).imp ?_
    rintro r s' - - ⟨rfl, rfl⟩
    exact .unknown (.unknown hunknown)
  | atom hatom =>
    grind [runs_addType_atom, Collects.of_iff, hasPart_of_atom]
  | @union cs hcs hatoms =>
    have hparts : ∀ p, (∃ c ∈ cs, p = .type c) ↔ s.HasPart u p := by
      intro p
      rw [hasPart_of_candidates hcs]
      exact exists_congr fun c => and_congr_right fun hc => (hasPart_of_atom (hatoms c hc)).symm
    exact runs_addType_candidates hcs ((runs_flatten_atoms hs hatoms hacc hdepth).imp fun r s' _ _ hr => hr.of_iff hparts)

theorem runs_flatten_settled (hs : s.WellFormed) {us : List TypeId}
    (hus : ∀ u ∈ us, s.Settled u) (hacc : Found (some acc) s) (hdepth : ¬ mayStop → 3 ≤ depth) :
    Runs mayStop s (flattenAt depth us acc) fun r s' => s'.Collects (fun p => ∃ u ∈ us, s.HasPart u p) acc r := by
  refine runs_flatten_each hs hus hacc (fun hstop => Nat.le_of_succ_le (hdepth hstop)) fun u hu s' acc hs' hgrows hacc => ?_
  refine (runs_addType_settled hs' ((hus u hu).grows hs hgrows) hacc fun hstop => ?_).imp
    fun r s'' _ _ hr => hr.of_iff fun p => hgrows.hasPart_iff hs (hus u hu).known
  have hle := hdepth hstop
  omega

/-! ## Atoms among the candidates -/

/-- Whether the candidates found, if they are not unknown, are atoms and without repetitions. -/
def FoundAtoms (r : Option (List TypeId)) (s : TypeStore) : Prop :=
  ∀ acc, r = some acc → acc.Nodup ∧ ∀ x ∈ acc, s.Atom x

theorem FoundAtoms.nil : FoundAtoms (some []) s := by
  rintro _ ⟨⟩
  simp

theorem FoundAtoms.found {r : Option (List TypeId)} (h : FoundAtoms r s) : Found r s :=
  fun acc hacc => ⟨(h acc hacc).1, fun x hx => ((h acc hacc).2 x hx).known⟩

theorem FoundAtoms.grows (h : FoundAtoms r s) (hs : s.WellFormed) (hgrows : s.Grows s') :
    FoundAtoms r s' :=
  fun acc hacc => ⟨(h acc hacc).1, fun x hx => (hgrows.atom_iff hs ((h acc hacc).2 x hx).known).2 ((h acc hacc).2 x hx)⟩

theorem Collects.foundAtoms {P : Part → Prop} (h : s'.Collects P acc r) (hs : s.WellFormed)
    (hgrows : s.Grows s') (hacc : FoundAtoms (some acc) s)
    (hP : ∀ p, P p → ∃ u, s.Settled u ∧ s.HasPart u p) : FoundAtoms r s' := by
  rintro _ ⟨⟩
  cases h with
  | known hknown hnodup _ _ _ hright =>
    refine ⟨hnodup, fun x hx => ?_⟩
    rcases hright x hx with hx | ⟨p, hp, hpx⟩
    · exact (hacc.grows hs hgrows _ rfl).2 x hx
    · obtain ⟨u, hu, hup⟩ := hP p hp
      rcases hu.eq_unknown_or_type hup with rfl | ⟨y, rfl⟩
      · exact absurd hp hknown
      · cases hpx
        have hatom : s.Atom x := hup.genuine (by simp)
        exact (hgrows.atom_iff hs hatom.known).2 hatom

theorem settled_unknown (hs : s.WellFormed) : s.Settled .unknown :=
  .unknown hs.unknown_known (by rw [hs.unknown_first]; rfl)

/-- The union of what flattening finds is settled if that is atoms, and answers the parts where it
collects these. -/
theorem runs_unionOf_atoms {C : Prop} {P : Part → Prop} (h : Runs mayStop s (flattenAt depth ts []) fun r s' =>
      FoundAtoms r s' ∧ (C → s'.Collects P [] r ∧ ∃ p, P p)) :
    Runs mayStop s (unionOfAt (depth + 1) ts) fun u s' => s'.Settled u ∧ (C → s'.Answers P u) := by
  rw [unionOfAt]
  refine h.bind fun r s' hs' _ hr => ?_
  cases r with
  | none =>
    refine .pure hs' ⟨settled_unknown hs', fun hC => ?_⟩
    cases (hr.2 hC).1 with
    | unknown hunknown => exact .unknown hunknown
  | some cs =>
    refine (runs_internUnion hs' hr.1.found).imp fun u s'' hs'' hgrows hu =>
      ⟨?_, fun hC => (hr.2 hC).1.answers (hr.2 hC).2 hgrows hu⟩
    by_cases hne : cs = []
    · subst hne
      cases hu
      exact settled_unknown hs''
    · exact (hu.settled hs'' hne (hr.1.grows hs' hgrows cs rfl).2).1

end Settled

/-! ## Instances -/

section FromStart

variable {s0 : TypeStore}
variable {cs : List TypeId} {n : Nat} {u : TypeId} {d : TypeId}

/-- A store in which lazy types can be followed, and no slot has been redirected while its lazy type
is pending. -/
structure Followed (s : TypeStore) : Prop where
  wellFormed : s.WellFormed
  chainsEnd : s.ChainsEnd
  slotsFollow : s.SlotsFollow

theorem Orderly.followed (h : s.Orderly) : s.Followed := ⟨h.wellFormed, h.chainsEnd, h.slotsFollow⟩

theorem Followed.settled (h0 : s0.Followed) (hs : s.WellFormed) (hgrows : s0.Grows s) {P : Part → Prop}
    (hgenuine : ∀ p, P p → p ≠ .unknown → s0.Genuine p) (hu : s.Answers P u) : s.Settled u ∧ s.Same P (s.HasPart u) :=
  hu.settled hs (h0.slotsFollow.grows h0.wellFormed hgrows) fun p hp hne => hgrows.genuine h0.wellFormed (hgenuine p hp hne)

theorem Followed.runs_unionOf_answers (h0 : s0.Followed) (hs : s.WellFormed) (hgrows : s0.Grows s)
    {us : List TypeId} {C : Prop}
    (hgenuine : ∀ c ∈ cs, ∀ p, P c p → p ≠ .unknown → s0.Genuine p) (hne : C → cs ≠ [])
    (hus : Runs.Answered (fun c u s => s.Settled u ∧ (C → s.Answers (P c) u)) cs us s) (hdepth : ¬ mayStop → 4 ≤ depth) :
    Runs mayStop s (unionOfAt depth us) fun u s' => s'.Settled u ∧ (C → s'.Answers (fun p => ∃ c ∈ cs, P c p) u) := by
  have hsettled : ∀ u ∈ us, s.Settled u := by
    intro u hu
    obtain ⟨c, -, hsettled, -⟩ := hus.1 u hu
    exact hsettled
  have hsame : C → s.Same (fun p => ∃ u ∈ us, s.HasPart u p) fun p => ∃ c ∈ cs, P c p := by
    refine fun hC => Same.biUnion (fun u hu => ?_) fun c hc => ?_
    · obtain ⟨c, hc, -, hanswer⟩ := hus.1 u hu
      exact ⟨c, hc, (h0.settled hs hgrows (hgenuine c hc) (hanswer hC)).2.symm⟩
    · obtain ⟨u, hu, -, hanswer⟩ := hus.2 c hc
      exact ⟨u, hu, (h0.settled hs hgrows (hgenuine c hc) (hanswer hC)).2.symm⟩
  have hsome : C → ∃ p, ∃ c ∈ cs, P c p := by
    intro hC
    obtain ⟨c, hc⟩ := List.exists_mem_of_ne_nil cs (hne hC)
    obtain ⟨u, -, -, hanswer⟩ := hus.2 c hc
    obtain ⟨p, hp⟩ := (hanswer hC).exists_part
    exact ⟨p, c, hc, hp⟩
  cases depth with
  | zero => exact .tooDeep fun hstop => absurd (hdepth hstop) (by omega)
  | succ depth =>
    refine runs_unionOf_atoms ((runs_flatten_settled hs hsettled .nil ?_).imp fun r s' _ hgrows' hr => ?_)
    · simp_all
    · refine ⟨hr.foundAtoms hs hgrows' .nil fun p hp => ?_, fun hC => ⟨hr.congr ((hsame hC).grows hgrows'), hsome hC⟩⟩
      obtain ⟨u, hu, hp⟩ := hp
      exact ⟨u, hsettled u hu, hp⟩

theorem runs_wrap_instanceOf (hs : s.WellFormed) {l : TypeId} (hpending : s.isPending l = true)
    (hdepth : ¬ mayStop → 1 ≤ depth) :
    Runs mayStop s (do let cls ← (wrap l : StoreM TypeRef); instanceOfAt depth cls)
      fun x s' => s'.lazyInstances.get? l = some x := by
  have hatom : s.Atom l := by
    obtain ⟨path, hshape⟩ := isPending_iff.1 hpending
    rw [Atom, hshape]
    trivial
  refine (runs_wrap hs hatom.known).bind fun cls s' hs' _ hcls => ?_
  cases depth with
  | zero => exact .tooDeep fun hstop => absurd (hdepth hstop) (by omega)
  | succ depth =>
    rw [derefLazy_of_no_target hatom.no_target] at hcls
    obtain ⟨w, rfl, -, rfl⟩ := awaited?_eq_some (hcls.2 hpending)
    rw [instanceOfAt]
    unfold instanceStep
    refine .get_bind ?_
    rw [hcls.2 hpending]
    exact runs_internLazyInstance hs' hcls.1

/-- The instances of a class that was there at the start. They are found if at most `n` steps lead
from the class to what it stands for and there is depth for them. -/
theorem Followed.runs_instanceOf (h0 : s0.Followed) {c : TypeId} (hc : s0.Known c)
    (hdepth : ¬ mayStop → s0.HeightLe n c ∧ n + 6 ≤ depth) (hs : s.WellFormed)
    (hgrows : s0.Grows s) : Runs mayStop s (instanceOfAt depth (.direct c)) fun u s' =>
      s'.Settled u ∧ (s0.NoEmptyUnion → s'.Answers (s0.InstancePart c) u) := by
  induction depth generalizing n c s with
  | zero => exact .tooDeep fun hstop => absurd (hdepth hstop).2 (by omega)
  | succ depth ih =>
    have hderef := h0.chainsEnd.derefs h0.wellFormed hc
    have hanswer : ∀ {u s'}, s'.WellFormed → s.Grows s' → s'.Answers (s0.InstancePart c) u →
        s'.Settled u ∧ (s0.NoEmptyUnion → s'.Answers (s0.InstancePart c) u) := fun hs' hgrows' hu =>
      ⟨(h0.settled hs' (hgrows.trans hgrows') (fun _ hp => hp.genuine) hu).1, fun _ => hu⟩
    rw [instanceOfAt]
    unfold instanceStep
    refine .get_bind ?_
    dsimp only [awaited?, target]
    rw [hgrows.derefLazy_eq h0.wellFormed h0.chainsEnd hc]
    generalize s0.derefLazy c = d at hderef
    have hshape : s0.shape d = s.shape d := (hgrows.shape_eq d hderef.known).symm
    have hparts : ∀ p, s0.InstancePart c p ↔ _ := fun p => (hderef.instancePart_iff p).trans instancePart_iff
    cases hform : s.form d with
    | unknown | unresolvedImport path =>
      rw [hshape.trans (shape_of_form hform)] at hparts
      exact .pure hs (hanswer hs (.refl s) (.unknown ((hparts _).2 rfl)))
    | union cs =>
      have hd : s0.shape d = .union cs := hshape.trans (shape_of_form hform)
      have hcs := candidates?_eq_some_iff.2 (.inl hd)
      rw [hd] at hparts
      have hinstances : Runs mayStop s (cs.mapM fun c' => instanceOfAt depth (.direct c')) fun us s' => s'.WellFormed ∧
          Runs.Answered (fun c' u s' => s'.Settled u ∧ (s0.NoEmptyUnion → s'.Answers (s0.InstancePart c') u)) cs us s' := by
        refine .mapM_keeping cs hs hs (fun _ _ _ _ _ _ hs' hgrows hu =>
          ⟨hu.1.grows hs' hgrows, fun hC => (hu.2 hC).grows hgrows⟩)
          fun c' hc' s' hs' hgrows' _ => ?_
        have hunfolds : s0.Unfolds d c' := .inr ⟨cs, hcs, hc'⟩
        refine (ih (n := n - 1) (h0.wellFormed.unfolds_known hunfolds)
          (fun hstop => ?_) hs' (hgrows.trans hgrows')).imp fun _ _ hs'' _ hu => ⟨hs'', hu⟩
        obtain ⟨m, rfl, hm⟩ := (hderef.heightLe n (hdepth hstop).1).of_unfolds hunfolds
        have hle := (hdepth hstop).2
        exact ⟨hm, by omega⟩
      refine hinstances.bind fun us s' hs' hgrows' hus => ?_
      refine (h0.runs_unionOf_answers hs' (hgrows.trans hgrows') (fun _ _ p hp => hp.genuine) (fun hC => hC d cs hcs)
        hus.2 fun hstop => ?_).imp fun u s'' _ _ hu => ⟨hu.1, fun hC => (hu.2 hC).of_iff fun p => (hparts p).symm⟩
      have hle := (hdepth hstop).2
      omega
    | lazy path state =>
      cases state with
      | resolved u =>
        -- resolved lazy types have been followed before
        have htarget := lazyTarget?_eq_some_iff.2 ⟨path, hshape.trans (shape_of_form hform)⟩
        exact absurd (htarget.symm.trans hderef.target_eq_none) (by simp)
      | pending ws =>
        rw [hshape.trans (shape_of_form hform)] at hparts
        refine (runs_wrap_instanceOf hs (isPending_of_shape (shape_of_form hform)) fun hstop =>
            ?_).imp fun x s' hs' hgrows' hx =>
          hanswer hs' hgrows' (.single (p := .pendingInstanceOf d) (by simp) hx hparts)
        have hle := (hdepth hstop).2
        omega
    | _ =>
      rw [hshape.trans (shape_of_form hform)] at hparts
      exact (runs_internInstance hs d).imp fun x s' hs' hgrows' hx =>
        hanswer hs' hgrows' (.single (p := .instanceOf d) (by simp) hx hparts)

/-! ## Types that were there at the start -/

/-- With the given depth left, flattening types that were there at the start finds atoms, and these
are their parts if no union is empty. Unless it may stop, at most `n` steps lead to what they stand
for. -/
def Flattens (mayStop : Prop) (s0 : TypeStore) (n depth : Nat) : Prop :=
  ∀ {s : TypeStore} {ts acc : List TypeId}, s.WellFormed → s0.Grows s → FoundAtoms (some acc) s →
    (∀ t ∈ ts, s0.Known t ∧ (¬ mayStop → s0.HeightLe n t)) →
    Runs mayStop s (flattenAt depth ts acc) fun r s' => FoundAtoms r s' ∧ (s0.NoEmptyUnion →
      s'.Collects (fun p => ∃ t ∈ ts, s0.HasPart t p) acc r ∧ (ts ≠ [] → ∃ p, ∃ t ∈ ts, s0.HasPart t p))

/-- What a canonical type is good for: it is a union that was there at the start, with all the parts
and no farther from them, or it is settled and the same as the parts if no union is empty. -/
inductive StandsFor (s0 : TypeStore) (t : TypeId) (u : TypeId) (s : TypeStore) : Prop
  | union {cs : List TypeId} : s0.candidates? u = some cs → s0.Derefs t u → StandsFor s0 t u s
  | settled : s.Settled u → (s0.NoEmptyUnion → s.Same (s.HasPart u) (s0.HasPart t)) → StandsFor s0 t u s

theorem Followed.standsFor_answer (h0 : s0.Followed) (hs : s.WellFormed) (hgrows : s0.Grows s)
    (hu : s.Settled u ∧ (s0.NoEmptyUnion → s.Answers (s0.HasPart t) u)) : StandsFor s0 t u s :=
  .settled hu.1 fun hC => (h0.settled hs hgrows (fun _ hp => hp.genuine) (hu.2 hC)).2.symm

theorem Followed.standsFor_atom (h0 : s0.Followed) (hgrows : s0.Grows s) (hderef : s0.Derefs t d)
    (hd : s.Atom d) : StandsFor s0 t d s := by
  have hparts : s.HasPart d = s0.HasPart t := by
    funext p
    exact propext ((hgrows.hasPart_iff h0.wellFormed hderef.known).trans (hderef.hasPart_iff p).symm)
  refine .settled (.atom hd) fun _ => hparts ▸ .refl fun _ p hp => ?_
  exact ⟨d, ((hasPart_of_atom hd).1 hp) ▸ rfl⟩

theorem Followed.standsFor_unknown (h0 : s0.Followed) (hgrows : s0.Grows s) (hderef : s0.Derefs t d)
    (hd : (s.shape d).isUnknown = true) : StandsFor s0 t d s := by
  have hpart : s0.HasPart t .unknown :=
    (hderef.hasPart_iff _).2 ((hgrows.hasPart_iff h0.wellFormed hderef.known).1 (.unknown hd))
  exact .settled (.unknown (hgrows.known hderef.known) hd) fun _ => .of_unknown (.unknown hd) hpart

theorem Flattens.candidates (h0 : s0.WellFormed) (hcs : s0.candidates? u = some cs)
    (hheight : ¬ mayStop → s0.HeightLe n u ∧ 1 ≤ depth)
    (hflattens : (¬ mayStop → 0 < n) → Flattens mayStop s0 (n - 1) depth) (hs : s.WellFormed) (hgrows : s0.Grows s)
    (hacc : FoundAtoms (some acc) s) : Runs mayStop s (flattenAt depth cs acc) fun r s' =>
      FoundAtoms r s' ∧ (s0.NoEmptyUnion → s'.Collects (s0.HasPart u) acc r ∧ ∃ p, s0.HasPart u p) := by
  have hbelow : ∀ c ∈ cs, s0.Known c ∧ (¬ mayStop → 0 < n ∧ s0.HeightLe (n - 1) c) := by
    intro c hc
    have hunfolds : s0.Unfolds u c := .inr ⟨cs, hcs, hc⟩
    refine ⟨h0.unfolds_known hunfolds, fun hstop => ?_⟩
    obtain ⟨m, rfl, hm⟩ := (hheight hstop).1.of_unfolds hunfolds
    exact ⟨Nat.succ_pos m, hm⟩
  have hparts : (fun p => ∃ c ∈ cs, s0.HasPart c p) = s0.HasPart u := funext fun p => propext (hasPart_of_candidates hcs).symm
  cases cs with
  | nil =>
    cases depth with
    | zero => exact .tooDeep fun hstop => absurd (hheight hstop).2 (by omega)
    | succ depth => exact .pure hs ⟨hacc, fun hC => absurd rfl (hC u [] hcs)⟩
  | cons c rest =>
    refine (hflattens (fun hstop => ((hbelow c (by simp)).2 hstop).1) hs hgrows hacc fun c hc =>
      ⟨(hbelow c hc).1, fun hstop => ((hbelow c hc).2 hstop).2⟩).imp fun r s' _ _ hr => ⟨hr.1, fun hC => ?_⟩
    rw [← hparts]
    exact ⟨(hr.2 hC).1, (hr.2 hC).2 (by simp)⟩

theorem Flattens.runs_unionOf_candidates (h0 : s0.WellFormed)
    (hcs : s0.candidates? u = some cs) (hheight : ¬ mayStop → s0.HeightLe n u ∧ 2 ≤ depth)
    (hflattens : (¬ mayStop → 0 < n) → Flattens mayStop s0 (n - 1) (depth - 1)) (hs : s.WellFormed) (hgrows : s0.Grows s) :
    Runs mayStop s (unionOfAt depth cs) fun v s' => s'.Settled v ∧ (s0.NoEmptyUnion → s'.Answers (s0.HasPart u) v) := by
  cases depth with
  | zero => exact .tooDeep fun hstop => absurd (hheight hstop).2 (by omega)
  | succ depth =>
    exact runs_unionOf_atoms
      (Flattens.candidates h0 hcs
      (fun hstop => ⟨(hheight hstop).1, Nat.le_of_succ_le_succ (hheight hstop).2⟩)
      hflattens hs hgrows .nil)

/-- What the canonical type of a type is, by what the type stood for at the start: the union of its
candidates for a lazy union that waits for nothing any more, and the instances of what was found for
the instance of a class that has been looked up. -/
theorem runs_canonical_of_derefs (h0 : s0.WellFormed) (hchains : s0.ChainsEnd) (ht : s0.Known t)
    (hs : s.WellFormed) (hgrows : s0.Grows s)
    {Q : TypeId → TypeStore → Prop} (hunknown : ∀ d, s0.Derefs t d → (s.shape d).isUnknown = true → Q d s)
    (hatom : ∀ d, s0.Derefs t d → s.Atom d → Q d s) (hunion : ∀ d cs, s0.Derefs t d → s0.candidates? d = some cs → Q d s)
    (hjoined : ∀ d cs, s0.Derefs t d → s0.candidates? d = some cs → Runs mayStop s (unionOfAt depth cs) Q)
    (hinstance : ∀ d w, s0.Derefs t d → s0.shape d = .object (.slot w) → (s0.slot w).isResolved = true →
      Runs mayStop s (instanceOfAt depth (.direct (s0.slot w).target)) Q) : Runs mayStop s (canonicalAt (depth + 1) t) Q := by
  have hderef := hchains.derefs h0 ht
  rw [canonicalAt]
  unfold canonicalStep
  refine .get_bind ?_
  dsimp only
  rw [hgrows.derefLazy_eq h0 hchains ht]
  generalize s0.derefLazy t = d at hderef
  have hshape : s0.shape d = s.shape d := (hgrows.shape_eq d hderef.known).symm
  cases hform : s.form d with
  | unknown | unresolvedImport _ => exact .pure hs (hunknown d hderef (by rw [shape_of_form hform]; rfl))
  | union cs => exact .pure hs (hunion d cs hderef (candidates?_congr hshape ▸ candidates?_of_union hform))
  | lazyUnion cs =>
    have hcs : s0.candidates? d = some cs := candidates?_congr hshape ▸ candidates?_of_lazyUnion hform
    dsimp only
    split
    · exact .pure hs (hunion d cs hderef hcs)
    · exact hjoined d cs hderef hcs
  | object cls =>
    cases cls with
    | direct c => exact .pure hs (hatom d hderef (by rw [Atom, shape_of_form hform]; trivial))
    | slot w =>
      have hd : s0.shape d = .object (.slot w) := hshape.trans (shape_of_form hform)
      have hslot : s.slot w = s0.slot w := hgrows.slot_eq w (h0.object_known d w hd)
      have htarget : s.target (.slot w) = (s0.slot w).target := congrArg Slot.target hslot
      dsimp only
      rw [htarget]
      split
      · rename_i hw
        exact hinstance d w hderef hd (hslot ▸ hw)
      · rename_i hw
        refine .pure hs (hatom d hderef ?_)
        rw [Atom, shape_of_form hform]
        exact Bool.eq_false_iff.2 hw
  | lazy path state =>
    cases state with
    | resolved u =>
      have htarget := lazyTarget?_eq_some_iff.2 ⟨path, hshape.trans (shape_of_form hform)⟩
      exact absurd (htarget.symm.trans hderef.target_eq_none) (by simp)
    | pending ws => exact .pure hs (hatom d hderef (by rw [Atom, shape_of_form hform]; trivial))
  | _ => exact .pure hs (hatom d hderef (by rw [Atom, shape_of_form hform]; trivial))

theorem Followed.runs_canonical (h0 : s0.Followed) (ht : s0.Known t)
    (hdepth : ¬ mayStop → s0.Acyclic ∧ s0.HeightLe n t ∧ s0.size + 7 ≤ depth)
    (hflattens : (¬ mayStop → 0 < n) → Flattens mayStop s0 (n - 1) (depth - 2)) (hs : s.WellFormed) (hgrows : s0.Grows s) :
    Runs mayStop s (canonicalAt depth t) fun u s' => StandsFor s0 t u s' := by
  cases depth with
  | zero => exact .tooDeep fun hstop => absurd (hdepth hstop).2.2 (by omega)
  | succ depth =>
    refine runs_canonical_of_derefs h0.wellFormed h0.chainsEnd ht hs hgrows (fun d => h0.standsFor_unknown hgrows)
      (fun d => h0.standsFor_atom hgrows) (fun d cs hderef hcs => .union hcs hderef) (fun d cs hderef hcs => ?_)
      fun d w hderef hd hw => ?_
    · have hunion : Runs mayStop s (unionOfAt depth cs) _ :=
        Flattens.runs_unionOf_candidates h0.wellFormed hcs (fun hstop => by
          obtain ⟨-, hheight, hle⟩ := hdepth hstop
          exact ⟨hderef.heightLe n hheight, by omega⟩) hflattens hs hgrows
      exact hunion.imp fun u s' hs' hgrows' hu => h0.standsFor_answer hs' (hgrows.trans hgrows')
        ⟨hu.1, fun hC => (hu.2 hC).of_iff fun p => (hderef.hasPart_iff p).symm⟩
    · refine (h0.runs_instanceOf (n := s0.size) (h0.wellFormed.slot_known w).2 (fun hstop => ?_) hs hgrows).imp
        fun u s' hs' hgrows' hu => h0.standsFor_answer hs' (hgrows.trans hgrows')
          ⟨hu.1, fun hC => (hu.2 hC).of_iff fun p => ?_⟩
      · grind [Acyclic.heightLe_size, wellFormed]
      · rw [hderef.hasPart_iff, hasPart_iff, hd]
        simp [hw]

/-- What a canonical type adds: a union of the start is flattened further, whereas a settled type is
at most one union deep. -/
theorem Followed.runs_addType (h0 : s0.Followed) (hu : StandsFor s0 t u s) (hdepth : ¬ mayStop → s0.HeightLe n t ∧ 2 ≤ depth)
    (hflattens : (¬ mayStop → 0 < n) → Flattens mayStop s0 (n - 1) depth) (hs : s.WellFormed) (hgrows : s0.Grows s)
    (hacc : FoundAtoms (some acc) s) : Runs mayStop s (addType (flattenAt depth) u acc) fun r s' =>
      FoundAtoms r s' ∧ (s0.NoEmptyUnion → s'.Collects (s0.HasPart t) acc r ∧ ∃ p, s0.HasPart t p) := by
  cases hu with
  | @union cs hcs hderef =>
    have hflatten := Flattens.candidates h0.wellFormed hcs (fun hstop => ⟨hderef.heightLe n (hdepth hstop).1,
      Nat.le_of_succ_le (hdepth hstop).2⟩) hflattens hs hgrows hacc
    rw [← (funext fun p => propext (hderef.hasPart_iff p) : s0.HasPart t = s0.HasPart u)] at hflatten
    have hshape := hgrows.shape_eq u (known_of_candidates hcs)
    exact runs_addType_candidates ((candidates?_congr hshape).trans hcs) hflatten
  | settled hsettled hsame =>
    refine (runs_addType_settled hs hsettled hacc.found fun hstop => (hdepth hstop).2).imp fun r s' _ hgrows' hr =>
      ⟨hr.foundAtoms hs hgrows' hacc fun p hp => ⟨u, hsettled, hp⟩, fun hC => ⟨hr.congr ((hsame hC).grows hgrows'), ?_⟩⟩
    exact (hsame hC).exists_part (hsettled.exists_hasPart (hC.grows hgrows))

/-- The depth that flattening needs: three levels for each step down, and enough for the instances
of a class at the end. -/
theorem Followed.flattens (h0 : s0.Followed)
    (hdepth : ¬ mayStop → s0.Acyclic ∧ s0.size + 3 * n + 8 ≤ depth) : Flattens mayStop s0 n depth := by
  induction depth using Nat.strong_induction_on generalizing n with
  | _ depth ih =>
    intro s ts acc hs hgrows hacc hts
    cases depth with
    | zero => exact .tooDeep fun hstop => absurd (hdepth hstop).2 (by omega)
    | succ depth =>
      have hbelow : ∀ k ≤ depth, depth ≤ k + 2 → (¬ mayStop → 0 < n) → Flattens mayStop s0 (n - 1) k := by
        intro k hk hle hpos
        refine ih k (by omega) fun hstop => ⟨(hdepth hstop).1, ?_⟩
        have hn := hpos hstop
        have hle := (hdepth hstop).2
        omega
      rw [flattenAt]
      refine (runs_flattenStep (C := s0.NoEmptyUnion) (E := fun t => ∃ p, s0.HasPart t p) FoundAtoms.found ts hs hacc
        fun t ht s' acc hs' hgrows' hacc => ?_).imp fun r s' _ _ hr => ⟨hr.1, fun hC => ⟨(hr.2 hC).1, fun hne => by
          obtain ⟨t, ht, p, hp⟩ := (hr.2 hC).2 hne
          exact ⟨p, t, ht, hp⟩⟩⟩
      have hstart := hgrows.trans hgrows'
      have hcanonical : Runs mayStop s' (canonicalAt depth t) fun u s1 => StandsFor s0 t u s1 := by
        refine h0.runs_canonical (hts t ht).1 (fun hstop => ?_) (hbelow (depth - 2) (by omega) (by omega)) hs' hstart
        obtain ⟨hacyclic, hle⟩ := hdepth hstop
        exact ⟨hacyclic, (hts t ht).2 hstop, by omega⟩
      refine hcanonical.bind fun u s1 hs1 hgrows1 hu => ?_
      grind [runs_addType, Grows.trans, FoundAtoms.grows]

end FromStart

namespace Followed

variable (h : s.Followed) (hdepth : ¬ mayStop → s.Acyclic ∧ s.depthBound ≤ depth)

include h hdepth

theorem runs_unionOf_parts (hts : ∀ t ∈ ts, s.Known t) : Runs mayStop s (unionOfAt depth ts) fun u s' =>
    s'.Settled u ∧ (s.NoEmptyUnion ∧ ts ≠ [] → s'.Answers (fun p => ∃ t ∈ ts, s.HasPart t p) u) := by
  have hsize := h.wellFormed.size_pos
  cases depth with
  | zero => exact .tooDeep fun hstop => absurd (hdepth hstop).2 (by unfold depthBound; omega)
  | succ depth =>
    have hflattens : Flattens mayStop s s.size depth := h.flattens fun hstop => by
      grind [depthBound]
    exact runs_unionOf_atoms ((hflattens h.wellFormed (.refl s) .nil fun t ht =>
      ⟨hts t ht, fun hstop => (hdepth hstop).1.heightLe_size h.wellFormed t⟩).imp fun _ _ _ _ hr =>
        ⟨hr.1, fun hC => ⟨(hr.2 hC.1).1, (hr.2 hC.1).2 hC.2⟩⟩)

theorem runs_canonical_parts (ht : s.Known t) : Runs mayStop s (canonicalAt depth t) fun u s' => StandsFor s t u s' := by
  have hsize := h.wellFormed.size_pos
  refine h.runs_canonical (n := s.size) ht (fun hstop => ?_) (fun _ => h.flattens fun hstop => ?_) h.wellFormed (.refl s)
  · grind [depthBound, Acyclic.heightLe_size, wellFormed]
  · grind [depthBound]

end Followed

theorem Orderly.runs_unionOf_parts (h : s.Orderly) (hts : ∀ t ∈ ts, s.Known t) (hne : ts ≠ [])
    (hdepth : ¬ mayStop → s.Acyclic ∧ s.depthBound ≤ depth) :
    Runs mayStop s (unionOfAt depth ts) fun u s' => s'.Answers (fun p => ∃ t ∈ ts, s.HasPart t p) u :=
  (h.followed.runs_unionOf_parts hdepth hts).imp fun _ _ _ _ hu => hu.2 ⟨h.noEmptyUnion, hne⟩

theorem Good.runs_unionOf_parts (h : s.Good) (hts : ∀ t ∈ ts, s.Known t) (hne : ts ≠ []) :
    Runs False s (unionOfAt s.depthBound ts) fun u s' => s'.Answers (fun p => ∃ t ∈ ts, s.HasPart t p) u :=
  h.orderly.runs_unionOf_parts hts hne fun _ => ⟨h.acyclic, Nat.le_refl _⟩

theorem Good.unionOf_answers (h : s.Good) (hts : ∀ t ∈ ts, s.Known t) (hne : ts ≠ []) :
    (unionOf ts s).2.Answers (fun p => ∃ t ∈ ts, s.HasPart t p) (unionOf ts s).1 :=
  (Runs.within (unionOfAt · ts) h.wellFormed False.elim (h.runs_unionOf_parts hts hne)).2.2

theorem unionOfAt_nil (s : TypeStore) : unionOfAt s.depthBound [] s = some (.unknown, s) := by
  rfl

theorem unionOf_nil (s : TypeStore) : unionOf [] s = (.unknown, s) :=
  congrArg (Option.getD · (.unknown, s)) s.unionOfAt_nil

end PythonTypes.TypeStore
