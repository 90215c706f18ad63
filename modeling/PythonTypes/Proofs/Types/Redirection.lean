import PythonTypes.Proofs.Types.Representation

/-!
# Instances of classes that were redirected early

A slot may be redirected while its lazy type is still pending. The instance that waited with it is
then followed to the instances of what the slot was redirected to, and these may lead back to it: it
can be what it stands for itself. `leadsTo` says to which instances a class and a
redirected instance lead. It speaks of the store at the start only; as long as nothing is resolved
(`Since`), following them gives just that or gives up (`follows`), and there are no more steps than
twice the number of types.
-/

set_option autoImplicit false

namespace PythonTypes.TypeStore

variable {P : Part → Prop} {cs : List TypeId} {mayStop : Prop} {s : TypeStore} {t x : TypeId}
variable {s' : TypeStore} {p : Part} {u : TypeId} {acc : List TypeId}

/-! ## Where classes and redirected instances lead -/

/-- What is asked for while types are followed: the instances of a class, or what an instance adds
to a union whose slot was redirected to a class. -/
inductive Question where
  | instances (cls : TypeId)
  | redirected (cls : TypeId)

/-- The class to which the slot of an instance was redirected. -/
def redirection? (s : TypeStore) : Part → Option TypeId
  | .pendingInstanceOf lazy =>
    match (s.lazyInstances.get? lazy).map s.shape with
    | some (.object (.slot w)) => if (s.slot w).isResolved then some (s.slot w).target else none
    | _ => none
  | _ => none

/-- What an instance adds to a union, given where questions lead. -/
def addedBy (s : TypeStore) (R : Question → Part → Prop) (p : Part) : Part → Prop :=
  (s.redirection? p).elim (· = p) fun cls => R (.redirected cls)

/-- What several instances add to a union. -/
def adds (s : TypeStore) (R : Question → Part → Prop) (P : Part → Prop) (q : Part) : Prop := ∃ p, P p ∧ s.addedBy R p q

/-- Parts of which one is unknown are unknown. -/
def collapse (P : Part → Prop) (p : Part) : Prop := P .unknown ∧ p = .unknown ∨ ¬ P .unknown ∧ P p

open scoped Classical in
/-- Where a question leads with one more step. The candidates of a union are followed once more, but
not a single instance. -/
def leadStep (s : TypeStore) (R : Question → Part → Prop) : Question → Part → Prop
  | .instances cls =>
    match s.shape (s.derefLazy cls) with
    | .unknown | .unresolvedImport _ => (· = .unknown)
    | .union cs => fun q => cs = [] ∧ q = .unknown ∨ ∃ c ∈ cs, s.adds R (R (.instances c)) q
    | .lazy _ _ => (· = .pendingInstanceOf (s.derefLazy cls))
    | _ => (· = .instanceOf (s.derefLazy cls))
  | .redirected cls =>
    if ∃ p, R (.instances cls) = (· = p) then R (.instances cls) else s.adds R (R (.instances cls))

/-- Where a question leads in at most `n` steps; to something unknown if it needs more. -/
def leadsWithin (s : TypeStore) : Nat → Question → Part → Prop
  | 0, _ => (· = .unknown)
  | n + 1, q => collapse (s.leadStep (s.leadsWithin n) q)

/-- Where a question leads. -/
def leadsTo (s : TypeStore) : Question → Part → Prop := s.leadsWithin (2 * s.size)

/-- Whether the second says the same wherever the first says something. -/
def Refines (R R' : Question → Part → Prop) : Prop := ∀ q, ¬ R q .unknown → R' q = R q

theorem collapse_unknown : collapse P .unknown ↔ P .unknown := by
  unfold collapse
  tauto

theorem collapse_of_not (h : ¬ P .unknown) : collapse P = P := by
  funext p
  simp [collapse, h]

section Leads

variable {R R' : Question → Part → Prop}
variable {cls : TypeId} {m n : Nat}

theorem adds_unknown (h : P .unknown) : s.adds R P .unknown := ⟨.unknown, h, rfl⟩

theorem Refines.adds (h : Refines R R') (hP : ¬ s.adds R P .unknown) : s.adds R' P = s.adds R P := by
  funext q
  refine propext (exists_congr fun p => and_congr_right fun hp => ?_)
  have hp : ¬ s.addedBy R p .unknown := fun hunknown => hP ⟨p, hp, hunknown⟩
  unfold addedBy at hp ⊢
  cases hcls : s.redirection? p with
  | none => exact .rfl
  | some cls =>
    simp_all [Refines]

theorem Refines.leadStep (h : Refines R R') {q : Question} (hq : ¬ s.leadStep R q .unknown) :
    s.leadStep R' q = s.leadStep R q := by
  cases q with
  | instances cls =>
    unfold TypeStore.leadStep at hq ⊢
    dsimp only at hq ⊢
    cases hshape : s.shape (s.derefLazy cls) with
    | union cs =>
      rw [hshape] at hq
      funext q
      refine propext (or_congr_right (exists_congr fun c => and_congr_right fun hc => ?_))
      have hadds : ¬ s.adds R (R (.instances c)) .unknown := fun hunknown => hq (.inr ⟨c, hc, hunknown⟩)
      rw [h _ fun hunknown => hadds (adds_unknown hunknown), h.adds hadds]
    | _ => rfl
  | redirected cls =>
    unfold TypeStore.leadStep at hq ⊢
    dsimp only at hq ⊢
    have hcls : ¬ R (.instances cls) .unknown := by
      split at hq
      · exact hq
      · grind [adds_unknown]
    rw [h _ hcls]
    split
    · rfl
    · rename_i hseveral
      rw [if_neg hseveral] at hq
      exact h.adds hq

theorem refines_leadsWithin (h : n ≤ m) : Refines (s.leadsWithin n) (s.leadsWithin m) := by
  have hstep : ∀ n, Refines (s.leadsWithin n) (s.leadsWithin (n + 1)) := by
    intro n
    induction n with
    | zero => exact fun q hq => absurd rfl hq
    | succ n ih =>
      intro q hq
      have hq := mt collapse_unknown.2 hq
      grind [Refines.leadStep, leadsWithin]
  induction m, h using Nat.le_induction with
  | base => exact fun _ _ => rfl
  | succ m _ ih =>
    intro q hq
    have hsame := ih q hq
    rw [← hsame] at hq
    exact (hstep m q hq).trans hsame

/-- Parts as questions lead to: there is one, they are instances, and if one is unknown there is no
other. -/
structure Regular (P : Part → Prop) : Prop where
  nonempty : ∃ p, P p
  no_type : ∀ t, ¬ P (.type t)
  unknown_only : P .unknown → ∀ p, P p → p = .unknown

theorem Regular.collapse (hsome : ∃ p, P p) (hno : ∀ t, ¬ P (.type t)) : Regular (TypeStore.collapse P) := by
  refine ⟨?_, fun t ht => ?_, fun hunknown p hp => ?_⟩
  · by_cases hunknown : P .unknown
    · exact ⟨_, collapse_unknown.2 hunknown⟩
    · rwa [collapse_of_not hunknown]
  · rcases ht with ⟨-, ht⟩ | ⟨-, ht⟩
    · contradiction
    · exact hno t ht
  · exact hp.elim And.right fun hp => absurd (collapse_unknown.1 hunknown) hp.1

theorem Regular.adds (hR : ∀ q, Regular (R q)) (hP : Regular P) : (∃ q, s.adds R P q) ∧ ∀ t, ¬ s.adds R P (.type t) := by
  constructor
  · obtain ⟨p, hp⟩ := hP.nonempty
    cases hcls : s.redirection? p with
    | none => exact ⟨p, p, hp, by simp [addedBy, hcls]⟩
    | some cls =>
      obtain ⟨q, hq⟩ := (hR (.redirected cls)).nonempty
      exact ⟨q, p, hp, by simpa [addedBy, hcls] using hq⟩
  · rintro t ⟨p, hp, ht⟩
    unfold addedBy at ht
    cases hcls : s.redirection? p with
    | none =>
      grind [no_type]
    | some cls =>
      rw [hcls] at ht
      exact (hR _).no_type t ht

theorem regular_leadsWithin (s : TypeStore) (n : Nat) (q : Question) : Regular (s.leadsWithin n q) := by
  induction n generalizing q with
  | zero => exact ⟨⟨_, rfl⟩, by simp [leadsWithin], fun _ _ hp => hp⟩
  | succ n ih =>
    have hstep : (∃ p, s.leadStep (s.leadsWithin n) q p) ∧ ∀ t, ¬ s.leadStep (s.leadsWithin n) q (.type t) := by
      cases q with
      | instances cls =>
        unfold leadStep
        dsimp only
        cases s.shape (s.derefLazy cls) with
        | union cs =>
          refine ⟨?_, ?_⟩
          · cases cs with
            | nil => exact ⟨_, .inl ⟨rfl, rfl⟩⟩
            | cons c rest =>
              obtain ⟨p, hp⟩ := (Regular.adds (s := s) ih (ih (.instances c))).1
              exact ⟨p, .inr ⟨c, by simp, hp⟩⟩
          · grind [Regular.adds]
        | _ => exact ⟨⟨_, rfl⟩, by simp⟩
      | redirected cls =>
        unfold leadStep
        dsimp only
        split
        · exact ⟨(ih _).nonempty, (ih _).no_type⟩
        · exact Regular.adds ih (ih _)
    exact .collapse hstep.1 hstep.2

/-- The questions that lead somewhere in at most `n` steps. -/
def answered (s : TypeStore) (n : Nat) : Set Question := { q | ¬ s.leadsWithin n q .unknown }

theorem leadsWithin_of_not_known (h : ¬ s.Known cls) (n : Nat) : s.leadsWithin n (.instances cls) .unknown := by
  cases n with
  | zero => rfl
  | succ n =>
    have hshape := shape_of_not_known h
    have hself : s.derefLazy cls = cls := derefLazy_of_no_target (no_target_of_shape hshape (by simp))
    refine collapse_unknown.2 ?_
    simp_all [leadStep]

theorem finite_answered (s : TypeStore) (n : Nat) : (s.answered n).Finite ∧ (s.answered n).ncard ≤ 2 * s.size := by
  have hsub : s.answered n ⊆ Question.instances '' { t | s.Known t } ∪ Question.redirected '' { t | s.Known t } := by
    rintro (cls | cls) h
    · exact .inl ⟨cls, by_contra fun hnot => h (leadsWithin_of_not_known hnot n), rfl⟩
    · refine .inr ⟨cls, by_contra fun hnot => h ?_, rfl⟩
      cases n with
      | zero => rfl
      | succ n =>
        have hunknown := leadsWithin_of_not_known hnot n
        refine collapse_unknown.2 ?_
        unfold leadStep
        dsimp only
        split
        · exact hunknown
        · exact adds_unknown hunknown
  obtain ⟨hfinite, hcard⟩ := s.finite_known
  have hboth := (hfinite.image Question.instances).union (hfinite.image Question.redirected)
  refine ⟨hboth.subset hsub, (Set.ncard_le_ncard hsub hboth).trans ((Set.ncard_union_le _ _).trans ?_)⟩
  grind [Set.ncard_image_le]

theorem leadsWithin_eq_of_answered (hnm : n ≤ m) (h : s.answered n = s.answered m) : s.leadsWithin n = s.leadsWithin m := by
  funext q
  by_cases hq : q ∈ s.answered n
  · exact (refines_leadsWithin hnm q hq).symm
  · -- what leads nowhere leads to something unknown and to nothing else
    have hunknown : ∀ {k}, q ∉ s.answered k → s.leadsWithin k q = (· = .unknown) := by
      intro k hk
      have hunknown := not_not.1 hk
      funext p
      exact propext ⟨(s.regular_leadsWithin k q).unknown_only hunknown p, fun hp => hp ▸ hunknown⟩
    rw [hunknown hq, hunknown (h ▸ hq)]

theorem leadsWithin_eq_leadsTo (h : 2 * s.size ≤ m) : s.leadsWithin m = s.leadsTo := by
  have hmono : ∀ {k l}, k ≤ l → s.answered k ⊆ s.answered l := fun hkl q hq => by
    show ¬ _
    rw [refines_leadsWithin hkl q hq]
    exact hq
  have hstable : ∀ k, (s.answered k).ncard = (s.answered (k + 1)).ncard → s.leadsWithin k = s.leadsWithin (k + 1) :=
    fun k hk => leadsWithin_eq_of_answered (Nat.le_succ k)
      (Set.eq_of_subset_of_ncard_le (hmono (Nat.le_succ k)) hk.ge (s.finite_answered _).1)
  have hcard := Nat.stabilises_of_monotone (f := fun k => (s.answered k).ncard)
    (fun k l hkl => Set.ncard_le_ncard (hmono hkl) (s.finite_answered l).1) (fun k => (s.finite_answered k).2)
    (fun k hk => by
      have hsame : s.leadsWithin (k + 1) = s.leadsWithin (k + 1 + 1) :=
        funext fun q => congrArg (fun R => collapse (s.leadStep R q)) (hstable k hk)
      simp only [answered, hsame]) h
  exact (leadsWithin_eq_of_answered h (Set.eq_of_subset_of_ncard_le (hmono h) hcard.le (s.finite_answered m).1)).symm

theorem leadsTo_of_within {q : Question} (h : ¬ s.leadsWithin n q .unknown) : s.leadsTo q = s.leadsWithin n q := by
  rw [← leadsWithin_eq_leadsTo (Nat.le_max_right n _)]
  exact refines_leadsWithin (Nat.le_max_left n _) q h

theorem leadsTo_eq (s : TypeStore) (q : Question) : s.leadsTo q = collapse (s.leadStep s.leadsTo q) :=
  (congrFun (leadsWithin_eq_leadsTo (Nat.le_succ _)) q).symm

theorem regular_leadsTo (s : TypeStore) (q : Question) : Regular (s.leadsTo q) := s.regular_leadsWithin _ q

theorem leadsWithin_step {q : Question} (h : ¬ s.leadsWithin n q .unknown) :
    ∃ k, n = k + 1 ∧ ¬ s.leadStep (s.leadsWithin k) q .unknown := by
  cases n with
  | zero => exact absurd rfl h
  | succ n => exact ⟨n, rfl, mt collapse_unknown.2 h⟩

/-- The steps before the last that lead from a union of classes to its instances. -/
theorem leadsWithin_union (hshape : s.shape (s.derefLazy cls) = .union cs)
    (h : ¬ s.leadsWithin n (.instances cls) .unknown) : ∃ k, n = k + 1 ∧ ∀ c ∈ cs, ¬ s.leadsWithin k (.instances c) .unknown ∧
      ∀ p, s.leadsTo (.instances c) p → ¬ s.addedBy (s.leadsWithin k) p .unknown := by
  obtain ⟨k, rfl, hstep⟩ := leadsWithin_step h
  unfold leadStep at hstep
  dsimp only at hstep
  rw [hshape] at hstep
  refine ⟨k, rfl, fun c hc => ?_⟩
  have hadds : ¬ s.adds (s.leadsWithin k) (s.leadsWithin k (.instances c)) .unknown :=
    fun hunknown => hstep (.inr ⟨c, hc, hunknown⟩)
  have hcls : ¬ s.leadsWithin k (.instances c) .unknown := fun hunknown => hadds (adds_unknown hunknown)
  rw [leadsTo_of_within hcls]
  exact ⟨hcls, fun p hp hunknown => hadds ⟨p, hp, hunknown⟩⟩

/-- The steps before the last that lead from a redirected instance to what it adds. -/
theorem leadsWithin_redirected (h : ¬ s.leadsWithin n (.redirected cls) .unknown) :
    ∃ k, n = k + 1 ∧ ¬ s.leadsWithin k (.instances cls) .unknown ∧ ((¬ ∃ p, s.leadsTo (.instances cls) = (· = p)) →
      ∀ p, s.leadsTo (.instances cls) p → ¬ s.addedBy (s.leadsWithin k) p .unknown) := by
  obtain ⟨k, rfl, hstep⟩ := leadsWithin_step h
  unfold leadStep at hstep
  dsimp only at hstep
  have hcls : ¬ s.leadsWithin k (.instances cls) .unknown := by
    split at hstep
    · exact hstep
    · exact fun hunknown => hstep (adds_unknown hunknown)
  rw [leadsTo_of_within hcls]
  refine ⟨k, rfl, hcls, fun hseveral p hp hunknown => ?_⟩
  rw [if_neg hseveral] at hstep
  exact hstep ⟨p, hp, hunknown⟩

end Leads

/-! ## As long as nothing is resolved -/

/-- Whether a type is an instance whose slot has been redirected. -/
def Redirected (s : TypeStore) (x : TypeId) : Prop := ∃ w, s.shape x = .object (.slot w) ∧ (s.slot w).isResolved = true

/-- A store to which actions that resolve nothing have led: whatever was added for a pending class
still waits. -/
structure Since (s0 s : TypeStore) : Prop where
  intact : s.Intact
  grows : s0.Grows s
  waits : ∀ l x, s.lazyInstances.get? l = some x → s0.lazyInstances.get? l = some x ∨ ¬ s.Redirected x

theorem Redirected.grows (hs : s.WellFormed) (hgrows : s.Grows s') (h : s.Redirected x) : s'.Redirected x := by
  obtain ⟨w, hshape, hw⟩ := h
  refine ⟨w, (hgrows.shape_eq x (known_of_shape (by rw [hshape]; simp))).trans hshape, ?_⟩
  rw [hgrows.slot_eq w (hs.object_known x w hshape)]
  exact hw

theorem Redirected.of_grows (hs : s.WellFormed) (hgrows : s.Grows s') (hx : s.Known x)
    (h : s'.Redirected x) : s.Redirected x := by
  grind [Redirected, Grows.shape_eq, Grows.slot_eq, WellFormed.object_known]

namespace Since

variable {s0 : TypeStore}

theorem refl (h : s.Intact) : Since s s := ⟨h, .refl s, fun _ _ hx => .inl hx⟩

theorem step (h : Since s0 s) (hs' : s'.Intact) (hgrows : s.Grows s')
    (hnew : ∀ l x, s'.lazyInstances.get? l = some x → s.lazyInstances.get? l = some x ∨ ¬ s'.Redirected x) : Since s0 s' := by
  have hs := h.intact.wellFormed
  refine ⟨hs', h.grows.trans hgrows, fun l x hx => ?_⟩
  rcases hnew l x hx with hold | hwaits
  · exact (h.waits l x hold).imp_right fun hnot hx => hnot (hx.of_grows hs hgrows (hs.lazyInstance_known hold))
  · exact .inr hwaits

theorem of_same (h : Since s0 s) (hs' : s'.Intact) (hgrows : s.Grows s')
    (hsame : s'.lazyInstances = s.lazyInstances) : Since s0 s' :=
  h.step hs' hgrows fun _ _ hx => .inl (hsame ▸ hx)

theorem trans (h : Since s0 s) (h' : Since s s') : Since s0 s' := h.step h'.intact h'.grows h'.waits

end Since

theorem lazyInstances_addWatcher (s : TypeStore) (t : TypeId) (w : Watcher) :
    (s.addWatcher t w).lazyInstances = s.lazyInstances := by
  unfold addWatcher
  split <;> rfl

theorem kept_since (s0 : TypeStore) : Kept (Since s0) where
  wellFormed h := h.intact.wellFormed
  chainsEnd h := h.intact.chainsEnd
  wrap {s t} h ht hgrows := by
    refine h.of_same (kept_intact.wrap h.intact ht hgrows) hgrows ?_
    rw [wrap_apply]
    split
    · exact lazyInstances_addWatcher _ _ _
    · rfl
  internInstance {s cls} h hcls hgrows := by
    refine h.of_same (kept_intact.internInstance h.intact hcls hgrows) hgrows ?_
    rw [internInstance_apply]
    split <;> rfl
  internLazyInstance {s w} h hw hwaits hgrows := by
    refine h.step (kept_intact.internLazyInstance h.intact hw hwaits hgrows) hgrows fun l x hx => ?_
    rw [internLazyInstance_apply] at hx ⊢
    split at hx
    · exact .inl hx
    · rcases OrderedMap.get?_insert_cases hx with ⟨rfl, rfl⟩ | hx
      · right
        rintro ⟨v, hshape, hv⟩
        obtain rfl : w = v :=
          TypeRef.slot.inj (TypeForm.object.inj ((s.shape_added_fresh (.object (.slot w))).symm.trans hshape))
        exact absurd (hwaits.symm.trans hv) (by simp)
      · exact .inl hx
  internUnion {s cs} h hcs hgrows := by
    refine h.of_same (kept_intact.internUnion h.intact hcs hgrows) hgrows ?_
    rcases cs with _ | ⟨c, _ | ⟨d, rest⟩⟩
    · rfl
    · rfl
    · rw [internUnion_apply]
      split <;> rfl

theorem Since.perform {s0 : TypeStore} (h : Since s0 s) {a : StoreAction} (ha : a.InRange s)
    (hoffers : a.OffersCandidates) (hresolves : ¬ a.Resolves) : Since s0 (a.perform s) := by
  have hgrows := (StoreAction.perform_sound h.intact.wellFormed ha.valid).2 hoffers hresolves
  have hsame := h.of_same (h.intact.perform ha) hgrows
  cases a with
  | alloc form => exact hsame rfl
  | unresolvedImport path =>
    refine hsame ?_
    show (TypeStore.unresolvedImport path s).2.lazyInstances = _
    rw [unresolvedImport_apply]
    split <;> rfl
  | wrap t => exact (kept_since s0).wrap h ha hgrows
  | watch t w =>
    grind [StoreAction.perform_watch, lazyInstances_addWatcher]
  | resolveSlot id target | resolveLazy lazy target => exact absurd trivial hresolves
  | instanceOf cls => exact ((kept_since s0).instanceOf h ha).1
  | canonical t => exact ((kept_since s0).canonical h ha).1
  | union left right => exact ((kept_since s0).union h ha.1 ha.2).1
  | unionOf ts => exact ((kept_since s0).unionOf h ha).1

/-! ## Following questions -/

/-- What a type is a union of; a type that is no union, of itself alone. -/
def members (s : TypeStore) (t : TypeId) : List TypeId := (s.candidates? t).getD [t]

theorem members_of_candidates (h : s.candidates? t = some cs) : s.members t = cs := by
  rw [members, h]
  rfl

theorem members_of_none (h : s.candidates? t = none) : s.members t = [t] := by
  rw [members, h]
  rfl

theorem candidates?_of_isSingle (h : (s.shape t).isSingle = true) : s.candidates? t = none := by
  refine Option.eq_none_iff_forall_not_mem.2 fun cs hcs => ?_
  rcases candidates?_eq_some_iff.1 hcs with hshape | hshape <;> rw [hshape] at h <;> contradiction

theorem members_of_isSingle (h : (s.shape t).isSingle = true) : s.members t = [t] :=
  members_of_none (candidates?_of_isSingle h)

/-- The part other than a type that a type is, if it is one. -/
def partAt (s : TypeStore) (x : TypeId) : Part :=
  match s.shape x with
  | .object (.direct cls) => .instanceOf cls
  | .object (.slot w) => .pendingInstanceOf (s.slot w).lazy
  | _ => .unknown

theorem WellFormed.eq_partAt (hs : s.WellFormed) (hp : ∀ t, p ≠ .type t) (hx : s.typeOf? p = some x) : p = s.partAt x := by
  unfold partAt
  cases p with
  | unknown => rw [← Option.some.inj hx, hs.unknown_first]
  | type t => exact absurd rfl (hp t)
  | instanceOf cls => rw [hs.instances cls x hx]
  | pendingInstanceOf lazy =>
    obtain ⟨w, hshape, hlazy⟩ := hs.lazyInstances lazy x hx
    rw [hshape, ← hlazy]

theorem WellFormed.object_of_typeOf? (hs : s.WellFormed) (hp : ∀ t, p ≠ .type t)
    (hunknown : p ≠ .unknown) (hx : s.typeOf? p = some x) : ∃ cls, s.shape x = .object cls := by
  cases p with
  | unknown => contradiction
  | type t => exact absurd rfl (hp t)
  | instanceOf cls => exact ⟨_, hs.instances cls x hx⟩
  | pendingInstanceOf lazy =>
    obtain ⟨w, hshape, -⟩ := hs.lazyInstances lazy x hx
    exact ⟨_, hshape⟩

/-- Whether types are the parts that are asked for. -/
structure Lists (s : TypeStore) (P : Part → Prop) (xs : List TypeId) : Prop where
  part : ∀ x ∈ xs, P (s.partAt x) ∧ s.typeOf? (s.partAt x) = some x
  listed : ∀ p, P p → ∃ x ∈ xs, p = s.partAt x

theorem Answers.lists (hs : s.WellFormed) (hP : Regular P) (h : s.Answers P u) :
    s.Lists P (s.members u) ∧ (P = (· = s.partAt u) ∧ s.members u = [u] ∨
      (¬ ∃ p, P = (· = p)) ∧ ∃ cs, s.shape u = .union cs) := by
  have hno : ∀ {p}, P p → ∀ t, p ≠ .type t := fun hp t ht => hP.no_type t (ht ▸ hp)
  cases h with
  | unknown hunknown =>
    have hpart : s.partAt .unknown = .unknown := by rw [partAt, hs.unknown_first]
    have hself : s.members .unknown = [.unknown] := members_of_isSingle (by rw [hs.unknown_first]; rfl)
    have hsame : P = (· = s.partAt .unknown) := by
      funext p
      rw [hpart]
      exact propext ⟨hP.unknown_only hunknown p, fun hp => hp ▸ hunknown⟩
    rw [hself]
    refine ⟨⟨fun x hx => ?_, fun p hp => ⟨.unknown, by simp, by rwa [hsame] at hp⟩⟩, .inl ⟨hsame, rfl⟩⟩
    rw [List.mem_singleton.1 hx, hpart]
    exact ⟨hunknown, rfl⟩
  | @known xs u hknown hleft hright hnodup hne hjoins =>
    have hlists : s.Lists P xs := by
      refine ⟨fun x hx => ?_, fun p hp => ?_⟩
      · obtain ⟨p, hp, hpx⟩ := hright x hx
        grind [WellFormed.eq_partAt]
      · grind [WellFormed.eq_partAt]
    have hobjects : ∀ x ∈ xs, ∃ cls, s.shape x = .object cls := by
      intro x hx
      obtain ⟨p, hp, hpx⟩ := hright x hx
      exact hs.object_of_typeOf? (hno hp) (fun h => hknown (h ▸ hp)) hpx
    rcases xs with _ | ⟨x, _ | ⟨y, rest⟩⟩
    · contradiction
    · obtain rfl : u = x := hjoins
      obtain ⟨cls, hshape⟩ := hobjects u (by simp)
      rw [members_of_isSingle (by rw [hshape]; rfl)]
      refine ⟨hlists, .inl ⟨funext fun p => propext ⟨fun hp => ?_, fun hp => hp ▸ (hlists.part u (by simp)).1⟩, rfl⟩⟩
      obtain ⟨x, hx, rfl⟩ := hlists.listed p hp
      rw [List.mem_singleton.1 hx]
    · obtain ⟨cs, hcs, hkey, -, -, hlazy⟩ := hs.unions _ u hjoins
      have hperm := unionKey_eq_iff.1 hkey
      rw [members_of_candidates hcs]
      refine ⟨⟨fun z hz => hlists.part z (hperm.mem_iff.1 hz), fun p hp => ?_⟩, .inr ⟨?_, cs, ?_⟩⟩
      · obtain ⟨z, hz, hpz⟩ := hlists.listed p hp
        exact ⟨z, hperm.mem_iff.2 hz, hpz⟩
      · -- two instances are different parts
        rintro ⟨p, rfl⟩
        obtain ⟨hpx, hx⟩ := hlists.part x (by simp)
        obtain ⟨hpy, hy⟩ := hlists.part y (by simp)
        simp_all
      · grind [candidates?_eq_some_iff]

theorem Answers.collapse (h : s.Answers P u) : s.Answers (collapse P) u := by
  by_cases hunknown : P .unknown
  · cases h with
    | unknown => exact .unknown (collapse_unknown.2 hunknown)
    | known hnot => contradiction
  · rwa [collapse_of_not hunknown]

theorem Collects.collapse {r : Option (List TypeId)} (h : s.Collects P acc r) : s.Collects (TypeStore.collapse P) acc r := by
  by_cases hunknown : P .unknown
  · cases h with
    | unknown => exact .unknown (collapse_unknown.2 hunknown)
    | known hnot => contradiction
  · rwa [collapse_of_not hunknown]

theorem WellFormed.rests_unknown (hs : s.WellFormed) : s.Rests .unknown :=
  ⟨no_target_of_shape hs.unknown_first (by simp), by simp [hs.unknown_first], by simp [hs.unknown_first]⟩

theorem Rests.of_union (h : s.shape t = .union cs) : s.Rests t :=
  ⟨no_target_of_shape h (by simp), by simp [h], by simp [h]⟩

theorem runs_canonical_redirected {w : SlotId} {depth : Nat}
    {Q : TypeId → TypeStore → Prop} (hx : s.shape x = .object (.slot w)) (hw : (s.slot w).isResolved = true) :
    Runs mayStop s (canonicalAt (depth + 1) x) Q ↔ Runs mayStop s (instanceOfAt depth (.direct (s.slot w).target)) Q := by
  have heq : canonicalAt (depth + 1) x s = instanceOfAt depth (.direct (s.slot w).target) s := by
    rw [canonicalAt]
    unfold canonicalStep
    rw [get_bind_apply, derefLazy_of_no_target (no_target_of_shape hx (by simp)), form_of_shape (by simp) hx]
    exact congrFun (if_pos hw) s
  unfold Runs
  rw [heq]

/-- What is given, with the depth that is left, where questions lead: that, unless it gives up. It
may only do so if there is no depth for the steps that it takes. -/
structure Follows (s0 : TypeStore) (depth : Nat) : Prop where
  instances : ∀ {mayStop : Prop} {s : TypeStore} {cls : TypeId}, Since s0 s → s0.Known cls →
    (¬ mayStop → ∃ n, ¬ s0.leadsWithin n (.instances cls) .unknown ∧ 3 * n + 2 ≤ depth) →
    Runs mayStop s (instanceOfAt depth (.direct cls)) fun u s' => s'.Answers (s0.leadsTo (.instances cls)) u
  added : ∀ {mayStop : Prop} {s : TypeStore} {x : TypeId} {acc : List TypeId}, Since s0 s →
    s.typeOf? (s.partAt x) = some x → s.Eligible acc →
    (¬ mayStop → ∃ n, ¬ s0.addedBy (s0.leadsWithin n) (s.partAt x) .unknown ∧ 3 * n + 1 ≤ depth) →
    Runs mayStop s (contribute (canonicalAt depth) (flattenAt depth) x acc) fun r s' =>
      s'.Collects (s0.addedBy s0.leadsTo (s.partAt x)) acc r

section Following

variable {s0 : TypeStore} {depth : Nat} {cls : TypeId}

theorem partAt_ne_type (s : TypeStore) (x t : TypeId) : s.partAt x ≠ .type t := by
  unfold partAt
  split <;> simp

/-- The store and the candidates found so far. -/
def Adding (s0 : TypeStore) (r : Option (List TypeId)) (s : TypeStore) : Prop :=
  Since s0 s ∧ ∀ acc, r = some acc → s.Eligible acc

theorem Adding.found {r : Option (List TypeId)} (h : Adding s0 r s) : Found r s :=
  fun acc hacc => (h.2 acc hacc).found acc rfl

theorem runs_flatten_adding {P : TypeId → Part → Prop} (ts : List TypeId) (hts : ∀ t ∈ ts, s.Known t) (hs : Since s0 s)
    (hacc : s.Eligible acc) (h : ∀ t ∈ ts, ∀ s' acc, Since s0 s' → s.Grows s' → s'.Eligible acc →
      Runs mayStop s' (contribute (canonicalAt depth) (flattenAt depth) t acc) fun r s'' => s''.Collects (P t) acc r) :
    Runs mayStop s (flattenAt (depth + 1) ts acc) fun r s' => s'.Collects (fun p => ∃ t ∈ ts, P t p) acc r := by
  rw [flattenAt]
  refine (runs_flattenStep (C := True) (J := Adding s0) (E := fun _ => True) Adding.found ts
    hs.intact.wellFormed ⟨hs, by rintro _ ⟨⟩; exact hacc⟩ ?_).imp fun _ _ _ _ hr => (hr.2 trivial).1
  intro t ht s' acc _ hgrows hacc
  have hacc' := hacc.2 acc rfl
  exact ((h t ht s' acc hacc.1 hgrows hacc').and ((kept_since s0).upholds.contribute ((kept_since s0).keptAt depth) hacc.1
    (hgrows.known (hts t ht)) hacc')).imp fun _ _ _ _ hr => ⟨hr.2, fun _ => ⟨hr.1, trivial⟩⟩

theorem Lists.adds_iff {xs : List TypeId} (h : s.Lists P xs) (q : Part) :
    (∃ x ∈ xs, s0.addedBy s0.leadsTo (s.partAt x) q) ↔ s0.adds s0.leadsTo P q := by
  constructor
  · rintro ⟨x, hx, hq⟩
    exact ⟨_, (h.part x hx).1, hq⟩
  · rintro ⟨p, hp, hq⟩
    obtain ⟨x, hx, rfl⟩ := h.listed p hp
    exact ⟨x, hx, hq⟩

theorem Follows.union (ih : ∀ k < depth, Follows s0 k) (hs : Since s0 s) {cs : List TypeId} (hu : s.shape u = .union cs)
    (hcs : s.Lists P cs) (hacc : s.Eligible acc)
    (hdepth : ¬ mayStop → ∃ n, (∀ p, P p → ¬ s0.addedBy (s0.leadsWithin n) p .unknown) ∧ 3 * n + 2 ≤ depth) :
    Runs mayStop s (addType (flattenAt depth) u acc) fun r s' => s'.Collects (s0.adds s0.leadsTo P) acc r := by
  have hcandidates := candidates?_eq_some_iff.2 (.inl hu)
  refine runs_addType_candidates hcandidates ?_
  cases depth with
  | zero => exact .tooDeep fun hstop => by obtain ⟨n, -, hn⟩ := hdepth hstop; omega
  | succ depth =>
    refine (runs_flatten_adding cs (hs.intact.wellFormed.known_of_form_union hcandidates) hs hacc
      fun x hx s' acc hs' hgrows hacc => ?_).imp fun r s' _ _ hr => hr.of_iff hcs.adds_iff
    obtain ⟨hp, hpart⟩ := hcs.part x hx
    have hpart' := hgrows.typeOf? hpart
    have hsame := hs'.intact.wellFormed.eq_partAt (partAt_ne_type s x) hpart'
    rw [hsame] at hp hpart' ⊢
    refine (ih depth (Nat.lt_succ_self depth)).added hs' hpart' hacc fun hstop => ?_
    grind

theorem Follows.contribute (ih : ∀ k ≤ depth, Follows s0 k) (hs : Since s0 s) (hP : Regular P) (hu : s.Answers P u)
    (hacc : s.Eligible acc)
    (hdepth : ¬ mayStop → ∃ n, (∀ p, P p → ¬ s0.addedBy (s0.leadsWithin n) p .unknown) ∧
      3 * n + 2 ≤ depth) :
    Runs mayStop s (TypeStore.contribute (canonicalAt depth) (flattenAt depth) u acc) fun r s' =>
      s'.Collects (s0.adds s0.leadsTo P) acc r := by
  obtain ⟨hlists, ⟨rfl, hself⟩ | ⟨-, cs, hshape⟩⟩ := hu.lists hs.intact.wellFormed hP
  · refine ((ih depth (Nat.le_refl depth)).added hs (hlists.part u (by simp [hself])).2 hacc
      fun hstop => ?_).imp fun r s' _ _ hr => hr.of_iff fun q => by simp [adds]
    grind
  · refine ((Rests.of_union hshape).runs_canonical hs.intact.wellFormed fun hstop => ?_).bind fun v s' _ _ hv => ?_
    · grind
    · obtain ⟨rfl, rfl⟩ := hv
      rw [members_of_candidates (candidates?_eq_some_iff.2 (.inl hshape))] at hlists
      exact Follows.union (fun k hk => ih k (Nat.le_of_lt hk)) hs hshape hlists hacc hdepth

theorem redirection?_of_redirected {l : TypeId} {w : SlotId} (hx : s.lazyInstances.get? l = some x)
    (hshape : s.shape x = .object (.slot w)) (hw : (s.slot w).isResolved = true) :
    s.redirection? (.pendingInstanceOf l) = some (s.slot w).target := by
  simp [redirection?, hx, hshape, hw]

theorem redirection?_eq_some (h : s.redirection? p = some cls) :
    ∃ x w, s.typeOf? p = some x ∧ s.shape x = .object (.slot w) ∧ (s.slot w).isResolved = true ∧ (s.slot w).target = cls := by
  unfold redirection? at h
  cases p with
  | pendingInstanceOf l =>
    dsimp only at h
    cases hx : s.lazyInstances.get? l with
    | none => simp [hx] at h
    | some x =>
      rw [hx, Option.map_some] at h
      split at h
      · rename_i w hshape
        split at h
        · exact ⟨x, w, hx, Option.some.inj hshape, ‹_›, Option.some.inj h⟩
        · contradiction
      · contradiction
  | _ => contradiction

theorem Since.not_redirected (h0 : s0.WellFormed) (hs : Since s0 s) (hx : s.typeOf? (s.partAt x) = some x)
    (hnone : s0.redirection? (s.partAt x) = none) : ¬ s.Redirected x := by
  rintro ⟨w, hshape, hw⟩
  have hpart : s.partAt x = .pendingInstanceOf (s.slot w).lazy := by rw [partAt, hshape]
  rw [hpart] at hx hnone
  have hold := (hs.waits _ x hx).resolve_right fun hnot => hnot ⟨w, hshape, hw⟩
  obtain ⟨w', hshape', hw'⟩ := Redirected.of_grows h0 hs.grows (h0.lazyInstance_known hold) ⟨w, hshape, hw⟩
  exact absurd ((redirection?_of_redirected hold hshape' hw').symm.trans hnone) (by simp)

theorem rests_of_not_redirected (hs : s.WellFormed) (hx : s.typeOf? (s.partAt x) = some x)
    (hnot : ¬ s.Redirected x) : s.Rests x := by
  have hwaits : ∀ w, s.shape x = .object (.slot w) → (s.slot w).isResolved = false :=
    fun w hw => Bool.eq_false_iff.2 fun hresolved => hnot ⟨w, hw, hresolved⟩
  by_cases hunknown : s.partAt x = .unknown
  · rw [hunknown] at hx
    exact Option.some.inj hx ▸ hs.rests_unknown
  · obtain ⟨cls, hshape⟩ := hs.object_of_typeOf? (partAt_ne_type s x) hunknown hx
    exact ⟨no_target_of_shape hshape (by simp), hwaits, by simp [hshape]⟩

theorem runs_addType_part (hs : s.WellFormed) (hx : s.typeOf? (s.partAt x) = some x)
    (hacc : s.Eligible acc) (flatten : List TypeId → List TypeId → DeepM (Option (List TypeId))) :
    Runs mayStop s (addType flatten x acc) fun r s' => s'.Collects (· = s.partAt x) acc r := by
  by_cases hunknown : s.partAt x = .unknown
  · rw [hunknown] at hx ⊢
    obtain rfl := Option.some.inj hx
    refine (runs_addType_unknown hs (by rw [hs.unknown_first]; rfl) acc _).imp ?_
    rintro _ _ - - ⟨rfl, rfl⟩
    exact .unknown rfl
  · obtain ⟨cls, hshape⟩ := hs.object_of_typeOf? (partAt_ne_type s x) hunknown hx
    refine (runs_addType_single hs (candidates?_of_isSingle (by rw [hshape]; rfl)) (by rw [hshape]; rfl) acc _).imp ?_
    rintro _ _ - - ⟨rfl, rfl⟩
    have hinsert := Collects.insert (P := (· = .type x)) hacc.found (known_of_shape (by rw [hshape]; simp)) fun p => .rfl
    exact hinsert.congr (.single (by simp) hunknown rfl hx)

theorem Follows.addedStep (h0 : s0.WellFormed) (ih : ∀ k < depth, Follows s0 k) (hs : Since s0 s)
    (hx : s.typeOf? (s.partAt x) = some x) (hacc : s.Eligible acc)
    (hdepth : ¬ mayStop → ∃ n, ¬ s0.addedBy (s0.leadsWithin n) (s.partAt x) .unknown ∧ 3 * n + 1 ≤ depth) :
    Runs mayStop s (TypeStore.contribute (canonicalAt depth) (flattenAt depth) x acc) fun r s' =>
      s'.Collects (s0.addedBy s0.leadsTo (s.partAt x)) acc r := by
  have hwell := hs.intact.wellFormed
  unfold addedBy at hdepth ⊢
  cases hcls : s0.redirection? (s.partAt x) with
  | none =>
    have hrests := rests_of_not_redirected hwell hx (hs.not_redirected h0 hx hcls)
    refine (hrests.runs_canonical hwell fun hstop => ?_).bind ?_
    · grind
    · simp_all [runs_addType_part]
  | some cls =>
    obtain ⟨x', w, hx', hshape, hw, rfl⟩ := redirection?_eq_some hcls
    obtain rfl := Option.some.inj ((hs.grows.typeOf? hx').symm.trans hx)
    have hslot := hs.grows.slot_eq w (h0.object_known _ w hshape)
    have hshape' := (hs.grows.shape_eq _ (known_of_shape (by rw [hshape]; simp))).trans hshape
    have htarget := (h0.slot_known w).2
    rw [hcls] at hdepth
    cases depth with
    | zero =>
      have hstop : Runs mayStop s (canonicalAt 0 x') fun _ _ => False := by
        rw [canonicalAt]
        exact .tooDeep fun hstop => by obtain ⟨n, -, hn⟩ := hdepth hstop; omega
      exact hstop.bind fun _ _ _ _ h => h.elim
    | succ depth =>
      have hcanonical : Runs mayStop s (canonicalAt (depth + 1) x') fun u s' =>
          s'.Answers (s0.leadsTo (.instances (s0.slot w).target)) u ∧ Since s0 s' ∧ s'.Ends u := by
        rw [runs_canonical_redirected hshape' (hslot ▸ hw), hslot]
        refine ((ih depth (Nat.lt_succ_self depth)).instances hs htarget fun hstop => ?_).and
          (((kept_since s0).keptAt depth).instanceOf hs (hs.grows.known htarget))
        obtain ⟨n, hn, hdepth⟩ := hdepth hstop
        obtain ⟨k, rfl, hk, -⟩ := leadsWithin_redirected hn
        exact ⟨k, hk, by omega⟩
      refine hcanonical.bind fun u s' hs' hgrows hu => ?_
      obtain ⟨hu, hsince, -⟩ := hu
      have hacc := hacc.grows hgrows
      dsimp only [Option.elim]
      rw [leadsTo_eq]
      refine Runs.imp ?_ fun r s'' _ _ hr => Collects.collapse hr
      unfold leadStep
      dsimp only
      obtain ⟨hlists, ⟨hsame, hself⟩ | ⟨hseveral, cs, hunion⟩⟩ := hu.lists hs' (s0.regular_leadsTo _)
      · rw [if_pos ⟨_, hsame⟩, hsame]
        exact runs_addType_part hs' (hlists.part u (by simp [hself])).2 hacc _
      · rw [if_neg hseveral]
        refine Follows.union ih hsince hunion ?_ hacc fun hstop => ?_
        · rwa [members_of_candidates (candidates?_eq_some_iff.2 (.inl hunion))] at hlists
        · obtain ⟨n, hn, hdepth⟩ := hdepth hstop
          obtain ⟨k, rfl, -, hk⟩ := leadsWithin_redirected hn
          exact ⟨k, hk hseveral, by omega⟩

theorem Follows.instancesUnion (ih : ∀ k ≤ depth, Follows s0 k) (hs : Since s0 s) (hcs : ∀ c ∈ cs, s0.Known c)
    (hdepth : ¬ mayStop → ∃ n, (∀ c ∈ cs, ¬ s0.leadsWithin n (.instances c) .unknown ∧
      ∀ p, s0.leadsTo (.instances c) p → ¬ s0.addedBy (s0.leadsWithin n) p .unknown) ∧ 3 * n + 4 ≤ depth) :
    Runs mayStop s (do
      let us ← cs.mapM fun c => instanceOfAt depth (.direct c)
      unionOfAt depth us) fun u s' => s'.Answers
        (fun q => cs = [] ∧ q = .unknown ∨ ∃ c ∈ cs, s0.adds s0.leadsTo (s0.leadsTo (.instances c)) q) u := by
  have hmap : Runs mayStop s (cs.mapM fun c => instanceOfAt depth (.direct c)) fun us s' => Since s0 s' ∧
      Runs.Answered (fun c u s' => s'.Answers (s0.leadsTo (.instances c)) u ∧ s'.Known u) cs us s' := by
    refine .mapM_keeping cs hs.intact.wellFormed hs (fun _ _ _ _ _ _ _ hgrows hu => ⟨hu.1.grows hgrows, hgrows.known hu.2⟩) ?_
    intro c hc s' _ hgrows hs'
    refine (((ih depth (Nat.le_refl depth)).instances hs' (hcs c hc) fun hstop => ?_).and
      (((kept_since s0).keptAt depth).instanceOf hs' (hs'.grows.known (hcs c hc)))).imp
      fun _ _ _ _ hu => ⟨hu.2.1, hu.1, hu.2.2.1⟩
    obtain ⟨n, hn, hdepth⟩ := hdepth hstop
    exact ⟨n, (hn c hc).1, by omega⟩
  refine hmap.bind fun us s' hs' _ hus => ?_
  obtain ⟨hsince, hus⟩ := hus
  -- what each of the classes leads to can be read off the answer for it
  have hadds : ∀ c u, s'.Answers (s0.leadsTo (.instances c)) u → ∀ q,
      (∃ x ∈ s'.members u, s0.addedBy s0.leadsTo (s'.partAt x) q) ↔ s0.adds s0.leadsTo (s0.leadsTo (.instances c)) q :=
    fun c u hu => (hu.lists hs' (s0.regular_leadsTo _)).1.adds_iff
  rcases depth with _ | _ | k
  · exact .tooDeep fun hstop => by obtain ⟨n, -, hn⟩ := hdepth hstop; omega
  · have hstop : Runs mayStop s' (flattenAt 0 us []) fun _ _ => False :=
      .tooDeep fun hstop => by obtain ⟨n, -, hn⟩ := hdepth hstop; omega
    rw [unionOfAt]
    exact hstop.bind fun _ _ _ _ h => h.elim
  · by_cases hne : cs = []
    · obtain rfl : us = [] := List.eq_nil_iff_forall_not_mem.2 fun u hu => by
        obtain ⟨c, hc, -⟩ := hus.1 u hu
        simp [hne] at hc
      exact .pure hs' (.unknown (.inl ⟨hne, rfl⟩))
    · obtain ⟨c, hc⟩ := List.exists_mem_of_ne_nil cs hne
      obtain ⟨q, hq⟩ := (Regular.adds (s := s0) (s0.regular_leadsWithin _) (s0.regular_leadsTo (.instances c))).1
      refine runs_unionOf ((runs_flatten_adding (P := fun u q => ∃ x ∈ s'.members u, s0.addedBy s0.leadsTo (s'.partAt x) q) us
        (fun u hu => ?_) hsince .nil fun u hu s'' acc hs'' hgrows hacc => ?_).imp
        fun r _ _ _ hr => ⟨hr.of_iff fun q => ?_, q, .inr ⟨c, hc, hq⟩⟩)
      · obtain ⟨c, -, -, hknown⟩ := hus.1 u hu
        exact hknown
      · obtain ⟨c, hc, hanswer, -⟩ := hus.1 u hu
        refine (Follows.contribute (fun k hk => ih k (by omega)) hs'' (s0.regular_leadsTo _) (hanswer.grows hgrows) hacc
          fun hstop => ?_).imp fun r _ _ _ hr => hr.of_iff fun q => (hadds c u hanswer q).symm
        obtain ⟨n, hn, hdepth⟩ := hdepth hstop
        exact ⟨n, (hn c hc).2, by omega⟩
      · rw [or_iff_right fun h => hne h.1]
        constructor
        · rintro ⟨u, hu, hq⟩
          obtain ⟨c, hc, hanswer, -⟩ := hus.1 u hu
          exact ⟨c, hc, (hadds c u hanswer q).1 hq⟩
        · rintro ⟨c, hc, hq⟩
          obtain ⟨u, hu, hanswer, -⟩ := hus.2 c hc
          exact ⟨u, hu, (hadds c u hanswer q).2 hq⟩

theorem Follows.instancesStep (h0 : s0.Intact) (ih : ∀ k ≤ depth, Follows s0 k) (hs : Since s0 s) (hcls : s0.Known cls)
    (hdepth : ¬ mayStop → ∃ n, ¬ s0.leadsWithin n (.instances cls) .unknown ∧ 3 * n + 2 ≤ depth + 1) :
    Runs mayStop s (instanceOfAt (depth + 1) (.direct cls)) fun u s' => s'.Answers (s0.leadsTo (.instances cls)) u := by
  have hwell := hs.intact.wellFormed
  have hderef := h0.chainsEnd.derefs h0.wellFormed hcls
  have hshape := (hs.grows.shape_eq _ hderef.known).symm
  have hpositive : ¬ mayStop → 1 ≤ depth := by
    intro hstop
    obtain ⟨n, hn, hdepth⟩ := hdepth hstop
    rcases n with _ | n
    · exact absurd rfl hn
    · omega
  rw [instanceOfAt, leadsTo_eq]
  unfold instanceStep
  refine Runs.imp (.get_bind ?_) fun u s' _ _ hu => Answers.collapse hu
  dsimp only [awaited?, target, leadStep]
  rw [hs.grows.derefLazy_eq h0.wellFormed h0.chainsEnd hcls]
  cases hform : s.form (s0.derefLazy cls) with
  | unknown | unresolvedImport _ =>
    rw [hshape.trans (shape_of_form hform)]
    exact .pure hwell (.unknown rfl)
  | union cs =>
    have hunion : s0.shape (s0.derefLazy cls) = .union cs := hshape.trans (shape_of_form hform)
    rw [hunion]
    refine Follows.instancesUnion ih hs
      (h0.wellFormed.known_of_form_union (candidates?_eq_some_iff.2 (.inl hunion))) fun hstop => ?_
    obtain ⟨n, hn, hdepth⟩ := hdepth hstop
    obtain ⟨k, rfl, hk⟩ := leadsWithin_union hunion hn
    exact ⟨k, hk, by omega⟩
  | lazy path state =>
    cases state with
    | resolved target =>
      -- resolved lazy types have been followed before
      have htarget := lazyTarget?_eq_some_iff.2 ⟨path, hshape.trans (shape_of_form hform)⟩
      exact absurd (htarget.symm.trans hderef.target_eq_none) (by simp)
    | pending ws =>
      rw [hshape.trans (shape_of_form hform)]
      exact (runs_wrap_instanceOf hwell (isPending_of_shape (shape_of_form hform)) hpositive).imp fun x _ _ _ hx =>
        .single (p := .pendingInstanceOf _) (by simp) hx fun q => .rfl
  | _ =>
    rw [hshape.trans (shape_of_form hform)]
    exact (runs_internInstance hwell _).imp fun x _ _ _ hx => .single (p := .instanceOf _) (by simp) hx fun q => .rfl

/-- Following a class or a redirected instance gives where it leads, or gives up: by induction on
the depth that is left. -/
theorem follows (h0 : s0.Intact) (depth : Nat) : Follows s0 depth := by
  induction depth using Nat.strong_induction_on with
  | _ depth ih =>
    refine ⟨fun hs hcls hdepth => ?_, fun hs hx hacc hdepth => Follows.addedStep h0.wellFormed ih hs hx hacc hdepth⟩
    cases depth with
    | zero => exact .tooDeep fun hstop => by obtain ⟨n, -, hn⟩ := hdepth hstop; omega
    | succ depth => grind [Follows.instancesStep]

end Following

end PythonTypes.TypeStore
