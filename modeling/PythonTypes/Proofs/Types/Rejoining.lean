import PythonTypes.Proofs.Types.Resolution

/-!
# Unions from before a resolution

A union may be formed before a lazy type is resolved, or afterwards. The types that it is formed
from then stand for the same as the earlier union does, so the later one is what the earlier one is
joined to (`Orderly.answers_after`). The canonical type of the earlier union is that type too if it
is up to date (`UpToDate`); otherwise it has to be joined again.
-/

set_option autoImplicit false

namespace PythonTypes.TypeStore

variable {s : TypeStore} {α : Type} {Q : α → TypeStore → Prop}

/-! ## What is given -/

/-- The union of types, whatever depth it takes. -/
def GivesUnion (s : TypeStore) (ts : List TypeId) (u : TypeId) (s' : TypeStore) : Prop :=
  ∃ depth, unionOfAt depth ts s = some (u, s')

/-- The canonical type of a type, whatever depth it takes. -/
def GivesCanonical (s : TypeStore) (t u : TypeId) (s' : TypeStore) : Prop :=
  ∃ depth, canonicalAt depth t s = some (u, s')

theorem Runs.apply_some {mayStop : Prop} {s' : TypeStore} {action : DeepM α}
    (h : Runs mayStop s action Q) {a : α} (haction : action s = some (a, s')) : s'.WellFormed ∧ s.Grows s' ∧ Q a s' := by
  unfold Runs at h
  rw [haction] at h
  exact h

theorem Runs.within_eq {default : α} (action : Nat → DeepM α)
    (h : Runs False s (action s.depthBound) Q) : action s.depthBound s = some (TypeStore.within default action s) := by
  unfold TypeStore.within
  unfold Runs at h
  cases haction : action s.depthBound s with
  | none =>
    rw [haction] at h
    exact h.elim
  | some r => rfl

section Given

variable {s' : TypeStore} {ts : List TypeId} {u t : TypeId}

theorem Orderly.givesUnion (h : s.Orderly) (hts : ∀ t ∈ ts, s.Known t) (hne : ts ≠ []) (hu : s.GivesUnion ts u s') :
    s'.WellFormed ∧ s.Grows s' ∧ s'.Answers (fun p => ∃ t ∈ ts, s.HasPart t p) u := by
  obtain ⟨depth, hu⟩ := hu
  exact (h.runs_unionOf_parts hts hne fun hstop : ¬ True => absurd trivial hstop).apply_some hu

theorem Orderly.givesCanonical (h : s.Orderly) (ht : s.Known t) (hu : s.GivesCanonical t u s') :
    s'.WellFormed ∧ s.Grows s' ∧ StandsFor s t u s' := by
  obtain ⟨depth, hu⟩ := hu
  exact (h.followed.runs_canonical_parts (fun hstop : ¬ True => absurd trivial hstop) ht).apply_some hu

theorem Good.unionOf_given (h : s.Good) (hts : ∀ t ∈ ts, s.Known t) : s.GivesUnion ts (unionOf ts s).1 (unionOf ts s).2 := by
  by_cases hne : ts = []
  · subst hne
    rw [unionOf_nil]
    exact ⟨_, s.unionOfAt_nil⟩
  · exact ⟨_, Runs.within_eq (unionOfAt · ts) (h.runs_unionOf_parts hts hne)⟩

theorem Good.canonical_given (h : s.Good) (ht : s.Known t) : s.GivesCanonical t (canonical t s).1 (canonical t s).2 := by
  have hruns := h.orderly.followed.runs_canonical_parts (fun _ : ¬ False => ⟨h.acyclic, Nat.le_refl s.depthBound⟩) ht
  exact ⟨_, Runs.within_eq (canonicalAt · t) hruns⟩

end Given

/-! ## Types that are up to date -/

/-- Whether the canonical type of a type is what it stands for now, joined: it has been joined
already, or it will be. -/
inductive UpToDate (s : TypeStore) (u : TypeId) : Prop
  | joined : s.Answers (s.HasPart u) u → UpToDate s u
  | instances {w : SlotId} : s.shape u = .object (.slot w) → (s.slot w).isResolved = true → UpToDate s u
  | lazyUnion {cs : List TypeId} : s.shape u = .lazyUnion cs → (∀ c ∈ cs, s.isPending (s.derefLazy c) = false) → UpToDate s u

section UpToDate

variable {s' : TypeStore} {u : TypeId}
variable {cs : List TypeId} {v : TypeId}

theorem canonicalAt_succ (depth : Nat) (t : TypeId) (s : TypeStore) :
    canonicalAt (depth + 1) t s =
      (match s.form (s.derefLazy t) with
        | .object (.slot w) =>
          if s.isResolved (.slot w) then instanceOfAt depth (.direct (s.target (.slot w))) else pure (s.derefLazy t)
        | .lazyUnion cs =>
          if cs.any fun c => s.isPending (s.derefLazy c) then pure (s.derefLazy t) else unionOfAt depth cs
        | _ => pure (s.derefLazy t) : DeepM TypeId) s := by
  rw [canonicalAt]
  rfl

theorem GivesCanonical.exists_succ (h : s.GivesCanonical u v s') : ∃ depth, canonicalAt (depth + 1) u s = some (v, s') := by
  obtain ⟨depth, h⟩ := h
  cases depth with
  | zero => exact absurd h (by simp [canonicalAt, tooDeep])
  | succ depth => exact ⟨depth, h⟩

theorem canonicalAt_lazyUnion (h : s.shape u = .lazyUnion cs) (depth : Nat) : canonicalAt (depth + 1) u s =
      (if cs.any fun c => s.isPending (s.derefLazy c) then pure u else unionOfAt depth cs : DeepM TypeId) s := by
  rw [canonicalAt_succ, derefLazy_of_no_target (no_target_of_shape h (by simp)), form_of_shape (by simp) h]

theorem canonicalAt_object {w : SlotId} (h : s.shape u = .object (.slot w)) (hw : (s.slot w).isResolved = true)
    (depth : Nat) : canonicalAt (depth + 1) u s = instanceOfAt depth (.direct (s.slot w).target) s := by
  rw [canonicalAt_succ, derefLazy_of_no_target (no_target_of_shape h (by simp)), form_of_shape (by simp) h]
  exact congrFun (if_pos hw) s

theorem Orderly.isPending_candidate (hs : s.Orderly) (hgrows : s.Grows s') (hcs : s.candidates? u = some cs)
    {c : TypeId} (hc : c ∈ cs) : s'.isPending (s'.derefLazy c) = s.isPending (s.derefLazy c) := by
  have hknown := hs.wellFormed.unfolds_known (.inr ⟨cs, hcs, hc⟩)
  grind [Grows.derefLazy_eq, wellFormed, chainsEnd, isPending_congr, Grows.shape_eq, WellFormed.derefLazy_known]

theorem UpToDate.grows (h : s.UpToDate u) (hs : s.Orderly) (hgrows : s.Grows s') (hu : s.Known u) : s'.UpToDate u := by
  have hshape := hgrows.shape_eq u hu
  cases h with
  | joined hjoined => exact .joined ((hjoined.grows hgrows).of_iff fun p => (hgrows.hasPart_iff hs.wellFormed hu).symm)
  | instances hobject hw =>
    exact .instances (hshape.trans hobject) ((hgrows.slot_eq _ (hs.wellFormed.object_known u _ hobject)).symm ▸ hw)
  | @lazyUnion cs hlazy hwaits =>
    refine .lazyUnion (hshape.trans hlazy) fun c hc => ?_
    exact (hs.isPending_candidate hgrows (candidates?_eq_some_iff.2 (.inr hlazy)) hc).trans (hwaits c hc)

theorem UpToDate.givesCanonical (h : s.UpToDate u) (hs : s.Orderly) (hv : s.GivesCanonical u v s') :
    s'.Answers (s.HasPart u) v := by
  obtain ⟨depth, hv⟩ := hv.exists_succ
  cases h with
  | joined hjoined =>
    obtain ⟨hsettled, -⟩ := hjoined.settled hs.wellFormed hs.slotsFollow fun p hp hne => hp.genuine hne
    have hruns := hsettled.rests.runs_canonical hs.wellFormed fun _ : ¬ True => Nat.succ_pos depth
    obtain ⟨-, -, rfl, rfl⟩ := hruns.apply_some hv
    exact hjoined
  | @instances w hobject hw =>
    rw [canonicalAt_object hobject hw] at hv
    have hruns : Runs True s (instanceOfAt depth (.direct (s.slot w).target)) _ :=
      hs.followed.runs_instanceOf (n := 0)
        (hs.wellFormed.slot_known w).2 (fun hstop => absurd trivial hstop) hs.wellFormed (.refl s)
    refine ((hruns.apply_some hv).2.2.2 hs.noEmptyUnion).of_iff fun p => ?_
    rw [hasPart_iff, hobject]
    simp [hw]
  | @lazyUnion cs hlazy hwaits =>
    have hany : ¬ (cs.any fun c => s.isPending (s.derefLazy c)) = true := by
      rw [List.any_eq_true]
      rintro ⟨c, hc, hpending⟩
      exact absurd ((hwaits c hc).symm.trans hpending) (by simp)
    rw [canonicalAt_lazyUnion hlazy, if_neg hany] at hv
    have hruns : Runs True s (unionOfAt depth cs) _ :=
      Flattens.runs_unionOf_candidates (n := 0) hs.wellFormed
        (candidates?_eq_some_iff.2 (.inr hlazy)) (fun hstop => absurd trivial hstop)
        (fun _ => hs.followed.flattens fun hstop => absurd trivial hstop) hs.wellFormed (.refl s)
    exact (hruns.apply_some hv).2.2.2 hs.noEmptyUnion

theorem StandsFor.known (h : StandsFor s u v s') (hgrows : s.Grows s') : s'.Known v := by
  cases h with
  | union hcs => exact hgrows.known (known_of_candidates hcs)
  | settled hsettled => exact hsettled.known

theorem Settled.atom_of_candidates (h : s.Settled u) (hcs : s.candidates? u = some cs) {c : TypeId}
    (hc : c ∈ cs) : s.Atom c := by
  cases h with
  | unknown _ hunknown =>
    rcases candidates?_eq_some_iff.1 hcs with hshape | hshape <;> rw [hshape] at hunknown <;> contradiction
  | atom hatom =>
    grind [candidates?_eq_some_iff, Atom]
  | union hcs' hatoms => simp_all

theorem Orderly.givesUnion_canonical {s1 s2 s3 : TypeStore} (hs : s.Orderly) (hu : s.Known u)
    {w : TypeId} (hv : s.GivesCanonical u v s1) (hgrows : s1.Grows s2) (hs2 : s2.WellFormed)
    (hw : s2.GivesUnion [v] w s3) : s3.Answers (s.HasPart u) w := by
  obtain ⟨hs1, hgrows1, hstands⟩ := hs.givesCanonical hu hv
  have hstart := hgrows1.trans hgrows
  have hs2 : s2.Orderly := hs.grows hstart hs2
  have hknown : s1.Known v := hstands.known hgrows1
  obtain ⟨-, hgrows3, hanswer⟩ := hs2.givesUnion (by simpa using hgrows.known hknown) (List.cons_ne_nil v []) hw
  have hanswer : s3.Answers (s1.HasPart v) w :=
    hanswer.of_iff fun p => by simp [hgrows.hasPart_iff hs1 hknown]
  cases hstands with
  | union hcs hderef =>
    exact hanswer.of_iff fun p => (hgrows1.hasPart_iff hs.wellFormed hderef.known).trans (hderef.hasPart_iff p).symm
  | settled _ hsame => exact hanswer.congr (((hsame hs.noEmptyUnion).grows hgrows).grows hgrows3)

end UpToDate

/-! ## Around a resolution -/

/-- Whether a type is the given lazy type or an instance of what that will be resolved to. -/
def DependsOn (s : TypeStore) (l c : TypeId) : Prop := c = l ∨ ∃ w, s.shape c = .object (.slot w) ∧ (s.slot w).lazy = l

/-- Whether a type is a union with a candidate that depends on the given lazy type. -/
def Involves (s : TypeStore) (l u : TypeId) : Prop := ∃ cs, s.candidates? u = some cs ∧ ∃ c ∈ cs, s.DependsOn l c

/-- Whether a type is a lazy union that waits: a candidate is pending, or resolved to a type that
is. -/
def Waits (s : TypeStore) (u : TypeId) : Prop :=
  ∃ cs, s.shape u = .lazyUnion cs ∧ ∃ c ∈ cs, s.isPending (s.derefLazy c) = true

section Resolution

variable {l target : TypeId}
variable {u : TypeId}

/-- The types that stand for something else after a resolution are those that depend on the lazy
type. -/
theorem InStep.atom_resolveLazy (h : s.InStep) (hs : s.WellFormed) (hl : s.isPending l = true) (target : TypeId) {c : TypeId}
    (hc : s.Atom c) : (s.resolveLazy l target).store.Atom c ↔ ¬ s.DependsOn l c := by
  have htells := h.tellsAll hl target
  have hgoal := hs.lazyGoal_ne hl target
  constructor
  · rintro hatom (rfl | ⟨w, hshape, hlazy⟩)
    · grind [Atom.no_target, TellsAll.target_eq]
    · have hmem := (h.slot_mem_watchers hl (hs.object_known c w hshape)).2 hlazy
      rw [Atom, (h.looksUp hl target).shape_eq c (isPending_of_shape_eq hshape (by simp)), hshape] at hatom
      grind [Slot.isResolved, TellsAll.slot_eq]
  · intro hnot
    have hne : c ≠ l := fun heq => hnot (.inl heq)
    unfold Atom at hc ⊢
    rw [shape_resolveLazy hl target hne]
    split at hc
    case h_5 w hshape =>
      have hmem : .slot w ∉ s.watchers l := fun hmem =>
        hnot (.inr ⟨w, hshape, (h.slot_mem_watchers hl (hs.object_known c w hshape)).1 hmem⟩)
      grind [TellsAll.slot_eq]
    all_goals simp_all

theorem Joins.answers (hs : s.WellFormed) {cs : List TypeId} (hne : cs ≠ []) (hnodup : cs.Nodup)
    (hcs : ∀ c ∈ cs, s.Atom c) (hu : s.Joins cs u) : s.Answers (s.HasPart u) u := by
  obtain ⟨-, hparts⟩ := hu.settled hs hne hcs
  refine .known (fun hunknown => ?_) (fun p hp => ?_) (fun c hc => ⟨.type c, (hparts _).2 ⟨c, hc, rfl⟩, rfl⟩) hnodup hne hu
  · simp_all
  · obtain ⟨c, hc, rfl⟩ := (hparts p).1 hp
    exact ⟨c, hc, rfl⟩

section

variable (h : s.Orderly) (hin : s.InStep) (hl : s.isPending l = true) (htarget : s.Known target)

include h hin hl htarget

/-- A type that has been joined is up to date after the resolution, unless it is the lazy type or a
union that involves it. -/
theorem Orderly.upToDate_resolveLazy {P : Part → Prop} (hP : ∀ p, P p → p ≠ .unknown → s.Genuine p)
    (hu : s.Answers P u) (hne : u ≠ l) (hnot : ¬ s.Involves l u) : (s.resolveLazy l target).store.UpToDate u := by
  have hwell := (h.wellFormed.resolveLazy l htarget).1
  have hlooks := hin.looksUp hl target
  have hatom := fun c => hin.atom_resolveLazy h.wellFormed hl target (c := c)
  set s' := (s.resolveLazy l target).store
  cases hu with
  | unknown =>
    refine .joined (.unknown (.unknown ?_))
    rw [hwell.unknown_first]
    rfl
  | @known cs u hunknown _ hright hnodup hcs hjoins =>
    have hatoms : ∀ c ∈ cs, s.Atom c := by
      intro c hc
      obtain ⟨p, hp, hpc⟩ := hright c hc
      exact (hP p hp fun heq => hunknown (heq ▸ hp)).atom h.wellFormed h.slotsFollow hpc
    by_cases hlength : 2 ≤ cs.length
    · rw [joins_of_length hlength] at hjoins
      obtain ⟨cs', hcs', hkey, -⟩ := h.wellFormed.unions _ u hjoins
      have hperm := unionKey_eq_iff.1 hkey
      have hfree : ∀ c ∈ cs, ¬ s.DependsOn l c := fun c hc hdepends =>
        hnot ⟨cs', hcs', c, hperm.mem_iff.2 hc, hdepends⟩
      have hjoins' : s'.Joins cs u := by
        rw [joins_of_length hlength, hlooks.unions_eq]
        exact hjoins
      exact .joined (hjoins'.answers hwell hcs hnodup fun c hc => (hatom c (hatoms c hc)).2 (hfree c hc))
    · obtain ⟨x, rfl⟩ : ∃ x, cs = [x] := by
        rcases cs with _ | ⟨x, _ | ⟨y, rest⟩⟩
        · contradiction
        · exact ⟨x, rfl⟩
        · simp at hlength
      obtain rfl : u = x := hjoins
      have hself := hatoms u (by simp)
      by_cases hdepends : s.DependsOn l u
      · obtain ⟨w, hshape, -⟩ := hdepends.resolve_left hne
        have hshape' := (hlooks.shape_eq u (isPending_of_shape_eq hshape (by simp))).trans hshape
        refine .instances hshape' ?_
        grind [Atom]
      · exact .joined (.single (by simp) rfl fun q => hasPart_of_atom ((hatom u hself).2 hdepends))

/-- After the resolution, the union of types is what their union from before is joined to. -/
theorem Orderly.answers_after {ts : List TypeId} (hts : ∀ t ∈ ts, s.Known t) (hne : ts ≠ [])
    (hu : s.Answers (fun p => ∃ t ∈ ts, s.HasPart t p) u) {s1 s2 : TypeStore}
    (hgrows : (s.resolveLazy l target).store.Grows s1) (hs1 : s1.WellFormed) {w : TypeId}
    (hw : s1.GivesUnion ts w s2) : s2.Answers ((s.resolveLazy l target).store.HasPart u) w := by
  have hlooks := hin.looksUp hl target
  have horderly := h.resolveLazy hin l htarget
  have hin' := hin.resolveLazy h.wellFormed l target
  have hsize := (hin.tellsAll hl target).size_eq
  set s' := (s.resolveLazy l target).store
  have hts' : ∀ t ∈ ts, s'.Known t := fun t ht => Nat.lt_of_lt_of_eq (hts t ht) hsize.symm
  obtain ⟨-, hgrows2, hanswer⟩ :=
    (horderly.grows hgrows hs1).givesUnion (fun t ht => hgrows.known (hts' t ht)) hne hw
  -- the parts of the types are what they were before, or what that has become
  have hparts : ∀ q, (∃ t ∈ ts, s1.HasPart t q) ↔ ∃ p, (∃ t ∈ ts, s.HasPart t p) ∧ s'.Becomes p q := by
    intro q
    constructor
    · rintro ⟨t, ht, hq⟩
      obtain ⟨p, hp, hpq⟩ := hlooks.hasPart_iff.1 ((hgrows.hasPart_iff horderly.wellFormed (hts' t ht)).1 hq)
      exact ⟨p, ⟨t, ht, hp⟩, hpq⟩
    · rintro ⟨p, ⟨t, ht, hp⟩, hpq⟩
      exact ⟨t, ht, (hgrows.hasPart_iff horderly.wellFormed (hts' t ht)).2 (hlooks.hasPart_iff.2 ⟨p, hp, hpq⟩)⟩
  have hanswer := hanswer.of_iff hparts
  obtain ⟨hsettled, hsame⟩ := hu.settled h.wellFormed h.slotsFollow fun p ⟨t, _, hp⟩ hne => hp.genuine hne
  exact hanswer.congr
    (hlooks.same_parts h.wellFormed hin' hsettled hsame (hgrows.trans hgrows2) hanswer.typeOf?)

end

end Resolution

section Waits

variable {s' : TypeStore} {u : TypeId}

theorem Waits.grows (h : s.Waits u) (hs : s.Orderly) (hgrows : s.Grows s') : s'.Waits u := by
  obtain ⟨cs, hshape, c, hc, hpending⟩ := h
  have hcs := candidates?_eq_some_iff.2 (.inr hshape)
  grind [Waits, Grows.shape_eq, known_of_candidates, Orderly.isPending_candidate]

theorem Waits.givesCanonical (h : s.Waits u) {v : TypeId} (hv : s.GivesCanonical u v s') : v = u := by
  obtain ⟨cs, hshape, c, hc, hpending⟩ := h
  obtain ⟨depth, hv⟩ := hv.exists_succ
  have hany : (cs.any fun c => s.isPending (s.derefLazy c)) = true := List.any_eq_true.2 ⟨c, hc, hpending⟩
  rw [canonicalAt_lazyUnion hshape, if_pos hany] at hv
  exact (Prod.mk.inj (Option.some.inj hv)).1.symm

end Waits

/-! ## Before and after -/

/-- The canonical type of one type and the union of others are asked for, in either order. -/
inductive Asked (s : TypeStore) (u : TypeId) (ts : List TypeId) (v w : TypeId) : TypeStore → Prop
  | canonicalFirst {s₁ s₂ : TypeStore} : s.GivesCanonical u v s₁ → s₁.GivesUnion ts w s₂ → Asked s u ts v w s₂
  | unionFirst {s₁ s₂ : TypeStore} : s.GivesUnion ts w s₁ → s₁.GivesCanonical u v s₂ → Asked s u ts v w s₂

theorem Answers.eq_later {s1 s2 : TypeStore} {P : Part → Prop} {u v : TypeId} (hu : s1.Answers P u)
    (hv : s2.Answers P v) (h1 : s1.Grows s) (h2 : s2.Grows s) : u = v :=
  (hu.grows h1).unique (.refl (hu.grows h1).typeOf?) (hv.grows h2)

/-- The union `u` of types was formed in `s`, then the lazy type `l` was resolved. Now the canonical
type of `u` is `v`, and the union of the types is `w`. -/
structure Revisited (s : TypeStore) (ts : List TypeId) (u l target v w : TypeId) (s' : TypeStore) : Prop where
  orderly : s.Orderly
  inStep : s.InStep
  pending : s.isPending l = true
  target_known : s.Known target
  known : ∀ t ∈ ts, s.Known t
  ne_nil : ts ≠ []
  answers : s.Answers (fun p => ∃ t ∈ ts, s.HasPart t p) u
  asked : (s.resolveLazy l target).store.Asked u ts v w s'

namespace Revisited

variable {s' : TypeStore} {ts : List TypeId} {u l target v w : TypeId} {w' : TypeId} {s'' : TypeStore}

section

variable (h : s.Revisited ts u l target v w s')
include h

theorem settled : s.Settled u :=
  (h.answers.settled h.orderly.wellFormed h.orderly.slotsFollow fun _ ⟨_, _, hp⟩ hne => hp.genuine hne).1

theorem known_after {t : TypeId} (ht : s.Known t) : (s.resolveLazy l target).store.Known t :=
  Nat.lt_of_lt_of_eq ht (h.inStep.tellsAll h.pending target).size_eq.symm

theorem orderly_after : (s.resolveLazy l target).store.Orderly :=
  h.orderly.resolveLazy h.inStep l h.target_known

theorem stages : s'.Orderly ∧ (s.resolveLazy l target).store.Grows s' ∧
      (∃ s1 s2, (s.resolveLazy l target).store.Grows s1 ∧ s1.Orderly ∧ s1.GivesCanonical u v s2 ∧ s2.Grows s') ∧
      ∃ s1 s2, (s.resolveLazy l target).store.Grows s1 ∧ s1.Orderly ∧ s1.GivesUnion ts w s2 ∧ s2.Grows s' := by
  have horderly := h.orderly_after
  have hu := h.known_after h.settled.known
  have hts := fun t ht => h.known_after (h.known t ht)
  cases h.asked with
  | @canonicalFirst s1 _ hv hw =>
    obtain ⟨hs1, hgrows1, -⟩ := horderly.givesCanonical hu hv
    have hs1 := horderly.grows hgrows1 hs1
    obtain ⟨hs', hgrows, -⟩ := hs1.givesUnion (fun t ht => hgrows1.known (hts t ht)) h.ne_nil hw
    exact ⟨hs1.grows hgrows hs', hgrows1.trans hgrows, ⟨_, s1, .refl _, horderly, hv, hgrows⟩,
      s1, s', hgrows1, hs1, hw, .refl s'⟩
  | @unionFirst s1 _ hw hv =>
    obtain ⟨hs1, hgrows1, -⟩ := horderly.givesUnion hts h.ne_nil hw
    have hs1 := horderly.grows hgrows1 hs1
    obtain ⟨hs', hgrows, -⟩ := hs1.givesCanonical (hgrows1.known hu) hv
    exact ⟨hs1.grows hgrows hs', hgrows1.trans hgrows, ⟨s1, s', hgrows1, hs1, hv, .refl s'⟩,
      _, s1, .refl _, horderly, hw, hgrows⟩

theorem union_answers : s'.Answers ((s.resolveLazy l target).store.HasPart u) w := by
  obtain ⟨-, -, -, s1, s2, hgrows1, hs1, hw, hgrows2⟩ := h.stages
  have hanswer := h.orderly.answers_after h.inStep h.pending h.target_known h.known h.ne_nil
    h.answers hgrows1 hs1.wellFormed hw
  exact hanswer.grows hgrows2

theorem rejoined (hw' : s'.GivesUnion [v] w' s'') : w' = w := by
  obtain ⟨hs', -, ⟨s1, s2, hgrows1, hs1, hv, hgrows2⟩, -⟩ := h.stages
  have hu := h.known_after h.settled.known
  have hanswer := hs1.givesUnion_canonical (hgrows1.known hu) hv hgrows2 hs'.wellFormed hw'
  have hv : s'.Known v := by
    obtain ⟨hs2, hgrows, hstands⟩ := hs1.givesCanonical (hgrows1.known hu) hv
    exact hgrows2.known (hstands.known hgrows)
  obtain ⟨-, hgrows3, -⟩ := hs'.givesUnion (by simpa using hv) (List.cons_ne_nil v []) hw'
  refine Answers.eq_later (hanswer.of_iff fun p => ?_) h.union_answers (.refl s'') hgrows3
  exact hgrows1.hasPart_iff h.orderly_after.wellFormed hu

theorem eq_of_upToDate (hup : (s.resolveLazy l target).store.UpToDate u) : v = w := by
  obtain ⟨-, -, ⟨s1, s2, hgrows1, hs1, hv, hgrows2⟩, -⟩ := h.stages
  have hu := h.known_after h.settled.known
  have hanswer := (hup.grows h.orderly_after hgrows1 hu).givesCanonical hs1 hv
  refine Answers.eq_later (hanswer.of_iff fun p => ?_) h.union_answers hgrows2 (.refl s')
  exact hgrows1.hasPart_iff h.orderly_after.wellFormed hu

theorem upToDate (hne : u ≠ l)
    (hinvolves : s.Involves l u → (∃ cs, s.shape u = .lazyUnion cs) ∧ ¬ (s.resolveLazy l target).store.Waits u) :
    (s.resolveLazy l target).store.UpToDate u := by
  by_cases hu : s.Involves l u
  · obtain ⟨⟨cs, hshape⟩, hwaits⟩ := hinvolves hu
    have hlooks := h.inStep.looksUp h.pending target
    have hshape' := (hlooks.shape_eq u (isPending_of_shape_eq hshape (by simp))).trans hshape
    refine .lazyUnion hshape' fun c hc => Bool.eq_false_iff.2 fun hpending => ?_
    exact hwaits ⟨cs, hshape', c, hc, hpending⟩
  · exact h.orderly.upToDate_resolveLazy h.inStep h.pending h.target_known (fun p ⟨_, _, hp⟩ hne =>
      hp.genuine hne) h.answers hne hu

theorem eq_of_waits (hwaits : (s.resolveLazy l target).store.Waits u) : v = u := by
  obtain ⟨-, -, ⟨s1, s2, hgrows1, -, hv, -⟩, -⟩ := h.stages
  exact (hwaits.grows h.orderly_after hgrows1).givesCanonical hv

theorem ne_of_involves (hinvolves : s.Involves l u) : w ≠ u := by
  rintro rfl
  obtain ⟨cs, hcs, c, hc, hdepends⟩ := hinvolves
  obtain ⟨hs', hgrows, -, -⟩ := h.stages
  have hwell := h.orderly_after.wellFormed
  have hcs' : (s.resolveLazy l target).store.candidates? w = some cs :=
    ((h.orderly.wellFormed.resolveLazy l h.target_known).2 w).trans hcs
  have hsettled : s'.Settled w := by
    refine (h.union_answers.settled hs'.wellFormed hs'.slotsFollow fun p hp hne => ?_).1
    exact hgrows.genuine hwell (hp.genuine hne)
  have hatom : s'.Atom c :=
    hsettled.atom_of_candidates ((candidates?_congr (hgrows.shape_eq w (known_of_candidates hcs'))).trans hcs') hc
  have hknown := hwell.unfolds_known (.inr ⟨cs, hcs', hc⟩)
  refine (h.inStep.atom_resolveLazy h.orderly.wellFormed h.pending target (h.settled.atom_of_candidates hcs hc)).1 ?_ hdepends
  exact (hgrows.atom_iff hwell hknown).1 hatom

end

theorem union_target (h : s.Revisited ts l l target v w s') (hw' : s'.GivesUnion [target] w' s'') : w' = w := by
  have hend := h.orderly_after.chainsEnd
  have hwell := h.orderly_after.wellFormed
  have htarget := h.known_after h.target_known
  obtain ⟨hs', hgrows, -, -⟩ := h.stages
  obtain ⟨-, hgrows', hanswer⟩ := hs'.givesUnion (by simpa using hgrows.known htarget) (List.cons_ne_nil target []) hw'
  refine Answers.eq_later (hanswer.of_iff fun p => ?_) h.union_answers (.refl s'') hgrows'
  have hleads := h.orderly.chainsEnd.derefLazy_resolveLazy h.orderly.wellFormed h.pending h.target_known
  calc (∃ t ∈ [target], s'.HasPart t p) ↔ s'.HasPart target p := by simp
    _ ↔ (s.resolveLazy l target).store.HasPart target p := hgrows.hasPart_iff hwell htarget
    _ ↔ (s.resolveLazy l target).store.HasPart l p := by
      rw [(hend.derefs hwell htarget).hasPart_iff, (hend.derefs hwell (h.known_after h.settled.known)).hasPart_iff, hleads]

end Revisited

theorem canonicalAt_congr {t t' : TypeId} (h : s.derefLazy t = s.derefLazy t') (depth : Nat) :
    canonicalAt depth t s = canonicalAt depth t' s := by
  cases depth with
  | zero =>
    rw [canonicalAt, canonicalAt]
  | succ depth => rw [canonicalAt_succ, canonicalAt_succ, h]

/-- The union `u` of two types is formed, and then a lazy type is resolved, in a store that has been
reached with every added union offering candidates and whose slots are in step with their lazy
types. If nothing gives up, the union of the canonical type of `u` is the union of the two types
after the resolution. The canonical type of `u` is this union itself if `u` is neither the lazy type
nor involves it, or if it is a lazy union that waits for nothing any more. A lazy union that waits
is its own canonical type. If `u` is the lazy type, then it has the canonical type of the target,
whose union is the union of the two types. Nothing gives up if no lazy type led back to itself
before and the target does not lead to this one. -/
theorem union_revisited {s : TypeStore} (hreached : Reached StoreAction.OffersCandidates s) (hin : s.InStep)
    {a b l target : TypeId} (ha : s.Known a) (hb : s.Known b) (hl : s.isPending l = true) (htarget : s.Known target) :
    (∀ u s₁, s.GivesUnion [a, b] u s₁ →
      let s₂ := (s₁.resolveLazy l target).store
      ∀ v w s₃, s₂.Asked u [a, b] v w s₃ →
        (∀ w' s₄, s₃.GivesUnion [v] w' s₄ → w' = w) ∧
        (u ≠ l → (s₁.Involves l u → (∃ cs, s₁.shape u = .lazyUnion cs) ∧ ¬ s₂.Waits u) → v = w) ∧
        (s₂.Waits u → v = u ∧ (s₁.Involves l u → w ≠ u)) ∧
        (u = l → (∀ v' s', s₂.GivesCanonical u v' s' ↔ s₂.GivesCanonical target v' s') ∧
          ∀ w' s₄, s₃.GivesUnion [target] w' s₄ → w' = w)) ∧
    (s.Acyclic → ¬ Relation.ReflTransGen s.Unfolds target l →
      let s₁ := (unionOf [a, b] s).2
      s.GivesUnion [a, b] (unionOf [a, b] s).1 s₁ ∧
        ∀ s₂, (s₁.resolveLazy l target).store.Grows s₂ → s₂.WellFormed →
          (∀ t, s₂.Known t → s₂.GivesCanonical t (canonical t s₂).1 (canonical t s₂).2) ∧
          ∀ ts, (∀ t ∈ ts, s₂.Known t) → s₂.GivesUnion ts (unionOf ts s₂).1 (unionOf ts s₂).2) := by
  have hs : s.Orderly := ⟨hreached.wellFormed, hreached.noEmptyUnion, hreached.chainsEnd, hin.slotsFollow⟩
  have hts : ∀ t ∈ [a, b], s.Known t := by simp [ha, hb]
  have hpending : ∀ {s₁}, s.Grows s₁ → s₁.isPending l = true := fun hgrows =>
    (isPending_congr (hgrows.shape_eq l (Atom.of_isPending hl).known)).trans hl
  constructor
  · intro u s₁ hu s₂ v w s₃ hasked
    obtain ⟨hs₁, hgrows, hanswers⟩ := hs.givesUnion hts (List.cons_ne_nil a [b]) hu
    have hin₁ : s₁.InStep := by
      obtain ⟨depth, hu⟩ := hu
      exact hin.registers (((framed_registers.keeps depth).unionOf s [a, b]).apply_some hu)
    have hanswers : s₁.Answers (fun p => ∃ t ∈ [a, b], s₁.HasPart t p) u := by
      refine hanswers.of_iff fun p => exists_congr fun t => and_congr_right fun ht => ?_
      exact (hgrows.hasPart_iff hs.wellFormed (hts t ht)).symm
    have h : s₁.Revisited [a, b] u l target v w s₃ :=
      ⟨hs.grows hgrows hs₁, hin₁, hpending hgrows, hgrows.known htarget,
        fun t ht => hgrows.known (hts t ht), List.cons_ne_nil a [b], hanswers, hasked⟩
    refine ⟨fun w' s₄ => h.rejoined, fun hne hinvolves => h.eq_of_upToDate (h.upToDate hne hinvolves),
      fun hwaits => ⟨h.eq_of_waits hwaits, h.ne_of_involves⟩, ?_⟩
    rintro rfl
    refine ⟨fun v' s' => exists_congr fun depth => ?_, fun w' s₄ => h.union_target⟩
    have hleads := h.orderly.chainsEnd.derefLazy_resolveLazy h.orderly.wellFormed h.pending h.target_known
    rw [canonicalAt_congr hleads]
  · intro hacyclic hreach s₁
    have hgood : s.Good := ⟨hs.wellFormed, hs.noEmptyUnion, hacyclic, hs.slotsFollow⟩
    obtain ⟨hs₁, hgrows, -⟩ := unionOf_sound hs.wellFormed hts
    have hgood₁ := hgood.grows hgrows hs₁
    have hin₁ : s₁.InStep := hin.registers (framed_registers.within ((framed_registers.keeps _).unionOf s [a, b]))
    have hreach₁ : ¬ Relation.ReflTransGen s₁.Unfolds target l := fun hpath =>
      hreach (hgrows.known_of_path hs.wellFormed htarget hpath).2
    have hafter := hgood₁.orderly.resolveLazy hin₁ l (hgrows.known htarget)
    have hgood₂ : (s₁.resolveLazy l target).store.Good :=
      ⟨hafter.wellFormed, hafter.noEmptyUnion,
        hgood₁.acyclic.resolveLazy hs₁ (hpending hgrows) (hgrows.known htarget) hreach₁, hafter.slotsFollow⟩
    refine ⟨hgood.unionOf_given hts, fun s₂ hgrows₂ hs₂ => ?_⟩
    have hgood₃ := hgood₂.grows hgrows₂ hs₂
    exact ⟨fun t => hgood₃.canonical_given, fun ts => hgood₃.unionOf_given⟩

/-- A store with a pending lazy type, an instance of what that will be resolved to, and a class. -/
def awaitingClass : TypeStore :=
  performAll {} [.alloc (.lazy "m.L" (.pending [])), .wrap ⟨1⟩, .instanceOf (.slot ⟨0⟩),
    .alloc (.ofClass ⟨"T", none, {}, [], false, .project⟩)]

/-- The union of the lazy type and its instance becomes the union of the class and its instance. -/
theorem union_revisited_awaitingClass :
    let s₁ := (unionOf [⟨1⟩, ⟨2⟩] awaitingClass).2
    let s₂ := (s₁.resolveLazy ⟨1⟩ ⟨3⟩).store
    Reached StoreAction.OffersCandidates awaitingClass ∧ awaitingClass.InStep ∧ awaitingClass.Acyclic ∧
      ¬ Relation.ReflTransGen awaitingClass.Unfolds ⟨3⟩ ⟨1⟩ ∧ (unionOf [⟨1⟩, ⟨2⟩] awaitingClass).1 = ⟨4⟩ ∧
      s₁.Involves ⟨1⟩ ⟨4⟩ ∧ ¬ s₂.Waits ⟨4⟩ ∧
      (canonical ⟨4⟩ s₂).1 = (unionOf [⟨1⟩, ⟨2⟩] (canonical ⟨4⟩ s₂).2).1 := by
  intro s₁ s₂
  have hvalid : ValidAll {} [.alloc (.lazy "m.L" (.pending [])), .wrap ⟨1⟩, .instanceOf (.slot ⟨0⟩),
      .alloc (.ofClass ⟨"T", none, {}, [], false, .project⟩)] := by decide +kernel
  have hreached : Reached StoreAction.OffersCandidates awaitingClass :=
    Reached.new.performAll _ hvalid (by simp [StoreAction.OffersCandidates])
  have hin : awaitingClass.InStep :=
    inStep_new.performAll wellFormed_new hvalid (by simp [StoreAction.FollowsProtocol])
  have hacyclic : awaitingClass.Acyclic := acyclic_of_rank (fun _ => 0) (by decide +kernel)
  have hreach : ¬ Relation.ReflTransGen awaitingClass.Unfolds ⟨3⟩ ⟨1⟩ := by
    have hends : ∀ u, ¬ awaitingClass.Unfolds ⟨3⟩ u := by
      rintro u (hu | ⟨cs, hcs, -⟩)
      · exact absurd (hu.symm.trans (show awaitingClass.lazyTarget? ⟨3⟩ = none by decide +kernel)) (by simp)
      · exact absurd (hcs.symm.trans (show awaitingClass.candidates? ⟨3⟩ = none by decide +kernel)) (by simp)
    rw [Relation.reflTransGen_iff_eq hends]
    decide
  have hunion : (unionOf [⟨1⟩, ⟨2⟩] awaitingClass).1 = ⟨4⟩ := by decide +kernel
  have hinvolves : s₁.Involves ⟨1⟩ ⟨4⟩ := ⟨[⟨1⟩, ⟨2⟩], by decide +kernel, ⟨1⟩, by simp, .inl rfl⟩
  have hlazy : s₁.shape ⟨4⟩ = .lazyUnion [⟨1⟩, ⟨2⟩] := rfl
  have hwaits : ¬ s₂.Waits ⟨4⟩ := by
    rintro ⟨cs, hcs, c, hc, hpending⟩
    obtain rfl : [⟨1⟩, ⟨2⟩] = cs := TypeForm.lazyUnion.inj hcs
    have hnone : ∀ c ∈ [⟨1⟩, ⟨2⟩], s₂.isPending (s₂.derefLazy c) = false := by decide +kernel
    exact absurd ((hnone c hc).symm.trans hpending) (by simp)
  obtain ⟨hrevisited, hgiven⟩ := union_revisited hreached hin (a := ⟨1⟩) (b := ⟨2⟩) (l := ⟨1⟩) (by decide +kernel)
    (by decide +kernel) (by decide +kernel) (show awaitingClass.Known ⟨3⟩ by decide +kernel)
  obtain ⟨hfirst, hlater⟩ := hgiven hacyclic hreach
  have hs₂ : s₂.WellFormed := by
    have hknown : ∀ t ∈ [⟨1⟩, ⟨2⟩], awaitingClass.Known t := by decide +kernel
    exact ((unionOf_sound hreached.wellFormed hknown).1.resolveLazy ⟨1⟩ (by decide +kernel)).1
  have hcanonical := (hlater s₂ (.refl s₂) hs₂).1 ⟨4⟩ (by decide +kernel)
  obtain ⟨hs₃, hgrows, -⟩ := canonical_sound hs₂ (show s₂.Known ⟨4⟩ by decide +kernel)
  have hknown : ∀ t ∈ [⟨1⟩, ⟨2⟩], s₂.Known t := by decide +kernel
  have hagain := (hlater _ hgrows hs₃).2 [⟨1⟩, ⟨2⟩] fun t ht => hgrows.known (hknown t ht)
  rw [hunion] at hfirst
  refine ⟨hreached, hin, hacyclic, hreach, hunion, hinvolves, hwaits, ?_⟩
  exact (hrevisited ⟨4⟩ s₁ hfirst _ _ _ (.canonicalFirst hcanonical hagain)).2.1 (by decide)
    fun _ => ⟨⟨_, hlazy⟩, hwaits⟩

/-- A store with two pending lazy types. -/
def twoPending : TypeStore :=
  performAll {} [.alloc (.lazy "m.L" (.pending [])), .alloc (.lazy "m.M" (.pending []))]

/-- A lazy union has to wait for all its candidates: if one of them is resolved to the other, it
stays as it is, whereas the union of both is the one that is left. -/
theorem canonical_ne_union_twoPending :
    let s₁ := (unionOf [⟨1⟩, ⟨2⟩] twoPending).2
    let s₂ := (s₁.resolveLazy ⟨1⟩ ⟨2⟩).store
    Reached StoreAction.OffersCandidates twoPending ∧ twoPending.InStep ∧ twoPending.Acyclic ∧
      twoPending.isPending ⟨1⟩ = true ∧ ¬ Relation.ReflTransGen twoPending.Unfolds ⟨2⟩ ⟨1⟩ ∧
      (unionOf [⟨1⟩, ⟨2⟩] twoPending).1 = ⟨3⟩ ∧ (canonical ⟨3⟩ s₂).1 = ⟨3⟩ ∧
      (unionOf [⟨1⟩, ⟨2⟩] s₂).1 = ⟨2⟩ ∧ (unionOf [⟨1⟩, ⟨2⟩] (canonical ⟨3⟩ s₂).2).1 = ⟨2⟩ := by
  have hvalid : ValidAll {} [.alloc (.lazy "m.L" (.pending [])), .alloc (.lazy "m.M" (.pending []))] := by decide +kernel
  refine ⟨Reached.new.performAll _ hvalid (by simp [StoreAction.OffersCandidates]),
    inStep_new.performAll wellFormed_new hvalid (by simp [StoreAction.FollowsProtocol]),
    acyclic_of_rank (fun _ => 0) (by decide +kernel), by decide +kernel, ?_, by decide +kernel, by decide +kernel,
    by decide +kernel, by decide +kernel⟩
  rw [Relation.reflTransGen_iff_eq (not_unfolds_of_isPending (by decide +kernel))]
  decide

end PythonTypes.TypeStore
