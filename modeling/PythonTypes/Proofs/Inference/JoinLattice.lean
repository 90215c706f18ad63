import PythonTypes.Inference.TypeState
import PythonTypes.Proofs.Types.Covering

/-!
# Joins of states are least upper bounds

A join unites the types of each variable (`IsJoin`), and among states of canonical types the union
is the least type that covers both. So the join is the least state above both
(`IsJoin.isBelow_iff`), and what the laws of a semilattice say follows from that, however many joins
have been formed in between and whatever else was added to the store.
-/

set_option autoImplicit false

namespace PythonTypes.TypeState

variable {j : Option TypeId} {l r : TypeState} {s s' : TypeStore} {o : Option TypeId}

/-- Whether the types of all variables are canonical, and those that are unions are interned with
canonical candidates. -/
def FullyCanonical (store : TypeStore) (state : TypeState) : Prop := ∀ x t, state.get? x = some t → store.FullyCanonical t

theorem FullyCanonical.since {state : TypeState} (h : s.Intact) (hs' : s.Since s')
    (hstate : state.FullyCanonical s) : state.FullyCanonical s' :=
  fun x t ht => (hstate x t ht).since h hs'

theorem fullyCanonical_ofList {pairs : List (SymbolId × TypeId)}
    (h : ∀ e ∈ pairs, s.FullyCanonical e.2) : (ofList pairs).FullyCanonical s := by
  intro x t ht
  rcases OrderedMap.mem_of_get?_insertAll ht with hnone | hmem
  · contradiction
  · exact h (x, t) hmem

/-! ## The order of states -/

/-- Whether what a variable is bound to, if it is, is covered by what it is bound to elsewhere. -/
def AboveAt (s : TypeStore) (whole part : Option TypeId) : Prop := ∀ a, part = some a → ∃ b, whole = some b ∧ s.Above b a

theorem isBelow_iff : isBelow s l r = true ↔ ∀ x, AboveAt s (r.get? x) (l.get? x) := by
  unfold isBelow
  rw [List.all_eq_true]
  constructor
  · intro h x a ha
    have hentry := h (x, a) ((OrderedMap.get?_eq_some_iff _ _ _).1 ha)
    cases hr : r.get? x <;> simp_all [TypeStore.Above]
  · rintro h ⟨x, a⟩ ha
    obtain ⟨b, hb, habove⟩ := h x a ((OrderedMap.get?_eq_some_iff _ _ _).2 ha)
    simpa [hb, TypeStore.Above] using habove

theorem isBelow_refl (s : TypeStore) (l : TypeState) : isBelow s l l = true :=
  isBelow_iff.2 fun _ a ha => ⟨a, ha, .inr (TypeStore.covers_iff.2 (.inl rfl))⟩

theorem isBelow_antisymm (h : s.Intact) (hl : l.FullyCanonical s) (hr : r.FullyCanonical s)
    (hlr : isBelow s l r = true) (hrl : isBelow s r l = true) (x : SymbolId) : l.get? x = r.get? x := by
  have hlr := isBelow_iff.1 hlr x
  have hrl := isBelow_iff.1 hrl x
  cases ha : l.get? x with
  | none =>
    cases hb : r.get? x with
    | none => rfl
    | some b =>
      obtain ⟨a, ha', -⟩ := hrl b hb
      exact absurd (ha.symm.trans ha') (by simp)
  | some a =>
    obtain ⟨b, hb, hba⟩ := hlr a ha
    obtain ⟨a', ha', hab⟩ := hrl b hb
    obtain rfl := Option.some.inj (ha.symm.trans ha')
    rw [hb, hab.antisymm h (hl x a ha) (hr x b hb) hba]

/-! ## Joins -/

/-- What a variable is bound to in a join, given what it is bound to in both states. -/
inductive JoinedAt (s : TypeStore) : Option TypeId → Option TypeId → Option TypeId → Prop
  | right {o : Option TypeId} : JoinedAt s none o o
  | left {a : TypeId} : JoinedAt s (some a) none (some a)
  | both {a b u : TypeId} : s.IsUnion a b u → JoinedAt s (some a) (some b) (some u)

theorem aboveAt_none (s : TypeStore) (whole : Option TypeId) : AboveAt s whole none := by rintro _ ⟨⟩

theorem aboveAt_some {whole : Option TypeId} {a : TypeId} :
    AboveAt s whole (some a) ↔ ∃ b, whole = some b ∧ s.Above b a := by simp [AboveAt]

theorem JoinedAt.aboveAt_iff (h : s.Intact) {l r w : Option TypeId} (hl : ∀ t, l = some t → s.FullyCanonical t)
    (hr : ∀ t, r = some t → s.FullyCanonical t) (hj : ∀ t, j = some t → s.FullyCanonical t)
    (hw : ∀ t, w = some t → s.FullyCanonical t) (hjoined : JoinedAt s l r j) :
    AboveAt s w j ↔ AboveAt s w l ∧ AboveAt s w r := by
  cases hjoined with
  | right => exact (and_iff_right (aboveAt_none s w)).symm
  | left => exact (and_iff_left (aboveAt_none s w)).symm
  | @both a b u hunion =>
    grind [aboveAt_some, TypeStore.IsUnion.above_iff]

theorem JoinedAt.of_none : JoinedAt s o none o := by
  cases o with
  | none => exact .right
  | some a => exact .left

theorem JoinedAt.eq_of_none (h : JoinedAt s o none j) : j = o := by
  cases h with
  | right => rfl
  | left => rfl

theorem JoinedAt.grows (hgrows : s.Grows s') {l r : Option TypeId} (hl : ∀ t, l = some t → s.Known t)
    (hr : ∀ t, r = some t → s.Known t) (hj : ∀ t, j = some t → s.Known t)
    (hjoined : JoinedAt s l r j) : JoinedAt s' l r j := by
  cases hjoined with
  | right => exact .right
  | left => exact .left
  | both hunion => exact .both (hunion.grows hgrows (hl _ rfl) (hr _ rfl) (hj _ rfl))

/-- Whether a state unites the types of two others. -/
structure IsJoin (s : TypeStore) (l r j : TypeState) : Prop where
  left : l.FullyCanonical s
  right : r.FullyCanonical s
  join : j.FullyCanonical s
  joined : ∀ x, JoinedAt s (l.get? x) (r.get? x) (j.get? x)

theorem IsJoin.since (h : s.Intact) (hs' : s.Since s') {j : TypeState} (hj : IsJoin s l r j) : IsJoin s' l r j := by
  refine ⟨hj.left.since h hs', hj.right.since h hs', hj.join.since h hs', fun x => ?_⟩
  exact (hj.joined x).grows hs'.grows (fun t ht => (hj.left x t ht).known)
    (fun t ht => (hj.right x t ht).known) fun t ht => (hj.join x t ht).known

theorem IsJoin.isBelow_iff (h : s.Intact) {j w : TypeState} (hj : IsJoin s l r j)
    (hw : w.FullyCanonical s) : isBelow s j w = true ↔ isBelow s l w = true ∧ isBelow s r w = true := by
  rw [TypeState.isBelow_iff, TypeState.isBelow_iff, TypeState.isBelow_iff, ← forall_and]
  exact forall_congr' fun x => (hj.joined x).aboveAt_iff h (hj.left x) (hj.right x) (hj.join x) (hw x)

theorem get?_set (state : TypeState) (x y : SymbolId) (t : TypeId) :
    (state.set x t).get? y = if y = x then some t else state.get? y :=
  OrderedMap.get?_insert _ _ _ _

theorem joinOne_apply (state : TypeState) (x : SymbolId) (t : TypeId) (s : TypeStore) :
    state.joinOne x t s = match state.get? x with
      | some old => (state.set x (TypeStore.union old t s).1, (TypeStore.union old t s).2)
      | none => (state.set x t, s) := by
  unfold joinOne
  cases state.get? x <;> rfl

/-- Whether an action has added what variables are elsewhere to a state. -/
structure JoinedBy (s : TypeStore) (state : TypeState) (added : SymbolId → Option TypeId)
    (result : TypeState × TypeStore) : Prop where
  since : s.Since result.2
  canonical : result.1.FullyCanonical result.2
  joined : ∀ y, JoinedAt result.2 (state.get? y) (added y) (result.1.get? y)

section Steps

variable {state : TypeState}

theorem joinOne_joined (h : s.Intact) (hstate : state.FullyCanonical s) (x : SymbolId) {t : TypeId}
    (ht : s.FullyCanonical t) :
    JoinedBy s state (fun y => if y = x then some t else none) (state.joinOne x t s) := by
  have hset : ∀ {s' : TypeStore} {u : TypeId}, s.Since s' → s'.FullyCanonical u → (state.set x u).FullyCanonical s' := by
    intro s' u hs' hu y v hv
    rw [get?_set] at hv
    split at hv
    · exact Option.some.inj hv ▸ hu
    · exact (hstate y v hv).since h hs'
  have hjoined : ∀ {s' : TypeStore} {u : TypeId}, JoinedAt s' (state.get? x) (some t) (some u) →
      ∀ y, JoinedAt s' (state.get? y) (if y = x then some t else none) ((state.set x u).get? y) := by
    intro s' u hu y
    rw [get?_set]
    by_cases hy : y = x
    · rw [if_pos hy, if_pos hy, hy]
      exact hu
    · rw [if_neg hy, if_neg hy]
      exact .of_none
  rw [joinOne_apply]
  cases hx : state.get? x with
  | none => exact ⟨.refl h, hset (.refl h) ht, hjoined (by rw [hx]; exact .right)⟩
  | some old =>
    obtain ⟨hs', hu, hunion⟩ := h.union_isUnion (hstate x old hx) ht
    exact ⟨hs', hset hs' hu, hjoined (by rw [hx]; exact .both hunion)⟩

theorem JoinedBy.trans {result result' : TypeState × TypeStore} {added added' : SymbolId → Option TypeId}
    (hstate : state.FullyCanonical s) (hadded : ∀ y t, added y = some t → s.Known t)
    (hfirst : JoinedBy s state added result) (hrest : JoinedBy result.2 result.1 added' result')
    (hdisjoint : ∀ y, added y = none ∨ added' y = none) : JoinedBy s state (fun y => (added y).or (added' y)) result' := by
  refine ⟨hfirst.since.trans hrest.since, hrest.canonical, fun y => ?_⟩
  have hfirst' := hfirst.joined y
  have hrest' := hrest.joined y
  rcases hdisjoint y with hy | hy
  · grind [JoinedAt.eq_of_none]
  · rw [hy] at hrest'
    have hgrown := hfirst'.grows hrest.since.grows (fun t ht => hfirst.since.grows.known (hstate y t ht).known)
      (fun t ht => hfirst.since.grows.known (hadded y t ht)) fun t ht => (hfirst.canonical y t ht).known
    simpa [hy, hrest'.eq_of_none] using hgrown

/-- What the entries of a map add, by induction on the list of them: each variable is bound once. -/
theorem foldlM_joinOne (h : s.Intact) (hstate : state.FullyCanonical s) (pairs : List (SymbolId × TypeId))
    (hnodup : (pairs.map Prod.fst).Nodup) (hpairs : ∀ e ∈ pairs, s.FullyCanonical e.2) :
    JoinedBy s state (Entries.find? · pairs)
      ((pairs.foldlM (fun (state : TypeState) (e : SymbolId × TypeId) => state.joinOne e.1 e.2)
        state : StoreM TypeState) s) := by
  induction pairs generalizing s state with
  | nil => exact ⟨.refl h, hstate, fun y => .of_none⟩
  | cons e rest ih =>
    obtain ⟨x, t⟩ := e
    have hcanonical : s.FullyCanonical t := hpairs (x, t) (by simp)
    have hnodup := List.nodup_cons.1 hnodup
    have hfirst := joinOne_joined h hstate x hcanonical
    have hrest := ih hfirst.since.intact hfirst.canonical hnodup.2 fun e he => (hpairs e (by simp [he])).since h hfirst.since
    have hentry : (Entries.find? · ((x, t) :: rest)) = fun y =>
        (if y = x then some t else none).or (Entries.find? y rest) := by
      funext y
      by_cases hy : y = x
      · simp [Entries.find?, hy]
      · simp [Entries.find?, hy, Ne.symm hy]
    rw [List.foldlM_cons, hentry]
    refine hfirst.trans hstate (fun y u hu => ?_) hrest fun y => ?_
    · grind [TypeStore.FullyCanonical.known]
    · by_cases hy : y = x
      · right
        rw [hy, ← Option.not_isSome_iff_eq_none, Entries.find?_isSome_iff]
        exact hnodup.1
      · exact .inl (if_neg hy)

theorem join_isJoin (h : s.Intact) (hl : l.FullyCanonical s) (hr : r.FullyCanonical s) :
    s.Since (join l r s).2 ∧ IsJoin (join l r s).2 l r (join l r s).1 := by
  have hjoined : JoinedBy s l r.get? (join l r s) := by
    refine foldlM_joinOne h hl r.types.entries r.types.nodup fun e he => ?_
    exact hr e.1 e.2 ((OrderedMap.get?_eq_some_iff _ _ _).2 he)
  exact ⟨hjoined.since, hl.since h hjoined.since, hr.since h hjoined.since, hjoined.canonical, hjoined.joined⟩

end Steps

/-! ## The laws -/

section Laws

variable {m j j' k k' w : TypeState}

theorem fullyCanonical_bottom (s : TypeStore) : bottom.FullyCanonical s := by rintro x t ⟨⟩

theorem bottom_isBelow (s : TypeStore) (w : TypeState) : isBelow s bottom w = true := rfl

section

variable (h : s.Intact)

include h

theorem get?_eq_of_isBelow_iff (hj : j.FullyCanonical s) (hk : k.FullyCanonical s)
    (hsame : ∀ w, w.FullyCanonical s → (isBelow s j w = true ↔ isBelow s k w = true)) (x : SymbolId) : j.get? x = k.get? x :=
  isBelow_antisymm h hj hk ((hsame k hk).2 (isBelow_refl s k)) ((hsame j hj).1 (isBelow_refl s j)) x

theorem IsJoin.upper (hj : IsJoin s l r j) : isBelow s l j = true ∧ isBelow s r j = true :=
  (hj.isBelow_iff h hj.join).1 (isBelow_refl s j)

theorem IsJoin.comm (hj : IsJoin s l r j) (hj' : IsJoin s r l j') (x : SymbolId) : j.get? x = j'.get? x := by
  refine get?_eq_of_isBelow_iff h hj.join hj'.join (fun w hw => ?_) x
  rw [hj.isBelow_iff h hw, hj'.isBelow_iff h hw, and_comm]

theorem IsJoin.assoc (hj : IsJoin s l r j) (hk : IsJoin s j m k) (hj' : IsJoin s r m j')
    (hk' : IsJoin s l j' k') (x : SymbolId) : k.get? x = k'.get? x := by
  refine get?_eq_of_isBelow_iff h hk.join hk'.join (fun w hw => ?_) x
  rw [hk.isBelow_iff h hw, hj.isBelow_iff h hw, hk'.isBelow_iff h hw, hj'.isBelow_iff h hw, and_assoc]

theorem IsJoin.idem (hj : IsJoin s l l j) (x : SymbolId) : j.get? x = l.get? x := by
  grind [get?_eq_of_isBelow_iff, join, left, isBelow_iff]

theorem IsJoin.bottom_right (hj : IsJoin s l bottom j) (x : SymbolId) : j.get? x = l.get? x := by
  refine get?_eq_of_isBelow_iff h hj.join hj.left (fun w hw => ?_) x
  rw [hj.isBelow_iff h hw, and_iff_left (bottom_isBelow s w)]

theorem IsJoin.bottom_left (hj : IsJoin s bottom l j) (x : SymbolId) : j.get? x = l.get? x := by
  refine get?_eq_of_isBelow_iff h hj.join hj.right (fun w hw => ?_) x
  rw [hj.isBelow_iff h hw, and_iff_right (bottom_isBelow s w)]

end

end Laws

/-- A run of actions that resolve nothing, with the joins of canonical states that were formed in
it. -/
inductive JoinLog (s₀ : TypeStore) : TypeStore → List (TypeState × TypeState × TypeState) → Prop
  | start : JoinLog s₀ s₀ []
  | action {s : TypeStore} {log : List (TypeState × TypeState × TypeState)} (a : StoreAction) :
      JoinLog s₀ s log → a.InRange s →
      a.OffersCandidates → ¬ a.Resolves → JoinLog s₀ (a.perform s) log
  | join {s : TypeStore} {log : List (TypeState × TypeState × TypeState)} (l r : TypeState) : JoinLog s₀ s log →
      l.FullyCanonical s → r.FullyCanonical s → JoinLog s₀ (join l r s).2 (log ++ [(l, r, (join l r s).1)])

theorem JoinLog.isJoin {s0 : TypeStore} {log : List (TypeState × TypeState × TypeState)} (h0 : s0.Intact)
    (hlog : JoinLog s0 s log) : s.Intact ∧ ∀ l r j, (l, r, j) ∈ log → IsJoin s l r j := by
  induction hlog with
  | start => exact ⟨h0, by simp⟩
  | action a _ hrange hoffers hkeeps ih =>
    obtain ⟨h, hjoins⟩ := ih
    have hs' := (TypeStore.Since.refl h).perform hrange hoffers hkeeps
    exact ⟨hs'.intact, fun l r j hj => (hjoins l r j hj).since h hs'⟩
  | join l r _ hl hr ih =>
    grind [join_isJoin, TypeStore.Since.intact, IsJoin.since]

/-- Joins of states whose types are canonical, in whatever store was reached and in whatever order
they are formed while nothing is resolved: a join is the least canonical state above both, and as
maps joins are commutative, associative and idempotent, with the state that binds nothing as
identity. -/
theorem join_is_least_upper_bound {as : List StoreAction} (has : TypeStore.AllInRange {} as) {s : TypeStore}
    {log : List (TypeState × TypeState × TypeState)} (hlog : JoinLog (TypeStore.performAll {} as) s log) :
    (∀ l r j, (l, r, j) ∈ log → j.FullyCanonical s ∧ isBelow s l j = true ∧ isBelow s r j = true ∧
      ∀ w, w.FullyCanonical s → isBelow s l w = true → isBelow s r w = true → isBelow s j w = true) ∧
    (∀ l r j j', (l, r, j) ∈ log → (r, l, j') ∈ log → ∀ x, j.get? x = j'.get? x) ∧
    (∀ l r m j k j' k', (l, r, j) ∈ log → (j, m, k) ∈ log → (r, m, j') ∈ log → (l, j', k') ∈ log →
      ∀ x, k.get? x = k'.get? x) ∧ (∀ l j, (l, l, j) ∈ log → ∀ x, j.get? x = l.get? x) ∧
    (∀ l j, (l, bottom, j) ∈ log ∨ (bottom, l, j) ∈ log → ∀ x, j.get? x = l.get? x) := by
  obtain ⟨h, hjoins⟩ := hlog.isJoin (TypeStore.intact_new.performAll has)
  refine ⟨?_, ?_, ?_, ?_, ?_⟩
  · intro l r j hj
    have hjoin := hjoins l r j hj
    obtain ⟨hl, hr⟩ := hjoin.upper h
    exact ⟨hjoin.join, hl, hr, fun w hw hlw hrw => (hjoin.isBelow_iff h hw).2 ⟨hlw, hrw⟩⟩
  · intro l r j j' hj hj'
    exact (hjoins l r j hj).comm h (hjoins r l j' hj')
  · intro l r m j k j' k' hj hk hj' hk'
    exact (hjoins l r j hj).assoc h (hjoins j m k hk) (hjoins r m j' hj') (hjoins l j' k' hk')
  · intro l j hj
    exact (hjoins l l j hj).idem h
  · rintro l j (hj | hj)
    · exact (hjoins l bottom j hj).bottom_right h
    · exact (hjoins bottom l j hj).bottom_left h

/-- Two classes, a failed import and a class that is not looked up yet. -/
def classesAndImports : List StoreAction :=
  let cls (name : String) := StoreAction.alloc (.ofClass ⟨name, none, ∅, [], false, .project⟩)
  [cls "A", cls "B", .unresolvedImport "x", .alloc (.lazy "m.C" (.pending []))]

/-- One variable is either class, one is unknown, and one is only bound in one of the states. -/
theorem join_is_least_upper_bound_mixed :
    let l := ofList [(⟨0⟩, ⟨1⟩), (⟨1⟩, ⟨3⟩)]
    let r := ofList [(⟨0⟩, ⟨2⟩), (⟨1⟩, ⟨1⟩), (⟨2⟩, ⟨4⟩)]
    TypeStore.AllInRange {} classesAndImports ∧ ∃ s log j j' k, JoinLog (TypeStore.performAll {} classesAndImports) s log ∧
      (l, r, j) ∈ log ∧ (r, l, j') ∈ log ∧ (j, bottom, k) ∈ log ∧ j.get? ⟨0⟩ = some ⟨5⟩ ∧ j.get? ⟨1⟩ = some .unknown ∧
      (∀ x, j.get? x = j'.get? x) ∧ (∀ x, k.get? x = j.get? x) ∧ isBelow s l j = true ∧ isBelow s r j = true := by
  intro l r
  have hrange : TypeStore.AllInRange {} classesAndImports := of_decide_eq_true (by cbv)
  have hsingle : ∀ i, 0 < i → i < 5 → (TypeStore.performAll {} classesAndImports).FullyCanonical ⟨i⟩ := by
    intro i hpos hlt
    interval_cases i <;> exact .of_isSingle (by decide +kernel) ⟨1, _, rfl⟩ rfl
  have hl : l.FullyCanonical (TypeStore.performAll {} classesAndImports) := fullyCanonical_ofList (by simp [hsingle])
  have hr : r.FullyCanonical (TypeStore.performAll {} classesAndImports) := fullyCanonical_ofList (by simp [hsingle])
  let first := join l r (TypeStore.performAll {} classesAndImports)
  let second := join r l first.2
  let third := join first.1 bottom second.2
  obtain ⟨h₁, hj⟩ := join_isJoin (TypeStore.intact_new.performAll hrange) hl hr
  obtain ⟨h₂, -⟩ := join_isJoin h₁.intact hj.right hj.left
  have hcanonical : first.1.FullyCanonical second.2 := hj.join.since h₁.intact h₂
  have hlog : JoinLog (TypeStore.performAll {} classesAndImports) third.2
      [(l, r, first.1), (r, l, second.1), (first.1, bottom, third.1)] :=
    ((JoinLog.start.join l r hl hr).join r l hj.right hj.left).join first.1 bottom hcanonical (fullyCanonical_bottom _)
  obtain ⟨hleast, hcomm, -, -, hidentity⟩ := join_is_least_upper_bound hrange hlog
  obtain ⟨-, hlj, hrj, -⟩ := hleast l r first.1 (by simp)
  exact ⟨hrange, third.2, _, first.1, second.1, third.1, hlog, by simp, by simp, by simp, by cbv, by cbv,
    hcomm l r _ _ (by simp) (by simp), hidentity _ _ (by simp), hlj, hrj⟩

end PythonTypes.TypeState
