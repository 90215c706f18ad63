import PythonTypes.Proofs.Types.Rejoining

/-!
# Following types comes to an end

Unions and instances of unions are found by following candidates and what lazy types are resolved
to. If no lazy type is ever resolved to a type that leads to it, then no type leads to itself. If
also no slot has been redirected while its lazy type is pending, then the depth that the size of the
store gives is enough to follow whatever types it holds (`following_terminates`). A slot that is
redirected too early can close a circle through an instance
(`canonical_endless_redirectingInCircle`).
-/

set_option autoImplicit false

namespace PythonTypes

/-- Whether an action resolves no lazy type to a type that leads to it. -/
def StoreAction.ClosesNoCircle (s : TypeStore) : StoreAction → Prop
  | resolveLazy l target => s.isPending l = true → ¬ Relation.ReflTransGen s.Unfolds target l
  | _ => True

namespace TypeStore

variable {ts : List TypeId} {depth : Nat} {s s0 : TypeStore} {t : TypeId} {l o : TypeId}

/-- Whether no one of several actions resolves a lazy type to a type that leads to it by then. -/
def ClosesNoCircles (s : TypeStore) : List StoreAction → Prop
  | [] => True
  | a :: rest => a.ClosesNoCircle s ∧ (a.perform s).ClosesNoCircles rest

theorem Acyclic.perform (h : s.Acyclic) (hs : s.WellFormed) {a : StoreAction} (ha : a.Valid s)
    (hcircle : a.ClosesNoCircle s) : (a.perform s).Acyclic := by
  cases a with
  | alloc form => exact h.added hs ha
  | resolveSlot id target => exact StoreAction.perform_resolveSlot h h
  | resolveLazy l target =>
    cases hl : s.isPending l with
    | false =>
      rw [show (StoreAction.resolveLazy l target).perform s = s from resolveLazy_of_not_pending hl target]
      exact h
    | true => exact h.resolveLazy hs hl ha.2 (hcircle hl)
  | _ => exact h.grows hs ((StoreAction.perform_sound hs ha).2 (by simp [StoreAction.OffersCandidates]) fun h => h)

theorem acyclic_new : Acyclic {} := by
  intro l t hl
  obtain ⟨path, hshape⟩ := lazyTarget?_eq_some_iff.1 hl
  rw [shape_new] at hshape
  contradiction

theorem Acyclic.performAll (h : s.Acyclic) (hs : s.WellFormed) {as : List StoreAction} (has : s.ValidAll as)
    (hcircles : s.ClosesNoCircles as) : (s.performAll as).WellFormed ∧ (s.performAll as).Acyclic := by
  induction as generalizing s with
  | nil => exact ⟨hs, h⟩
  | cons a rest ih => exact ih (h.perform hs has.1 hcircles.1) (StoreAction.perform_sound hs has.1).1 has.2 hcircles.2

/-- A store in which no type leads to itself, and no slot has been redirected while its lazy type is
pending. -/
structure Ranked (s : TypeStore) : Prop where
  wellFormed : s.WellFormed
  acyclic : s.Acyclic
  slotsFollow : s.SlotsFollow

theorem Ranked.followed (h : s.Ranked) : s.Followed := ⟨h.wellFormed, h.acyclic.chainsEnd h.wellFormed, h.slotsFollow⟩

theorem Runs.isSome {α : Type} {action : DeepM α} {Q : α → TypeStore → Prop}
    (h : Runs False s action Q) : (action s).isSome := by
  unfold Runs at h
  cases haction : action s with
  | none => simp [haction] at h
  | some _ => rfl

namespace Ranked

variable (h : s.Ranked) (hdepth : s.depthBound ≤ depth)

include h hdepth

theorem unionOf_isSome (hts : ∀ t ∈ ts, s.Known t) : (unionOfAt depth ts s).isSome :=
  (h.followed.runs_unionOf_parts (fun _ => ⟨h.acyclic, hdepth⟩) hts).isSome

theorem canonical_isSome (ht : s.Known t) : (canonicalAt depth t s).isSome :=
  (h.followed.runs_canonical_parts (fun _ => ⟨h.acyclic, hdepth⟩) ht).isSome

theorem instanceOf_isSome {cls : TypeRef} (hcls : s.RefKnown cls) : (instanceOfAt depth cls s).isSome := by
  obtain ⟨k, rfl⟩ : ∃ k, depth = k + 1 := ⟨depth - 1, by unfold depthBound at hdepth; omega⟩
  have hdirect : Runs False s (instanceOfAt (k + 1) (.direct (s.target cls))) _ :=
    h.followed.runs_instanceOf (h.wellFormed.target_ref_known hcls)
      (fun _ => ⟨h.acyclic.heightLe_size h.wellFormed _, by unfold depthBound at hdepth; omega⟩) h.wellFormed (.refl s)
  cases hawaited : s.awaited? cls with
  | none =>
    have hsome := hdirect.isSome
    rw [instanceOfAt] at hsome ⊢
    unfold instanceStep at hsome ⊢
    rw [get_bind_apply] at hsome ⊢
    rw [hawaited]
    exact hsome
  | some l =>
    obtain ⟨w, rfl, -, rfl⟩ := awaited?_eq_some hawaited
    rw [instanceOfAt]
    unfold instanceStep
    rw [get_bind_apply, hawaited]
    exact (runs_internLazyInstance h.wellFormed hcls).isSome

end Ranked

/-- If no lazy type is resolved to a type that leads to it by then, no type ever leads to itself.
Then unions, canonical types and instances are found for all types that there are, if no slot stands
redirected whose lazy type is pending. -/
theorem following_terminates (as : List StoreAction) (has : ValidAll {} as)
    (hcircles : ClosesNoCircles {} as) : (∀ t, ¬ Relation.TransGen (performAll {} as).Unfolds t t) ∧
      ((performAll {} as).SlotsFollow → ∀ depth ≥ (performAll {} as).depthBound,
        (∀ ts, (∀ t ∈ ts, (performAll {} as).Known t) → (unionOfAt depth ts (performAll {} as)).isSome) ∧
        (∀ t, (performAll {} as).Known t → (canonicalAt depth t (performAll {} as)).isSome) ∧
        ∀ cls, (performAll {} as).RefKnown cls → (instanceOfAt depth cls (performAll {} as)).isSome) := by
  obtain ⟨hs, hacyclic⟩ := acyclic_new.performAll wellFormed_new has hcircles
  refine ⟨hacyclic.not_transGen_self hs, fun hfollow depth hdepth => ?_⟩
  have h : (performAll {} as).Ranked := ⟨hs, hacyclic, hfollow⟩
  exact ⟨fun ts => h.unionOf_isSome hdepth, fun t => h.canonical_isSome hdepth, fun cls => h.instanceOf_isSome hdepth⟩

/-- A type that stands for itself leads to no other. -/
theorem Atom.not_reaches (h : s.Atom t) (hne : l ≠ t) : ¬ Relation.ReflTransGen s.Unfolds t l := by
  rw [Relation.reflTransGen_iff_eq fun u hu => not_atom_of_unfolds hu h]
  exact hne

/-- An instance of a class that is looked up later, and a union of that class with one that has no
candidates. -/
def joinedThroughLazy : List StoreAction :=
  [.alloc (.lazy "m.L" (.pending [])), .wrap ⟨1⟩, .instanceOf (.slot ⟨0⟩),
    .alloc (.ofClass ⟨"A", none, {}, [], false, .project⟩),
    .alloc (.union []), .alloc (.union [⟨1⟩, ⟨4⟩]), .resolveLazy ⟨1⟩ ⟨3⟩]

theorem following_terminates_joinedThroughLazy :
    let s := performAll {} joinedThroughLazy
    (unionOfAt s.depthBound [⟨5⟩, ⟨2⟩] s).isSome ∧ (canonicalAt s.depthBound ⟨2⟩ s).isSome ∧
      (instanceOfAt s.depthBound (.direct ⟨5⟩) s).isSome := by
  intro s
  have hclass : (performAll {} (joinedThroughLazy.take 6)).Atom ⟨3⟩ := trivial
  have hcircles : ClosesNoCircles {} joinedThroughLazy :=
    ⟨trivial, trivial, trivial, trivial, trivial, trivial, fun _ => hclass.not_reaches (by decide), trivial⟩
  obtain ⟨-, hends⟩ := following_terminates joinedThroughLazy (by decide +kernel) hcircles
  obtain ⟨hunion, hcanonical, hinstance⟩ := hends (by decide +kernel) _ (Nat.le_refl _)
  exact ⟨hunion _ (by decide +kernel), hcanonical _ (by decide +kernel), hinstance _ (by decide +kernel)⟩

theorem runs_instanceOf_pending (hs : s.WellFormed) (hl : s.isPending l = true) :
    Runs True s (instanceOfAt depth (.direct l)) fun u s' => s'.lazyInstances.get? l = some u := by
  cases depth with
  | zero => exact .tooDeep fun h => h trivial
  | succ depth =>
    rw [instanceOfAt]
    unfold instanceStep
    refine .get_bind ?_
    dsimp only [awaited?, target]
    rw [derefLazy_of_no_target (Atom.of_isPending hl).no_target]
    cases hform : s.form l with
    | lazy path state => exact runs_wrap_instanceOf hs hl fun h => absurd trivial h
    | _ => simp [isPending, hform] at hl

theorem runs_unionOf_endless (h : ∀ k < depth, Runs True s (canonicalAt k o) fun _ _ => False) :
    Runs True s (unionOfAt depth (o :: ts)) fun _ _ => False := by
  rcases depth with _ | _ | depth
  · exact .tooDeep fun h => h trivial
  · rw [unionOfAt, flattenAt]
    exact .tooDeep fun h => h trivial
  · rw [unionOfAt, flattenAt, flattenStep_cons]
    have hcontribute : Runs True s (contribute (canonicalAt depth) (flattenAt depth) o []) fun _ _ => False :=
      (h depth (by omega)).bind fun _ _ _ _ => False.elim
    exact .bind (.bind hcontribute fun _ _ _ _ => False.elim) fun _ _ _ _ => False.elim

/-- An instance that was taken through a pending lazy type, and whose slot leads to a union with
that lazy type, is the first of the instances of the union. So the search for its canonical type
never ends. -/
theorem runs_canonical_circle {w : SlotId} (h0 : s0.WellFormed) (hobject : s0.shape o = .object (.slot w))
    (hw : (s0.slot w).isResolved = true) (hunion : s0.shape (s0.slot w).target = .union (l :: ts)) (hl : s0.isPending l = true)
    (ho : s0.lazyInstances.get? l = some o) (depth : Nat) (hs : s.WellFormed)
    (hgrows : s0.Grows s) : Runs True s (canonicalAt depth o) fun _ _ => False := by
  induction depth using Nat.strong_induction_on generalizing s with
  | _ depth ih =>
    have hslot : s.slot w = s0.slot w := hgrows.slot_eq w (h0.object_known o w hobject)
    have hobject' : s.shape o = .object (.slot w) := (hgrows.shape_eq o (known_of_shape (by simp [hobject]))).trans hobject
    have hunion' : s.shape (s0.slot w).target = .union (l :: ts) := (hgrows.shape_eq _ (h0.slot_known w).2).trans hunion
    have hl' : s.isPending l = true := (isPending_congr (hgrows.shape_eq l (Atom.of_isPending hl).known)).trans hl
    have hcandidates := hs.known_of_form_union (candidates?_eq_some_iff.2 (.inl hunion'))
    rcases depth with _ | _ | depth
    · exact .tooDeep fun h => h trivial
    · unfold Runs
      rw [canonicalAt_object hobject' (hslot ▸ hw), instanceOfAt]
      trivial
    · unfold Runs
      rw [canonicalAt_object hobject' (hslot ▸ hw), hslot, instanceOfAt]
      unfold instanceStep
      rw [get_bind_apply]
      dsimp only [awaited?, target]
      rw [derefLazy_of_no_target (no_target_of_shape hunion' (by simp)), form_of_shape (by simp) hunion']
      dsimp only
      rw [List.mapM_cons, bind_assoc]
      refine (runs_instanceOf_pending hs hl').bind fun u s1 hs1 hgrows1 hu => ?_
      rw [bind_assoc]
      have hrest : Runs True s1 (ts.mapM fun c => instanceOfAt depth (.direct c)) (Runs.Answered (fun _ _ _ => True) ts) :=
        .mapM ts hs1 (fun _ _ _ _ _ _ _ _ => trivial) fun c hc s2 hs2 hgrows2 =>
          have hc : s2.RefKnown (.direct c) := (hgrows1.trans hgrows2).known (hcandidates c (by simp [hc]))
          ((upholds_wellFormed.upheldAt depth).instanceOf hs2 hc).imp fun _ _ _ _ _ => trivial
      refine hrest.bind fun us s2 hs2 hgrows2 _ => ?_
      obtain rfl : o = u := Option.some.inj (((hgrows.trans hgrows1).lazyInstances l o ho).symm.trans hu)
      rw [pure_bind]
      exact runs_unionOf_endless fun k hk => ih k (by omega) hs2 ((hgrows.trans hgrows1).trans hgrows2)

/-- A slot is redirected to a union with the lazy type that it was made for, while that is
pending. -/
def redirectingInCircle : List StoreAction :=
  [.alloc (.lazy "m.L" (.pending [])), .wrap ⟨1⟩, .instanceOf (.slot ⟨0⟩),
    .alloc (.ofClass ⟨"A", none, {}, [], false, .project⟩),
    .alloc (.union [⟨1⟩, ⟨3⟩]), .resolveSlot ⟨0⟩ ⟨4⟩]

/-- Slots have to follow their lazy types: otherwise the canonical type of an instance may never be
found, although no lazy type was resolved at all. -/
theorem canonical_endless_redirectingInCircle : ValidAll {} redirectingInCircle ∧ ClosesNoCircles {} redirectingInCircle ∧
    (performAll {} redirectingInCircle).Known ⟨2⟩ ∧ ∀ depth, canonicalAt depth ⟨2⟩
    (performAll {} redirectingInCircle) = none := by
  have hvalid : ValidAll {} redirectingInCircle := by decide +kernel
  have hcircles : ClosesNoCircles {} redirectingInCircle := ⟨trivial, trivial, trivial, trivial, trivial, trivial, trivial⟩
  refine ⟨hvalid, hcircles, by decide +kernel, fun depth => ?_⟩
  have hs := (acyclic_new.performAll wellFormed_new hvalid hcircles).1
  have hruns := runs_canonical_circle hs (o := ⟨2⟩) (w := ⟨0⟩) (l := ⟨1⟩) rfl (by decide +kernel)
    rfl (by decide +kernel) (by decide +kernel) depth hs (.refl _)
  refine Option.eq_none_iff_forall_not_mem.2 fun answer hanswer => ?_
  exact (hruns.apply_some hanswer).2.2

end TypeStore

end PythonTypes
