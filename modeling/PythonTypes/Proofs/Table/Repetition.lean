import PythonTypes.Proofs.Table.Agreement

/-!
# Asking again

A query either resolves some lazy type or leaves everything as it was but for new types, and then
the same query gives the same answer from then on, as long as nothing but new types comes up
(`Repeats`). Forcing a type is such a query (`AtRest.repeats_resolvedAt`), and so are looking for a
member, calling a value and the operators, which are made of it.
-/

set_option autoImplicit false

namespace PythonTypes

namespace TypeStore

variable {s s' : TypeStore} {x u v : TypeId}

theorem Forced.unique (h : s.Forced x u) (h' : s.Forced x v) : u = v := by
  cases h with
  | single hu => exact hu.unique (h'.means fun cs hcs => not_means_of_lazyUnion hcs hu)
  | union hshape hus hu =>
    cases h' with
    | single hv => exact absurd hv (not_means_of_lazyUnion hshape)
    | union hshape' hvs hv =>
      cases hshape.symm.trans hshape'
      have hunique : Relator.RightUnique s.Means := fun _ _ _ h h' => h.unique h'
      cases hunique.forall₂ hus hvs
      exact hu.unique (.refl hu.typeOf?) hv

theorem Forced.grows (h : s.Forced x u) (hs : s.Tidy) (hgrows : s.Grows s') : s'.Forced x u := by
  cases h with
  | single hu => exact .single (hu.retains hgrows.retains hs)
  | @union cs us hshape hus hu =>
    have hknown : ∀ y ∈ us, s.Known y :=
      ((List.forall₂_and_left us cs).1 (hus.flip.imp fun _ _ hc => ⟨(Means.final_right hs hc).1.1, hc⟩)).1
    refine .union ((hgrows.shape_eq x (known_of_shape (by simp [hshape]))).trans hshape)
      (hus.imp fun _ _ hc => hc.retains hgrows.retains hs) ((hu.grows hgrows).of_iff fun p => ?_)
    exact exists_congr fun y => and_congr_right fun hy => (hgrows.hasPart_iff hs.wellFormed (hknown y hy)).symm

theorem Forced.forceable (h : s.Forced x u) : s.Forceable x := by
  cases h with
  | single hu => exact hu.forceable
  | @union cs us hshape hus _ =>
    exact .union hshape ((List.forall₂_and_left cs us).1 (hus.imp fun _ _ hc => ⟨hc.forceable, hc⟩)).1

theorem Forceable.of_noNewTarget (h : s'.Forceable x) (hs : s.Tidy) (hs' : s'.Tidy)
    (hretains : s.Retains s') (hnew : s.NoNewTarget s') (hx : s.Known x) : s.Forceable x := by
  induction h with
  | @plain x hplain hslot =>
    refine .plain ⟨hx, (hretains.isPlain_eq hx).symm.trans hplain.2⟩ fun w hw => ?_
    have hknown : s.SlotKnown w := hs.wellFormed.object_known _ w hw
    have hresolved := hslot w (hretains.shape_object hw)
    have htarget := hs'.inStep.target_eq w (slotKnown_of_isResolved hresolved) (hs'.slotsFollow w hresolved)
    rw [hretains.lazy_eq w hknown] at htarget
    exact hs.isResolved_of_lazyTarget? hknown (hnew _ _ htarget)
  | @target l y htarget _ ih =>
    have hl := hnew l y htarget
    exact .target hl (ih (hs.wellFormed.target_known l y hl))
  | @union x cs hshape _ ih =>
    have hback := hretains.shape_back hx hshape rfl (by simp)
    have hknown := hs.wellFormed.known_of_form_union (candidates?_eq_some_iff.2 (.inr hback))
    exact .union hback fun c hc => ih c hc (hknown c hc)

theorem Tidy.instanceOf_answers (h : s.Tidy) {c : TypeId} (hc : s.Plain c) :
    (instanceOf (.direct c) s).2.Answers ((instanceOf (.direct c) s).2.InstancePart c) (instanceOf (.direct c) s).1 := by
  have hdepth : s.size + 6 ≤ s.depthBound := by
    unfold depthBound
    omega
  have hruns := h.runs_instanceOf_direct hc.1 hdepth
  obtain ⟨-, hgrows, -, hanswers⟩ : _ ∧ s.Grows (instanceOf (.direct c) s).2 ∧ _ :=
    Runs.within (instanceOfAt · (.direct c)) h.wellFormed (fun h => h.elim) hruns
  exact hanswers.of_iff fun p => (hgrows.retains.instancePart_iff h hc).symm

theorem Grows.form_eq (h : s.Grows s') (hx : s.Plain x) : s'.form x = s.form x := by
  have hlazy : ∀ path ws, s.shape x ≠ .lazy path (.pending ws) := by
    intro path ws hshape
    have hplain := hx.2
    rw [hshape] at hplain
    cases hplain
  rw [form_of_shape hlazy rfl]
  exact form_of_shape hlazy (h.shape_eq x hx.1)

end TypeStore

namespace Table

open TypeStore

variable {α β : Type} {t t1 t' : Table} {query again : Query α} {P Q : α → Table → Prop} {x : TypeId}
variable {xs : List TypeId} {c : TypeId} (name : String) (depth depth' : Nat)

/-- A lazy type has been resolved. -/
def Stirs (t t' : Table) : Prop := ∃ l x, t'.store.lazyTarget? l = some x ∧ t.store.lazyTarget? l = none

theorem stirs_iff : t.Stirs t' ↔ ∃ i ∈ List.range t'.store.size,
    (t'.store.lazyTarget? ⟨i⟩).isSome = true ∧ t.store.lazyTarget? ⟨i⟩ = none := by
  constructor
  · rintro ⟨l, x, hl, hnone⟩
    obtain ⟨path, hshape⟩ := lazyTarget?_eq_some_iff.1 hl
    have hknown : t'.store.Known l := known_of_shape (by rw [hshape]; simp)
    exact ⟨l.index, List.mem_range.2 hknown, Option.isSome_of_eq_some hl, hnone⟩
  · rintro ⟨i, -, hsome, hnone⟩
    obtain ⟨x, hx⟩ := Option.isSome_iff_exists.1 hsome
    exact ⟨⟨i⟩, x, hx, hnone⟩

instance : Decidable (t.Stirs t') := decidable_of_iff _ stirs_iff.symm

theorem AtRest.calm (ht : t.AtRest) (h : t.Calm t') : t'.AtRest := by
  have hproceeds : t.Proceeds True t' := h.proceeds
  exact ht.proceeds hproceeds

theorem Calm.grows (h : t.Calm t') : t.store.Grows t'.store := by
  obtain ⟨space, hgains, rfl⟩ := h
  exact hgains.grows

theorem Calm.form_eq_of_plain (h : t.Calm t') (hx : t.store.Plain x) : t'.form x = t.form x := h.grows.form_eq hx

theorem Stirs.after (h : t.Stirs t1) (ht1 : t1.Sound) (hproceeds : t1.Proceeds True t') : t.Stirs t' := by
  obtain ⟨l, x, hl, hnone⟩ := h
  exact ⟨l, x, (hproceeds.carries ht1).2.retains.target_eq l x hl, hnone⟩

theorem Stirs.before (h : t1.Stirs t') (ht : t.Sound) (hproceeds : t.Proceeds True t1) : t.Stirs t' := by
  obtain ⟨l, x, hl, hnone⟩ := h
  refine ⟨l, x, hl, ?_⟩
  cases hold : t.store.lazyTarget? l with
  | none => rfl
  | some y =>
    rw [(hproceeds.carries ht).2.retains.target_eq l y hold] at hnone
    cases hnone

theorem Calm.not_stirs (h : t.Calm t') : ¬ t.Stirs t' := by
  rintro ⟨l, x, hl, hnone⟩
  obtain ⟨space, hgains, rfl⟩ := h
  exact Option.some_ne_none x ((hgains.target l x hl).symm.trans hnone)

theorem noNewTarget_of_not_stirs (h : ¬ t.Stirs t') (hretains : t.store.Retains t'.store) : t.store.NoNewTarget t'.store := by
  intro l x hl
  cases hold : t.store.lazyTarget? l with
  | none => exact absurd ⟨l, x, hl, hold⟩ h
  | some y => exact (hretains.target_eq l y hold).symm.trans hl

/-- A query that does what look-ups do, and that `P` says something about. Unless it resolves a lazy
type it only adds types, and then `again` gives the same answer from then on. -/
def Repeats (t : Table) (query again : Query α) (P : α → Table → Prop) : Prop :=
  t.Asks True query fun a t' => P a t' ∧
    (t.Stirs t' ∨ t.Calm t' ∧ ∀ u, t'.Calm u → Ensures True u again fun b u' => b = a ∧ u.Calm u')

namespace Repeats

theorem pure (ht : t.Sound) {a : α} (ha : P a t) : t.Repeats (Pure.pure a) (Pure.pure a) P :=
  Asks.pure ⟨ha, .inr ⟨.refl ht, fun _ hu => .pure ⟨rfl, .refl (hu.carries ht).1⟩⟩⟩

theorem tooDeep : t.Repeats (Query.tooDeep : Query α) again P := Asks.tooDeep

theorem imp (h : t.Repeats query again P) (hPQ : ∀ a t', P a t' → Q a t') : t.Repeats query again Q :=
  Ensures.imp h fun a t' h => ⟨h.1, hPQ a t' h.2.1, h.2.2⟩

theorem asks (h : t.Repeats query again P) : t.Asks True query P := Ensures.imp h fun _ _ h => ⟨h.1, h.2.1⟩

theorem and (h : t.Repeats query again P) (hQ : t.Asks True query Q) : t.Repeats query again Q :=
  Ensures.imp (Ensures.and h hQ) fun _ _ ⟨h, hQ⟩ => ⟨h.1, hQ.2, h.2.2⟩

theorem of_succ {q : Nat → Query α} (hzero : q 0 = Query.tooDeep) (h : ∀ depth, t.Repeats query (q (depth + 1)) P)
    (depth : Nat) : t.Repeats query (q depth) P := by
  cases depth with
  | zero =>
    rw [hzero]
    exact Ensures.imp (h 0) fun _ _ h => ⟨h.1, h.2.1, h.2.2.imp_right fun h => ⟨h.1, fun _ _ => trivial⟩⟩
  | succ depth => exact h depth

theorem bind {Q : β → Table → Prop} {f g : α → Query β} (h : t.Repeats query again P) (ht : t.AtRest)
    (hf : ∀ a (t' : Table), t'.AtRest → t.Carries t' → P a t' → t'.Repeats (f a) (g a) Q) :
    t.Repeats (query >>= f) (again >>= g) Q := by
  refine Ensures.bind h fun a t1 ⟨hproceeds, ha, hagain⟩ => ?_
  have ht1 := ht.proceeds hproceeds
  refine Ensures.imp (hf a t1 ht1 (hproceeds.carries ht.toSound).2 ha) fun b t2 ⟨hproceeds2, hb, hagain2⟩ => ?_
  refine ⟨hproceeds.trans hproceeds2, hb, ?_⟩
  rcases hagain with hstirs | ⟨hcalm, hagain⟩
  · exact .inl (hstirs.after ht1.toSound hproceeds2)
  rcases hagain2 with hstirs | ⟨hcalm2, hagain2⟩
  · exact .inl (hstirs.before ht.toSound hproceeds)
  refine .inr ⟨hcalm.trans hcalm2, fun u hu => (hagain u (hcalm2.trans hu)).bind fun a' u1 ⟨hsame, hu1⟩ => ?_⟩
  subst hsame
  exact (hagain2 u1 (hu.trans hu1)).imp fun b' u2 ⟨hsame, hu2⟩ => ⟨hsame, hu1.trans hu2⟩

theorem get_bind {f g : Table → Query α} (h : t.Repeats (f t) (g t) P)
    (hg : ∀ u, t.Calm u → g u = g t) : t.Repeats (get >>= f) (get >>= g) P := by
  refine Ensures.get_bind (Ensures.imp h fun a t' ⟨hproceeds, ha, hagain⟩ => ⟨hproceeds, ha, ?_⟩)
  grind [Ensures.get_bind, Calm.trans]

theorem map {Q : β → Table → Prop} {f : α → β} (h : t.Repeats query again fun a t' => Q (f a) t')
    (ht : t.AtRest) : t.Repeats (f <$> query) (f <$> again) Q := by
  rw [map_eq_pure_bind, map_eq_pure_bind]
  exact h.bind ht fun a t' ht' _ ha => .pure ht'.toSound ha

/-- A query that only adds types, with a property that singles its answer out. -/
theorem of_unique {R : α → TypeStore → Prop} (ht : t.Sound)
    (hgrows : ∀ a (s s' : TypeStore), s.Tidy → s.Grows s' → R a s → R a s')
    (hunique : ∀ a b (s : TypeStore), s.Tidy → R a s → R b s → a = b)
    (hquery : ∀ u : Table, t.Calm u → Ensures True u query fun a u' => u.Calm u' ∧ R a u'.store)
    (hagain : ∀ u : Table, t.Calm u → Ensures True u again fun a u' => u.Calm u' ∧ R a u'.store) :
    t.Repeats query again fun a t' => R a t'.store := by
  refine Ensures.imp (hquery t (.refl ht)) fun a t' ⟨hcalm, ha⟩ => ⟨hcalm.proceeds, ha, .inr ⟨hcalm, fun u hu => ?_⟩⟩
  refine Ensures.imp (hagain u (hcalm.trans hu)) fun b u' ⟨hu', hb⟩ => ⟨?_, hu'⟩
  have ht' := (hcalm.carries ht).1
  have hsound := ((hu.trans hu').carries ht').1
  obtain ⟨space, hgains, rfl⟩ := hu.trans hu'
  exact hunique b a _ hsound.store hb (hgrows a _ _ ht'.store hgains.grows ha)

end Repeats

/-! ## Forcing types -/

theorem AtRest.repeats_resolvedAt (ht : t.AtRest) (hx : t.store.Known x) (depth depth' : Nat) :
    t.Repeats (resolvedAt depth x) (resolvedAt depth' x) (t.ForcedTo x) := by
  refine Repeats.and (P := fun _ _ => True) ?_ (ht.asks_resolved depth hx)
  by_cases hforceable : t.store.Forceable x
  · have hforced : ∀ (depth : Nat) (u : Table), t.Calm u →
        Ensures True u (resolvedAt depth x) fun a u' => u.Calm u' ∧ u'.store.Forced x a := by
      intro depth u hu
      have hretains := ht.retains hu.proceeds
      exact Ensures.imp ((ht.calm hu).asks_resolved depth (hretains.known hx)) fun a u' ⟨_, h⟩ =>
        ⟨h.calm (hforceable.retains hretains), h.forced⟩
    exact (Repeats.of_unique (R := fun a s => s.Forced x a) ht.toSound (fun _ _ _ hs hgrows h => h.grows hs hgrows)
      (fun _ _ _ _ h h' => h.unique h') (hforced depth) (hforced depth')).imp fun _ _ _ => trivial
  · refine Ensures.imp (ht.asks_resolved depth hx) fun a t' ⟨hproceeds, h⟩ => ⟨hproceeds, trivial, .inl ?_⟩
    by_contra hstirs
    obtain ⟨ht', hcarries⟩ := hproceeds.carries ht.toSound
    exact hforceable (h.forced.forceable.of_noNewTarget ht.store ht'.store hcarries.retains
      (noNewTarget_of_not_stirs hstirs hcarries.retains) hx)

/-- A type that stands for itself is forced to itself, and nothing is looked up for that. -/
theorem resolvedStep_of_final (resolveLazy resolved resolveUnion : TypeId → Query TypeId)
    (hx : t.store.Final x) : resolvedStep resolveLazy resolved resolveUnion x t = some (x, t) := by
  obtain ⟨⟨-, hplain⟩, hslot⟩ := hx
  have hself : t.store.derefLazy x = x := derefLazy_of_no_target (lazyTarget?_of_isPlain hplain)
  unfold resolvedStep
  rw [get_bind_apply, hself]
  cases hshape : t.store.shape x with
  | lazy path state | lazyUnion cs => simp [hshape, TypeForm.isPlain] at hplain
  | object cls =>
    cases cls with
    | slot w => exact absurd hshape (hslot w)
    | direct c =>
      have hform : t.store.form x = .object (.direct c) := form_of_shape (by simp) hshape
      rw [hform]
      show Query.follow (canonicalAt · x) t = some (x, t)
      have hcanonical : canonicalAt t.store.depthBound x t.store = some (x, t.store) := by
        show canonicalAt (8 * t.store.size + 7 + 1) x t.store = _
        rw [canonicalAt]
        unfold canonicalStep
        rw [get_bind_apply, hself, hform]
        rfl
      unfold Query.follow Query.onSpace TypeSpace.follow
      show ((canonicalAt t.store.depthBound x t.store).map _).map _ = _
      rw [hcanonical]
      rfl
  | _ =>
    rw [form_of_shape (by simp) hshape]
    rfl

/-- Forcing a type always comes to an end, and to a type in normal form: one that is not lazy, is no
lazy union, and is no instance that waits for its class in a slot. To force it once more gives the
same type and leaves the table as it is. -/
theorem resolved_normal_form (project : Project) (stubs : StubStore) (settings : Settings) (stubPackages : Bool)
    (as : List TableAction) (has : (create project stubs settings stubPackages).ValidAll as) {x : TypeId}
    (hx : ((create project stubs settings stubPackages).performAll as).store.Known x) :
    ∃ u t', Query.resolved x ((create project stubs settings stubPackages).performAll as) = some (u, t') ∧
      (∀ path state, t'.form u ≠ .lazy path state) ∧ (∀ cs, t'.form u ≠ .lazyUnion cs) ∧
        (∀ w, t'.form u ≠ .object (.slot w)) ∧
      Query.resolved u t' = some (u, t') := by
  have ht := (atRest_create project stubs settings stubPackages).performAll has
  obtain ⟨u, t', hanswer, -⟩ := Ensures.exists_eq_some (Lookups.sound_ofTable.resolved ht.toSound hx)
  obtain ⟨hproceeds, hplain, hforced, -⟩ := Ensures.apply_some (ht.asks_forced hx) hanswer
  have ht' := ht.proceeds hproceeds
  have hfinal := hforced.final ht'.store ht'.interned hplain
  refine ⟨u, t', hanswer, fun path state hform => ?_, fun cs hform => ?_, fun w hform => ?_, ?_⟩
  · rw [Plain, shape_of_form hform] at hplain
    cases state <;> cases hplain.2
  · rw [Plain, shape_of_form hform] at hplain
    cases hplain.2
  · exact hfinal.2 w (shape_of_form hform)
  · obtain ⟨depth, hdepth⟩ := t'.exists_depthBound
    show resolvedAt t'.depthBound u t' = some (u, t')
    rw [hdepth, resolvedAt]
    exact resolvedStep_of_final _ _ _ hfinal

/-- A union of a lazy type and a lazy variable, both forced with it. -/
theorem resolved_normal_form_roundabout :
    let t := (create roundabout {} {}).performAll [.getType "z", .onStore (.unionOf [⟨2⟩, ⟨3⟩])]
    t.form ⟨5⟩ = .lazyUnion [⟨2⟩, ⟨3⟩] ∧ ∃ u t', Query.resolved ⟨5⟩ t = some (u, t') ∧ u ≠ ⟨5⟩ ∧
    Query.resolved u t' = some (u, t') := by
  obtain ⟨u, t', hanswer, -, -, -, hagain⟩ := resolved_normal_form roundabout {} {} true
    [.getType "z", .onStore (.unionOf [⟨2⟩, ⟨3⟩])] (by decide_cbv) (x := ⟨5⟩) (by decide_cbv)
  have hmoved : (Query.resolved ⟨5⟩ ((create roundabout {} {}).performAll [.getType "z", .onStore (.unionOf [⟨2⟩, ⟨3⟩])])).map
      (fun r => decide (r.1 ≠ ⟨5⟩)) = some true := by decide_cbv
  rw [hanswer] at hmoved
  exact ⟨by cbv, u, t', hanswer, of_decide_eq_true (Option.some.inj hmoved), hagain⟩

/-! ## Unions and instances -/

theorem AtRest.calm_unionOf (ht : t.AtRest) (hxs : ∀ x ∈ xs, t.store.Known x) :
    Ensures True t (liftM (onStore (TypeStore.unionOf xs))) fun v t' => t.Calm t' ∧
    t'.store.Known v ∧ t'.store.IsUnionOf xs v :=
  Ensures.of_eq_some rfl ⟨⟨_, StoreAction.Derives.gains ht.spaceSound (a := .unionOf xs) hxs trivial, rfl⟩,
    (unionOf_sound ht.store.wellFormed hxs).2.2, ht.store.good.isUnionOf hxs⟩

theorem AtRest.repeats_unionOf (ht : t.AtRest) (hxs : ∀ x ∈ xs, t.store.Known x) :
    t.Repeats (liftM (onStore (TypeStore.unionOf xs))) (liftM (onStore (TypeStore.unionOf xs))) fun v t' =>
      t'.store.Known v ∧ t'.store.IsUnionOf xs v := by
  have hrun := fun u (hu : t.Calm u) => (ht.calm hu).calm_unionOf fun x hx => (ht.retains hu.proceeds).known (hxs x hx)
  exact .of_unique (R := fun v s => s.Known v ∧ s.IsUnionOf xs v) ht.toSound
    (fun _ _ _ hs hgrows h => ⟨hgrows.known h.1, h.2.grows hs.wellFormed hgrows⟩)
      (fun _ _ _ _ h h' => h.2.unique h'.2 fun _ => .rfl)
    hrun hrun

theorem AtRest.calm_instanceOf (ht : t.AtRest) (hc : t.store.Plain c) :
    Ensures True t (liftM (onStore (TypeStore.instanceOf (.direct c)))) fun v t' =>
      t.Calm t' ∧ t'.store.Plain c ∧ t'.store.Known v ∧ t'.store.Answers (t'.store.InstancePart c) v := by
  have hgains := StoreAction.Derives.gains ht.spaceSound (a := .instanceOf (.direct c)) hc.1 trivial
  have hcls : t.store.RefKnown (.direct c) := hc.1
  exact Ensures.of_eq_some rfl ⟨⟨_, hgains, rfl⟩, hc.evolves hgains.grows.evolves,
    (instanceOf_sound ht.store.wellFormed hcls).2.2, ht.store.instanceOf_answers hc⟩

theorem AtRest.repeats_instanceOf (ht : t.AtRest) (hc : t.store.Plain c) :
    t.Repeats (liftM (onStore (TypeStore.instanceOf (.direct c))))
    (liftM (onStore (TypeStore.instanceOf (.direct c)))) fun v t' =>
      t'.store.Known v ∧ t'.store.Answers (t'.store.InstancePart c) v := by
  have hrun := fun u (hu : t.Calm u) => (ht.calm hu).calm_instanceOf (hc.evolves hu.grows.evolves)
  refine (Repeats.of_unique (R := fun v s => s.Plain c ∧ s.Known v ∧ s.Answers (s.InstancePart c) v) ht.toSound
    (fun v s s' hs hgrows h => ?_) (fun _ _ _ _ h h' => h.2.2.unique (.refl h.2.2.typeOf?) h'.2.2)
      hrun hrun).imp fun _ _ h => h.2
  refine ⟨h.1.evolves hgrows.evolves, hgrows.known h.2.1, (h.2.2.grows hgrows).of_iff fun p => ?_⟩
  exact (hgrows.retains.instancePart_iff hs h.1).symm

theorem ensures_follow {action : Nat → DeepM α} {default : α}
    (h : Ensures True t (liftM (onStore (within default action))) Q) : Ensures True t (Query.follow action) Q := by
  unfold Ensures Query.follow Query.onSpace TypeSpace.follow
  replace h : Q (within default action t.space.store).1
    { t with space := { t.space with store := (within default action t.space.store).2 } } := h
  unfold within at h
  cases hrun : action t.space.store.depthBound t.space.store with
  | none => trivial
  | some r =>
    rw [hrun] at h
    exact h

theorem Repeats.follow {action : Nat → DeepM α} {default : α}
    (h : t.Repeats (liftM (onStore (within default action))) (liftM (onStore (within default action))) P) :
    t.Repeats (Query.follow action) (Query.follow action) P := by
  unfold Repeats Asks at h ⊢
  refine ensures_follow (h.imp fun a t' ⟨hproceeds, ha, hagain⟩ =>
    ⟨hproceeds, ha, hagain.imp_right fun ⟨hcalm, hagain⟩ => ?_⟩)
  exact ⟨hcalm, fun u hu => ensures_follow (hagain u hu)⟩

/-! ## Members -/

theorem Calm.target_eq (h : t.Calm t') {ref : TypeRef} (href : t.store.RefKnown ref) :
    t'.store.target ref = t.store.target ref := by
  cases ref with
  | direct x => rfl
  | slot w => exact congrArg Slot.target (h.grows.slot_eq w href)

theorem AtRest.repeats_firstInBases
    (hsearch : ∀ (t : Table) (cls : TypeId) (visited : List TypeId), t.AtRest → t.store.Plain cls →
      t.Repeats (classMemberAt depth cls name visited) (classMemberAt depth' cls name visited) fun r t' =>
        t'.store.FoundPlain r.1)
    (bases : List TypeRef) (visited : List TypeId) (ht : t.AtRest) (hbases : ∀ ref ∈ bases, t.store.RefPlain ref) :
    t.Repeats (firstInBases (resolvedAt depth) (fun base => classMemberAt depth base name) bases visited)
      (firstInBases (resolvedAt depth') (fun base => classMemberAt depth' base name) bases visited) fun r t' =>
        t'.store.FoundPlain r.1 := by
  induction bases generalizing t visited with
  | nil => exact .pure ht.toSound trivial
  | cons base rest ih =>
    unfold firstInBases
    have hbase := (hbases base (by simp)).refKnown
    have hknown := ht.store.wellFormed.target_ref_known hbase
    refine .get_bind ?_ fun u hu => by rw [hu.target_eq hbase]
    refine (ht.repeats_resolvedAt hknown depth depth').bind ht fun cls t1 ht1 hcarries hcls => ?_
    refine (hsearch t1 cls visited ht1 hcls.plain).bind ht1 fun r t2 ht2 hcarries2 hr => ?_
    obtain ⟨found, visited'⟩ := r
    cases found with
    | some id => exact .pure ht2.toSound hr
    | none =>
      exact ih visited' ht2 fun ref href =>
        ((hbases ref (by simp [href])).evolves hcarries.retains.toEvolves).evolves hcarries2.retains.toEvolves

theorem AtRest.repeats_classMemberAt : ∀ (t : Table) (cls : TypeId) (visited : List TypeId),
    t.AtRest → t.store.Plain cls → t.Repeats (classMemberAt depth cls name visited)
    (classMemberAt depth' cls name visited) fun r t' =>
      t'.store.FoundPlain r.1 := by
  induction depth generalizing depth' with
  | zero =>
    grind [classMemberAt, Repeats.tooDeep]
  | succ depth ih =>
    intro t cls visited ht hcls
    refine Repeats.of_succ (q := fun d => classMemberAt d cls name visited) (by rw [classMemberAt]) (fun depth' => ?_) depth'
    have hlater : ∀ u, t.Calm u → u.form cls = t.form cls := fun u hu => hu.form_eq_of_plain hcls
    rw [classMemberAt, classMemberAt]
    unfold classMemberStep
    split
    · exact .pure ht.toSound trivial
    cases hform : t.form cls with
    | ofClass info =>
      have hrefs : ∀ ref ∈ info.members.values ++ info.bases, t.store.RefPlain ref := by
        have hsolid := ht.solid cls
        rw [show t.store.form cls = _ from hform] at hsolid
        exact hsolid rfl
      cases hget : info.members.get? name with
      | some ref =>
        have href := (hrefs ref (List.mem_append_left _ (OrderedMap.mem_values_iff.2 ⟨name, hget⟩))).refKnown
        have hknown := ht.store.wellFormed.target_ref_known href
        refine .get_bind ?_ fun u hu => by simp only [hlater u hu, hform, hget, hu.target_eq href]
        simp only [hform, hget]
        exact (ht.repeats_resolvedAt hknown depth depth').bind ht fun x t1 ht1 _ hx => .pure ht1.toSound hx.plain
      | none =>
        refine .get_bind ?_ fun u hu => by simp only [hlater u hu, hform, hget]
        simp only [hform, hget]
        exact AtRest.repeats_firstInBases name depth depth' (ih depth') info.bases (cls :: visited) ht fun ref href =>
          hrefs ref (List.mem_append_right _ href)
    | _ =>
      refine .get_bind ?_ fun u hu => by simp only [hlater u hu, hform]
      rw [hform]
      exact .pure ht.toSound trivial

theorem AtRest.repeats_memberOfEach {member member' : TypeId → Query (Option TypeId)}
    (hmember : ∀ {t : Table} {c : TypeId}, t.AtRest → t.store.Known c →
      t.Repeats (member c) (member' c) fun r t' => t'.store.FoundPlain r)
    (ids acc : List TypeId) (ht : t.AtRest) (hids : ∀ c ∈ ids, t.store.Known c) (hacc : ∀ u ∈ acc, t.store.Plain u) :
    t.Repeats (memberOfEach member ids acc) (memberOfEach member' ids acc) fun r t' => ∀ us,
    r = some us → ∀ u ∈ us, t'.store.Plain u := by
  induction ids generalizing t acc with
  | nil => exact .pure ht.toSound (by simpa using hacc)
  | cons c rest ih =>
    unfold memberOfEach
    refine (hmember ht (hids c (by simp))).bind ht fun r t1 ht1 hcarries hr => ?_
    cases r with
    | none => exact .pure ht1.toSound (by simp)
    | some id =>
      refine ih (id :: acc) ht1 (fun d hd => hcarries.retains.known (hids d (by simp [hd]))) fun u hu => ?_
      rcases List.mem_cons.1 hu with rfl | hu
      · exact hr
      · exact (hacc u hu).evolves hcarries.retains.toEvolves

theorem AtRest.repeats_memberOfClass (ht : t.AtRest) (hx : t.store.Plain x) :
    t.Repeats (Prod.fst <$> classMemberAt depth x name []) (Prod.fst <$> classMemberAt depth' x name []) fun r t' =>
      t'.store.FoundPlain r :=
  (AtRest.repeats_classMemberAt name depth depth' t x [] ht hx).map ht

theorem AtRest.repeats_memberAt : ∀ {t : Table} {x : TypeId}, t.AtRest → t.store.Known x →
    t.Repeats (memberAt depth x name) (memberAt depth' x name) fun r t' => t'.store.FoundPlain r := by
  induction depth generalizing depth' with
  | zero =>
    intro t x _ _
    rw [memberAt]
    exact .tooDeep
  | succ depth ih =>
    intro t x ht hx
    refine Repeats.of_succ (q := fun d => memberAt d x name) (by rw [memberAt]) (fun depth' => ?_) depth'
    rw [memberAt, memberAt]
    unfold memberStep
    refine (ht.repeats_resolvedAt hx depth depth').bind ht fun y t1 ht1 _ hy => ?_
    have hlater : ∀ u, t1.Calm u → u.form y = t1.form y := fun u hu => hu.form_eq_of_plain hy.plain
    have hresolved : ∀ ref ∈ (t1.form y).refs, (∀ u, t1.Calm u → u.store.target ref = t1.store.target ref) ∧
        t1.Repeats (resolvedAt depth (t1.store.target ref))
          (resolvedAt depth' (t1.store.target ref)) fun v t' => t'.store.Plain v := by
      intro ref href
      have hknown := ht1.store.refKnown href
      exact ⟨fun u hu => hu.target_eq hknown,
        (ht1.repeats_resolvedAt (ht1.store.wellFormed.target_ref_known hknown) depth depth').imp fun _ _ h => h.plain⟩
    cases hform : t1.form y with
    | ofModule info =>
      rw [hform] at hresolved
      cases hget : info.members.get? name with
      | none =>
        refine .get_bind ?_ fun u hu => by simp only [hlater u hu, hform, hget]
        simp only [hform, hget]
        exact .pure ht1.toSound trivial
      | some ref =>
        obtain ⟨htarget, hmember⟩ := hresolved ref (OrderedMap.mem_values_iff.2 ⟨name, hget⟩)
        refine .get_bind ?_ fun u hu => by simp only [hlater u hu, hform, hget, htarget u hu]
        simp only [hform, hget]
        exact .map hmember ht1
    | ofClass info =>
      refine .get_bind ?_ fun u hu => by simp only [hlater u hu, hform]
      simp only [hform]
      exact ht1.repeats_memberOfClass name depth depth' hy.plain
    | object cls =>
      rw [hform] at hresolved
      obtain ⟨htarget, hclass⟩ := hresolved cls (by simp [TypeForm.refs])
      refine .get_bind ?_ fun u hu => by simp only [hlater u hu, hform, htarget u hu]
      simp only [hform]
      refine hclass.bind ht1 fun k t2 ht2 _ hk => .get_bind ?_ fun u hu => by rw [hu.form_eq_of_plain hk]
      split
      · exact ht2.repeats_memberOfClass name depth depth' hk
      · exact .pure ht2.toSound trivial
    | union cs =>
      have hknown := ht1.store.wellFormed.known_of_form_union (candidates?_of_union hform)
      refine .get_bind ?_ fun u hu => by simp only [hlater u hu, hform]
      simp only [hform]
      refine (AtRest.repeats_memberOfEach (ih depth') cs [] ht1 hknown (by simp)).bind ht1 fun r t2 ht2 _ hr => ?_
      cases r with
      | none => exact .pure ht2.toSound trivial
      | some ms =>
        have hunion := Repeats.follow (ht2.repeats_unionOf fun m hm => (hr ms rfl m hm).1)
        exact .map (hunion.and ((finds_unionOf ht2.toSound (hr ms rfl)).asks.imp ht2.toSound fun v _ _ _ hv => hv.1.1)) ht2
    | _ =>
      refine .get_bind ?_ fun u hu => by simp only [hlater u hu, hform]
      simp only [hform]
      exact .pure ht1.toSound trivial

end Table

end PythonTypes
