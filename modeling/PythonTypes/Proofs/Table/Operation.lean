import PythonTypes.Proofs.Table.Repetition
import PythonTypes.Table.Operation

/-!
# Calling values and applying operators, again

What typing asks of a table gives known types, and the same ones when it is asked again
(`Computes`): forcing a type, looking for a member, calling a value, applying an operator and
iterating. None of them gives up.
-/

set_option autoImplicit false

namespace PythonTypes.Table

open TypeStore

variable {α : Type} {t t1 t' : Table} {query again : Query α} {P : α → Table → Prop}
variable {u : Table} {x : TypeId} {xs : List TypeId} {action : TableM α} {y c : TypeId}

/-! ## Answers -/

theorem Repeats.answer (ht : t.AtRest) (h : t.Repeats query query P)
    (hsome : ∀ u : Table, u.AtRest → t.Calm u → (query u).isSome) (default : α) :
    t.Repeats (liftM (query.answer default)) (liftM (query.answer default)) P := by
  unfold Repeats Asks at h ⊢
  grind [Ensures.answer, Ensures.imp, Calm.refl, AtRest.toSound, AtRest.calm, Calm.trans]

theorem Repeats.enough {query again : Nat → Query α} (h : ∀ depth depth', t.Repeats (query depth) (again depth') P) :
    t.Repeats (Query.enough query) (Query.enough again) P := by
  cases hrun : query t.depthBound t with
  | none =>
    unfold Repeats Asks Ensures Query.enough
    rw [hrun]
    trivial
  | some r =>
    obtain ⟨a, t'⟩ := r
    have hagain := fun depth' => Ensures.apply_some (h t.depthBound depth') hrun
    refine Ensures.of_eq_some hrun ⟨(hagain 0).1, (hagain 0).2.1, ?_⟩
    rcases (hagain 0).2.2 with hstirs | ⟨hcalm, -⟩
    · exact .inl hstirs
    · refine .inr ⟨hcalm, fun u hu => ?_⟩
      exact ((hagain u.depthBound).2.2.resolve_left hcalm.not_stirs).2 u hu

theorem Repeats.mapM {f g : TypeId → Query TypeId} (ht : t.AtRest)
    (h : ∀ x ∈ xs, ∀ t' : Table, t'.AtRest → t.Carries t' → t'.Repeats (f x) (g x) fun a t'' => t''.store.Known a) :
    t.Repeats (xs.mapM f) (xs.mapM g) fun as t' => ∀ a ∈ as, t'.store.Known a := by
  induction xs generalizing t with
  | nil => exact .pure ht.toSound (by simp)
  | cons x rest ih =>
    rw [List.mapM_cons, List.mapM_cons]
    refine (h x (by simp) t ht (.refl t)).bind ht fun a t1 ht1 hcarries ha => ?_
    have hrest := ih ht1 fun y hy t' ht' hcarries' => h y (by simp [hy]) t' ht' (hcarries.trans hcarries')
    refine hrest.bind ht1 fun as t2 ht2 hcarries2 has => .pure ht2.toSound ?_
    simpa using ⟨hcarries2.retains.known ha, has⟩

theorem Repeats.run (h : t.Repeats (liftM action) (liftM action) P) :
    t.Proceeds True (action t).2 ∧ P (action t).1 (action t).2 ∧ (t.Stirs (action t).2 ∨ t.Calm (action t).2 ∧
      ∀ u, (action t).2.Calm u → Ensures True u (liftM action) fun b u' => b = (action t).1 ∧ u.Calm u') := by
  unfold Repeats Asks at h
  exact Ensures.apply_some h rfl

/-- An action that gives a known type, and the same one again. -/
def Computes (t : Table) (action : TableM TypeId) : Prop :=
  t.Repeats (liftM action) (liftM action) fun a t' => t'.store.Known a

theorem Computes.bind {f : α → TableM TypeId} (h : t.Repeats (liftM action) (liftM action) P) (ht : t.AtRest)
    (hf : ∀ a (t' : Table), t'.AtRest → t.Carries t' → P a t' → t'.Computes (f a)) : t.Computes (action >>= f) :=
  Repeats.bind h ht hf

theorem Computes.get_bind {f : Table → TableM TypeId} (h : t.Computes (f t))
    (hf : ∀ u, t.Calm u → f u = f t) : t.Computes (get >>= f) :=
  Repeats.get_bind (f := fun u => liftM (f u)) (g := fun u => liftM (f u)) h fun u hu => by rw [hf u hu]

section

variable (ht : t.AtRest)

include ht

theorem AtRest.computes_pure (hx : t.store.Known x) : t.Computes (Pure.pure x) := Repeats.pure ht.toSound hx

theorem AtRest.computes_unknown : t.Computes (Pure.pure .unknown) := ht.computes_pure ht.store.unknown_plain.1

theorem AtRest.computes_unionOf (hxs : ∀ x ∈ xs, t.store.Known x) : t.Computes (onStore (TypeStore.unionOf xs)) :=
  (ht.repeats_unionOf hxs).imp fun _ _ h => h.1

theorem AtRest.computes_union (hx : t.store.Known x) (hy : t.store.Known y) : t.Computes (onStore (TypeStore.union x y)) := by
  unfold TypeStore.union
  split
  · exact ht.computes_pure hx
  · exact ht.computes_unionOf (by simp [hx, hy])

theorem AtRest.computes_instanceOf (hc : t.store.Plain c) : t.Computes (onStore (TypeStore.instanceOf (.direct c))) :=
  (ht.repeats_instanceOf hc).imp fun _ _ h => h.1

theorem AtRest.repeats_resolved (hx : t.store.Known x) :
    t.Repeats (liftM (Table.resolved x)) (liftM (Table.resolved x)) (t.ForcedTo x) := by
  refine .answer ht (.enough (ht.repeats_resolvedAt hx)) (fun u hu hcalm => ?_) _
  exact Ensures.isSome (Lookups.sound_ofTable.resolved hu.toSound ((ht.retains hcalm.proceeds).known hx))

theorem AtRest.computes_resolved (hx : t.store.Known x) : t.Computes (Table.resolved x) :=
  (ht.repeats_resolved hx).imp fun _ _ h => h.plain.1

theorem AtRest.repeats_resolvedRef {ref : TypeRef} (href : t.store.RefKnown ref) :
    t.Repeats (liftM (Table.resolvedRef ref)) (liftM (Table.resolvedRef ref)) (t.ForcedTo (t.store.target ref)) := by
  refine .answer ht (.get_bind (.enough (ht.repeats_resolvedAt (ht.store.wellFormed.target_ref_known href))) fun u hu => ?_)
    (fun u hu hcalm => ?_) _
  · rw [hu.target_eq href]
  · exact Ensures.isSome (Lookups.sound_ofTable.resolvedRef hu.toSound ((ht.retains hcalm.proceeds).refKnown href))

theorem AtRest.repeats_memberQuery (hx : t.store.Known x) (name : String) :
    t.Repeats (Query.member x name) (Query.member x name) fun r t' => t'.store.FoundPlain r :=
  .enough fun depth depth' => AtRest.repeats_memberAt name depth depth' ht hx

theorem AtRest.repeats_member (hx : t.store.Known x) (name : String) :
    t.Repeats (liftM (Table.member x name)) (liftM (Table.member x name)) fun r t' => t'.store.FoundPlain r := by
  refine .answer ht (ht.repeats_memberQuery hx name) (fun u hu hcalm => ?_) _
  exact Ensures.isSome (Lookups.sound_ofTable.member name hu.toSound ((ht.retains hcalm.proceeds).known hx))

theorem AtRest.computes_builtinInstance (name : String) : t.Computes (Table.builtinInstance name) := by
  refine Repeats.answer ht (.get_bind ?_ fun u hu => ?_)
    (fun u hu _ => Ensures.isSome (Lookups.sound_ofTable.builtinInstance hu.toSound name)) _
  · refine (ht.repeats_memberQuery (plain_of_isModule ht.root).1 name).bind ht fun r t1 ht1 _ hr => ?_
    cases r with
    | none => exact .pure ht1.toSound ht1.store.unknown_plain.1
    | some cls =>
      refine .get_bind ?_ fun u hu => by rw [hu.form_eq_of_plain hr]
      split
      · exact Repeats.follow (ht1.computes_instanceOf hr)
      · exact .pure ht1.toSound ht1.store.unknown_plain.1
  · obtain ⟨space, -, rfl⟩ := hu
    rfl

end

/-! ## Calls -/

theorem Sound.returns_known (ht : t.Sound) {f : FunctionType} (hx : t.form x = .ofFunction f) :
    t.store.RefKnown f.returns := by
  refine ht.store.refKnown (t := x) ?_
  rw [show t.store.form x = _ from hx]
  simp [TypeForm.refs]

theorem AtRest.repeats_callResultAt (depth depth' : Nat) : ∀ {t : Table} {x : TypeId}, t.AtRest → t.store.Known x →
    t.Repeats (callResultAt depth x) (callResultAt depth' x) fun a t' => t'.store.Known a := by
  induction depth generalizing depth' with
  | zero => exact fun _ _ => .tooDeep
  | succ depth ih =>
    intro t x ht hx
    refine Repeats.of_succ (q := fun d => callResultAt d x) rfl (fun depth' => ?_) depth'
    unfold callResultAt
    refine (ht.repeats_resolved hx).bind ht fun y t1 ht1 _ hy => .get_bind ?_ fun u hu => by rw [hu.form_eq_of_plain hy.plain]
    cases hform : t1.form y with
    | ofClass info => exact ht1.computes_instanceOf hy.plain
    | ofFunction f => exact (ht1.repeats_resolvedRef (ht1.returns_known hform)).imp fun _ _ h => h.plain.1
    | union cs =>
      have hcs := ht1.store.wellFormed.known_of_form_union (candidates?_of_union hform)
      have hresults := Repeats.mapM ht1 fun c hc t2 ht2 hcarries => ih depth' ht2 (hcarries.retains.known (hcs c hc))
      exact hresults.bind ht1 fun as t2 ht2 _ has => ht2.computes_unionOf has
    | _ => exact ht1.computes_unknown

/-- The candidates of a union are called in turn, and these are no unions of unions. -/
theorem AtRest.answers_callResultAt (depth : Nat) : ∀ {t : Table} {x : TypeId}, t.AtRest → t.store.Known x →
    (t.store.shape x).grade < depth → Ensures False t (callResultAt depth x) fun _ t' => t.Proceeds True t' := by
  induction depth with
  | zero =>
    intro t x _ _ hgrade
    omega
  | succ depth ih =>
    intro t x ht hx hgrade
    unfold callResultAt
    obtain ⟨y, t1, heq, -, hplain, hsplits, -⟩ := Ensures.exists_eq_some (Lookups.sound_ofTable.resolved ht.toSound hx)
    have heq : Query.resolved x t = some (y, t1) := heq
    have hproceeds := (Ensures.apply_some (ht.asks_forced hx) heq).1
    have ht1 := ht.proceeds hproceeds
    have hrun : (liftM (Table.resolved x) : Query TypeId) t = some (y, t1) := by
      show some ((Query.resolved x t).getD _) = _
      rw [heq]
      rfl
    refine Ensures.bind_of_eq hrun (Ensures.get_bind ?_)
    cases hform : t1.form y with
    | ofClass info => exact Ensures.of_eq_some rfl (hproceeds.trans (Repeats.run (ht1.computes_instanceOf hplain)).1)
    | ofFunction f => exact Ensures.of_eq_some rfl (hproceeds.trans (ht1.repeats_resolvedRef (ht1.returns_known hform)).run.1)
    | union cs =>
      have hcs := ht1.store.wellFormed.known_of_form_union (candidates?_of_union hform)
      have hresults : Ensures False t1 (cs.mapM (callResultAt depth)) fun as t' =>
          t1.Proceeds True t' ∧ List.Forall₂ (fun _ _ => True) cs as := by
        refine Ensures.forall₂_mapM .refl .trans cs (fun _ _ _ _ _ _ _ => id) fun c hc t2 h2 => ?_
        have hevolves := (ht1.retains h2).toEvolves
        have hlower := hsplits cs (shape_of_form hform) c hc
        rw [← hevolves.grade_eq (hcs c hc)] at hlower
        exact (ih (ht1.proceeds h2) (hevolves.known (hcs c hc)) (by omega)).imp fun _ _ h => ⟨h, trivial⟩
      obtain ⟨as, t2, heq, hproceeds2, -⟩ := Ensures.exists_eq_some hresults
      have hknown := Repeats.mapM ht1 fun c hc t2 ht2 hcarries =>
        AtRest.repeats_callResultAt depth depth ht2 (hcarries.retains.known (hcs c hc))
      have has := (Ensures.apply_some hknown.asks heq).2
      refine Ensures.bind_of_eq heq (Ensures.of_eq_some rfl ((hproceeds.trans hproceeds2).trans ?_))
      exact (Repeats.run ((ht1.proceeds hproceeds2).computes_unionOf has)).1
    | _ => exact .pure hproceeds

section

variable (ht : t.AtRest) (hx : t.store.Known x)

include ht hx

theorem AtRest.callResult_isSome : (Query.enough (callResultAt · x) t).isSome := by
  obtain ⟨b, -, hbound⟩ := (t.affords_depthBound : t.Affords False _ _).resolve_left id
  dsimp only at hbound
  have hgrade := TypeForm.grade_le (t.store.shape x)
  obtain ⟨depth, hdepth⟩ := t.exists_depthBound
  refine Ensures.isSome (Q := fun _ t' => t.Proceeds True t') (Query.ensures_enough ?_)
  grind [answers_callResultAt]

theorem AtRest.computes_callResult : t.Computes (Table.callResult x) :=
  Repeats.answer ht (.enough fun depth depth' => AtRest.repeats_callResultAt depth depth' ht hx)
    (fun _ hu hcalm => hu.callResult_isSome ((ht.retains hcalm.proceeds).known hx)) _

/-! ## Methods, operators and loops -/

theorem AtRest.computes_methodResult (method : String) : t.Computes (Table.methodResult x method) := by
  unfold Table.methodResult
  refine .get_bind ?_ fun u hu => ?_
  · split
    · exact ht.computes_unknown
    refine .bind (ht.repeats_member hx method) ht fun r t1 ht1 _ hr => ?_
    cases r with
    | none => exact ht1.computes_unknown
    | some function =>
      refine .get_bind ?_ fun u hu => by rw [hu.form_eq_of_plain hr]
      split
      · exact ht1.computes_callResult hr.1
      · exact ht1.computes_unknown
  · rw [(ht.retains hu.proceeds).isUnknown_form hx]

end

theorem AtRest.computes_binaryResult (ht : t.AtRest) (op : BinaryOp) (hx : t.store.Known x)
    (hy : t.store.Known y) : t.Computes (Table.binaryResult op x y) := by
  grind [binaryResult, computes_builtinInstance, computes_methodResult, computes_union]

theorem path?_shape (t : Table) (x : TypeId) : (t.store.shape x).path? = (t.form x).path? := by
  unfold shape Table.form
  cases t.store.form x with
  | lazy path state => cases state <;> rfl
  | _ => rfl

theorem AtRest.known_classOf? (ht : t.AtRest) {cls : TypeId} (h : t.store.classOf? x = some cls) : t.store.Known cls := by
  unfold TypeStore.classOf? at h
  split at h
  case h_1 ref hform =>
    have href : t.store.RefKnown ref := ht.store.refKnown (t := x) (by simp [hform, TypeForm.refs])
    rw [← Option.some.inj h]
    exact ht.store.wellFormed.derefLazy_known (ht.store.wellFormed.target_ref_known href)
  case h_2 => simp at h

theorem Calm.classOf?_eq (h : t.Calm t') (ht : t.AtRest) (hx : t.store.Plain x) :
    t'.store.classOf? x = t.store.classOf? x := by
  unfold TypeStore.classOf?
  rw [show t'.store.form x = t.store.form x from h.form_eq_of_plain hx]
  cases hform : t.store.form x with
  | object ref =>
    have href : t.store.RefKnown ref := ht.store.refKnown (t := x) (by simp [hform, TypeForm.refs])
    have hknown := ht.store.wellFormed.target_ref_known href
    simp only [h.target_eq href, (ht.calm h).store.derefLazy_eq, ht.store.derefLazy_eq,
      lazyTarget?_congr (h.grows.shape_eq _ hknown)]
  | _ => rfl

theorem AtRest.computes_iterationType (ht : t.AtRest) (hx : t.store.Known x) : t.Computes (Table.iterationType x) := by
  unfold Table.iterationType
  refine .bind (ht.repeats_resolved hx) ht fun y t1 ht1 _ hy => .get_bind ?_ fun u hu => ?_
  · grind [computes_builtinInstance, computes_unknown]
  · rw [hu.classOf?_eq ht1 hy.plain]
    cases hcls : t1.store.classOf? y with
    | none => rfl
    | some cls =>
      simp only [Option.bind_some]
      rw [← path?_shape, ← path?_shape, hu.grows.shape_eq cls (ht1.known_classOf? hcls)]

/-! ## What typing does to a table -/

/-- Some lazy type is resolved, or else there are only new types. -/
structure Moves (t t' : Table) : Prop where
  proceeds : t.Proceeds True t'
  calm : ¬ t.Stirs t' → t.Calm t'

namespace Moves

theorem refl (ht : t.Sound) : t.Moves t := ⟨.refl t, fun _ => .refl ht⟩

theorem of_calm (h : t.Calm t') : t.Moves t' := ⟨h.proceeds, fun _ => h⟩

theorem trans (h : t.Moves t1) (ht : t.Sound) (h' : t1.Moves t') : t.Moves t' := by
  have ht1 := (h.proceeds.carries ht).1
  refine ⟨h.proceeds.trans h'.proceeds, fun hstirs => ?_⟩
  exact (h.calm fun h1 => hstirs (h1.after ht1 h'.proceeds)).trans (h'.calm fun h1 => hstirs (h1.before ht h.proceeds))

theorem atRest (h : t.Moves t') (ht : t.AtRest) : t'.AtRest := ht.proceeds h.proceeds

theorem known (h : t.Moves t') (ht : t.Sound) {x : TypeId} (hx : t.store.Known x) : t'.store.Known x :=
  (h.proceeds.carries ht).2.retains.known hx

theorem calm_parts (h : t.Moves t1) (ht : t.Sound) (h' : t1.Moves t') (hcalm : t.Calm t') : t.Calm t1 ∧ t1.Calm t' := by
  have ht1 := (h.proceeds.carries ht).1
  exact ⟨h.calm fun h1 => hcalm.not_stirs (h1.after ht1 h'.proceeds), h'.calm fun h1 =>
    hcalm.not_stirs (h1.before ht h.proceeds)⟩

end Moves

theorem Repeats.moves (h : t.Repeats (liftM action) (liftM action) P) : t.Moves (action t).2 :=
  ⟨h.run.1, fun hstirs => (h.run.2.2.resolve_left hstirs).1⟩

theorem Repeats.same (h : t.Repeats (liftM action) (liftM action) P) (hcalm : t.Calm (action t).2)
    (hu : (action t).2.Calm u) : (action u).1 = (action t).1 :=
  (Ensures.apply_some ((h.run.2.2.resolve_left hcalm.not_stirs).2 u hu) rfl).1

end PythonTypes.Table
