import PythonTypes.Proofs.Data.Ensures
import PythonTypes.Proofs.Types.Action

/-!
# What following types can do to a store

Instances, canonical types and unions change a store in four ways only: they wrap a type, and they
intern an instance, the instance of a pending class, or a union. A relation between stores that is
closed under composition and holds for these four holds for whatever is followed (`Framed.keeps`),
however deep.
-/

set_option autoImplicit false

namespace PythonTypes.TypeStore

/-- A relation between stores that holds for every step of following types. -/
structure Framed (R : TypeStore → TypeStore → Prop) : Prop where
  refl : ∀ s, R s s
  trans : ∀ {s₁ s₂ s₃}, R s₁ s₂ → R s₂ s₃ → R s₁ s₃
  wrap : ∀ t s, R s (TypeStore.wrap t s).2
  internInstance : ∀ cls s, R s (TypeStore.internInstance cls s).2
  internLazyInstance : ∀ lazy w s, R s (TypeStore.internLazyInstance lazy (.slot w) s).2
  internUnion : ∀ cs s, R s (TypeStore.internUnion cs s).2

/-- Whatever the functions that follow types lead to with the given depth left is related to the
store before. -/
structure KeepsAt (R : TypeStore → TypeStore → Prop) (depth : Nat) : Prop where
  instanceOf : ∀ s cls, Ensures True s (instanceOfAt depth cls) fun _ s' => R s s'
  canonical : ∀ s t, Ensures True s (canonicalAt depth t) fun _ s' => R s s'
  flatten : ∀ s ts acc, Ensures True s (flattenAt depth ts acc) fun _ s' => R s s'
  unionOf : ∀ s ts, Ensures True s (unionOfAt depth ts) fun _ s' => R s s'

/-- Whether a form is that of an instance or a union. -/
def isDerived : TypeForm → Bool
  | .object _ | .union _ | .lazyUnion _ => true
  | _ => false

theorem isDerived_unionForm (s : TypeStore) (cs : List TypeId) : isDerived (s.unionForm cs) = true := by
  rcases s.unionForm_cases cs with hform | ⟨hform, -⟩ <;> rw [hform] <;> rfl

theorem shape_wrap (t : TypeId) (s : TypeStore) (u : TypeId) : (TypeStore.wrap t s).2.shape u = s.shape u := by
  rw [wrap_apply]
  split
  · exact shape_addWatcher _ _ _ u
  · rfl

section

variable {R : TypeStore → TypeStore → Prop} {α : Type} {s : TypeStore}
variable {depth : Nat}

/-- A relation that does not look at the tables of interned types has to allow for one more instance
or union. -/
theorem Framed.of_push (hrefl : ∀ s, R s s) (htrans : ∀ {s1 s2 s3}, R s1 s2 → R s2 s3 → R s1 s3)
    (hwrap : ∀ t s, R s (TypeStore.wrap t s).2)
    (hpush : ∀ {s s' : TypeStore} {form : TypeForm}, s'.types = s.types.push form → s'.slots = s.slots →
      isDerived form = true → R s s') : Framed R where
  refl := hrefl
  trans := htrans
  wrap := hwrap
  internInstance cls s := by
    rw [internInstance_apply]
    split
    · exact hrefl s
    · exact hpush rfl rfl rfl
  internLazyInstance lazy w s := by
    rw [internLazyInstance_apply]
    split
    · exact hrefl s
    · exact hpush rfl rfl rfl
  internUnion cs s := by
    rcases cs with _ | ⟨c, _ | ⟨d, rest⟩⟩
    · exact hrefl s
    · exact hrefl s
    · rw [internUnion_apply]
      split
      · exact hrefl s
      · exact hpush rfl rfl (s.isDerived_unionForm (c :: d :: rest))

theorem ensures_lift {mayStop : Prop} {action : StoreM α} {Q : α → TypeStore → Prop}
    (h : Q (action s).1 (action s).2) : Ensures mayStop s (liftM action : DeepM α) Q := h

section

variable (hR : Framed R)

include hR

theorem Framed.bind {β : Type} {action : DeepM α} {f : α → DeepM β}
    (h : Ensures True s action fun _ s' => R s s') (hf : ∀ a s', Ensures True s' (f a) fun _ s'' => R s' s'') :
    Ensures True s (action >>= f) fun _ s' => R s s' :=
  h.bind fun a s' ha => (hf a s').imp fun _ _ hb => hR.trans ha hb

theorem Framed.instanceStep (ih : KeepsAt R depth) (cls : TypeRef) :
    Ensures True s (TypeStore.instanceStep (instanceOfAt depth) (unionOfAt depth) cls) fun _ s' => R s s' := by
  unfold TypeStore.instanceStep
  refine .get_bind ?_
  cases hawaited : s.awaited? cls with
  | some lazy =>
    obtain ⟨w, rfl, -, rfl⟩ := awaited?_eq_some hawaited
    exact ensures_lift (hR.internLazyInstance _ w s)
  | none =>
    dsimp only
    cases s.form (s.derefLazy (s.target cls)) with
    | unknown | unresolvedImport _ => exact .pure (hR.refl s)
    | union cs =>
      have hinstances : Ensures True s (cs.mapM fun c => instanceOfAt depth (.direct c)) fun _ s' => R s s' := by
        refine (Ensures.forall₂_mapM (Q := fun _ _ _ => True) hR.refl hR.trans cs
          (fun _ _ _ _ _ _ _ => id) ?_).imp fun _ _ h => h.1
        exact fun c _ s' _ => (ih.instanceOf s' (.direct c)).imp fun _ _ h => ⟨h, trivial⟩
      exact hR.bind hinstances fun us s' => ih.unionOf s' us
    | lazy _ _ => grind [bind, ensures_lift, wrap, KeepsAt.instanceOf]
    | _ => exact ensures_lift (hR.internInstance _ s)

theorem Framed.canonicalStep (ih : KeepsAt R depth) (t : TypeId) :
    Ensures True s (TypeStore.canonicalStep (instanceOfAt depth) (unionOfAt depth) t) fun _ s' => R s s' := by
  have hsame : ∀ u, Ensures True s (pure u : DeepM TypeId) fun _ s' => R s s' := fun _ => .pure (hR.refl s)
  unfold TypeStore.canonicalStep
  refine .get_bind ?_
  dsimp only
  cases s.form (s.derefLazy t) with
  | object cls =>
    cases cls with
    | direct c => exact hsame _
    | slot w =>
      dsimp only
      split
      · exact ih.instanceOf s _
      · exact hsame _
  | lazyUnion cs =>
    dsimp only
    split
    · exact hsame _
    · exact ih.unionOf s cs
  | _ => exact hsame _

theorem Framed.flattenStep (ih : KeepsAt R depth) (ts acc : List TypeId) :
    Ensures True s (TypeStore.flattenStep (canonicalAt depth) (flattenAt depth) ts acc) fun _ s' => R s s' := by
  induction ts generalizing s acc with
  | nil => exact .pure (hR.refl s)
  | cons t rest ihrest =>
    have hadd : ∀ s' u, Ensures True s' (addType (flattenAt depth) u acc) fun _ s'' => R s' s'' := by
      intro s' u
      unfold addType
      refine .get_bind ?_
      cases s'.form u with
      | union cs | lazyUnion cs => exact ih.flatten s' cs acc
      | _ => exact .pure (hR.refl s')
    rw [flattenStep_cons]
    refine hR.bind (hR.bind (ih.canonical s t) fun u s' => hadd s' u) fun r s' => ?_
    cases r with
    | none => exact .pure (hR.refl s')
    | some acc' => exact ihrest acc'

/-- A relation that every step keeps is kept, by induction on the depth that is left. -/
theorem Framed.keeps (depth : Nat) : KeepsAt R depth := by
  induction depth with
  | zero =>
    refine ⟨fun s cls => ?_, fun s t => ?_, fun s ts acc => ?_, fun s ts => ?_⟩
    · rw [instanceOfAt]; trivial
    · rw [canonicalAt]; trivial
    · rw [flattenAt]; trivial
    · rw [unionOfAt]; trivial
  | succ depth ih =>
    refine ⟨fun s cls => ?_, fun s t => ?_, fun s ts acc => ?_, fun s ts => ?_⟩
    · rw [instanceOfAt]
      exact hR.instanceStep ih cls
    · rw [canonicalAt]
      exact hR.canonicalStep ih t
    · rw [flattenAt]
      exact hR.flattenStep ih ts acc
    · rw [unionOfAt]
      refine hR.bind (ih.flatten s ts []) fun r s' => ?_
      cases r with
      | none => exact .pure (hR.refl s')
      | some cs => exact ensures_lift (hR.internUnion cs s')

theorem Framed.within {default : α} {action : Nat → DeepM α}
    (h : Ensures True s (action s.depthBound) fun _ s' => R s s') : R s (TypeStore.within default action s).2 := by
  unfold TypeStore.within
  unfold Ensures at h
  cases haction : action s.depthBound s with
  | none => exact hR.refl s
  | some r =>
    rw [haction] at h
    exact h

end

end

end PythonTypes.TypeStore
