import PythonTypes.Proofs.Descriptor.Growth

/-!
# What conversions leave behind

Converting a descriptor takes a few kinds of steps: types are followed, lazy types are made for new
paths, classes and functions are declared, and classes that were declared on the way get their
members. `Trace` lists them, together with the classes and functions in the order in which they were
declared. So whatever was there before stays as it was (`Trace.converts`), and each function belongs
to the class in whose descriptor its own stands (`Lays`).
-/

set_option autoImplicit false

namespace PythonTypes

/-- What holds of the state holds after the action too. -/
def Lasts {σ α : Type} (J : σ → Prop) (action : StateT σ Option α) : Prop := ∀ s, J s → Ensures True s action fun _ s' => J s'

namespace Lasts

variable {σ α β : Type} {J : σ → Prop} {action : StateT σ Option α}

theorem pure (a : α) : Lasts J (Pure.pure a) := fun _ h => .pure h

theorem bind {f : α → StateT σ Option β} (h : Lasts J action) (hf : ∀ a, Lasts J (f a)) :
    Lasts J (action >>= f) := fun s hs => (h s hs).bind fun a s' hs' => hf a s' hs'

theorem map {f : α → β} (h : Lasts J action) : Lasts J (f <$> action) :=
  fun s hs => Ensures.map (Q := fun _ s' => J s') (h s hs)

theorem mapM {ι : Type} {f : ι → StateT σ Option α} (xs : List ι) (h : ∀ x, Lasts J (f x)) : Lasts J (xs.mapM f) := by
  induction xs with
  | nil =>
    rw [List.mapM_nil]
    exact pure []
  | cons x rest ih =>
    grind [bind, pure]

end Lasts

/-- What a class or a function says about its declaration. -/
inductive Declaration where
  | ofClass (name : String) (path : Option String)
  | ofFunction (name : String) (path : Option String) (owner : Option TypeId)

def TypeForm.declaration? : TypeForm → Option Declaration
  | .ofClass c => some (.ofClass c.name c.path)
  | .ofFunction f => some (.ofFunction f.name f.path f.owner)
  | _ => none

theorem TypeForm.declaration?_unwatched (f : TypeForm) : f.unwatched.declaration? = f.declaration? := by
  cases f with
  | lazy path state => cases state <;> rfl
  | _ => rfl

namespace TypeStore

variable {s s' s'' : TypeStore} {form : TypeForm} {t : TypeId} {n : Nat}

def declaration? (s : TypeStore) (t : TypeId) : Option Declaration := (s.form t).declaration?

/-- The classes and functions of a store, in the order in which they were declared. -/
def declared (s : TypeStore) : List TypeId := ((List.range s.size).map TypeId.mk).filter fun t => (s.declaration? t).isSome

theorem declared_congr (hsize : s'.size = s.size) (h : ∀ t, s'.declaration? t = s.declaration? t) :
    s'.declared = s.declared := by
  unfold declared
  simp only [hsize, h]

theorem declaration?_of_push (htypes : s'.types = s.types.push form) (ht : t ≠ s.fresh) :
    s'.declaration? t = s.declaration? t :=
  congrArg TypeForm.declaration? (form_eq_of_push htypes ht)

theorem declared_of_push (htypes : s'.types = s.types.push form) :
    s'.declared = s.declared ++ if form.declaration?.isSome then [s.fresh] else [] := by
  have hsize : s'.size = s.size + 1 := by simp [size, htypes]
  have hfresh : s'.declaration? s.fresh = form.declaration? := congrArg TypeForm.declaration? (form_fresh_of_push htypes)
  have hold : ∀ t ∈ (List.range s.size).map TypeId.mk, (s'.declaration? t).isSome = (s.declaration? t).isSome := by
    intro t ht
    obtain ⟨i, hi, rfl⟩ := List.mem_map.1 ht
    have hne : (⟨i⟩ : TypeId) ≠ s.fresh := fun heq => Nat.ne_of_lt (List.mem_range.1 hi) (congrArg TypeId.index heq)
    rw [declaration?_of_push htypes hne]
  unfold declared
  rw [hsize, List.range_succ, List.map_append, List.filter_append, List.filter_congr hold]
  congr 1
  show List.filter _ [s.fresh] = _
  rw [List.filter_singleton, hfresh, cond_eq_ite]

/-- What was declared stays so. -/
def StillDeclares (s s' : TypeStore) : Prop := ∀ t d, s.declaration? t = some d → s'.declaration? t = some d

/-- The types below `n` and the slots stay as they are, except that pending lazy types may get more
watchers, behind the others. Nothing is resolved, and no class or function is declared anew. -/
structure Appends (n : Nat) (s s' : TypeStore) : Prop where
  size_le : s.size ≤ s'.size
  slots_le : s.slots.size ≤ s'.slots.size
  form_eq : ∀ t, t.index < n → s'.form t = s.form t ∨
    ∃ path ws more, s.form t = .lazy path (.pending ws) ∧ s'.form t = .lazy path (.pending (ws ++ more))
  slot_eq : ∀ w, s.SlotKnown w → s'.slot w = s.slot w
  target : s.NoNewTarget s'
  declaration : s.StillDeclares s'

theorem Appends.refl (n : Nat) (s : TypeStore) : s.Appends n s :=
  ⟨Nat.le_refl _, Nat.le_refl _, fun _ _ => .inl rfl, fun _ _ => rfl, fun _ _ h => h, fun _ _ h => h⟩

theorem Appends.trans (h : s.Appends n s') (h' : s'.Appends n s'') : s.Appends n s'' where
  size_le := h.size_le.trans h'.size_le
  slots_le := h.slots_le.trans h'.slots_le
  form_eq t ht := by
    rcases h.form_eq t ht with heq | ⟨path, ws, more, hold, hnew⟩
    · rw [← heq]
      exact h'.form_eq t ht
    · rcases h'.form_eq t ht with heq | ⟨path', ws', more', hold', hnew'⟩
      · exact .inr ⟨path, ws, more, hold, heq.trans hnew⟩
      · cases hnew.symm.trans hold'
        exact .inr ⟨path, ws, more ++ more', hold, by rw [hnew', List.append_assoc]⟩
  slot_eq w hw := (h'.slot_eq w (Nat.lt_of_lt_of_le hw h.slots_le)).trans (h.slot_eq w hw)
  target l x hx := h.target l x (h'.target l x hx)
  declaration t d hd := h'.declaration t d (h.declaration t d hd)

theorem appends_of_push (htypes : s'.types = s.types.push form) (hslots : s'.slots = s.slots)
    (hform : ∀ path x, form ≠ .lazy path (.resolved x)) (hn : n ≤ s.size) : s.Appends n s' where
  size_le := by simp [size, htypes]
  slots_le := Nat.le_of_eq (by rw [hslots])
  form_eq t ht := .inl (form_eq_of_push htypes (by
    rintro rfl
    exact absurd (Nat.lt_of_lt_of_le ht hn) (Nat.lt_irrefl _)))
  slot_eq w _ := by rw [slot, slot, hslots]
  target := noNewTarget_of_push htypes hform
  declaration t d hd := by
    have hne : t ≠ s.fresh := by
      rintro rfl
      simp [declaration?, form_fresh, TypeForm.declaration?] at hd
    rwa [declaration?_of_push htypes hne]

theorem appends_wrap (n : Nat) (x : TypeId) (s : TypeStore) :
    s.Appends n (TypeStore.wrap x s).2 ∧ (TypeStore.wrap x s).2.declared = s.declared := by
  have hr := registers_wrap x s
  have hdeclaration : ∀ t, (TypeStore.wrap x s).2.declaration? t = s.declaration? t := fun t => by
    rw [declaration?, ← TypeForm.declaration?_unwatched, ← shape, shape_wrap, shape,
      TypeForm.declaration?_unwatched, declaration?]
  have hsize : (TypeStore.wrap x s).2.size = s.size := by
    rw [wrap_apply]
    split
    · unfold addWatcher
      split <;> simp [size, setForm, waiting]
    · rfl
  refine ⟨⟨Nat.le_of_eq hsize.symm, hr.slots_le, fun t _ => ?_, hr.slot_eq,
    (framed_inert.wrap x s).target, fun t d hd => ?_⟩, declared_congr hsize hdeclaration⟩
  · cases ht : s.isPending t with
    | false =>
      have hform : ∀ path ws, s.form t ≠ .lazy path (.pending ws) := by
        intro path ws hform
        simp [isPending, hform] at ht
      exact .inl ((shape_eq_iff hform).1 ((shape_wrap x s t).trans ((shape_eq_iff hform).2 rfl)))
    | true =>
      obtain ⟨path, hform⟩ := form_of_isPending ht
      obtain ⟨path', hform'⟩ := form_of_isPending ((hr.isPending_eq t).trans ht)
      have hpath : path' = path := by
        have hshape := shape_wrap x s t
        rw [shape, shape, hform, hform'] at hshape
        cases hshape
        rfl
      rw [hr.watchers_eq, hpath] at hform'
      exact .inr ⟨path, _, _, hform, hform'⟩
  · rw [hdeclaration, hd]

/-- Following types appends to a store, and declares nothing. -/
theorem framed_appends (n : Nat) : Framed fun s s' => n ≤ s.size → s.Appends n s' ∧ s'.declared = s.declared :=
  .of_push (fun s _ => ⟨.refl n s, rfl⟩)
    (fun h h' hn => ⟨(h hn).1.trans (h' (hn.trans (h hn).1.size_le)).1, ((h' (hn.trans (h hn).1.size_le)).2).trans (h hn).2⟩)
    (fun x s _ => appends_wrap n x s) fun {s s' form} htypes hslots hform hn => by
      refine ⟨appends_of_push htypes hslots (by cases form <;> simp_all [isDerived]) hn, ?_⟩
      rw [declared_of_push htypes]
      cases form <;> simp_all [isDerived, TypeForm.declaration?]

theorem appends_setClass {cls : TypeId} {c : ClassType} (hcls : n ≤ cls.index) (hform : s.form cls = .ofClass c)
    (members : OrderedMap String TypeRef) : s.Appends n (s.setForm cls (.ofClass { c with members })) ∧
      (s.setForm cls (.ofClass { c with members })).declared = s.declared := by
  have hknown : s.Known cls := known_of_shape (by simp [shape, hform, TypeForm.unwatched])
  have hdeclaration : ∀ t, (s.setForm cls (.ofClass { c with members })).declaration? t = s.declaration? t := by
    intro t
    by_cases ht : t = cls
    · rw [ht, declaration?, form_setForm_self _ hknown, declaration?, hform]
      rfl
    · rw [declaration?, form_setForm_of_ne _ _ ht, declaration?]
  refine ⟨⟨Nat.le_of_eq (s.size_setForm cls _).symm, Nat.le_refl _,
    fun t ht => .inl (form_setForm_of_ne _ _ ?_), fun _ _ => rfl,
    noNewTarget_of_form _ (by simp) (form_setForm_cases _ hknown), fun t d hd => (hdeclaration t).trans hd⟩,
    declared_congr (s.size_setForm cls _) hdeclaration⟩
  rintro rfl
  exact absurd ht (Nat.not_lt.2 hcls)

end TypeStore

namespace TypeSpace

open TypeStore

/-- The steps of a conversion in a type space that had `n` types when it began, and the classes and
functions that they declare. Only classes that were declared since get members. -/
inductive Trace (n : Nat) : List TypeId → TypeSpace → TypeSpace → Prop
  | refl (space : TypeSpace) : Trace n [] space space
  | follow {space : TypeSpace} {store : TypeStore} (h : ∀ R, Framed R → R space.store store) :
      Trace n [] space { space with store }
  | enter {space : TypeSpace} {path : String} (h : space.registry.types.get? path = none) :
      Trace n [] space { store := space.store.added (.lazy path (.pending [])), registry :=
        { space.registry with types := space.registry.types.insert path space.store.fresh } }
  | declare {space : TypeSpace} {form : TypeForm} (h : form.declaration?.isSome = true) :
      Trace n [space.store.fresh] space { space with store := space.store.added form }
  | fill {space : TypeSpace} {cls : TypeId} {c : ClassType} (members : OrderedMap String TypeRef)
      (hcls : n ≤ cls.index) (h : space.store.form cls = .ofClass c) :
      Trace n [] space { space with store := space.store.setForm cls (.ofClass { c with members }) }
  | trans {ids ids' : List TypeId} {space space' space'' : TypeSpace} (h : Trace n ids space space')
      (h' : Trace n ids' space' space'') : Trace n (ids ++ ids') space space''

/-- What a conversion leaves as it was, and the classes and functions that it declares. -/
structure Converts (n : Nat) (ids : List TypeId) (space space' : TypeSpace) : Prop where
  appends : space.store.Appends n space'.store
  declared : space'.store.declared = space.store.declared ++ ids
  registry : ∀ path l, space.registry.types.get? path = some l → space'.registry.types.get? path = some l
  inProgress : space'.registry.inProgress = space.registry.inProgress

variable {n : Nat} {ids : List TypeId} {space space' : TypeSpace}

theorem Trace.converts (h : Trace n ids space space') (hn : n ≤ space.store.size) : space.Converts n ids space' := by
  induction h with
  | refl space => exact ⟨.refl n _, (List.append_nil _).symm, fun _ _ h => h, rfl⟩
  | follow h =>
    obtain ⟨happends, hdeclared⟩ := h _ (framed_appends n) hn
    exact ⟨happends, hdeclared.trans (List.append_nil _).symm, fun _ _ h => h, rfl⟩
  | enter h =>
    refine ⟨appends_of_push rfl rfl (by simp) hn, (declared_of_push rfl).trans (by simp [TypeForm.declaration?]),
      fun path l hl => OrderedMap.get?_insert_of_absent h hl, rfl⟩
  | declare h =>
    refine ⟨appends_of_push rfl rfl ?_ hn, ?_, fun _ _ h => h, rfl⟩
    · rintro path x rfl
      cases h
    · rw [declared_of_push rfl, if_pos h]
  | fill members hcls h =>
    obtain ⟨happends, hdeclared⟩ := appends_setClass hcls h members
    exact ⟨happends, hdeclared.trans (List.append_nil _).symm, fun _ _ h => h, rfl⟩
  | trans _ _ ih ih' =>
    have h := ih hn
    have h' := ih' (hn.trans h.appends.size_le)
    exact ⟨h.appends.trans h'.appends, by rw [h'.declared, h.declared, List.append_assoc],
      fun path l hl => h'.registry path l (h.registry path l hl), h'.inProgress.trans h.inProgress⟩

/-! ## Steps that declare nothing -/

variable {base : TypeSpace} {α : Type}

theorem Trace.quiet {space'' : TypeSpace} (h : Trace n ids space space')
    (h' : Trace n [] space' space'') : Trace n ids space space'' := by
  have htrace := h.trans h'
  rwa [List.append_nil] at htrace

theorem quiet_wrap (x : TypeId) : Lasts (Trace n ids base) (onStore (TypeStore.wrap x)) :=
  fun space h => .of_eq_some rfl (h.quiet (.follow fun _ hR => hR.wrap x space.store))

theorem quiet_follow {action : Nat → DeepM α}
    (h : ∀ R, Framed R → ∀ depth s, Ensures True s (action depth) fun _ s' => R s s') :
    Lasts (Trace n ids base) (follow action) := by
  intro space htrace
  unfold Ensures follow
  cases hanswer : action space.store.depthBound space.store with
  | none => trivial
  | some r => exact htrace.quiet (.follow fun R hR => Ensures.apply_some (h R hR _ _) hanswer)

theorem quiet_lazyType (path : String) : Lasts (Trace n ids base) (lazyType path) := by
  intro space h
  unfold lazyType
  refine .get_bind ?_
  cases hget : space.registry.types.get? path with
  | some l => exact .pure h
  | none => exact .of_eq_some rfl (h.quiet (.enter hget))

theorem quiet_lazyRef (path : String) : Lasts (Trace n ids base) (lazyRef path) := .bind (quiet_lazyType path) quiet_wrap

theorem quiet_hint (hint : Option String) : Lasts (Trace n ids base) (Descriptor.convertHint hint) := by
  cases hint with
  | none => exact .pure _
  | some path =>
    exact .map (.bind (quiet_lazyRef path) fun cls => quiet_follow fun R hR depth s => (hR.keeps depth).instanceOf s cls)

end TypeSpace

/-! ## Whose functions they are -/

namespace TypeStore

mutual

/-- The types are the classes and functions that a descriptor describes, in the order in which it
describes them: a function belongs to the owner, and what stands in a class belongs to that class.
Of the alternatives of an ambiguous descriptor only the first ones count if one of them cannot be
converted. -/
inductive Lays (s : TypeStore) : Option TypeId → Descriptor → List TypeId → Prop
  | ofClass {owner : Option TypeId} {cls : TypeId} {ids : List TypeId} {name : String}
      {path : Option String} {bases : List String}
      {members : List Descriptor} {hasDecorators : Bool} {metaclass : Option String}
        (h : s.declaration? cls = some (.ofClass name path))
      (hmembers : LaysAll s (some cls) members ids) :
      Lays s owner (.ofClass name path bases members hasDecorators metaclass) (cls :: ids)
  | ofFunction {owner : Option TypeId} {id : TypeId} {f : FunctionDescriptor}
      (h : s.declaration? id = some (.ofFunction f.name f.path owner)) : Lays s owner (.ofFunction f) [id]
  | ofVariable (owner : Option TypeId) (v : VariableDescriptor) : Lays s owner (.ofVariable v) []
  | ambiguous {owner : Option TypeId} {ids : List TypeId} {name : String} {path : Option String}
      {first rest : List Descriptor}
      (h : LaysAll s owner first ids) : Lays s owner (.ambiguous name path (first ++ rest)) ids
  | unknown (owner : Option TypeId) (name : String) (path : Option String) : Lays s owner (.unknown name path) []

/-- The types are the classes and functions that several descriptors describe for the same owner. -/
inductive LaysAll (s : TypeStore) : Option TypeId → List Descriptor → List TypeId → Prop
  | nil (owner : Option TypeId) : LaysAll s owner [] []
  | cons {owner : Option TypeId} {d : Descriptor} {rest : List Descriptor} {ids ids' : List TypeId} (h : Lays s owner d ids)
      (hrest : LaysAll s owner rest ids') : LaysAll s owner (d :: rest) (ids ++ ids')

end

mutual

theorem Lays.mono {s s' : TypeStore} (hs : s.StillDeclares s') {owner : Option TypeId}
    {d : Descriptor} {ids : List TypeId} : s.Lays owner d ids → s'.Lays owner d ids
  | .ofClass h hmembers => .ofClass (hs _ _ h) (hmembers.mono hs)
  | .ofFunction h => .ofFunction (hs _ _ h)
  | .ofVariable owner v => .ofVariable owner v
  | .ambiguous h => .ambiguous (h.mono hs)
  | .unknown owner name path => .unknown owner name path

theorem LaysAll.mono {s s' : TypeStore} (hs : s.StillDeclares s') {owner : Option TypeId}
    {ds : List Descriptor} {ids : List TypeId} : s.LaysAll owner ds ids → s'.LaysAll owner ds ids
  | .nil owner => .nil owner
  | .cons h hrest => .cons (h.mono hs) (hrest.mono hs)

end

end TypeStore

namespace Descriptor

open TypeSpace

variable {n : Nat} {space : TypeSpace}

/-- A conversion leaves a trace, and its classes and functions have the property `P`. -/
def Leaves {α : Type} (n : Nat) (space : TypeSpace) (action : SpaceM α) (P : α → List TypeId → TypeStore → Prop) : Prop :=
  n ≤ space.store.size → Ensures True space action fun a space' => ∃ ids, Trace n ids space space' ∧ P a ids space'.store

namespace Leaves

variable {α β : Type} {action : SpaceM α} {P : α → List TypeId → TypeStore → Prop} {Q : β → List TypeId → TypeStore → Prop}

theorem pure {a : α} (h : P a [] space.store) : Leaves n space (Pure.pure a) P := fun _ => .pure ⟨[], .refl space, h⟩

theorem of_quiet (h : ∀ {ids base}, Lasts (Trace n ids base) action) : Leaves n space action fun _ ids _ => ids = [] :=
  fun _ => (h space (.refl space)).imp fun _ _ htrace => ⟨[], htrace, rfl⟩

theorem bind {f : α → SpaceM β} (h : Leaves n space action P)
    (hf : ∀ a ids (space' : TypeSpace), P a ids space'.store → space.store.StillDeclares space'.store →
      Leaves n space' (f a) fun b ids' s => space'.store.StillDeclares s → Q b (ids ++ ids') s) :
        Leaves n space (action >>= f) Q := by
  intro hn
  refine (h hn).bind fun a space1 ⟨ids, htrace, ha⟩ => ?_
  have happends := (htrace.converts hn).appends
  have hn1 := hn.trans happends.size_le
  refine (hf a ids space1 ha happends.declaration hn1).imp fun b space2 ⟨ids', htrace', hb⟩ => ?_
  exact ⟨ids ++ ids', htrace.trans htrace', hb (htrace'.converts hn1).appends.declaration⟩

theorem map {g : α → β} (h : Leaves n space action fun a => Q (g a)) :
    Leaves n space (g <$> action) Q := fun hn => Ensures.map (h hn)

theorem imp {Q : α → List TypeId → TypeStore → Prop} (h : Leaves n space action P) (hPQ : ∀ a ids s, P a ids s → Q a ids s) :
    Leaves n space action Q := fun hn => (h hn).imp fun a space' ⟨ids, htrace, ha⟩ => ⟨ids, htrace, hPQ a ids space'.store ha⟩

end Leaves

theorem leaves_declare {form : TypeForm} {d : Declaration} (h : form.declaration? = some d) :
    Leaves n space (onStore (TypeStore.alloc form)) fun t ids s => ids = [t] ∧ n ≤ t.index ∧ s.declaration? t = some d := by
  intro hn
  refine .of_eq_some rfl ⟨[space.store.fresh], .declare (by rw [h]; rfl), rfl, hn, ?_⟩
  exact (congrArg TypeForm.declaration? (TypeStore.form_fresh_of_push rfl)).trans h

theorem leaves_function (scope : ConversionScope) (f : FunctionDescriptor) :
    Leaves n space (convertFunction scope f) fun _ ids s => s.Lays scope.owner (.ofFunction f) ids := by
  refine .bind (.of_quiet (.mapM _ fun p => .bind (quiet_hint p.hint) fun _ => .pure _)) ?_
  rintro parameters _ space1 rfl -
  refine .bind (.of_quiet (quiet_hint f.returns)) ?_
  rintro returns _ space2 rfl -
  refine .bind (.of_quiet (.mapM _ quiet_lazyRef)) ?_
  rintro decorators _ space3 rfl -
  refine (leaves_declare rfl).imp ?_
  rintro t _ s ⟨rfl, -, hd⟩ - - -
  exact .ofFunction hd

theorem leaves_setClassMembers {cls : TypeId} {name : String} {path : Option String} (hcls : n ≤ cls.index)
    (hd : space.store.declaration? cls = some (.ofClass name path)) (members : OrderedMap String TypeRef) :
    Leaves n space (onStore (setClassMembers cls members)) fun _ ids _ => ids = [] := by
  obtain ⟨c, hform⟩ : ∃ c, space.store.form cls = .ofClass c := by
    unfold TypeStore.declaration? at hd
    cases hform : space.store.form cls <;> simp_all [TypeForm.declaration?]
  have hset : onStore (setClassMembers cls members) space =
      some ((), { space with store := space.store.setForm cls (.ofClass { c with members }) }) := by
    unfold onStore
    rw [setClassMembers_of_class hform]
  exact fun _ => .of_eq_some hset ⟨[], .fill members hcls hform, rfl⟩

mutual

theorem leaves_convert (scope : ConversionScope) : (d : Descriptor) → (space : TypeSpace) →
    Leaves n space (d.convert scope).run fun _ ids s => s.Lays scope.owner d ids
  | .ofClass name path bases members hasDecorators metaclass, space => by
    rw [convert_ofClass, convertClass]
    refine .map (.bind (.of_quiet (.mapM _ quiet_lazyRef)) ?_)
    rintro refs _ space1 rfl -
    refine .bind (leaves_declare rfl) ?_
    rintro cls _ space2 ⟨rfl, hcls, hd⟩ -
    refine .bind (leaves_members { scope with owner := some cls } members ∅ space2) fun ms ids space3 hms hstill3 => ?_
    refine .bind (leaves_setClassMembers hcls (hstill3 cls _ hd) ms) ?_
    rintro _ _ space4 rfl hstill4
    refine .pure fun _ _ _ _ => ?_
    simp only [List.nil_append, List.append_nil, List.singleton_append]
    exact .ofClass (hstill4 cls _ (hstill3 cls _ hd)) (hms.mono hstill4)
  | .ofFunction f, space => by
    rw [convert_ofFunction]
    exact .map (leaves_function scope f)
  | .ofVariable v, space => by
    rw [convert_ofVariable]
    have hquiet : ∀ {ids base}, Lasts (Trace n ids base) (convertVariable v) := .bind (quiet_hint v.hint) fun _ => .pure _
    refine .map ((Leaves.of_quiet hquiet).imp ?_)
    rintro _ _ s rfl
    exact .ofVariable _ v
  | .ambiguous name path alternatives, space => by
    rw [convert_ambiguous]
    refine Leaves.bind (leaves_all scope alternatives space) fun r ids space1 hall _ => ?_
    obtain ⟨first, rest, rfl, hall⟩ := hall
    cases r with
    | error e =>
      refine .pure fun _ => ?_
      rw [List.append_nil]
      exact .ambiguous hall
    | ok ts =>
      refine .map ((Leaves.of_quiet (quiet_follow fun R hR depth s => (hR.keeps depth).unionOf s ts)).imp ?_)
      rintro _ _ s rfl hstill
      rw [List.append_nil]
      exact .ambiguous (hall.mono hstill)
  | .unknown name path, space => .pure (.unknown _ name path)

theorem leaves_members (scope : ConversionScope) :
    (ds : List Descriptor) → (acc : OrderedMap String TypeRef) → (space : TypeSpace) →
    Leaves n space (convertMembers scope ds acc) fun _ ids s => s.LaysAll scope.owner ds ids
  | [], _, space => .pure (.nil _)
  | d :: rest, acc, space => by
    rw [convertMembers_cons]
    refine Leaves.bind (leaves_convert scope d space) fun _ ids space1 hd _ => ?_
    refine .bind (.of_quiet (quiet_wrap _)) ?_
    rintro ref _ space2 rfl hstill
    refine (leaves_members scope rest _ space2).imp fun _ ids' s hrest _ hstill' => ?_
    exact .cons (hd.mono hstill') hrest

/-- If an alternative fails then those behind it are not converted. -/
theorem leaves_all (scope : ConversionScope) : (ds : List Descriptor) → (space : TypeSpace) →
    Leaves n space (convertAll scope ds).run fun _ ids s => ∃ first rest, ds = first ++ rest ∧ s.LaysAll scope.owner first ids
  | [], space => .pure ⟨[], [], rfl, .nil _⟩
  | d :: rest, space => by
    rw [convertAll_cons]
    refine Leaves.bind (leaves_convert scope d space) fun r ids space1 hd _ => ?_
    cases r with
    | error e => exact .pure fun _ => ⟨[d], rest, rfl, .cons hd (.nil _)⟩
    | ok t =>
      refine Leaves.bind (leaves_all scope rest space1) fun r' ids' space2 hall _ => ?_
      obtain ⟨first, rest', rfl, hall⟩ := hall
      have hdone : ∀ s, space1.store.StillDeclares s → space2.store.StillDeclares s →
          ∃ first' rest'', d :: (first ++ rest') = first' ++ rest'' ∧ s.LaysAll scope.owner first' (ids ++ (ids' ++ [])) := by
        intro s hstill hstill'
        rw [List.append_nil]
        exact ⟨d :: first, rest', rfl, .cons (hd.mono hstill) (hall.mono hstill')⟩
      cases r' with
      | error e | ok ts => exact .pure fun hstill' hstill => hdone _ hstill hstill'

end

/-- Whether a descriptor describes what stands in the module itself, and not something that
is defined elsewhere. -/
def standsIn (modulePath : String) (d : Descriptor) : Bool :=
  match d.path with
  | some path => path = DottedName.child modulePath d.name
  | none => true

end Descriptor

namespace ModuleDescriptor

open Descriptor TypeSpace

variable {n : Nat}

theorem leaves_entries (scope : ConversionScope) (entries : List (String × Descriptor)) (acc : OrderedMap String TypeRef)
    (space : TypeSpace) : Leaves n space (convertEntriesIn scope entries acc) fun _ ids s =>
      s.LaysAll scope.owner ((entries.map Prod.snd).filter (standsIn scope.modulePath)) ids := by
  induction entries generalizing acc space with
  | nil => exact .pure (.nil _)
  | cons entry rest ih =>
    obtain ⟨key, d⟩ := entry
    have hmember : Leaves n space (convertMemberIn scope d) fun _ ids s =>
        if d.standsIn scope.modulePath then s.Lays scope.owner d ids else ids = [] := by
      have hconvert : Leaves n space (d.convertOrUnknownIn scope) fun _ ids s => s.Lays scope.owner d ids :=
        Leaves.bind (leaves_convert scope d space) fun r ids space1 hd _ => .pure fun _ => by rwa [List.append_nil]
      unfold convertMemberIn standsIn
      cases hpath : d.path with
      | none => simpa using hconvert
      | some path =>
        by_cases hself : path = DottedName.child scope.modulePath d.name
        · simpa [hself] using hconvert
        · simpa [hself] using Leaves.of_quiet (quiet_lazyType path)
    refine hmember.bind fun t ids space1 hd _ => ?_
    refine .bind (.of_quiet (quiet_wrap t)) ?_
    rintro ref _ space2 rfl -
    refine (ih _ space2).imp fun _ ids' s hrest _ hstill => ?_
    rw [List.map_cons, List.filter_cons]
    split at hd
    · rename_i hstands
      rw [if_pos hstands]
      exact .cons (hd.mono hstill) hrest
    · rename_i hstands
      rw [if_neg hstands, hd]
      exact hrest

end ModuleDescriptor

namespace TypeSpace

/-- Converting a descriptor or a module leaves everything as it was but for new types, new slots and
their registration, and puts the owner back that it found, whether it fails or not. The new classes
and functions are those that are described, each function with the class as its owner in whose
descriptor it stands, or else with the owner of the whole. In a sound space every conversion comes
to an end. -/
theorem conversion_appends (scope : ConversionScope) (space : TypeSpace) :
    (∀ d : Descriptor, (space.Sound → (d.convertHere.run.run scope space).isSome = true) ∧
      ∀ r scope' space', d.convertHere.run.run scope space = some ((r, scope'), space') →
        scope' = scope ∧ ∃ ids, space.Converts space.store.size ids space' ∧ space'.store.Lays scope.owner d ids) ∧
    (∀ m : ModuleDescriptor, (space.Sound → (m.convertHere.run scope space).isSome = true) ∧
      ∀ r scope' space', m.convertHere.run scope space = some ((r, scope'), space') →
        scope' = scope ∧ ∃ ids, space.Converts space.store.size ids space' ∧
          space'.store.LaysAll scope.owner
            ((m.members.entries.map Prod.snd).filter (Descriptor.standsIn scope.modulePath))
            ids) := by
  refine ⟨fun d => ⟨fun h => ?_, fun r scope' space' h => ?_⟩, fun m => ⟨fun h => ?_, fun r scope' space' h => ?_⟩⟩
  · rw [d.runsAs_convert.isSome_run]
    exact (Descriptor.gives_convert scope d (U := d.paths.toFinset) (fun _ => List.mem_toFinset.2) space h).isSome
  · obtain ⟨rfl, h⟩ := d.runsAs_convert.scope_eq h
    obtain ⟨ids, htrace, hlays⟩ := Ensures.apply_some (Descriptor.leaves_convert scope' d space (Nat.le_refl _)) h
    exact ⟨rfl, ids, htrace.converts (Nat.le_refl _), hlays⟩
  · rw [m.runsAs_convert.isSome_run]
    exact (m.adds_convertMembers scope (U := m.paths.toFinset) (fun _ => List.mem_toFinset.2) h).isSome
  · obtain ⟨rfl, h⟩ := m.runsAs_convert.scope_eq h
    rw [m.convertMembers_eq] at h
    obtain ⟨ids, htrace, hlays⟩ := Ensures.apply_some (ModuleDescriptor.leaves_entries scope' _ ∅ space (Nat.le_refl _)) h
    exact ⟨rfl, ids, htrace.converts (Nat.le_refl _), hlays⟩

/-- A class with a method, a symbol that is not known, and a function, all of one name. -/
def halfKnown : Descriptor :=
  .ambiguous "x" none [.ofClass "x" none ["m.Base"] [.ofFunction { name := "f", returns := some "m.Base" }] false none,
    .unknown "x" none, .ofFunction { name := "x" }]

/-- The conversion fails in the middle, inside of a class. What it declared until then stays, with
the method in its class, and so does the class around it as the owner. -/
theorem conversion_appends_halfKnown :
    let space : TypeSpace := {}
    let scope : ConversionScope := ⟨"m", .project, some ⟨0⟩⟩
    ∃ e space' ids, halfKnown.convertHere.run.run scope space = some ((.error e, scope), space') ∧
      space.Converts space.store.size ids space' ∧ space'.store.Lays (some ⟨0⟩) halfKnown ids := by
  intro space scope
  have hfails : ((halfKnown.convertHere.run.run scope space).map fun r => r.1.1.toOption.isSome) =
    some false := by decide +kernel
  obtain ⟨⟨⟨r, scope'⟩, space'⟩, hrun, hr⟩ := Option.map_eq_some_iff.1 hfails
  obtain ⟨rfl, ids, hconverts, hlays⟩ := ((conversion_appends scope space).1 halfKnown).2 r scope' space' hrun
  cases r with
  | ok t => cases hr
  | error e => exact ⟨e, space', ids, hrun, hconverts, hlays⟩

end TypeSpace

end PythonTypes
