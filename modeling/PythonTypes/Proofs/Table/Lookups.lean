import PythonTypes.Proofs.Data.Ensures
import PythonTypes.Table.Import
import PythonTypes.Table.Member

/-!
# What is asked of a table

A path that is being followed already is where an import cycle is noticed. Here the answer that is
given there is a parameter `cycle` of everything that looks things up: with `pure .unknown` these
are the look-ups of a table (`withCycle_unknown`), and with `Query.tooDeep` they give up where they
meet an import cycle. A relation between queries that is compatible with the way in which they are
put together (`Query.Compatible`) holds between all that is asked with two kinds of look-ups if it
holds between their answers to cycles (`Lookups.withCycle_related`). A property of queries is such a
relation that only looks at one of them.
-/

set_option autoImplicit false

namespace PythonTypes

theorem Table.traceTarget_of_untraced {t : Table} (h : t.traced = false) (target : TypeId) :
    traceTarget target t = some ((), t) := by
  show (if t.traced = true ∧ _ then _ else _ : Query Unit) t = _
  simp [h]
  rfl

/-- Nothing changes when a resolution is logged. -/
theorem Ensures.traceTarget {t : Table} {β : Type} {f : Unit → Query β} {Q : β → Table → Prop} (target : TypeId)
    (h : Ensures True t (f ()) Q) : Ensures True t (Table.traceTarget target >>= f) Q := by
  refine Ensures.bind (P := fun _ t' => t' = t) (Ensures.get_bind ?_) fun _ _ h' => h' ▸ h
  split
  · trivial
  · exact .pure rfl

namespace Table

variable {t : Table} {lazy : TypeId}

/-- Resolves a lazy type; `cycle` answers for a path that is being followed already. -/
def resolveLazyOr (cycle : Query TypeId) (typeAt : String → Query TypeId) (lazy : TypeId) : Query TypeId := do
  let table ← get
  match table.form lazy with
  | .lazy path (.pending _) =>
    if table.space.registry.inProgress.contains path then cycle else resolveLazyStep typeAt lazy
  | _ => resolveLazyStep typeAt lazy

mutual

/-- The type at a dotted path. -/
def typeWith (cycle : Query TypeId) : Nat → String → Query TypeId
  | 0, _ => Query.tooDeep
  | depth + 1, path => typeStep (resolvedWith cycle depth) (moduleMemberWith cycle depth) (memberWith cycle depth) path

/-- The member of a module. -/
def moduleMemberWith (cycle : Query TypeId) : Nat → TypeId → String → String → Bool → Query (Option TypeId)
  | 0, _, _, _, _ => Query.tooDeep
  | depth + 1, m, name, path, load => moduleMemberStep (resolvedWith cycle depth) m name path load

/-- Resolves a lazy type. -/
def resolveLazyWith (cycle : Query TypeId) : Nat → TypeId → Query TypeId
  | 0, _ => Query.tooDeep
  | depth + 1, lazy => resolveLazyOr cycle (typeWith cycle depth) lazy

/-- Forces a type. -/
def resolvedWith (cycle : Query TypeId) : Nat → TypeId → Query TypeId
  | 0, _ => Query.tooDeep
  | depth + 1, t => resolvedStep (resolveLazyWith cycle depth) (resolvedWith cycle depth) (resolveUnionWith cycle depth) t

/-- Forces every candidate of a union. -/
def resolveUnionWith (cycle : Query TypeId) : Nat → TypeId → Query TypeId
  | 0, _ => Query.tooDeep
  | depth + 1, union => resolveUnionStep (resolvedWith cycle depth) union

/-- The member of a class. -/
def classMemberWith (cycle : Query TypeId) : Nat → TypeId → String → List TypeId → Query (Option TypeId × List TypeId)
  | 0, _, _, _ => Query.tooDeep
  | depth + 1, cls, name, visited => classMemberStep (resolvedWith cycle depth) (classMemberWith cycle depth) cls name visited

/-- The member of a type. -/
def memberWith (cycle : Query TypeId) : Nat → TypeId → String → Query (Option TypeId)
  | 0, _, _ => Query.tooDeep
  | depth + 1, t, name => memberStep (resolvedWith cycle depth) (memberWith cycle depth) (classMemberWith cycle depth) t name

end

theorem resolveLazyOr_of_cycle {path : String} {ws : List Watcher}
    (hform : t.form lazy = .lazy path (.pending ws)) (hpath : t.space.registry.inProgress.contains path = true)
    (cycle : Query TypeId) (typeAt : String → Query TypeId) : resolveLazyOr cycle typeAt lazy t = cycle t := by
  show (match t.form lazy with | .lazy _ (.pending _) => _ | _ => _ : Query TypeId) t = _
  rw [hform]
  dsimp only
  rw [if_pos hpath]

theorem resolveLazyOr_of_no_cycle (hform : ∀ path ws, t.form lazy = .lazy path (.pending ws) →
    t.space.registry.inProgress.contains path = false) (cycle : Query TypeId) (typeAt : String → Query TypeId) :
    resolveLazyOr cycle typeAt lazy t = resolveLazyStep typeAt lazy t := by
  show (match t.form lazy with | .lazy _ (.pending _) => _ | _ => _ : Query TypeId) t = _
  cases hlazy : t.form lazy with
  | lazy path state =>
    cases state with
    | pending ws =>
      simp_all
    | resolved target => rfl
  | _ => rfl

theorem resolveLazyOr_unknown (typeAt : String → Query TypeId) (lazy : TypeId) :
    resolveLazyOr (pure .unknown) typeAt lazy = resolveLazyStep typeAt lazy := by
  funext t
  by_cases hcycle : ∃ path ws, t.form lazy = .lazy path (.pending ws) ∧ t.space.registry.inProgress.contains path = true
  · obtain ⟨path, ws, hform, hpath⟩ := hcycle
    rw [resolveLazyOr_of_cycle hform hpath]
    simp_all [resolveLazyStep, LazyRegistry.enter?, get_bind_apply]
  · grind [resolveLazyOr_of_no_cycle]

/-- The look-ups of a table, as they are with `pure .unknown` for `cycle`. -/
structure SameAt (depth : Nat) : Prop where
  typeAt : typeWith (pure .unknown) depth = typeAt depth
  moduleMember : moduleMemberWith (pure .unknown) depth = moduleMemberAt depth
  resolveLazy : resolveLazyWith (pure .unknown) depth = resolveLazyAt depth
  resolved : resolvedWith (pure .unknown) depth = resolvedAt depth
  resolveUnion : resolveUnionWith (pure .unknown) depth = resolveUnionAt depth
  classMember : classMemberWith (pure .unknown) depth = classMemberAt depth
  member : memberWith (pure .unknown) depth = memberAt depth

theorem sameAt (depth : Nat) : SameAt depth := by
  induction depth with
  | zero =>
    constructor <;> funext <;>
      simp only [typeWith, moduleMemberWith, resolveLazyWith, resolvedWith, resolveUnionWith, classMemberWith, memberWith,
        Table.typeAt, moduleMemberAt, resolveLazyAt, resolvedAt, resolveUnionAt, classMemberAt, memberAt]
  | succ depth ih =>
    constructor <;> funext <;>
      simp only [typeWith, moduleMemberWith, resolveLazyWith, resolvedWith, resolveUnionWith,
        classMemberWith, memberWith, Table.typeAt, moduleMemberAt, resolveLazyAt, resolvedAt,
        resolveUnionAt, classMemberAt, memberAt, resolveLazyOr_unknown, ih.typeAt, ih.moduleMember,
        ih.resolveLazy, ih.resolved, ih.resolveUnion, ih.classMember, ih.member]

end Table

/-! ## All that is asked -/

/-- The look-ups from which the other queries are made. -/
structure Lookups where
  getType : String → Query TypeId
  moduleMember : TypeId → String → String → Bool → Query (Option TypeId)
  resolveLazy : TypeId → Query TypeId
  resolved : TypeId → Query TypeId
  resolveUnion : TypeId → Query TypeId
  member : TypeId → String → Query (Option TypeId)

namespace Lookups

open Query

variable (depth : Nat)

/-- The look-ups with another answer where an import cycle is noticed. -/
def withCycle (cycle : Query TypeId) : Lookups where
  getType path := enough (Table.typeWith cycle · path)
  moduleMember m name path load := enough (Table.moduleMemberWith cycle · m name path load)
  resolveLazy lazy := enough (Table.resolveLazyWith cycle · lazy)
  resolved t := enough (Table.resolvedWith cycle · t)
  resolveUnion union := enough (Table.resolveUnionWith cycle · union)
  member t name := enough (Table.memberWith cycle · t name)

/-- The look-ups of a table. -/
def ofTable : Lookups :=
  ⟨Query.getType, Query.moduleMember, Query.resolveLazy, Query.resolved, Query.resolveUnion, Query.member⟩

theorem withCycle_unknown : withCycle (pure .unknown) = ofTable := by
  unfold withCycle ofTable
  simp only [(Table.sameAt _).typeAt, (Table.sameAt _).moduleMember, (Table.sameAt _).resolveLazy,
    (Table.sameAt _).resolved, (Table.sameAt _).resolveUnion, (Table.sameAt _).member]
  rfl

variable (q : Lookups)

/-- What a reference refers to, forced. -/
def resolvedRef (ref : TypeRef) : Query TypeId := do q.resolved ((← get).store.target ref)

/-- Folds the answers of bases. -/
def searchBases (search : TypeId → List TypeId → Query (Ternary × List TypeId)) :
    Ternary → List TypeRef → List TypeId → Query (Ternary × List TypeId)
  | result, [], visited => return (result, visited)
  | result, base :: rest, visited => do
    let base ← q.resolvedRef base
    match ← search base visited with
    | (.yes, visited) => return (.yes, visited)
    | (.unknown, visited) => searchBases search .unknown rest visited
    | (.no, visited) => searchBases search result rest visited

/-- Whether a class has a member. -/
def classHasMemberAt : Nat → TypeId → String → List TypeId → Query (Ternary × List TypeId)
  | 0, _, _, _ => Query.tooDeep
  | depth + 1, cls, name, visited => do
    if visited.contains cls then return (.no, visited)
    else
      match (← get).form cls with
      | .ofClass info =>
        if info.members.contains name then return (.yes, cls :: visited)
        else
          q.searchBases (fun base visited => classHasMemberAt depth base name visited)
            (if info.hasMetaclass then .unknown else .no) info.bases (cls :: visited)
      | _ => return (.unknown, cls :: visited)

/-- Whether a class has a member. -/
def classHasMember (cls : TypeId) (name : String) : Query Ternary :=
  enough fun depth => Prod.fst <$> q.classHasMemberAt depth cls name []

/-- Whether a type has a member. -/
def hasMemberAt : Nat → TypeId → String → Query Ternary
  | 0, _, _ => Query.tooDeep
  | depth + 1, t, name => do
    let t ← q.resolved t
    match (← get).form t with
    | .ofModule info => return if info.members.contains name then .yes else .unknown
    | .ofClass _ => q.classHasMember t name
    | .object cls =>
      let cls ← q.resolvedRef cls
      q.classHasMember cls name
    | .union candidates =>
      let answers ← candidates.mapM fun c => hasMemberAt depth c name
      return Ternary.agreement answers
    | _ => return .unknown

/-- Whether a type has a member. -/
def hasMember (t : TypeId) (name : String) : Query Ternary := enough (q.hasMemberAt · t name)

/-- The instances of a builtin class. -/
def builtinInstance (name : String) : Query TypeId := do
  match ← q.member (← get).root name with
  | none => return .unknown
  | some cls => if ((← get).form cls).isClass then follow (TypeStore.instanceOfAt · (.direct cls)) else return .unknown

/-- The module bound by `import path`. -/
def importModule (path : String) : Query TypeId := do
  let t ← q.getType path
  if ((← get).form t).isModule then return t else unresolvedImport path

/-- The type bound by `from modulePath import name`. -/
def importFrom (modulePath name : String) : Query TypeId := do
  let path := modulePath ++ "." ++ name
  let t ← q.getType modulePath
  match ← namedModule modulePath t with
  | none => unresolvedImport path
  | some m =>
    match ← q.moduleMember m name path false with
    | none => unresolvedImport path
    | some t => if (← get).store.isUnknown t then unresolvedImport path else return t

/-- The type bound by `from . import name` inside a package. -/
def importSibling (package name : String) : Query TypeId := do
  let path := DottedName.child package name
  let t ← q.getType path
  if ((← get).form t).isModule then return t
  else if package = "" then unresolvedImport path
  else q.importFrom package name

/-! The queries of a table are made from its look-ups. -/

theorem searchBases_ofTable (search : TypeId → List TypeId → Query (Ternary × List TypeId)) (result : Ternary)
    (bases : List TypeRef) (visited : List TypeId) :
    ofTable.searchBases search result bases visited = Table.searchBases search result bases visited := by
  induction bases generalizing result visited with
  | nil => rfl
  | cons base rest ih =>
    unfold searchBases Table.searchBases
    simp only [ih]
    rfl

theorem classHasMemberAt_ofTable : ofTable.classHasMemberAt depth = Table.classHasMemberAt depth := by
  induction depth with
  | zero => rfl
  | succ depth ih =>
    funext cls name visited
    unfold classHasMemberAt
    simp only [ih, searchBases_ofTable]
    rfl

theorem classHasMember_ofTable : ofTable.classHasMember = Table.classHasMember := by
  funext cls name
  unfold classHasMember Table.classHasMember
  simp only [classHasMemberAt_ofTable]

theorem hasMemberAt_ofTable : ofTable.hasMemberAt depth = Table.hasMemberAt depth := by
  induction depth with
  | zero => rfl
  | succ depth ih =>
    funext id name
    unfold hasMemberAt Table.hasMemberAt
    simp only [ih, classHasMember_ofTable]
    rfl

theorem hasMember_ofTable : ofTable.hasMember = Query.hasMember := by
  funext id name
  unfold hasMember Query.hasMember
  simp only [hasMemberAt_ofTable]

end Lookups

/-! ## Relations between queries -/

/-- A relation between queries that the look-ups and what is made from them respect. -/
structure Query.Compatible (R : (α : Type) → Query α → Query α → Prop) : Prop where
  pure : ∀ {α : Type} (a : α), R α (Pure.pure a) (Pure.pure a)
  tooDeep : ∀ {α : Type}, R α tooDeep tooDeep
  bind : ∀ {α β : Type} {query query' : Query α} {f f' : α → Query β}, R α query query' →
    (∀ a, R β (f a) (f' a)) → R β (query >>= f) (query' >>= f')
  get_bind : ∀ {β : Type} {f f' : Table → Query β}, (∀ t, R β (f t) (f' t)) → R β (get >>= f) (get >>= f')
  canonical : ∀ t, R TypeId (follow (TypeStore.canonicalAt · t)) (follow (TypeStore.canonicalAt · t))
  unionOf : ∀ ts, R TypeId (follow (TypeStore.unionOfAt · ts)) (follow (TypeStore.unionOfAt · ts))
  instanceOf : ∀ cls, R TypeId (follow (TypeStore.instanceOfAt · cls)) (follow (TypeStore.instanceOfAt · cls))
  loadModule : ∀ path, R (Option TypeId) (Table.loadModule path) (Table.loadModule path)
  setModuleMember : ∀ m name ref, R Unit (Table.setModuleMember m name ref) (Table.setModuleMember m name ref)
  unresolvedImport : ∀ path, R TypeId (unresolvedImport path) (unresolvedImport path)
  typeStep : ∀ {resolved resolved' : TypeId → Query TypeId}
    {moduleMember moduleMember' : TypeId → String → String → Bool → Query (Option TypeId)}
    {member member' : TypeId → String → Query (Option TypeId)}, (∀ id, R TypeId (resolved id) (resolved' id)) →
    (∀ m name path load, R (Option TypeId) (moduleMember m name path load) (moduleMember' m name path load)) →
    (∀ id name, R (Option TypeId) (member id name) (member' id name)) → ∀ path,
    R TypeId (Table.typeStep resolved moduleMember member path) (Table.typeStep resolved' moduleMember' member' path)
  resolveLazyStep : ∀ {typeAt typeAt' : String → Query TypeId}, (∀ path, R TypeId (typeAt path) (typeAt' path)) → ∀ lazy,
    R TypeId (Table.resolveLazyStep typeAt lazy) (Table.resolveLazyStep typeAt' lazy)

namespace Query.Compatible

variable {R : (α : Type) → Query α → Query α → Prop} {α β : Type}

theorem typeStep_of_remember (hpure : ∀ {α : Type} (a : α), R α (Pure.pure a) (Pure.pure a))
    (hbind : ∀ {α β : Type} {query query' : Query α} {f f' : α → Query β}, R α query query' → (∀ a, R β (f a) (f' a)) →
      R β (query >>= f) (query' >>= f'))
    (hget : ∀ {β : Type} {f f' : Table → Query β}, (∀ t, R β (f t) (f' t)) → R β (get >>= f) (get >>= f'))
    (hremember : ∀ path t, let query : Query PUnit := modify fun table => { table with cache := table.cache.insert path t }
      R PUnit query query) {resolved resolved' : TypeId → Query TypeId}
    {moduleMember moduleMember' : TypeId → String → String → Bool → Query (Option TypeId)}
    {member member' : TypeId → String → Query (Option TypeId)} (hresolved : ∀ id, R TypeId (resolved id) (resolved' id))
    (hmoduleMember : ∀ m name path load, R (Option TypeId) (moduleMember m name path load) (moduleMember' m name path load))
    (hmember : ∀ id name, R (Option TypeId) (member id name) (member' id name)) (path : String) :
    R TypeId (Table.typeStep resolved moduleMember member path) (Table.typeStep resolved' moduleMember' member' path) := by
  have hwalk : ∀ {next next' : TypeId → String → String → Query (Option TypeId)},
      (∀ current segment path, R (Option TypeId) (next current segment path) (next' current segment path)) →
      ∀ segments walked current, R TypeId (Table.walk next segments walked current)
        (Table.walk next' segments walked current) := by
    intro next next' hnext segments
    induction segments with
    | nil => exact fun _ current => hpure current
    | cons segment rest ih =>
      intro walked current
      refine hget fun t => ?_
      cases t.cache.get? (DottedName.child walked segment) with
      | some id => exact ih _ id
      | none =>
        refine hbind (hnext _ _ _) fun found => ?_
        cases found with
        | none => exact hpure _
        | some id =>
          refine hget fun t' => ?_
          split
          · exact hpure _
          · exact hbind (hremember _ id) fun _ => ih _ id
  refine hget fun t => ?_
  split
  · exact hpure _
  · cases t.cache.get? path with
    | some id => exact hpure _
    | none =>
      grind

variable (h : Compatible R)

include h

theorem map {query query' : Query α} (f : α → β) (hquery : R α query query') : R β (f <$> query) (f <$> query') := by
  grind [map_eq_pure_bind, bind, pure]

theorem mapM {ι : Type} {f f' : ι → Query α} (xs : List ι) (hf : ∀ x, R α (f x) (f' x)) :
    R (List α) (xs.mapM f) (xs.mapM f') := by
  induction xs with
  | nil =>
    grind [pure]
  | cons x rest ih =>
    grind [bind, pure]

theorem enough {query query' : Nat → Query α} (hquery : ∀ depth, R α (query depth) (query' depth)) :
    R α (Query.enough query) (Query.enough query') :=
  h.get_bind fun t => hquery t.depthBound

theorem submodule (m : TypeId) (name path : String) (missing : Option TypeId) :
    let query : Query (Option TypeId) := do
      match ← Table.loadModule path with
      | some submodule =>
        Table.setModuleMember m name (.direct submodule)
        return some submodule
      | none => return missing
    R (Option TypeId) query query := by
  grind [bind, loadModule, setModuleMember, pure]

theorem namedModule (path : String) (id : TypeId) :
    R (Option TypeId) (namedModule path id) (namedModule path id) := by
  refine h.get_bind fun t => ?_
  grind [pure, loadModule]

end Query.Compatible

namespace Table

open Query

/-- The look-ups with `cycle` and those with `cycle'` are related, with the given depth left. -/
structure RelatedAt (R : (α : Type) → Query α → Query α → Prop) (cycle cycle' : Query TypeId) (depth : Nat) : Prop where
  typeAt : ∀ path, R TypeId (typeWith cycle depth path) (typeWith cycle' depth path)
  moduleMember : ∀ m name path load,
    R (Option TypeId) (moduleMemberWith cycle depth m name path load) (moduleMemberWith cycle' depth m name path load)
  resolveLazy : ∀ lazy, R TypeId (resolveLazyWith cycle depth lazy) (resolveLazyWith cycle' depth lazy)
  resolved : ∀ id, R TypeId (resolvedWith cycle depth id) (resolvedWith cycle' depth id)
  resolveUnion : ∀ union, R TypeId (resolveUnionWith cycle depth union) (resolveUnionWith cycle' depth union)
  classMember : ∀ cls name visited,
    R (Option TypeId × List TypeId) (classMemberWith cycle depth cls name visited)
      (classMemberWith cycle' depth cls name visited)
  member : ∀ id name, R (Option TypeId) (memberWith cycle depth id name) (memberWith cycle' depth id name)

namespace RelatedAt

variable {R : (α : Type) → Query α → Query α → Prop} {cycle cycle' : Query TypeId} {depth : Nat}
  (h : Compatible R) (ih : RelatedAt R cycle cycle' depth) (name : String) (id : TypeId)

include h ih

theorem moduleMemberStep (m : TypeId) (name path : String)
    (load : Bool) : R (Option TypeId) (Table.moduleMemberStep (resolvedWith cycle depth) m name path load)
      (Table.moduleMemberStep (resolvedWith cycle' depth) m name path load) := by
  refine h.get_bind fun t => ?_
  cases t.memberRef? m name with
  | some ref =>
    refine h.bind (ih.resolved _) fun id => h.get_bind fun t' => ?_
    cases t'.form id with
    | unknown => exact h.submodule m name path _
    | _ => exact h.pure _
  | none =>
    dsimp only
    split
    · exact h.submodule m name path _
    · exact h.pure _

theorem resolveLazyOr (hcycle : R TypeId cycle cycle') (lazy : TypeId) :
    R TypeId (Table.resolveLazyOr cycle (typeWith cycle depth) lazy)
    (Table.resolveLazyOr cycle' (typeWith cycle' depth) lazy) := by
  refine h.get_bind fun t => ?_
  split
  · grind [Compatible.resolveLazyStep, typeAt]
  · exact h.resolveLazyStep ih.typeAt lazy

theorem resolvedStep :
    R TypeId (Table.resolvedStep (resolveLazyWith cycle depth) (resolvedWith cycle depth) (resolveUnionWith cycle depth) id)
      (Table.resolvedStep (resolveLazyWith cycle' depth) (resolvedWith cycle' depth) (resolveUnionWith cycle' depth) id) := by
  refine h.get_bind fun t => ?_
  dsimp only
  cases t.store.form (t.store.derefLazy id) with
  | lazy _ _ =>
    grind [Compatible.bind, resolveLazy, Compatible.pure, resolved]
  | object cls =>
    dsimp only
    cases t.store.awaited? cls with
    | some lazy => exact h.bind (ih.resolveLazy _) fun _ => h.canonical _
    | none => exact h.canonical _
  | lazyUnion _ => exact ih.resolveUnion _
  | _ => exact h.pure _

theorem resolveUnionStep (union : TypeId) :
    R TypeId (Table.resolveUnionStep (resolvedWith cycle depth) union)
      (Table.resolveUnionStep (resolvedWith cycle' depth) union) := by
  refine h.get_bind fun t => ?_
  cases t.store.candidates? union with
  | none => exact h.pure _
  | some candidates => exact h.bind (h.mapM candidates ih.resolved) fun ts => h.unionOf ts

theorem firstInBases (bases : List TypeRef)
    (visited : List TypeId) : R (Option TypeId × List TypeId)
      (Table.firstInBases (resolvedWith cycle depth) (fun base => classMemberWith cycle depth base name) bases visited)
      (Table.firstInBases (resolvedWith cycle' depth)
        (fun base => classMemberWith cycle' depth base name) bases visited) := by
  induction bases generalizing visited with
  | nil => exact h.pure _
  | cons base rest ihrest =>
    refine h.get_bind fun t => h.bind (ih.resolved _) fun cls => h.bind (ih.classMember _ _ _) fun found => ?_
    grind [Compatible.pure]

theorem classMemberStep (cls : TypeId) (name : String)
    (visited : List TypeId) : R (Option TypeId × List TypeId)
      (Table.classMemberStep (resolvedWith cycle depth) (classMemberWith cycle depth) cls name visited)
      (Table.classMemberStep (resolvedWith cycle' depth) (classMemberWith cycle' depth) cls name visited) := by
  unfold Table.classMemberStep
  split
  · exact h.pure _
  · refine h.get_bind fun t => ?_
    cases t.form cls with
    | ofClass info =>
      dsimp only
      cases info.members.get? name with
      | some ref => exact h.bind (ih.resolved _) fun _ => h.pure _
      | none => exact ih.firstInBases h name info.bases _
    | _ => exact h.pure _

theorem memberOfEach (ids acc : List TypeId) :
    R (Option (List TypeId)) (Table.memberOfEach (fun c => memberWith cycle depth c name) ids acc)
      (Table.memberOfEach (fun c => memberWith cycle' depth c name) ids acc) := by
  induction ids generalizing acc with
  | nil => exact h.pure _
  | cons id rest ihrest =>
    refine h.bind (ih.member id name) fun found => ?_
    cases found with
    | none => exact h.pure _
    | some m => exact ihrest _

theorem memberStep (name : String) : R (Option TypeId)
      (Table.memberStep (resolvedWith cycle depth) (memberWith cycle depth) (classMemberWith cycle depth) id name)
      (Table.memberStep (resolvedWith cycle' depth) (memberWith cycle' depth) (classMemberWith cycle' depth) id name) := by
  refine h.bind (ih.resolved id) fun id => h.get_bind fun t => ?_
  cases t.form id with
  | ofModule info =>
    dsimp only
    cases info.members.get? name with
    | none => exact h.pure _
    | some ref => exact h.map _ (ih.resolved _)
  | ofClass _ => exact h.map _ (ih.classMember _ _ _)
  | object cls =>
    grind [Compatible.bind, resolved, Compatible.get_bind, Compatible.map, classMember, Compatible.pure]
  | union candidates =>
    refine h.bind (ih.memberOfEach h name candidates []) fun found => ?_
    cases found with
    | none => exact h.pure _
    | some members => exact h.map _ (h.unionOf members)
  | _ => exact h.pure _

end RelatedAt

theorem relatedAt {R : (α : Type) → Query α → Query α → Prop} (h : Compatible R) {cycle cycle' : Query TypeId}
    (hcycle : R TypeId cycle cycle') (depth : Nat) : RelatedAt R cycle cycle' depth := by
  induction depth with
  | zero =>
    exact ⟨fun _ => h.tooDeep, fun _ _ _ _ => h.tooDeep, fun _ => h.tooDeep, fun _ => h.tooDeep,
      fun _ => h.tooDeep, fun _ _ _ => h.tooDeep, fun _ _ => h.tooDeep⟩
  | succ depth ih =>
    exact ⟨h.typeStep ih.resolved ih.moduleMember ih.member, ih.moduleMemberStep h, ih.resolveLazyOr h hcycle,
      ih.resolvedStep h, ih.resolveUnionStep h, ih.classMemberStep h, ih.memberStep h⟩

end Table

namespace Lookups

open Query

/-- Each look-up of `q` is related to the same look-up of `q'`. -/
structure Related (R : (α : Type) → Query α → Query α → Prop) (q q' : Lookups) : Prop where
  getType : ∀ path, R TypeId (q.getType path) (q'.getType path)
  moduleMember : ∀ m name path load, R (Option TypeId) (q.moduleMember m name path load) (q'.moduleMember m name path load)
  resolveLazy : ∀ lazy, R TypeId (q.resolveLazy lazy) (q'.resolveLazy lazy)
  resolved : ∀ id, R TypeId (q.resolved id) (q'.resolved id)
  resolveUnion : ∀ union, R TypeId (q.resolveUnion union) (q'.resolveUnion union)
  member : ∀ id name, R (Option TypeId) (q.member id name) (q'.member id name)

variable {R : (α : Type) → Query α → Query α → Prop} {q q' : Lookups}

theorem withCycle_related (h : Compatible R) {cycle cycle' : Query TypeId}
    (hcycle : R TypeId cycle cycle') : Related R (withCycle cycle) (withCycle cycle') :=
  ⟨fun path => h.enough fun depth => (Table.relatedAt h hcycle depth).typeAt path,
    fun m name path load => h.enough fun depth => (Table.relatedAt h hcycle depth).moduleMember m name path load,
    fun lazy => h.enough fun depth => (Table.relatedAt h hcycle depth).resolveLazy lazy,
    fun id => h.enough fun depth => (Table.relatedAt h hcycle depth).resolved id,
    fun union => h.enough fun depth => (Table.relatedAt h hcycle depth).resolveUnion union,
    fun id name => h.enough fun depth => (Table.relatedAt h hcycle depth).member id name⟩

theorem ofTable_related (h : Compatible R) : Related R ofTable ofTable :=
  withCycle_unknown ▸ withCycle_related h (h.pure _)

namespace Related

variable (h : Compatible R) (hq : Related R q q')

include h hq

theorem resolvedRef (ref : TypeRef) :
    R TypeId (q.resolvedRef ref) (q'.resolvedRef ref) := h.get_bind fun _ => hq.resolved _

theorem searchBases {search search' : TypeId → List TypeId → Query (Ternary × List TypeId)}
    (hsearch : ∀ base visited, R (Ternary × List TypeId) (search base visited) (search' base visited)) (result : Ternary)
    (bases : List TypeRef) (visited : List TypeId) :
    R (Ternary × List TypeId) (q.searchBases search result bases visited) (q'.searchBases search' result bases visited) := by
  induction bases generalizing result visited with
  | nil => exact h.pure _
  | cons base rest ih =>
    refine h.bind (hq.resolvedRef h base) fun base => h.bind (hsearch base visited) fun found => ?_
    grind [Compatible.pure]

theorem classHasMember (cls : TypeId) (name : String) :
    R Ternary (q.classHasMember cls name) (q'.classHasMember cls name) := by
  have hdepth : ∀ depth cls visited, R (Ternary × List TypeId) (q.classHasMemberAt depth cls name visited)
      (q'.classHasMemberAt depth cls name visited) := by
    intro depth
    induction depth with
    | zero => exact fun _ _ => h.tooDeep
    | succ depth ih =>
      intro cls visited
      unfold classHasMemberAt
      split
      · exact h.pure _
      · refine h.get_bind fun t => ?_
        cases t.form cls with
        | ofClass info =>
          grind [Compatible.pure, searchBases]
        | _ => exact h.pure _
  exact h.enough fun depth => h.map _ (hdepth depth cls [])

theorem hasMember (id : TypeId) (name : String) :
    R Ternary (q.hasMember id name) (q'.hasMember id name) := by
  refine h.enough fun depth => ?_
  induction depth generalizing id with
  | zero => exact h.tooDeep
  | succ depth ih =>
    refine h.bind (hq.resolved id) fun id => h.get_bind fun t => ?_
    cases t.form id with
    | ofModule info => exact h.pure _
    | ofClass _ => exact hq.classHasMember h id name
    | object cls => grind [Compatible.bind, resolvedRef, classHasMember]
    | union candidates => exact h.bind (h.mapM candidates ih) fun _ => h.pure _
    | _ => exact h.pure _

theorem builtinInstance (name : String) :
    R TypeId (q.builtinInstance name) (q'.builtinInstance name) := by
  refine h.get_bind fun t => h.bind (hq.member t.root name) fun found => ?_
  cases found with
  | none => exact h.pure _
  | some cls =>
    refine h.get_bind fun t' => ?_
    split
    · exact h.instanceOf _
    · exact h.pure _

theorem importModule (path : String) :
    R TypeId (q.importModule path) (q'.importModule path) := by
  refine h.bind (hq.getType path) fun id => h.get_bind fun t => ?_
  split
  · exact h.pure _
  · exact h.unresolvedImport path

theorem importFrom (modulePath name : String) :
    R TypeId (q.importFrom modulePath name) (q'.importFrom modulePath name) := by
  refine h.bind (hq.getType modulePath) fun id => h.bind (h.namedModule modulePath id) fun found => ?_
  cases found with
  | none => exact h.unresolvedImport _
  | some m =>
    grind [Compatible.bind, moduleMember, Compatible.unresolvedImport, Compatible.get_bind, Compatible.pure]

theorem importSibling (package name : String) :
    R TypeId (q.importSibling package name) (q'.importSibling package name) := by
  refine h.bind (hq.getType _) fun id => h.get_bind fun t => ?_
  grind [Compatible.pure, Compatible.unresolvedImport, importFrom]

end Related

end Lookups

end PythonTypes
