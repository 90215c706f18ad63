import PythonTypes.Table.Basic
import PythonTypes.Types.Describe

/-!
# Following paths and resolving lazy types

`typeAt` follows a dotted path from the root module, `resolveLazy` resolves a lazy type by following
its import path, `resolved` forces the lazy parts that stand between a type and its meaning, and
`member` finds a member of a type. Each may need the others. A lazy type whose path is being
followed already belongs to an import cycle; it counts as unknown there and stays pending. What a
lazy type is resolved to is logged if the table is `traced`, which no table is when it is created.

A function whose name ends in `Step` does one step with the recursive calls given to it; the
functions whose names end in `At` tie the knot, with the depth that is left as their first argument.
The queries of the namespace `Query` start with enough depth, and the functions of the same names in
`Table` give their answers.
-/

set_option autoImplicit false

namespace PythonTypes.Table

/-- Follows segments from `current`; `walked` is the path so far. Where a path leads is remembered
as far as it is known. -/
def walk (next : TypeId → String → String → Query (Option TypeId)) :
    List String → String → TypeId → Query TypeId
  | [], _, current => return current
  | segment :: rest, walked, current => do
    let path := DottedName.child walked segment
    match (← get).cache.get? path with
    | some t => walk next rest path t
    | none =>
      match ← next current segment path with
      | none => return .unknown
      | some t =>
        if (← get).store.isUnknown t then return .unknown
        else
          modify fun table => { table with cache := table.cache.insert path t }
          walk next rest path t

/-- The type at a dotted path, unknown if some segment leads nowhere. -/
def typeStep (resolved : TypeId → Query TypeId)
    (moduleMember : TypeId → String → String → Bool → Query (Option TypeId))
    (member : TypeId → String → Query (Option TypeId)) (path : String) : Query TypeId := do
  let table ← get
  if path = "" ∨ path = rootPath then return table.root
  else
    match table.cache.get? path with
    | some t => return t
    | none =>
      let next (current : TypeId) (segment path : String) : Query (Option TypeId) := do
        let parent ← resolved current
        match (← get).form parent with
        | .ofModule _ => moduleMember parent segment path true
        | .ofClass _ => member parent segment
        | _ => return none
      walk next (DottedName.segments path) "" table.root

/-- The member `name` of a module, whose path is `path`. The first member bound under a name stays,
but one that is unknown gives way to the submodule of that name. A name without member stands for a
submodule if `load` is set. -/
def moduleMemberStep (resolved : TypeId → Query TypeId) (m : TypeId) (name path : String)
    (load : Bool) : Query (Option TypeId) := do
  let table ← get
  match table.memberRef? m name with
  | some ref =>
    let t ← resolved (table.store.target ref)
    match (← get).form t with
    | .unknown =>
      match ← loadModule path with
      | some submodule =>
        setModuleMember m name (.direct submodule)
        return some submodule
      | none => return some t
    | _ => return some t
  | none =>
    if load then
      match ← loadModule path with
      | some submodule =>
        setModuleMember m name (.direct submodule)
        return some submodule
      | none => return none
    else return none

/-- Logs what a lazy type is about to be resolved to. The log itself is left out, but the text of a
type may have no end. -/
def traceTarget (target : TypeId) : Query Unit := do
  let table ← get
  if table.traced ∧ table.store.describe target = none then Query.tooDeep else return

/-- Resolves a lazy type by following its path. -/
def resolveLazyStep (typeAt : String → Query TypeId) (lazy : TypeId) : Query TypeId := do
  let table ← get
  match table.form lazy with
  | .lazy _ (.resolved target) => return table.store.derefLazy target
  | .lazy path (.pending _) =>
    match table.space.registry.enter? path with
    | none => return .unknown
    | some registry =>
      set { table with space := { table.space with registry } }
      let target ← typeAt path
      modify fun table =>
        { table with space := { table.space with registry := table.space.registry.leave path } }
      let store := (← get).store
      match store.lazyTarget? lazy with
      | some target => return store.derefLazy target
      | none =>
        traceTarget target
        let _ ← resolveWith lazy target
        return target
  | _ => return lazy

/-- Forces the lazy parts that stand between a type and its meaning. -/
def resolvedStep (resolveLazy resolved resolveUnion : TypeId → Query TypeId) (t : TypeId) : Query TypeId := do
  let store := (← get).store
  let t := store.derefLazy t
  match store.form t with
  | .lazy _ _ =>
    let target ← resolveLazy t
    if target = t then return target else resolved target
  | .object cls =>
    match store.awaited? cls with
    | some lazy =>
      let _ ← resolveLazy lazy
      Query.follow (TypeStore.canonicalAt · t)
    | none => Query.follow (TypeStore.canonicalAt · t)
  | .lazyUnion _ => resolveUnion t
  | _ => return t

def resolveUnionStep (resolved : TypeId → Query TypeId) (union : TypeId) : Query TypeId := do
  match (← get).store.candidates? union with
  | none => return union
  | some candidates =>
    let ts ← candidates.mapM resolved
    Query.follow (TypeStore.unionOfAt · ts)

/-- The first member that a list of bases gives, depth first; `visited` are the classes seen so
far. -/
def firstInBases (resolved : TypeId → Query TypeId)
    (classMember : TypeId → List TypeId → Query (Option TypeId × List TypeId)) :
    List TypeRef → List TypeId → Query (Option TypeId × List TypeId)
  | [], visited => return (none, visited)
  | base :: rest, visited => do
    let base ← resolved ((← get).store.target base)
    match ← classMember base visited with
    | (some t, visited) => return (some t, visited)
    | (none, visited) => firstInBases resolved classMember rest visited

/-- The member `name` of a class: its own, or the first one of its bases from left to right. -/
def classMemberStep (resolved : TypeId → Query TypeId)
    (classMember : TypeId → String → List TypeId → Query (Option TypeId × List TypeId))
    (cls : TypeId) (name : String) (visited : List TypeId) : Query (Option TypeId × List TypeId) := do
  if visited.contains cls then return (none, visited)
  else
    let table ← get
    match table.form cls with
    | .ofClass info =>
      match info.members.get? name with
      | some ref =>
        let t ← resolved (table.store.target ref)
        return (some t, cls :: visited)
      | none => firstInBases resolved (fun base => classMember base name) info.bases (cls :: visited)
    | _ => return (none, cls :: visited)

/-- The members of all candidates of a union, if each has one. -/
def memberOfEach (member : TypeId → Query (Option TypeId)) : List TypeId → List TypeId → Query (Option (List TypeId))
  | [], acc => return some acc.reverse
  | t :: rest, acc => do
    match ← member t with
    | none => return none
    | some m => memberOfEach member rest (m :: acc)

/-- The member `name` of a type, if there is one that can be determined. -/
def memberStep (resolved : TypeId → Query TypeId) (member : TypeId → String → Query (Option TypeId))
    (classMember : TypeId → String → List TypeId → Query (Option TypeId × List TypeId))
    (t : TypeId) (name : String) : Query (Option TypeId) := do
  let t ← resolved t
  let table ← get
  match table.form t with
  | .ofModule info =>
    match info.members.get? name with
    | none => return none
    | some ref => some <$> resolved (table.store.target ref)
  | .ofClass _ => Prod.fst <$> classMember t name []
  | .object cls =>
    let cls ← resolved (table.store.target cls)
    if ((← get).form cls).isClass then Prod.fst <$> classMember cls name [] else return none
  | .union candidates =>
    match ← memberOfEach (fun c => member c name) candidates [] with
    | none => return none
    | some members => some <$> Query.follow (TypeStore.unionOfAt · members)
  | _ => return none

mutual

def typeAt : Nat → String → Query TypeId
  | 0, _ => Query.tooDeep
  | depth + 1, path => typeStep (resolvedAt depth) (moduleMemberAt depth) (memberAt depth) path

def moduleMemberAt : Nat → TypeId → String → String → Bool → Query (Option TypeId)
  | 0, _, _, _, _ => Query.tooDeep
  | depth + 1, m, name, path, load => moduleMemberStep (resolvedAt depth) m name path load

def resolveLazyAt : Nat → TypeId → Query TypeId
  | 0, _ => Query.tooDeep
  | depth + 1, lazy => resolveLazyStep (typeAt depth) lazy

def resolvedAt : Nat → TypeId → Query TypeId
  | 0, _ => Query.tooDeep
  | depth + 1, t => resolvedStep (resolveLazyAt depth) (resolvedAt depth) (resolveUnionAt depth) t

/-- Forces every candidate of a union. -/
def resolveUnionAt : Nat → TypeId → Query TypeId
  | 0, _ => Query.tooDeep
  | depth + 1, union => resolveUnionStep (resolvedAt depth) union

def classMemberAt : Nat → TypeId → String → List TypeId → Query (Option TypeId × List TypeId)
  | 0, _, _, _ => Query.tooDeep
  | depth + 1, cls, name, visited => classMemberStep (resolvedAt depth) (classMemberAt depth) cls name visited

def memberAt : Nat → TypeId → String → Query (Option TypeId)
  | 0, _, _ => Query.tooDeep
  | depth + 1, t, name => memberStep (resolvedAt depth) (memberAt depth) (classMemberAt depth) t name

end

end PythonTypes.Table

namespace PythonTypes.Query

/-- The type at a dotted path, unknown if some segment leads nowhere. -/
def getType (path : String) : Query TypeId := enough (Table.typeAt · path)

/-- The member `name` of a module, whose path is `path`; a name without member stands for a
submodule if `load` is set. -/
def moduleMember (m : TypeId) (name path : String) (load : Bool) : Query (Option TypeId) :=
  enough (Table.moduleMemberAt · m name path load)

/-- Resolves a lazy type by following its path; any other type stays. -/
def resolveLazy (lazy : TypeId) : Query TypeId := enough (Table.resolveLazyAt · lazy)

/-- Forces the lazy parts that stand between a type and its meaning. -/
def resolved (t : TypeId) : Query TypeId := enough (Table.resolvedAt · t)

/-- Forces every candidate of a union; any other type stays. -/
def resolveUnion (union : TypeId) : Query TypeId := enough (Table.resolveUnionAt · union)

/-- What a reference refers to, forced. -/
def resolvedRef (ref : TypeRef) : Query TypeId := do resolved ((← get).store.target ref)

/-- The member `name` of a type, if there is one that can be determined. -/
def member (t : TypeId) (name : String) : Query (Option TypeId) := enough (Table.memberAt · t name)

end PythonTypes.Query

namespace PythonTypes.Table

def getType (path : String) : TableM TypeId := (Query.getType path).answer .unknown

def resolveLazy (lazy : TypeId) : TableM TypeId := (Query.resolveLazy lazy).answer .unknown

def resolved (t : TypeId) : TableM TypeId := (Query.resolved t).answer .unknown

def resolveUnion (union : TypeId) : TableM TypeId := (Query.resolveUnion union).answer .unknown

def resolvedRef (ref : TypeRef) : TableM TypeId := (Query.resolvedRef ref).answer .unknown

def member (t : TypeId) (name : String) : TableM (Option TypeId) := (Query.member t name).answer none

end PythonTypes.Table
