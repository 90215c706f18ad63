import PythonTypes.Table.Member

/-!
# Type checks

A check is a conjunction of conditions on one type. The candidates of a union have to agree, and a
type about which nothing is known settles no condition.
-/

set_option autoImplicit false

namespace PythonTypes

/-- A condition on a type. -/
inductive Condition where
  | typeOrInstance (path : String)
  /-- An instance of the class at this path or of a class below it. -/
  | instanceOf (path : String)
  /-- The type itself has this path. -/
  | path (path : String)
  | hasMember (name : String)
  | builtin (name : String)
  deriving DecidableEq, Repr

namespace Table

/-- The class of an instance, and any other type itself. -/
def classOrSelf (t : TypeId) : TableM TypeId := do
  match (← get).form t with
  | .object cls => resolvedRef cls
  | _ => return t

def pathMatches (table : Table) (t : TypeId) (path : String) : Ternary :=
  if table.store.isUnknown t then .unknown else .ofBool ((table.form t).path? == some path)

/-- Whether a class is the one at a path or lies below it. -/
def inheritsFromAt : Nat → TypeId → String → List TypeId → Query (Ternary × List TypeId)
  | 0, _, _, _ => Query.tooDeep
  | depth + 1, cls, path, visited => do
    let table ← get
    if table.store.isUnknown cls then return (.unknown, visited)
    else if visited.contains cls then return (.no, visited)
    else
      match table.form cls with
      | .ofClass info =>
        if info.path = some path then return (.yes, cls :: visited)
        else
          searchBases (fun base visited => inheritsFromAt depth base path visited) .no info.bases (cls :: visited)
      | _ => return (.unknown, cls :: visited)

/-- Whether a class is the one at a path or lies below it, as far as its bases are known. -/
def inheritsFrom (cls : TypeId) (path : String) : TableM Ternary :=
  (Query.enough fun depth => Prod.fst <$> inheritsFromAt depth cls path []).answer .unknown

def satisfies (t : TypeId) (condition : Condition) : TableM Ternary := do
  let table ← get
  if table.store.isUnknown t then return .unknown
  else
    match condition with
    | .typeOrInstance path =>
      let cls ← classOrSelf t
      return (← get).pathMatches cls path
    | .path path => return table.pathMatches t path
    | .instanceOf path =>
      match table.form t with
      | .object _ =>
        let cls ← classOrSelf t
        inheritsFrom cls path
      | _ => return .no
    | .hasMember name => hasMember t name
    | .builtin name =>
      match ← member table.root name with
      | none => return .no
      | some builtin =>
        let cls ← classOrSelf t
        if (← get).store.isUnknown cls then return .unknown else return .ofBool (cls == builtin)

/-- Whether a type that is no union satisfies all conditions; every one of them is asked. -/
def checkSingle (conditions : List Condition) (t : TypeId) : TableM Ternary := do
  let t ← resolved t
  conditions.foldlM (fun result condition => return result.and (← satisfies t condition)) .yes

def check (conditions : List Condition) (t : TypeId) : TableM Ternary := do
  let t ← resolved t
  match (← get).store.candidates? t with
  | none => checkSingle conditions t
  | some candidates =>
    let answers ← candidates.mapM (checkSingle conditions)
    return Ternary.agreement answers

end Table

end PythonTypes
