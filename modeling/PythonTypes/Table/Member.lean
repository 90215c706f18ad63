import PythonTypes.Data.Ternary
import PythonTypes.Table.Lookup

/-!
# Whether a type has a member

A class has the members of its bases. The answer is open where some base is no class, or where a
metaclass may add members; a module never answers `no`, because a missing member may be a submodule
that is not loaded yet. The candidates of a union have to agree.
-/

set_option autoImplicit false

namespace PythonTypes.Table

/-- Folds the answers of bases, which share the classes seen so far: the first `yes` decides, and
`unknown` is not forgotten. -/
def searchBases (search : TypeId → List TypeId → Query (Ternary × List TypeId)) :
    Ternary → List TypeRef → List TypeId → Query (Ternary × List TypeId)
  | result, [], visited => return (result, visited)
  | result, base :: rest, visited => do
    let base ← Query.resolvedRef base
    match ← search base visited with
    | (.yes, visited) => return (.yes, visited)
    | (.unknown, visited) => searchBases search .unknown rest visited
    | (.no, visited) => searchBases search result rest visited

def classHasMemberAt : Nat → TypeId → String → List TypeId → Query (Ternary × List TypeId)
  | 0, _, _, _ => Query.tooDeep
  | depth + 1, cls, name, visited => do
    if visited.contains cls then return (.no, visited)
    else
      match (← get).form cls with
      | .ofClass info =>
        if info.members.contains name then return (.yes, cls :: visited)
        else
          searchBases (fun base visited => classHasMemberAt depth base name visited)
            (if info.hasMetaclass then .unknown else .no) info.bases (cls :: visited)
      | _ => return (.unknown, cls :: visited)

def classHasMember (cls : TypeId) (name : String) : Query Ternary :=
  Query.enough fun depth => Prod.fst <$> classHasMemberAt depth cls name []

def hasMemberAt : Nat → TypeId → String → Query Ternary
  | 0, _, _ => Query.tooDeep
  | depth + 1, t, name => do
    let t ← Query.resolved t
    match (← get).form t with
    | .ofModule info => return if info.members.contains name then .yes else .unknown
    | .ofClass _ => classHasMember t name
    | .object cls =>
      let cls ← Query.resolvedRef cls
      classHasMember cls name
    | .union candidates =>
      let answers ← candidates.mapM fun c => hasMemberAt depth c name
      return Ternary.agreement answers
    | _ => return .unknown

end PythonTypes.Table

namespace PythonTypes.Query

/-- Whether a type has a member, `unknown` where its members are not all known. -/
def hasMember (t : TypeId) (name : String) : Query Ternary := enough (Table.hasMemberAt · t name)

/-- The instances of a builtin class, unknown if there is no class of that name. -/
def builtinInstance (name : String) : Query TypeId := do
  match ← member (← get).root name with
  | none => return .unknown
  | some cls => if ((← get).form cls).isClass then follow (TypeStore.instanceOfAt · (.direct cls)) else return .unknown

end PythonTypes.Query

namespace PythonTypes.Table

def hasMember (t : TypeId) (name : String) : TableM Ternary := (Query.hasMember t name).answer .unknown

def builtinInstance (name : String) : TableM TypeId := (Query.builtinInstance name).answer .unknown

end PythonTypes.Table
