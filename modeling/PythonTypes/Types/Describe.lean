import PythonTypes.Types.Store

/-!
# Types as text

`describe` renders a type for messages: modules, classes and functions by their path, instances by
their class, unions by their candidates, and a lazy type by what it stands for. There is no end to
the text of a type that contains itself.
-/

set_option autoImplicit false

namespace PythonTypes.TypeStore

/-- The text of a type, if it goes at most `fuel` types deep. -/
def describeWithin (s : TypeStore) : Nat → TypeId → Option String
  | 0, _ => none
  | fuel + 1, t =>
    match s.form t with
    | .unknown => some "Unknown"
    | .unresolvedImport path => some ("UnresolvedImport(" ++ path ++ ")")
    | .ofModule m => some ("module " ++ m.path)
    | .ofClass c => some ("class " ++ c.path.getD c.name)
    | .ofFunction f => some ("function " ++ f.path.getD f.name)
    | .object cls =>
      match s.refPath? cls, s.isResolved cls with
      | some path, false => some ("instance of Lazy(" ++ path ++ ")")
      | _, _ => (describeWithin s fuel (s.target cls)).map ("instance of " ++ ·)
    | .union candidates | .lazyUnion candidates =>
      (candidates.mapM (describeWithin s fuel)).map fun texts => "Union[" ++ String.intercalate ", " texts ++ "]"
    | .lazy path (.pending _) => some ("Lazy(" ++ path ++ ")")
    | .lazy _ (.resolved target) => describeWithin s fuel target

/-- The text of a type, unless it has no end. -/
def describe (s : TypeStore) (t : TypeId) : Option String := s.describeWithin (s.size + 1) t

end PythonTypes.TypeStore
