import PythonTypes.Table.Lookup

/-!
# Imports

What the import statements bind. An import that leads nowhere gives the unknown type that remembers
its path.
-/

set_option autoImplicit false

namespace PythonTypes.Query

/-- The unknown type that remembers a failed import. -/
def unresolvedImport (path : String) : Query TypeId := Table.onStore (TypeStore.unresolvedImport path)

/-- The module bound by `import path`; a path that leads to anything but a module is unresolved. -/
def importModule (path : String) : Query TypeId := do
  let t ← getType path
  if ((← get).form t).isModule then return t else unresolvedImport path

/-- The module at a path that leads to `t`, which may be something else. -/
def namedModule (path : String) (t : TypeId) : Query (Option TypeId) := do
  if ((← get).form t).isModule then return some t else Table.loadModule path

/-- The type bound by `from modulePath import name`. The path always names a module, even where
an attribute of the package hides it, and only the members of that module are visible. -/
def importFrom (modulePath name : String) : Query TypeId := do
  let path := modulePath ++ "." ++ name
  let t ← getType modulePath
  match ← namedModule modulePath t with
  | none => unresolvedImport path
  | some m =>
    match ← moduleMember m name path false with
    | none => unresolvedImport path
    | some t => if (← get).store.isUnknown t then unresolvedImport path else return t

/-- The type bound by `from . import name` inside a package: the submodule if there is one. -/
def importSibling (package name : String) : Query TypeId := do
  let path := DottedName.child package name
  let t ← getType path
  if ((← get).form t).isModule then return t
  else if package = "" then unresolvedImport path
  else importFrom package name

end PythonTypes.Query

namespace PythonTypes.Table

def importModule (path : String) : TableM TypeId := (Query.importModule path).answer .unknown

def importFrom (modulePath name : String) : TableM TypeId := (Query.importFrom modulePath name).answer .unknown

def importSibling (package name : String) : TableM TypeId := (Query.importSibling package name).answer .unknown

end PythonTypes.Table
