import PythonTypes.Descriptor.Codec
import PythonTypes.Version

/-!
# Library stubs

A stub lists the symbols of a library module. A symbol may exist in some versions only; symbols that
exist in none of the active versions are invisible. Looking a module up adds its visible symbols one
after the other, so symbols that share a name become one ambiguous member. A module may be delivered
in several pieces.
-/

set_option autoImplicit false

namespace PythonTypes

/-- A symbol of a library module. -/
structure StubSymbol where
  /-- Versions in which the symbol exists; the empty set stands for all of them. -/
  validFor : VersionSet := .empty
  descriptor : Descriptor

namespace StubSymbol

def isVisible (active : VersionSet) (s : StubSymbol) : Bool := s.validFor.isEmpty || s.validFor.meets active

def fieldNames : List String := ["valid_for", "descriptor"]

def toJson (s : StubSymbol) : Json :=
  .object [("valid_for", s.validFor.toJson), ("descriptor", s.descriptor.toJson)]

def ofJson? (j : Json) : Option StubSymbol := do
  let fields ← j.record? fieldNames
  let validFor ← Json.defaulted fields "valid_for" VersionSet.empty VersionSet.ofJson?
  let descriptor ← Json.required fields "descriptor" Descriptor.ofJson?
  return { validFor, descriptor }

end StubSymbol

/-- A library module, or a piece of one. -/
structure StubModule where
  path : String
  symbols : List StubSymbol := []

namespace StubModule

def fieldNames : List String := ["fully_qualified_name", "symbols"]

def toJson (m : StubModule) : Json :=
  .object [("fully_qualified_name", .string m.path), ("symbols", .array (m.symbols.map StubSymbol.toJson))]

def ofJson? (j : Json) : Option StubModule := do
  let fields ← j.record? fieldNames
  let path ← Json.required fields "fully_qualified_name" Json.asString?
  let symbols ← Json.defaulted fields "symbols" [] (Json.listOf StubSymbol.ofJson?)
  return { path, symbols }

end StubModule

/-- Library modules delivered together. -/
structure StubBundle where
  modules : List StubModule

namespace StubBundle

def fieldNames : List String := ["modules"]

def toJson (b : StubBundle) : Json := .object [("modules", .array (b.modules.map StubModule.toJson))]

def ofJson? (j : Json) : Option StubBundle := do
  let fields ← j.record? fieldNames
  let modules ← Json.required fields "modules" (Json.listOf StubModule.ofJson?)
  return { modules }

def ofText? (text : String) : Option StubBundle := (Json.document? text).bind ofJson?

end StubBundle

/-- The library modules known to an analysis, and the active versions. -/
structure StubStore where
  modules : OrderedMap String (List StubSymbol) := ∅
  versions : VersionSet := .all

namespace StubStore

instance : Inhabited StubStore := ⟨{}⟩

/-- Adds a module; its symbols come after those that were delivered before. -/
def addModule (s : StubStore) (m : StubModule) : StubStore :=
  { s with modules := s.modules.insert m.path ((s.modules.get? m.path).getD [] ++ m.symbols) }

def addBundle (s : StubStore) (b : StubBundle) : StubStore := b.modules.foldl addModule s

def lookup (s : StubStore) (path : String) : Option ModuleDescriptor :=
  (s.modules.get? path).map fun symbols =>
    (ModuleDescriptor.ofPath path).addMembers
      ((symbols.filter (StubSymbol.isVisible s.versions)).map StubSymbol.descriptor)

def isPackage (s : StubStore) (path : String) : Bool := s.modules.keys.any (DottedName.isBelow path)

end StubStore

end PythonTypes
