import PythonTypes.Stub.Basic

/-!
# Stubs of the standard library

The builtin names, which are referred to without a module, and the parts of `typing`, `os` and
`os.path` that every analysis knows. In this table an empty text stands for a missing annotation.
-/

set_option autoImplicit false

namespace PythonTypes.StubBundle

namespace Standard

def hint? (text : String) : Option String := if text = "" then none else some text

def parameter (p : String × String) : ParameterDescriptor := { name := some p.1, hint := hint? p.2 }

/-- A method of the class at a path, with the parameters after `self` and the annotated result. -/
def method (name : String) (parameters : List (String × String)) (returns : String) (owner : String) : Descriptor :=
  .ofFunction {
    name, path := some (owner ++ "." ++ name), parameters := (("self", "") :: parameters).map parameter,
    isInstanceMethod := true, returns := hint? returns }

/-- An annotated variable of the class at a path. -/
def field (name hint : String) (owner : String) : Descriptor :=
  .ofVariable { name, path := some (owner ++ "." ++ name), hint := hint? hint }

def cls (name : String) (bases : List String) (members : List (String → Descriptor)) (scope : String) : StubSymbol :=
  let path := DottedName.child scope name
  { descriptor := .ofClass name (some path) bases (members.map (· path)) false none }

def function (name : String) (parameters : List (String × String)) (returns : String) (scope : String) : StubSymbol :=
  { descriptor := .ofFunction {
      name, path := some (DottedName.child scope name), parameters := parameters.map parameter,
      returns := hint? returns } }

def variableOf (name hint : String) (scope : String) : StubSymbol :=
  { descriptor := .ofVariable { name, path := some (DottedName.child scope name), hint := hint? hint } }

/-- A symbol that exists in some versions only. -/
def since (versions : List Version) (symbol : String → StubSymbol) (scope : String) : StubSymbol :=
  { symbol scope with validFor := .ofList versions }

def builtins : List (String → StubSymbol) := [
  cls "object" [] [
    method "__init__" [] "NoneType",
    method "__str__" [] "str",
    method "__repr__" [] "str",
    method "__eq__" [("other", "")] "bool",
    method "__hash__" [] "int"],
  cls "str" ["object"] [
    method "upper" [] "str",
    method "lower" [] "str",
    method "capitalize" [] "str",
    method "strip" [] "str",
    method "lstrip" [] "str",
    method "rstrip" [] "str",
    method "title" [] "str",
    method "casefold" [] "str",
    method "format" [] "str",
    method "replace" [("old", "str"), ("new", "str")] "str",
    method "join" [("iterable", "")] "str",
    method "split" [("sep", "")] "list",
    method "startswith" [("prefix", "")] "bool",
    method "endswith" [("suffix", "")] "bool",
    method "find" [("sub", "str")] "int",
    method "isdigit" [] "bool",
    method "encode" [] "bytes",
    method "__len__" [] "int",
    method "__add__" [("other", "str")] "str"],
  cls "bytes" ["object"] [
    method "decode" [] "str",
    method "hex" [] "str"],
  cls "int" ["object"] [
    method "bit_length" [] "int",
    method "__add__" [("other", "int")] "int",
    method "__sub__" [("other", "int")] "int",
    method "__mul__" [("other", "int")] "int",
    method "__truediv__" [("other", "int")] "float"],
  cls "float" ["object"] [
    method "is_integer" [] "bool",
    method "hex" [] "str",
    method "__add__" [("other", "float")] "float"],
  cls "bool" ["int"] [],
  cls "NoneType" ["object"] [],
  cls "list" ["object"] [
    method "append" [("item", "")] "NoneType",
    method "extend" [("iterable", "")] "NoneType",
    method "pop" [("index", "")] "",
    method "copy" [] "list",
    method "index" [("value", "")] "int",
    method "count" [("value", "")] "int",
    method "sort" [] "NoneType",
    method "__len__" [] "int"],
  cls "dict" ["object"] [
    method "keys" [] "",
    method "values" [] "",
    method "items" [] "",
    method "get" [("key", "")] "",
    method "copy" [] "dict",
    method "pop" [("key", "")] "",
    method "__len__" [] "int"],
  cls "tuple" ["object"] [
    method "count" [("value", "")] "int",
    method "index" [("value", "")] "int"],
  cls "set" ["object"] [
    method "add" [("item", "")] "NoneType",
    method "copy" [] "set",
    method "union" [("other", "")] "set"],
  cls "range" ["object"] [
    field "start" "int",
    field "stop" "int",
    field "step" "int"],
  cls "BaseException" ["object"] [
    field "args" "tuple",
    method "with_traceback" [("tb", "")] ""],
  cls "Exception" ["BaseException"] [],
  cls "ValueError" ["Exception"] [],
  cls "TypeError" ["Exception"] [],
  cls "KeyError" ["Exception"] [],
  cls "super" ["object"] [],
  function "len" [("obj", "")] "int",
  function "print" [("value", "")] "NoneType",
  function "repr" [("obj", "")] "str",
  function "isinstance" [("obj", ""), ("class_or_tuple", "")] "bool",
  function "input" [("prompt", "")] "str",
  function "abs" [("x", "")] "",
  function "open" [("file", "str")] "",
  since [.v310, .v311, .v312, .v313] (function "aiter" [("iterable", "")] "")]

def typing : List (String → StubSymbol) := [
  cls "Generator" ["object"] [
    method "send" [("value", "")] "",
    method "close" [] "NoneType"],
  cls "Iterator" ["object"] [
    method "__next__" [] ""],
  cls "TypeVar" ["object"] [
    field "__name__" "str"],
  variableOf "Any" "",
  function "cast" [("typ", ""), ("val", "")] "",
  function "overload" [("func", "")] "",
  since [.v312, .v313] (function "override" [("method", "")] "")]

def os : List (String → StubSymbol) := [
  function "getcwd" [] "str",
  function "listdir" [("path", "str")] "list",
  variableOf "sep" "str",
  variableOf "name" "str",
  variableOf "path" ""]

def osPath : List (String → StubSymbol) := [
  function "join" [("a", "str"), ("paths", "")] "str",
  function "exists" [("path", "str")] "bool",
  function "basename" [("p", "str")] "str",
  variableOf "sep" "str"]

end Standard

/-- The stubs that every analysis starts from. -/
def standard : StubBundle where
  modules := [
    { path := "builtins", symbols := Standard.builtins.map (· "") },
    { path := "typing", symbols := Standard.typing.map (· "typing") },
    { path := "os", symbols := Standard.os.map (· "os") },
    { path := "os.path", symbols := Standard.osPath.map (· "os.path") }]

end PythonTypes.StubBundle
