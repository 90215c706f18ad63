import PythonTypes.Descriptor.Basic
import PythonTypes.Text.Json.Reader
import PythonTypes.Text.Json.Record

/-!
# Descriptors in JSON

A descriptor is a record whose `kind` says which one; the other fields have the defaults of
the structures unless stated otherwise. Everything in it has to be sound, also in fields that a
record does not have. The kind is given by its word; a descriptor inside another one may also give
the position of its kind in `DescriptorKind.all`. Writing gives every field.
-/

set_option autoImplicit false

namespace PythonTypes

namespace ParameterDescriptor

def fieldNames : List String :=
  ["name", "annotated_type", "has_default_value", "is_keyword_only", "is_positional_only", "is_variadic"]

def toJson (p : ParameterDescriptor) : Json :=
  .object [
    ("name", .ofOption .string p.name),
    ("annotated_type", .ofOption .string p.hint),
    ("has_default_value", .bool p.hasDefault),
    ("is_keyword_only", .bool p.isKeywordOnly),
    ("is_positional_only", .bool p.isPositionalOnly),
    ("is_variadic", .bool p.isVariadic)]

def ofJson? (j : Json) : Option ParameterDescriptor := do
  let fields ← j.record? fieldNames
  let name ← Json.optional fields "name" Json.asString?
  let hint ← Json.optional fields "annotated_type" Json.asString?
  let hasDefault ← Json.defaulted fields "has_default_value" false Json.asBool?
  let isKeywordOnly ← Json.defaulted fields "is_keyword_only" false Json.asBool?
  let isPositionalOnly ← Json.defaulted fields "is_positional_only" false Json.asBool?
  let isVariadic ← Json.defaulted fields "is_variadic" false Json.asBool?
  return { name, hint, hasDefault, isKeywordOnly, isPositionalOnly, isVariadic }

end ParameterDescriptor

namespace FunctionDescriptor

def fieldNames : List String :=
  ["name", "fully_qualified_name", "parameters", "is_asynchronous", "is_instance_method",
    "decorators", "annotated_return_type"]

def toFields (f : FunctionDescriptor) : List (String × Json) :=
  [("name", .string f.name),
    ("fully_qualified_name", .ofOption .string f.path),
    ("parameters", .array (f.parameters.map ParameterDescriptor.toJson)),
    ("is_asynchronous", .bool f.isAsync),
    ("is_instance_method", .bool f.isInstanceMethod),
    ("decorators", .array (f.decorators.map .string)),
    ("annotated_return_type", .ofOption .string f.returns)]

/-- Reads a function, of which only the name is required. -/
def ofJson? (j : Json) : Option FunctionDescriptor := do
  let fields ← j.record? fieldNames
  let name ← Json.required fields "name" Json.asString?
  let path ← Json.optional fields "fully_qualified_name" Json.asString?
  let parameters ← Json.defaulted fields "parameters" [] (Json.listOf ParameterDescriptor.ofJson?)
  let isAsync ← Json.defaulted fields "is_asynchronous" false Json.asBool?
  let isInstanceMethod ← Json.defaulted fields "is_instance_method" false Json.asBool?
  let decorators ← Json.defaulted fields "decorators" [] (Json.listOf Json.asString?)
  let returns ← Json.optional fields "annotated_return_type" Json.asString?
  return { name, path, parameters, isAsync, isInstanceMethod, decorators, returns }

end FunctionDescriptor

namespace VariableDescriptor

def fieldNames : List String := ["name", "fully_qualified_name", "annotated_type"]

def toFields (v : VariableDescriptor) : List (String × Json) :=
  [("name", .string v.name),
    ("fully_qualified_name", .ofOption .string v.path),
    ("annotated_type", .ofOption .string v.hint)]

/-- Reads a variable, of which only the name is required. -/
def ofJson? (j : Json) : Option VariableDescriptor := do
  let fields ← j.record? fieldNames
  let name ← Json.required fields "name" Json.asString?
  let path ← Json.optional fields "fully_qualified_name" Json.asString?
  let hint ← Json.optional fields "annotated_type" Json.asString?
  return { name, path, hint }

end VariableDescriptor

namespace Descriptor

def classFieldNames : List String :=
  ["name", "fully_qualified_name", "superclasses", "members", "has_decorators", "metaclass_fqn"]

def ambiguousFieldNames : List String := ["name", "fully_qualified_name", "alternatives"]

def unknownFieldNames : List String := ["name", "fully_qualified_name"]

mutual

/-- Writes a descriptor with all its fields, after the word for its kind. -/
def toJson : Descriptor → Json
  | ofClass name path bases members hasDecorators metaclass =>
    .object [
      ("kind", .string "class"),
      ("name", .string name),
      ("fully_qualified_name", .ofOption .string path),
      ("superclasses", .array (bases.map .string)),
      ("members", .array (toJsonList members)),
      ("has_decorators", .bool hasDecorators),
      ("metaclass_fqn", .ofOption .string metaclass)]
  | ofFunction f => .object (("kind", .string "function") :: f.toFields)
  | ofVariable v => .object (("kind", .string "variable") :: v.toFields)
  | ambiguous name path alternatives =>
    .object [
      ("kind", .string "ambiguous"),
      ("name", .string name),
      ("fully_qualified_name", .ofOption .string path),
      ("alternatives", .array (toJsonList alternatives))]
  | unknown name path =>
    .object [("kind", .string "unknown"), ("name", .string name), ("fully_qualified_name", .ofOption .string path)]

def toJsonList : List Descriptor → List Json
  | [] => []
  | d :: rest => toJson d :: toJsonList rest

end

/-- Reads the kind of a descriptor, which may be given by position if the descriptor is inside
another one. -/
def kindOfJson? (inner : Bool) : Json → Option DescriptorKind
  | .string s => DescriptorKind.ofText? s
  | j => if inner then j.asNat?.bind fun i => DescriptorKind.all[i]? else none

/-- The kind of a tagged record and the record without it. An array starts with its kind. -/
def tagged? (inner : Bool) : Json → Option (DescriptorKind × Json)
  | .object fields =>
    match fields.filter fun f => f.1 == "kind" with
    | [(_, kind)] => (kindOfJson? inner kind).map (·, .object (fields.filter fun f => f.1 != "kind"))
    | _ => none
  | .array (kind :: items) => (kindOfJson? inner kind).map (·, .array items)
  | _ => none

/-- Reads a class, with the reader of its members given. -/
def classOfJson? (member : Json → Option Descriptor) (j : Json) : Option Descriptor := do
  let fields ← j.record? classFieldNames
  let name ← Json.required fields "name" Json.asString?
  let path ← Json.optional fields "fully_qualified_name" Json.asString?
  let bases ← Json.defaulted fields "superclasses" [] (Json.listOf Json.asString?)
  let members ← Json.defaulted fields "members" [] (Json.listOf member)
  let hasDecorators ← Json.defaulted fields "has_decorators" false Json.asBool?
  let metaclass ← Json.optional fields "metaclass_fqn" Json.asString?
  return .ofClass name path bases members hasDecorators metaclass

/-- Reads an ambiguous descriptor, with the reader of its alternatives given. -/
def ambiguousOfJson? (alternative : Json → Option Descriptor) (j : Json) : Option Descriptor := do
  let fields ← j.record? ambiguousFieldNames
  let name ← Json.required fields "name" Json.asString?
  let path ← Json.optional fields "fully_qualified_name" Json.asString?
  let alternatives ← Json.required fields "alternatives" (Json.listOf alternative)
  return .ambiguous name path alternatives

def unknownOfJson? (j : Json) : Option Descriptor := do
  let fields ← j.record? unknownFieldNames
  let name ← Json.required fields "name" Json.asString?
  let path ← Json.optional fields "fully_qualified_name" Json.asString?
  return .unknown name path

/-- Reads a descriptor that nests at most `depth` deep. -/
def ofJsonWithin? : Nat → Bool → Json → Option Descriptor
  | 0, _, _ => none
  | depth + 1, inner, j =>
    match tagged? inner j with
    | none => none
    | some (.ofClass, body) => classOfJson? (ofJsonWithin? depth true) body
    | some (.ofFunction, body) => (FunctionDescriptor.ofJson? body).map .ofFunction
    | some (.ofVariable, body) => (VariableDescriptor.ofJson? body).map .ofVariable
    | some (.ambiguous, body) => ambiguousOfJson? (ofJsonWithin? depth true) body
    | some (.unknown, body) => unknownOfJson? body

def ofJson? (j : Json) : Option Descriptor := if j.isSound then ofJsonWithin? j.depth false j else none

def ofText? (text : String) : Option Descriptor := (Json.document? text).bind ofJson?

end Descriptor

namespace ModuleDescriptor

def fieldNames : List String := ["name", "fully_qualified_name", "members"]

def toJson (m : ModuleDescriptor) : Json :=
  .object [
    ("name", .string m.name),
    ("fully_qualified_name", .string m.path),
    ("members", .object (m.members.entries.map fun (key, d) => (key, d.toJson)))]

/-- Reads the members of a module; of two with the same key the later one counts. -/
def membersOfJson? (j : Json) : Option (OrderedMap String Descriptor) := do
  let fields ← j.asObject?
  let members ← fields.mapM fun (key, value) => (Descriptor.ofJson? value).map (key, ·)
  return .ofList members

def ofJson? (j : Json) : Option ModuleDescriptor := do
  let fields ← j.record? fieldNames
  let name ← Json.required fields "name" Json.asString?
  let path ← Json.required fields "fully_qualified_name" Json.asString?
  let members ← Json.defaulted fields "members" ∅ membersOfJson?
  return { name, path, members }

def ofText? (text : String) : Option ModuleDescriptor := (Json.document? text).bind ofJson?

end ModuleDescriptor

end PythonTypes
