import PythonTypes.Data.OrderedMap
import PythonTypes.Text.DottedName

/-!
# Descriptors

A descriptor summarises one symbol of a module without looking at any other module: what it refers
to is given by dotted path only. Several symbols that share a name are described by one ambiguous
descriptor, which never nests another one.
-/

set_option autoImplicit false

namespace PythonTypes

/-- What a descriptor describes. -/
inductive DescriptorKind where
  | ofClass
  | ofFunction
  | ofVariable
  | ambiguous
  | unknown
  deriving DecidableEq, Repr, Inhabited

namespace DescriptorKind

def all : List DescriptorKind := [ofClass, ofFunction, ofVariable, ambiguous, unknown]

def text : DescriptorKind → String
  | ofClass => "class"
  | ofFunction => "function"
  | ofVariable => "variable"
  | ambiguous => "ambiguous"
  | unknown => "unknown"

def ofText? (s : String) : Option DescriptorKind := all.find? fun kind => kind.text == s

end DescriptorKind

/-- A parameter of a function. -/
structure ParameterDescriptor where
  name : Option String := none
  /-- Path of the annotated class. -/
  hint : Option String := none
  hasDefault : Bool := false
  isKeywordOnly : Bool := false
  isPositionalOnly : Bool := false
  isVariadic : Bool := false
  deriving DecidableEq, Repr

/-- A function or method. -/
structure FunctionDescriptor where
  name : String
  path : Option String := none
  parameters : List ParameterDescriptor := []
  isAsync : Bool := false
  isInstanceMethod : Bool := false
  /-- Paths of the decorators. -/
  decorators : List String := []
  /-- Path of the annotated class of the result. -/
  returns : Option String := none
  deriving DecidableEq, Repr

/-- A variable, or a name imported from elsewhere. -/
structure VariableDescriptor where
  name : String
  path : Option String := none
  /-- Path of the annotated class. -/
  hint : Option String := none
  deriving DecidableEq, Repr

/-- The summary of one symbol. -/
inductive Descriptor where
  /-- A class with the paths of its bases, its members, and the path of its metaclass if it has
  one. -/
  | ofClass (name : String) (path : Option String) (bases : List String) (members : List Descriptor)
      (hasDecorators : Bool) (metaclass : Option String)
  | ofFunction (f : FunctionDescriptor)
  | ofVariable (v : VariableDescriptor)
  /-- Several symbols that share a name. -/
  | ambiguous (name : String) (path : Option String) (alternatives : List Descriptor)
  | unknown (name : String) (path : Option String)

namespace Descriptor

instance : Inhabited Descriptor := ⟨unknown "" none⟩

def kind : Descriptor → DescriptorKind
  | ofClass .. => .ofClass
  | ofFunction _ => .ofFunction
  | ofVariable _ => .ofVariable
  | ambiguous .. => .ambiguous
  | unknown .. => .unknown

def name : Descriptor → String
  | ofClass name .. => name
  | ofFunction f => f.name
  | ofVariable v => v.name
  | ambiguous name .. => name
  | unknown name _ => name

/-- The path at which the symbol is defined. -/
def path : Descriptor → Option String
  | ofClass _ path .. => path
  | ofFunction f => f.path
  | ofVariable v => v.path
  | ambiguous _ path _ => path
  | unknown _ path => path

def alternatives : Descriptor → List Descriptor
  | ambiguous _ _ alternatives => alternatives
  | d => [d]

/-- The ambiguous descriptor of several descriptors, which takes over the alternatives of ambiguous
ones. -/
def merge (name : String) (path : Option String) (ds : List Descriptor) : Descriptor :=
  ambiguous name path (ds.flatMap alternatives)

end Descriptor

/-- The members of one module, in order of declaration. -/
structure ModuleDescriptor where
  name : String
  path : String
  members : OrderedMap String Descriptor := ∅

namespace ModuleDescriptor

/-- The module at a path, without members. -/
def ofPath (path : String) : ModuleDescriptor := { name := DottedName.last path, path }

instance : Inhabited ModuleDescriptor := ⟨ofPath ""⟩

/-- Adds a member; with one of the same name it becomes ambiguous and moves to the end. -/
def addMember (m : ModuleDescriptor) (d : Descriptor) : ModuleDescriptor :=
  match m.members.get? d.name with
  | none => { m with members := m.members.insert d.name d }
  | some old =>
    let merged := Descriptor.merge d.name old.path [old, d]
    { m with members := (m.members.swapErase d.name).insert d.name merged }

def addMembers (m : ModuleDescriptor) (ds : List Descriptor) : ModuleDescriptor := ds.foldl addMember m

end ModuleDescriptor

end PythonTypes
