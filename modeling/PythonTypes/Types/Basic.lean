import PythonTypes.Data.OrderedMap

/-!
# Types of the analysed program

A type is known by its `TypeId`, an index into a store; `TypeForm` is what the store holds there.
Modules, classes, functions and lazy types have identity, whereas instances, unions and
unresolved imports are interned, so for those two ids are equal exactly when the types are.

A reference from one type to another is a `TypeRef`: either the type itself, or a slot that starts
out pointing at a lazy type and is redirected when that type is resolved.
-/

set_option autoImplicit false

namespace PythonTypes

/-- A type, by its index in the store. -/
structure TypeId where
  index : Nat
  deriving DecidableEq, Repr, Inhabited

/-- The type of everything about which nothing is known; every store holds it first. -/
def TypeId.unknown : TypeId := ⟨0⟩

/-- A redirectable reference, by its index in the store. -/
structure SlotId where
  index : Nat
  deriving DecidableEq, Repr, Inhabited

/-- A reference to a type that may still be pending. -/
inductive TypeRef where
  /-- The type itself. -/
  | direct (target : TypeId)
  /-- A slot, redirected once its lazy type is resolved. -/
  | slot (id : SlotId)
  deriving DecidableEq, Repr, Inhabited

/-- Where a symbol was defined. -/
inductive Origin where
  /-- In the analysed project. -/
  | project
  /-- In a library stub. -/
  | stub
  deriving DecidableEq, Repr, Inhabited

/-- A module and its members. -/
structure ModuleType where
  name : String
  path : String
  members : OrderedMap String TypeRef

/-- A class, its own members and its bases. -/
structure ClassType where
  name : String
  path : Option String
  members : OrderedMap String TypeRef
  bases : List TypeRef
  /-- Declared with a metaclass, whose members are not known. -/
  hasMetaclass : Bool
  origin : Origin

/-- A parameter of a function. -/
structure ParameterType where
  name : Option String
  /-- Instance of the annotated class. -/
  declared : Option TypeRef
  hasDefault : Bool
  isKeywordOnly : Bool
  isPositionalOnly : Bool
  isVariadic : Bool

/-- A function or method. -/
structure FunctionType where
  name : String
  path : Option String
  /-- Class that declares the function, for methods. -/
  owner : Option TypeId
  parameters : List ParameterType
  returns : TypeRef
  decorators : List TypeRef
  isAsync : Bool
  isInstanceMethod : Bool
  origin : Origin

/-- Whoever waits for a lazy type to be resolved. -/
inductive Watcher where
  /-- A slot, which is redirected to the target. -/
  | slot (id : SlotId)
  /-- A listener known by its tag, which is told the target. -/
  | listener (tag : String)
  deriving DecidableEq, Repr

/-- Whether a lazy type still waits, and for what. -/
inductive LazyState where
  /-- Not looked up yet; the watchers are in order of registration. -/
  | pending (watchers : List Watcher)
  /-- Looked up, with this result. -/
  | resolved (target : TypeId)
  deriving DecidableEq, Repr

/-- What a type is. -/
inductive TypeForm where
  | unknown
  /-- Unknown because an import failed. -/
  | unresolvedImport (path : String)
  | ofModule (m : ModuleType)
  | ofClass (c : ClassType)
  | ofFunction (f : FunctionType)
  /-- An instance of a class. -/
  | object (cls : TypeRef)
  /-- One of several types, none of them waiting to be looked up. -/
  | union (candidates : List TypeId)
  /-- One of several types, of which some waited to be looked up when the union was formed. -/
  | lazyUnion (candidates : List TypeId)
  /-- Stands for whatever an import path leads to. -/
  | lazy (path : String) (state : LazyState)

namespace TypeForm

instance : Inhabited TypeForm := ⟨unknown⟩

def kind : TypeForm → String
  | unknown => "unknown"
  | unresolvedImport _ => "unresolved_import"
  | ofModule _ => "module"
  | ofClass _ => "class"
  | ofFunction _ => "function"
  | object _ => "object"
  | union _ => "union"
  | lazyUnion _ => "lazy_union"
  | lazy _ _ => "lazy"

def name? : TypeForm → Option String
  | ofModule m => some m.name
  | ofClass c => some c.name
  | ofFunction f => some f.name
  | _ => none

def path? : TypeForm → Option String
  | ofModule m => some m.path
  | ofClass c => c.path
  | ofFunction f => f.path
  | _ => none

/-- Unknown, be it because of a failed import. -/
def isUnknown : TypeForm → Bool
  | unknown => true
  | unresolvedImport _ => true
  | _ => false

def isModule : TypeForm → Bool
  | ofModule _ => true
  | _ => false

def isClass : TypeForm → Bool
  | ofClass _ => true
  | _ => false

def isFunction : TypeForm → Bool
  | ofFunction _ => true
  | _ => false

end TypeForm

/-- Misuse of a lazy type or of a slot. -/
inductive TypeError where
  /-- A lazy type or slot was resolved a second time. -/
  | alreadyResolved (path : String)
  /-- A watcher came after the resolution. -/
  | watchedTooLate (path : String)
  | notLazy (type : TypeId)
  deriving DecidableEq, Repr

namespace TypeError

def message : TypeError → String
  | alreadyResolved path => "trying to resolve an already resolved lazy type `" ++ path ++ "`"
  | watchedTooLate path => "cannot register a consumer on the already resolved lazy type `" ++ path ++ "`"
  | notLazy type => "type #" ++ toString type.index ++ " is not a lazy type"

end TypeError

end PythonTypes
