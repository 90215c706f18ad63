import PythonTypes.Descriptor.Basic
import PythonTypes.Types.Space

/-!
# From descriptors to types

Converting a descriptor adds the type that it describes. Bases, annotations and decorators become
references to lazy types, so no other module is looked at. Only a descriptor of unknown kind has no
type, and an ambiguous one that offers such an alternative; as a member of a class or module it is
unknown instead. The scope goes along: a class is made the owner of what is converted next, and
behind its members the owner before it is put back.
-/

set_option autoImplicit false

namespace PythonTypes

/-- A descriptor of a kind that cannot be converted where it stands. -/
structure ConversionError where
  /-- What was asked for. -/
  expected : String
  found : DescriptorKind
  deriving DecidableEq, Repr, Inhabited

def ConversionError.message (e : ConversionError) : String :=
  "unsupported descriptor: expected " ++ e.expected ++ ", found " ++ e.found.text

/-- Where a descriptor stands. -/
structure ConversionScope where
  modulePath : String
  origin : Origin
  /-- The class whose members are converted. -/
  owner : Option TypeId := none

/-- Conversions in a scope that changes on the way. -/
abbrev ScopedM (α : Type) := StateT ConversionScope SpaceM α

/-- Conversions: what they add stays, also if they fail. -/
abbrev ConvertM (α : Type) := ExceptT ConversionError SpaceM α

namespace Descriptor

def convertibleKinds : String := "class, function, variable or ambiguous"

/-- The instances of an annotated class. -/
def convertHint : Option String → SpaceM (Option TypeId)
  | none => pure none
  | some hint => some <$> TypeSpace.lazyInstance hint

def convertParameter (p : ParameterDescriptor) : SpaceM ParameterType := do
  let declared ← convertHint p.hint
  return {
    name := p.name, declared := declared.map .direct, hasDefault := p.hasDefault, isKeywordOnly := p.isKeywordOnly,
    isPositionalOnly := p.isPositionalOnly, isVariadic := p.isVariadic }

def convertFunction (scope : ConversionScope) (f : FunctionDescriptor) : SpaceM TypeId := do
  let parameters ← f.parameters.mapM convertParameter
  let returns ← convertHint f.returns
  let decorators ← f.decorators.mapM TypeSpace.lazyRef
  TypeSpace.onStore <| TypeStore.alloc <| .ofFunction {
    name := f.name, path := f.path, owner := scope.owner, parameters,
    returns := .direct (returns.getD .unknown), decorators,
    isAsync := f.isAsync, isInstanceMethod := f.isInstanceMethod, origin := scope.origin }

/-- The type of a variable: an instance of its annotated class. -/
def convertVariable (v : VariableDescriptor) : SpaceM TypeId := do
  return (← convertHint v.hint).getD .unknown

def setClassMembers (cls : TypeId) (members : OrderedMap String TypeRef) : StoreM Unit := modify fun s =>
  match s.form cls with
  | .ofClass c => s.setForm cls (.ofClass { c with members })
  | _ => s

mutual

/-- Converts a descriptor in the scope at hand. -/
def convertHere : Descriptor → ExceptT ConversionError ScopedM TypeId
  | ofClass name path bases members _ metaclass => (do
    let bases ← bases.mapM (m := SpaceM) TypeSpace.lazyRef
    let enclosing ← get
    let cls ← TypeSpace.onStore <| TypeStore.alloc <| .ofClass {
      name, path, members := ∅, bases, hasMetaclass := metaclass.isSome, origin := enclosing.origin }
    set { enclosing with owner := some cls }
    let members ← convertMembersHere members ∅
    modify fun scope => { scope with owner := enclosing.owner }
    TypeSpace.onStore (setClassMembers cls members)
    return cls : ScopedM TypeId)
  | ofFunction f => (do convertFunction (← get) f : ScopedM TypeId)
  | ofVariable v => (convertVariable v : SpaceM TypeId)
  | ambiguous _ _ alternatives => do
    let types ← convertAllHere alternatives
    (TypeSpace.follow (TypeStore.unionOfAt · types) : SpaceM TypeId)
  | unknown _ _ => throw ⟨convertibleKinds, .unknown⟩

/-- Converts the members of a class in turn; of two with the same name the later one counts. -/
def convertMembersHere : List Descriptor → OrderedMap String TypeRef → ScopedM (OrderedMap String TypeRef)
  | [], acc => pure acc
  | d :: rest, acc => do
    let converted ← (convertHere d).run
    let ref ← TypeSpace.onStore (TypeStore.wrap (converted.toOption.getD .unknown))
    convertMembersHere rest (acc.insert d.name ref)

/-- Converts alternatives in turn, up to the first that fails. -/
def convertAllHere : List Descriptor → ExceptT ConversionError ScopedM (List TypeId)
  | [] => pure []
  | d :: rest => do
    let t ← convertHere d
    let ts ← convertAllHere rest
    return t :: ts

end

/-- Converts a descriptor that stands in the scope. -/
def convert (scope : ConversionScope) (d : Descriptor) : ConvertM TypeId := d.convertHere.run.run' scope

/-- Converts a descriptor that is expected to be of a kind; none is expected to be of unknown
kind. -/
def convertAs (kind : DescriptorKind) (scope : ConversionScope) (d : Descriptor) : ConvertM TypeId :=
  if kind = .unknown then throw ⟨convertibleKinds, d.kind⟩
  else if d.kind = kind then d.convert scope
  else throw ⟨kind.text, d.kind⟩

/-- The type of a descriptor, unknown if it has none. -/
def convertOrUnknown (d : Descriptor) : ScopedM TypeId := do
  let converted ← d.convertHere.run
  return converted.toOption.getD .unknown

end Descriptor

namespace ModuleDescriptor

/-- The type of a member of a module. A member that is defined at another path than that of the
module and its name is a reference to that path. -/
def convertMember (d : Descriptor) : ScopedM TypeId := do
  match d.path with
  | some path =>
    if path = DottedName.child (← get).modulePath d.name then d.convertOrUnknown else TypeSpace.lazyType path
  | none => d.convertOrUnknown

def convertEntries : List (String × Descriptor) → OrderedMap String TypeRef → ScopedM (OrderedMap String TypeRef)
  | [], acc => pure acc
  | (key, d) :: rest, acc => do
    let t ← convertMember d
    let ref ← TypeSpace.onStore (TypeStore.wrap t)
    convertEntries rest (acc.insert key ref)

/-- Converts the members of a module in the scope at hand. -/
def convertHere (m : ModuleDescriptor) : ScopedM (OrderedMap String TypeRef) := convertEntries m.members.entries ∅

/-- Converts the members of a module that stand in the scope. -/
def convertMembers (scope : ConversionScope) (m : ModuleDescriptor) :
    SpaceM (OrderedMap String TypeRef) := m.convertHere.run' scope

end ModuleDescriptor

end PythonTypes
