import PythonTypes.Inference.Body
import PythonTypes.Table.Operation

/-!
# Typing expressions

The type of an expression follows from the types that an `Environment` gives to names. Members are
looked up in the type of their qualifier; where that gives nothing, the environment may still know
the member. Everything that is evaluated can be recorded: the type of every expression, each after
its parts, and the member found for every qualified expression.
-/

set_option autoImplicit false

namespace PythonTypes

/-- Where names and qualified expressions get their types. -/
structure Environment where
  symbolType : SymbolId → TypeId
  /-- The member found earlier for a qualified expression. -/
  member? : ExprId → Option TypeId

/-- The environment of a module outside of any body. -/
def Knowledge.environment (k : Knowledge) : Environment where
  symbolType := k.symbolType
  member? := k.members.get?

/-- A name that was given a type, and the variable that it is if that variable is tracked. -/
structure Binding where
  target : ExprId
  symbol : Option SymbolId
  type : TypeId

/-- A table in use for typing, and the record of what was typed, oldest first. -/
structure Typing where
  table : Table
  recording : Bool := false
  types : Array (ExprId × TypeId) := #[]
  /-- What was found for each qualified expression. -/
  members : Array (ExprId × Option TypeId) := #[]
  bindings : Array Binding := #[]

abbrev TypingM (α : Type) := StateM Typing α

namespace Typing

def onTable {α : Type} (action : TableM α) : TypingM α := fun s =>
  let (a, table) := action s.table
  (a, { s with table })

def setRecording (recording : Bool) : TypingM Unit := modify fun s => { s with recording }

/-- The recorded types, which are forgotten. -/
def takeTypes : TypingM (List (ExprId × TypeId)) := modifyGet fun s => (s.types.toList, { s with types := #[] })

/-- The recorded members, which are forgotten. -/
def takeMembers : TypingM (List (ExprId × Option TypeId)) :=
  modifyGet fun s => (s.members.toList, { s with members := #[] })

/-- The recorded bindings, which are forgotten. -/
def takeBindings : TypingM (List Binding) := modifyGet fun s => (s.bindings.toList, { s with bindings := #[] })

def recordType (e : ExprId) (t : TypeId) : TypingM Unit :=
  modify fun s => if s.recording then { s with types := s.types.push (e, t) } else s

/-- Records the member found for a qualified expression. -/
def recordMember (e : ExprId) (found : Option TypeId) : TypingM Unit :=
  modify fun s => { s with members := s.members.push (e, found) }

def recordBinding (b : Binding) : TypingM Unit :=
  modify fun s => if s.recording then { s with bindings := s.bindings.push b } else s

/-- The member of a type, where nothing is known of the members of an unknown type. -/
def memberOf (qualifier : TypeId) (name : String) : TypingM (Option TypeId) := do
  if (← get).table.store.isUnknown qualifier then return none else onTable (Table.member qualifier name)

/-- The type of a member access for which `found` was found in the type of the qualifier. -/
def memberType (env : Environment) (e : ExprId) (found : Option TypeId) : TypingM TypeId := do
  recordMember e found
  match found.or (env.member? e) with
  | some member => onTable (Table.resolved member)
  | none => return .unknown

/-- Records the type that an action gives to an expression. -/
def recorded (e : ExprId) (action : TypingM TypeId) : TypingM TypeId := do
  let t ← action
  recordType e t
  return t

mutual

def typeOf (tree : Tree) (env : Environment) : Expr → TypingM TypeId
  | .name id _ => recorded id <| return ((tree.bindings.getD id.index none).map env.symbolType).getD .unknown
  | .qualified id qualifier name => recorded id do
    let qualifier ← typeOf tree env qualifier
    let found ← memberOf qualifier name
    memberType env id found
  | .call id callee arguments => recorded id do
    let callee ← typeOf tree env callee
    typeAll tree env arguments
    onTable (Table.callResult callee)
  | .string id _ => recorded id <| onTable (Table.builtinInstance "str")
  | .integer id _ => recorded id <| onTable (Table.builtinInstance "int")
  | .decimal id _ => recorded id <| onTable (Table.builtinInstance "float")
  | .boolean id _ => recorded id <| onTable (Table.builtinInstance "bool")
  | .noneLiteral id => recorded id <| onTable (Table.builtinInstance "NoneType")
  | .binary id op left right => recorded id do
    let left ← typeOf tree env left
    let right ← typeOf tree env right
    onTable (Table.binaryResult op left right)
  | .unary id op operand => recorded id do
    let operand ← typeOf tree env operand
    match op with
    | .not => onTable (Table.builtinInstance "bool")
    | _ => return operand
  | .conditional id test thenValue elseValue => recorded id do
    let _ ← typeOf tree env test
    let thenType ← typeOf tree env thenValue
    let elseType ← typeOf tree env elseValue
    onTable (Table.onStore (TypeStore.union thenType elseType))
  | .display id kind items => recorded id do
    typeAll tree env items
    onTable (Table.builtinInstance kind.className)
  | .subscript id value index => recorded id do
    let value ← typeOf tree env value
    let _ ← typeOf tree env index
    onTable (Table.methodResult value "__getitem__")
  | .await id operand => recorded id do
    let _ ← typeOf tree env operand
    return .unknown
  | .paren id inner => recorded id <| typeOf tree env inner

/-- Types expressions from left to right. -/
def typeAll (tree : Tree) (env : Environment) : List Expr → TypingM Unit
  | [] => return
  | e :: rest => do
    let _ ← typeOf tree env e
    typeAll tree env rest

end

def findMember (tree : Tree) (env : Environment) : Expr → TypingM (Option TypeId)
  | .qualified _ qualifier name => do
    let qualifier ← typeOf tree env qualifier
    memberOf qualifier name
  | _ => return none

end Typing

end PythonTypes
