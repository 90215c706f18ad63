import PythonTypes.Table.Member
import PythonTypes.Tree.Expr

/-!
# Operations on values

What calling, iterating over and combining values of given types results in.
-/

set_option autoImplicit false

namespace PythonTypes.Table

def callResultAt : Nat → TypeId → Query TypeId
  | 0, _ => Query.tooDeep
  | depth + 1, callee => do
    let callee ← resolved callee
    match (← get).form callee with
    | .ofClass _ => onStore (TypeStore.instanceOf (.direct callee))
    | .ofFunction f => resolvedRef f.returns
    | .union candidates =>
      let results ← candidates.mapM (callResultAt depth)
      onStore (TypeStore.unionOf results)
    | _ => return .unknown

/-- The result of calling a value: an instance of a class, or what a function returns. -/
def callResult (callee : TypeId) : TableM TypeId :=
  (Query.enough (callResultAt · callee)).answer .unknown

/-- The result of calling a method of a value. -/
def methodResult (receiver : TypeId) (method : String) : TableM TypeId := do
  if (← get).store.isUnknown receiver then return .unknown
  match ← member receiver method with
  | none => return .unknown
  | some function => if ((← get).form function).isFunction then callResult function else return .unknown

/-- The result of a binary operator: a truth value, what the method of the left operand returns, or
either operand. -/
def binaryResult (op : BinaryOp) (left right : TypeId) : TableM TypeId :=
  if op.isComparison then builtinInstance "bool"
  else
    match op.method? with
    | some method => methodResult left method
    | none => onStore (TypeStore.union left right)

/-- The class of the elements of the instances of some builtin classes. -/
def elementClass? : String → Option String
  | "range" => some "int"
  | "str" => some "str"
  | "bytes" => some "int"
  | _ => none

/-- The type of the elements over which a loop runs. -/
def iterationType (iterable : TypeId) : TableM TypeId := do
  let iterable ← resolved iterable
  let t ← get
  match (t.store.classOf? iterable).bind fun cls => (t.form cls).path?.bind elementClass? with
  | some element => builtinInstance element
  | none => return .unknown

end PythonTypes.Table
