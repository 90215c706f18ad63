import PythonTypes.Inference.TypeState
import PythonTypes.Tree.Basic

/-!
# Bodies and what is known about them

The types of a module are inferred body by body: first its top level, then each function. A `Body`
has variables that are tracked, those whose every binding happens by an assignment or a loop of that
same body, or as its parameter; all other names keep the types that they have in the `Knowledge`
about the module.
-/

set_option autoImplicit false

namespace PythonTypes

/-- What has been inferred about a module so far. -/
structure Knowledge where
  /-- The type that covers all values of a symbol. -/
  symbolTypes : OrderedMap SymbolId TypeId := ∅
  /-- The members that qualified expressions refer to. -/
  members : OrderedMap ExprId TypeId := ∅
  exprTypes : OrderedMap ExprId TypeId := ∅

/-- What has been inferred for one body. -/
structure BodyTypes where
  exprTypes : List (ExprId × TypeId) := []
  symbolTypes : List (SymbolId × TypeId) := []
  members : List (ExprId × TypeId) := []
  /-- Number of evaluations that it took. -/
  iterations : Nat := 0

namespace Knowledge

/-- The type of a symbol, unknown if nothing has been inferred. -/
def symbolType (k : Knowledge) (symbol : SymbolId) : TypeId := (k.symbolTypes.get? symbol).getD .unknown

/-- Adds what has been inferred for a body. -/
def merge (k : Knowledge) (b : BodyTypes) : Knowledge where
  symbolTypes := k.symbolTypes.insertAll b.symbolTypes
  members := k.members.insertAll b.members
  exprTypes := k.exprTypes.insertAll b.exprTypes

end Knowledge

/-- A function, or the top level of a module. -/
structure Body where
  name : String
  stmts : List Stmt
  /-- The variables whose types are inferred from the body. -/
  tracked : List SymbolId
  parameters : List (SymbolId × TypeId)

namespace Tree

def assignedTargets : Stmt → List Expr
  | .assign _ targets _ => targets
  | .annotated _ target _ _ => [target]
  | .compound _ target _ _ => [target]
  | .forStmt _ target _ _ _ => [target]
  | _ => []

/-- Whether a use of a variable is among the assignments to the given targets, or is its declaration
as a parameter. -/
def isTrackedUse (assigned : List ExprId) (u : Usage) : Bool :=
  match u.kind with
  | .parameter => true
  | .assignment | .compoundAssignment | .loopTarget => u.expr.any assigned.contains
  | _ => false

/-- Whether a symbol is a variable whose every binding is among the assignments to the given
targets. -/
def isTracked (t : Tree) (assigned : List ExprId) (symbol : SymbolId) : Bool :=
  let s := t.symbol symbol
  (s.kind == .ofVariable || s.kind == .ofParameter) && s.bindings.all (isTrackedUse assigned)

/-- The symbols among `candidates` that are tracked in a body. -/
def trackedSymbols (t : Tree) (candidates : List SymbolId) (body : List Stmt) : List SymbolId :=
  let assigned := ((Stmt.flatten body).flatMap assignedTargets).map Expr.id
  candidates.filter (t.isTracked assigned)

def moduleBody (t : Tree) (parameters : List (SymbolId × TypeId) := []) : Body where
  name := t.path
  stmts := t.body
  tracked := t.trackedSymbols t.moduleSymbols t.body
  parameters := parameters

def functionBody (t : Tree) (header : FunctionHeader) (body : List Stmt)
    (parameters : List (SymbolId × TypeId)) : Body where
  name := header.name
  stmts := body
  tracked := t.trackedSymbols header.locals body
  parameters := parameters

end Tree

end PythonTypes
