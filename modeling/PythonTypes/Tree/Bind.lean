import PythonTypes.Tree.Builder
import PythonTypes.Tree.Source

/-!
# Binding a module

`Source.Module.bind` builds the bound tree of a module as it is written: parts come before the
whole, from left to right, and decorators, bases and the hints of parameters before the body of
a definition.
-/

set_option autoImplicit false

namespace PythonTypes

namespace Builder

mutual

def bindExpr : Source.Expr → BuildM Expr
  | .read name => read name
  | .target name => target name
  | .qualified qualifier member => do
    let qualifier ← bindExpr qualifier
    addExpr fun id => .qualified id qualifier member
  | .call callee arguments => do
    let callee ← bindExpr callee
    let arguments ← bindExprs arguments
    addExpr fun id => .call id callee arguments
  | .methodCall receiver method arguments => do
    let receiver ← bindExpr receiver
    let arguments ← bindExprs arguments
    let callee ← addExpr fun id => .qualified id receiver method
    addExpr fun id => .call id callee arguments
  | .string value => addExpr fun id => .string id value
  | .integer value => addExpr fun id => .integer id value
  | .decimal literal => addExpr fun id => .decimal id literal
  | .boolean value => addExpr fun id => .boolean id value
  | .noneLiteral => addExpr fun id => .noneLiteral id
  | .binary op left right => do
    let left ← bindExpr left
    let right ← bindExpr right
    addExpr fun id => .binary id op left right
  | .unary op operand => do
    let operand ← bindExpr operand
    addExpr fun id => .unary id op operand
  | .conditional test thenValue elseValue => do
    let test ← bindExpr test
    let thenValue ← bindExpr thenValue
    let elseValue ← bindExpr elseValue
    addExpr fun id => .conditional id test thenValue elseValue
  | .display kind items => do
    let items ← bindExprs items
    addExpr fun id => .display id kind items
  | .subscript value index => do
    let value ← bindExpr value
    let index ← bindExpr index
    addExpr fun id => .subscript id value index
  | .await operand => do
    let operand ← bindExpr operand
    addExpr fun id => .await id operand
  | .paren inner => do
    let inner ← bindExpr inner
    addExpr fun id => .paren id inner

def bindExprs : List Source.Expr → BuildM (List Expr)
  | [] => return []
  | e :: rest => do
    let e ← bindExpr e
    let rest ← bindExprs rest
    return e :: rest

end

/-- Builds the parameters of the function under construction. -/
def bindParameters (ps : List Source.Parameter) : BuildM (List Parameter) := ps.mapM fun p => do
  let hint ← p.hint.mapM bindExpr
  let default ← p.default.mapM bindExpr
  parameter p.name hint default

mutual

def bindStmt : Source.Stmt → BuildM Stmt
  | .assign targets value => do
    let targets ← bindExprs targets
    let value ← bindExpr value
    assign targets value
  | .annotated target hint value => do
    let target ← bindExpr target
    let hint ← bindExpr hint
    let value ← value.mapM bindExpr
    annotated target hint value
  | .compound target op value => do
    let target ← bindExpr target
    let value ← bindExpr value
    compound target op value
  | .exprStmt e => do
    let e ← bindExpr e
    addStmt fun id => .exprStmt id e
  | .returnStmt value => do
    let value ← value.mapM bindExpr
    addStmt fun id => .returnStmt id value
  | .raiseStmt exception => do
    let exception ← exception.mapM bindExpr
    addStmt fun id => .raiseStmt id exception
  | .passStmt => addStmt .passStmt
  | .breakStmt => addStmt .breakStmt
  | .continueStmt => addStmt .continueStmt
  | .globalStmt names => globalStmt names
  | .ifStmt test body orelse => do
    let test ← bindExpr test
    let body ← bindBlock body
    let orelse ← bindBlock orelse
    addStmt fun id => .ifStmt id test body orelse
  | .whileStmt test body orelse => do
    let test ← bindExpr test
    let body ← bindBlock body
    let orelse ← bindBlock orelse
    addStmt fun id => .whileStmt id test body orelse
  | .forStmt target iter body orelse => do
    let target ← bindExpr target
    let iter ← bindExpr iter
    let body ← bindBlock body
    let orelse ← bindBlock orelse
    forStmt target iter body orelse
  | .tryStmt body clauses orelse final => do
    let body ← bindBlock body
    let clauses ← bindHandlers clauses
    let orelse ← bindBlock orelse
    let final ← bindBlock final
    addStmt fun id => .tryStmt id body clauses orelse final
  | .withStmt items body => do
    let items ← items.mapM fun item => do
      let context ← bindExpr item.context
      return (context, item.target)
    let body ← bindBlock body
    withStmt items body
  | .functionDef header body => do
    let decorators ← bindExprs header.decorators
    functionDef header.name decorators header.isAsync do
      let parameters ← bindParameters header.parameters
      let returns ← header.returns.mapM bindExpr
      let body ← bindBlock body
      return { parameters, returns, body }
  | .classDef header body => do
    let bases ← bindExprs header.bases
    let decorators ← bindExprs header.decorators
    classDef header.name bases decorators (bindBlock body)
  | .importStmt path rename => importStmt path rename
  | .importFrom source level names => importFrom source level (names.map fun n => (n.name, n.rename))

def bindBlock : List Source.Stmt → BuildM (List Stmt)
  | [] => return []
  | s :: rest => do
    let s ← bindStmt s
    let rest ← bindBlock rest
    return s :: rest

def bindHandlers : List Source.Handler → BuildM (List Handler)
  | [] => return []
  | .mk exception name body :: rest => do
    let exception ← exception.mapM bindExpr
    let body ← bindBlock body
    let h ← handler exception name body
    let rest ← bindHandlers rest
    return h :: rest

end

end Builder

def Source.Module.bind (m : Source.Module) : Tree :=
  let build : BuildM Tree := do
    let body ← Builder.bindBlock m.body
    Builder.finish body
  (build (Builder.start m.path m.isPackage)).1

end PythonTypes
