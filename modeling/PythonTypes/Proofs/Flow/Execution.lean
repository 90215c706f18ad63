import PythonTypes.Flow.Graph

/-!
# Executions of bodies and paths of graphs

Two views of what a body may evaluate, one after the other. The structured view follows the
statements: a `Behaviour` lists the elements that statements can evaluate together with the way
control leaves them, and every test, iteration and exception may go either way. The graph view
follows the edges: `FlowGraph.Reads` collects the elements of the blocks along a path, up to the
exit or to a block that control leaves by an exception.

Neither view mentions how a graph is built.
-/

set_option autoImplicit false

namespace PythonTypes

/-- How control leaves statements. -/
inductive Ending where
  /-- It goes on behind them. -/
  | falls
  /-- It leaves the innermost loop around them. -/
  | breaks
  /-- It returns to the head of the innermost loop around them. -/
  | continues
  /-- It leaves the body, by a `return` or by an exception. -/
  | stops
  deriving DecidableEq, Repr

/-- What statements can do: which elements are evaluated, in order, before control leaves in which
way. -/
abbrev Behaviour := List Element → Ending → Prop

namespace Behaviour

/-- Evaluates some elements and leaves in one way. -/
def emit (xs : List Element) (e : Ending) : Behaviour := fun w e' => w = xs ∧ e' = e

/-- One behaviour and, where control goes on behind it, another one. -/
def followedBy (A B : Behaviour) : Behaviour := fun w e =>
  (A w e ∧ e ≠ .falls) ∨ ∃ u v, w = u ++ v ∧ A u .falls ∧ B v e

/-- Either of two behaviours. -/
def either (A B : Behaviour) : Behaviour := fun w e => A w e ∨ B w e

/-- A loop evaluates its head before every iteration and once more when it ends without a `break`,
which is when its `else` runs. -/
inductive loop (head : Element) (body orelse : Behaviour) : Behaviour
  | ends {w : List Element} {e : Ending} : orelse w e → loop head body orelse (head :: w) e
  | again {u v : List Element} {e : Ending} :
    body u .falls ∨ body u .continues → loop head body orelse v e → loop head body orelse (head :: (u ++ v)) e
  | broken {u : List Element} : body u .breaks → loop head body orelse (head :: u) .falls
  | stopped {u : List Element} : body u .stops → loop head body orelse (head :: u) .stops

end Behaviour

open Behaviour in
mutual

/-- The structured executions of a statement. Exception handling has none, as it has no graph
either. -/
def Stmt.behaviour : Stmt → Behaviour
  | .returnStmt id value => emit [.stmt (.returnStmt id value)] .stops
  | .raiseStmt id exception => emit [.stmt (.raiseStmt id exception)] .stops
  | .breakStmt _ => emit [] .breaks
  | .continueStmt _ => emit [] .continues
  | .ifStmt _ test body orelse =>
    followedBy (emit [.condition test] .falls) (either (Stmt.behaviourAll body) (Stmt.behaviourAll orelse))
  | .whileStmt _ test body orelse => loop (.condition test) (Stmt.behaviourAll body) (Stmt.behaviourAll orelse)
  | .forStmt _ target iter body orelse =>
    loop (.loopTarget target iter) (Stmt.behaviourAll body) (Stmt.behaviourAll orelse)
  | .withStmt _ items body => followedBy (emit (items.map .withItem) .falls) (Stmt.behaviourAll body)
  | .tryStmt .. => fun _ _ => False
  | s => emit [.stmt s] .falls

/-- The structured executions of statements in order. -/
def Stmt.behaviourAll : List Stmt → Behaviour
  | [] => emit [] .falls
  | s :: rest => followedBy (Stmt.behaviour s) (Stmt.behaviourAll rest)

end

/-- The elements that a whole body evaluates when control comes to its end, returns or leaves by an
exception. -/
def Stmt.Executes (body : List Stmt) (w : List Element) : Prop :=
  Stmt.behaviourAll body w .falls ∨ Stmt.behaviourAll body w .stops

namespace FlowGraph

/-- Whether control ends in a block: it is the exit, or control leaves it by an exception. -/
def EndsIn (b : BlockId) (block : Block) : Prop := b = exit ∨ block.terminator = some .unreachable

/-- The elements along a path of `n` edges from the start of a block to where control ends. -/
inductive Reads (g : FlowGraph) : Nat → BlockId → List Element → Prop
  | last {b : BlockId} {block : Block} :
    g.block? b = some block → EndsIn b block → Reads g 0 b block.elements
  | edge {b next : BlockId} {block : Block} {n : Nat} {w : List Element} :
    g.block? b = some block → next ∈ block.successors → Reads g n next w → Reads g (n + 1) b (block.elements ++ w)

/-- The elements along a path of the graph from its entry to where control ends. -/
def PathReads (g : FlowGraph) (w : List Element) : Prop := ∃ n, g.Reads n entry w

end FlowGraph

end PythonTypes
