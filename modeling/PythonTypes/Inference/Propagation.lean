import PythonTypes.Inference.Dependency
import PythonTypes.Inference.Typing

/-!
# Inference by propagation

Where a body has no control flow graph because it handles exceptions, each variable gets one type
for the whole body: the union of everything assigned to it. Nodes of the dependency graph are
evaluated from a queue, and whenever the outcome of a node changes, the nodes that depend on it are
due again.

The queue is worked off twice. At first a node is skipped unless its variables have a type and its
members are functions, which keeps premature unknowns out; then every node is evaluated until
nothing changes. Each phase is bounded by a number of evaluations.
-/

set_option autoImplicit false

namespace PythonTypes.Propagation

/-- What stays the same while a body is analysed. -/
structure Setting where
  tree : Tree
  known : Knowledge
  body : Body
  graph : DependencyGraph

def Setting.ofBody (tree : Tree) (known : Knowledge) (body : Body) : Setting :=
  { tree, known, body, graph := tree.dependencies body }

/-- The types found so far. -/
structure State where
  typing : Typing
  /-- The types of the variables that have one. -/
  types : OrderedMap SymbolId TypeId
  /-- The members of the qualified expressions that have one. -/
  members : OrderedMap ExprId TypeId

abbrev PropagateM (α : Type) := StateM State α

def onTyping {α : Type} (action : TypingM α) : PropagateM α := fun s =>
  let (a, typing) := action s.typing
  (a, { s with typing })

def environment (c : Setting) (s : State) : Environment where
  symbolType := fun symbol =>
    if c.body.tracked.contains symbol then (s.types.get? symbol).getD .unknown else c.known.symbolType symbol
  member? := s.members.get?

def evaluate (tree : Tree) (env : Environment) : AssignedValue → TypingM TypeId
  | .value e => Typing.typeOf tree env e
  | .compound target op value => do
    let old ← Typing.typeOf tree env target
    let value ← Typing.typeOf tree env value
    Typing.onTable (Table.binaryResult op old value)
  | .loopElement iter => do
    let iterable ← Typing.typeOf tree env iter
    Typing.onTable (Table.iterationType iterable)

/-- Adds a type to those of a variable, and tells whether that changes anything. -/
def assign (symbol : SymbolId) (t : TypeId) : PropagateM Bool := do
  match (← get).types.get? symbol with
  | none =>
    modify fun s => { s with types := s.types.insert symbol t }
    return true
  | some old =>
    let joined ← onTyping (Typing.onTable (Table.onStore (TypeStore.union old t)))
    modify fun s => { s with types := s.types.insert symbol joined }
    return joined != old

/-- Sets or removes the member of a qualified expression, and tells whether that changes
anything. -/
def setMember (e : ExprId) (member : Option TypeId) : PropagateM Bool := do
  if (← get).members.get? e = member then return false
  modify fun s =>
    { s with members := match member with
        | some t => s.members.insert e t
        | none => s.members.swapErase e }
  return true

/-- Evaluates a node, and tells whether its outcome changes. A member that the type of its qualifier
does not give is the one that was known before. -/
def propagate (c : Setting) (n : Node) : PropagateM Bool := do
  let env := environment c (← get)
  match n.kind with
  | .assignment symbol source =>
    let t ← onTyping (evaluate c.tree env source)
    assign symbol t
  | .memberAccess qualified =>
    let found ← onTyping (Typing.findMember c.tree env qualified)
    setMember qualified.id (found.or (c.known.members.get? qualified.id))

def isReady (s : State) (n : Node) : Bool :=
  n.symbols.all s.types.contains
    && n.members.all fun e => (s.members.get? e).any fun t => (s.typing.table.form t).isFunction

/-- Whether a node is to be evaluated when its turn comes. -/
def isDue (c : Setting) (gated : Bool) (s : State) (n : Nat) : Bool :=
  !gated || c.graph.nodes[n]?.any (isReady s)

def propagateAt (c : Setting) (n : Nat) : PropagateM Bool :=
  match c.graph.nodes[n]? with
  | some node => propagate c node
  | none => return false

/-- The queue once the outcome of a node has changed. -/
def requeue (c : Setting) (n : Nat) (queue : List Nat) : List Nat :=
  (c.graph.dependents n).foldl (fun queue d => if queue.contains d then queue else queue ++ [d]) queue

/-- Works off a queue with at most `remaining` evaluations, and counts them on from `steps`; one
more than allowed is counted if the bound stops it. -/
def run (c : Setting) (gated : Bool) : Nat → Nat → List Nat → PropagateM Nat
  | remaining, steps, queue => do
    let s ← get
    match queue.dropWhile fun n => !isDue c gated s n with
    | [] => return steps
    | n :: rest =>
      match remaining with
      | 0 => return steps + 1
      | remaining + 1 =>
        let changed ← propagateAt c n
        run c gated remaining (steps + 1) (if changed then requeue c n rest else rest)

/-- The greatest bound on evaluations. -/
def maxLimit : Nat := Nat.pow 2 64 - 1

/-- The bound on the evaluations of a phase. -/
def limit (c : Setting) (maxIterations : Nat) : Nat := min (maxIterations * max c.graph.size 1) maxLimit

/-- The types before anything is evaluated. -/
def start (c : Setting) (typing : Typing) : State where
  typing := typing
  types := .ofList c.body.parameters
  members := c.known.members

/-- Both phases; counts the evaluations. -/
def phases (c : Setting) (maxIterations : Nat) : PropagateM Nat := do
  let ready ← run c true (limit c maxIterations) 0 c.graph.indices
  let all ← run c false (limit c maxIterations) 0 c.graph.indices
  return ready + all

def nodeMembers (c : Setting) (s : State) : List (ExprId × TypeId) :=
  c.graph.nodes.toList.filterMap fun n =>
    match n.kind with
    | .memberAccess qualified => (s.members.get? qualified.id).map (qualified.id, ·)
    | .assignment _ _ => none

def infer (c : Setting) (maxIterations : Nat) : TypingM BodyTypes := fun typing =>
  let (iterations, s) := phases c maxIterations (start c typing)
  let record : TypingM (List (ExprId × TypeId)) := do
    Typing.setRecording true
    Typing.typeAll c.tree (environment c s) ((Stmt.flatten c.body.stmts).flatMap Stmt.expressions)
    let exprTypes ← Typing.takeTypes
    Typing.setRecording false
    let _ ← Typing.takeMembers
    return exprTypes
  let (exprTypes, typing) := record s.typing
  ({ exprTypes
     symbolTypes := s.types.entries.filter fun (symbol, _) => c.body.tracked.contains symbol
     members := nodeMembers c s
     iterations }, typing)

end PythonTypes.Propagation
