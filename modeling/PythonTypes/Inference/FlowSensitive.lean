import PythonTypes.Flow.Solver
import PythonTypes.Inference.Typing

/-!
# Inference along control flow

Where a body has a control flow graph, its types are the solution of a forward analysis whose facts
are type states. Once it is solved, every block is evaluated once more, from the state at its start,
and this time all types are recorded. The members found then serve as a fallback in the next pass,
so that a member access evaluated before the type of its qualifier is known still gets a type.
-/

set_option autoImplicit false

namespace PythonTypes.FlowSensitive

/-- What stays the same while a body is analysed. -/
structure Setting where
  tree : Tree
  known : Knowledge
  body : Body

/-- The environment at a point of the body, with the members found by earlier passes. -/
def Setting.environment (c : Setting) (members : OrderedMap ExprId TypeId) (state : TypeState) : Environment where
  symbolType := fun symbol =>
    if c.body.tracked.contains symbol then (state.get? symbol).getD .unknown else c.known.symbolType symbol
  member? := members.get?

/-- The state on entry: the parameters. -/
def Setting.initial (c : Setting) : TypeState := .ofList c.body.parameters

def eval (c : Setting) (members : OrderedMap ExprId TypeId) (state : TypeState) (e : Expr) : TypingM TypeId :=
  Typing.typeOf c.tree (c.environment members state) e

/-- Binds a target. Only tracked variables have a place in the state; a target that is no name is
only typed. -/
def bind (c : Setting) (members : OrderedMap ExprId TypeId) (state : TypeState) (target : Expr)
    (t : TypeId) : TypingM TypeState :=
  match target with
  | .name id text => do
    let symbol := (c.tree.symbolOf? (.name id text)).filter c.body.tracked.contains
    Typing.recordBinding ⟨id, symbol, t⟩
    match symbol with
    | some symbol => return state.set symbol t
    | none => return state
  | target => do
    let _ ← eval c members state target
    return state

/-- The state after a statement without blocks of its own. -/
def applyStmt (c : Setting) (members : OrderedMap ExprId TypeId) (state : TypeState) : Stmt → TypingM TypeState
  | .assign _ targets value => do
    let t ← eval c members state value
    targets.foldlM (fun state target => bind c members state target t) state
  | .annotated _ target _ (some value) => do
    let t ← eval c members state value
    bind c members state target t
  | .compound _ target op value => do
    let old ← eval c members state target
    let value ← eval c members state value
    let t ← Typing.onTable (Table.binaryResult op old value)
    bind c members state target t
  | .exprStmt _ e => do
    let _ ← eval c members state e
    return state
  | .returnStmt _ (some e) => do
    let _ ← eval c members state e
    return state
  | .raiseStmt _ (some e) => do
    let _ ← eval c members state e
    return state
  | _ => return state

/-- The state after an element of a block. -/
def apply (c : Setting) (members : OrderedMap ExprId TypeId) (state : TypeState) : Element → TypingM TypeState
  | .stmt s => applyStmt c members state s
  | .condition test => do
    let _ ← eval c members state test
    return state
  | .loopTarget target iter => do
    let iterable ← eval c members state iter
    let t ← Typing.onTable (Table.iterationType iterable)
    bind c members state target t
  | .withItem item => do
    let _ ← eval c members state item.context
    match item.target with
    | some target => bind c members state target .unknown
    | none => return state

def transfer (c : Setting) (members : OrderedMap ExprId TypeId) (block : Block)
    (state : TypeState) : TypingM TypeState :=
  block.elements.foldlM (apply c members) state

def analysis (c : Setting) (members : OrderedMap ExprId TypeId) : Analysis (StateM Typing) TypeState where
  initial := c.initial
  bottom := .bottom
  join := fun states => Typing.onTable (Table.onStore (TypeState.joinAll states))
  transfer := fun _ block state => transfer c members block state

/-- Evaluates the blocks once more in reverse postorder, each from the state at its start. -/
def replay (c : Setting) (members : OrderedMap ExprId TypeId) (g : FlowGraph)
    (before : OrderedMap BlockId TypeState) : List BlockId → TypingM Unit
  | [] => return
  | b :: rest => do
    match g.block? b, before.get? b with
    | some block, some state =>
      let _ ← transfer c members block state
      replay c members g before rest
    | _, _ => replay c members g before rest

/-- What the passes so far have found. -/
structure Findings where
  /-- The members found, on top of those known before. -/
  members : OrderedMap ExprId TypeId
  found : OrderedMap ExprId TypeId := ∅
  /-- The types recorded by the last pass. -/
  exprTypes : List (ExprId × TypeId) := []
  /-- The bindings recorded by the last pass. -/
  bindings : List Binding := []
  iterations : Nat := 0

/-- One pass: solve, replay, and keep the members that were found. -/
def pass (c : Setting) (g : FlowGraph) (maxIterations : Nat) (f : Findings) : TypingM Findings := do
  let solution ← (analysis c f.members).solve g maxIterations
  let _ ← Typing.takeMembers
  Typing.setRecording true
  replay c f.members g solution.before g.reversePostorder
  Typing.setRecording false
  let exprTypes ← Typing.takeTypes
  let bindings ← Typing.takeBindings
  let found := (← Typing.takeMembers).filterMap fun (e, member) => member.map (e, ·)
  return {
    members := f.members.insertAll found
    found := f.found.insertAll found
    exprTypes
    bindings
    iterations := f.iterations + solution.iterations }

/-- Several passes, one after the other. -/
def passes (c : Setting) (g : FlowGraph) (maxIterations : Nat) : Nat → Findings → TypingM Findings
  | 0, f => return f
  | count + 1, f => do
    let f ← pass c g maxIterations f
    passes c g maxIterations count f

/-- The types of the variables: for each, the union of the types it is bound to. -/
def summarize (initial : TypeState) (bindings : List Binding) : StoreM TypeState :=
  bindings.foldlM (fun state b =>
    match b.symbol with
    | some symbol => state.joinOne symbol b.type
    | none => return state) initial

/-- Infers the types of a body along its control flow, in at least one pass. -/
def infer (c : Setting) (g : FlowGraph) (count maxIterations : Nat) : TypingM BodyTypes := do
  let f ← passes c g maxIterations (max count 1) { members := c.known.members }
  let summary ← Typing.onTable (Table.onStore (summarize c.initial f.bindings))
  return {
    exprTypes := f.exprTypes ++ f.bindings.map fun b => (b.target, b.type)
    symbolTypes := summary.types.entries
    members := f.found.entries
    iterations := f.iterations }

end PythonTypes.FlowSensitive
