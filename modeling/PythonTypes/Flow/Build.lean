import PythonTypes.Flow.Graph

/-!
# The control flow graph of a body

`FlowGraph.ofBody` builds the graph of a list of statements. Statements after a jump land in a block
of their own that nothing leads to. A body that handles exceptions, or that jumps out of a
loop where there is none, has no graph.
-/

set_option autoImplicit false

namespace PythonTypes

/-- Why a body has no control flow graph. -/
inductive Unsupported where
  /-- A `break` or `continue` outside of a loop. -/
  | jumpOutsideLoop
  | exceptionHandling
  deriving DecidableEq, Repr

/-- Where the jumps of a loop lead. -/
structure LoopExits where
  continueTo : BlockId
  breakTo : BlockId

/-- A graph under construction. -/
structure FlowDraft where
  graph : FlowGraph := .start
  /-- The block to which statements are added. -/
  current : BlockId := FlowGraph.entry

abbrev FlowM (α : Type) := StateT FlowDraft (Except Unsupported) α

namespace FlowDraft

def change (f : FlowGraph → FlowGraph) : FlowM Unit := modify fun d => { d with graph := f d.graph }

def newBlock : FlowM BlockId := modifyGet fun d => (d.graph.nextId, { d with graph := d.graph.addBlock })

def continueIn (b : BlockId) : FlowM Unit := modify fun d => { d with current := b }

def addElement (e : Element) : FlowM Unit := modify fun d => { d with graph := d.graph.addElement d.current e }

/-- Ends a block with edges to where its terminator leads. -/
def terminate (b : BlockId) (t : Terminator) (targets : List BlockId) : FlowM Unit :=
  change fun g => targets.foldl (fun g target => g.addEdge b target) (g.setTerminator b t)

/-- Ends the current block and goes on in a new block that nothing leads to. -/
def leave (t : Terminator) (targets : List BlockId) : FlowM Unit := do
  terminate (← get).current t targets
  continueIn (← newBlock)

/-- Ends the current block with a jump. -/
def jump (target : BlockId) : FlowM Unit := leave (.goto target) [target]

/-- Lets the current block lead to another, unless it has already ended. -/
def fallThrough (target : BlockId) : FlowM Unit := do
  let d ← get
  if d.graph.isOpen d.current then terminate d.current (.goto target) [target]

/-- A branch: the test, and two bodies that meet again. -/
def branch (test : Expr) (body orelse : FlowM Unit) : FlowM Unit := do
  let thenBlock ← newBlock
  let elseBlock ← newBlock
  let merge ← newBlock
  addElement (.condition test)
  terminate (← get).current (.branch test thenBlock elseBlock) [thenBlock, elseBlock]
  continueIn thenBlock
  body
  fallThrough merge
  continueIn elseBlock
  orelse
  fallThrough merge
  continueIn merge

/-- A loop: its head, its body, and what runs when it ends without a `break`. -/
def loop (head : Element) (body : LoopExits → FlowM Unit) (orelse : FlowM Unit) : FlowM Unit := do
  let header ← newBlock
  let bodyBlock ← newBlock
  let elseBlock ← newBlock
  let exit ← newBlock
  fallThrough header
  change (·.addElement header head)
  terminate header (.loop bodyBlock elseBlock) [bodyBlock, elseBlock]
  continueIn bodyBlock
  body { continueTo := header, breakTo := exit }
  fallThrough header
  continueIn elseBlock
  orelse
  fallThrough exit
  continueIn exit

mutual

/-- Adds a statement that stands in the given loop, if in any. -/
def addStmt (exits : Option LoopExits) : Stmt → FlowM Unit
  | .returnStmt id value => do
    addElement (.stmt (.returnStmt id value))
    leave (.returned value) [FlowGraph.exit]
  | .raiseStmt id exception => do
    addElement (.stmt (.raiseStmt id exception))
    leave .unreachable []
  | .breakStmt _ =>
    match exits with
    | some exits => jump exits.breakTo
    | none => throw .jumpOutsideLoop
  | .continueStmt _ =>
    match exits with
    | some exits => jump exits.continueTo
    | none => throw .jumpOutsideLoop
  | .ifStmt _ test body orelse => branch test (addBlock exits body) (addBlock exits orelse)
  | .whileStmt _ test body orelse =>
    loop (.condition test) (fun inner => addBlock (some inner) body) (addBlock exits orelse)
  | .forStmt _ target iter body orelse =>
    loop (.loopTarget target iter) (fun inner => addBlock (some inner) body) (addBlock exits orelse)
  | .withStmt _ items body => do
    for item in items do
      addElement (.withItem item)
    addBlock exits body
  | .tryStmt .. => throw .exceptionHandling
  | s => addElement (.stmt s)

def addBlock (exits : Option LoopExits) : List Stmt → FlowM Unit
  | [] => return
  | s :: rest => do
    addStmt exits s
    addBlock exits rest

end

end FlowDraft

namespace FlowGraph

/-- The control flow graph of a body; falling off its end returns. -/
def ofBody (body : List Stmt) : Except Unsupported FlowGraph := do
  let build : FlowM Unit := do
    FlowDraft.addBlock none body
    let d ← get
    if d.graph.isOpen d.current then FlowDraft.terminate d.current (.returned none) [FlowGraph.exit]
  let (_, d) ← build {}
  return d.graph

end FlowGraph

end PythonTypes
