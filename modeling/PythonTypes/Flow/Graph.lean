import PythonTypes.Tree.Stmt

/-!
# Control flow graphs

The body of a function or module is cut into blocks: elements that are evaluated one after the
other, and a terminator that says where control goes next. A graph keeps the successors of each
block in the order in which the edges were added, without repetitions, and the predecessors
likewise. Block 0 is the entry and block 1 the exit.
-/

set_option autoImplicit false

namespace PythonTypes

/-- A block, by order of creation. -/
structure BlockId where
  index : Nat
  deriving DecidableEq, Repr, Inhabited

/-- How a block ends. -/
inductive Terminator where
  | goto (target : BlockId)
  | branch (test : Expr) (thenBlock elseBlock : BlockId)
  /-- The head of a loop: either run the body once more or leave. -/
  | loop (body exit : BlockId)
  | returned (value : Option Expr)
  /-- Control leaves by an exception. -/
  | unreachable

/-- What is evaluated in a block. -/
inductive Element where
  /-- A statement without blocks of its own. -/
  | stmt (s : Stmt)
  /-- The test of an `if` or a `while`. -/
  | condition (test : Expr)
  /-- The binding of the target of a `for`, at the head of the loop. -/
  | loopTarget (target iter : Expr)
  /-- A context manager of a `with`. -/
  | withItem (item : WithItem)

/-- A basic block. -/
structure Block where
  elements : List Element := []
  terminator : Option Terminator := none
  predecessors : List BlockId := []
  successors : List BlockId := []
  deriving Inhabited

/-- A control flow graph. -/
structure FlowGraph where
  blocks : Array Block

namespace FlowGraph

def entry : BlockId := ⟨0⟩

def exit : BlockId := ⟨1⟩

/-- The graph with an entry and an exit and nothing in between. -/
def start : FlowGraph := ⟨#[{}, {}]⟩

instance : Inhabited FlowGraph := ⟨start⟩

def block? (g : FlowGraph) (b : BlockId) : Option Block := g.blocks[b.index]?

/-- The successors of a block, of which there are none if it does not exist. -/
def successors (g : FlowGraph) (b : BlockId) : List BlockId :=
  match g.block? b with
  | some block => block.successors
  | none => []

def isOpen (g : FlowGraph) (b : BlockId) : Bool :=
  match g.block? b with
  | some block => block.terminator.isNone
  | none => false

def update (g : FlowGraph) (b : BlockId) (f : Block → Block) : FlowGraph := ⟨g.blocks.modify b.index f⟩

def nextId (g : FlowGraph) : BlockId := ⟨g.blocks.size⟩

/-- Adds an empty block, which gets the id `nextId`. -/
def addBlock (g : FlowGraph) : FlowGraph := ⟨g.blocks.push {}⟩

/-- A list with an item at its end, unless it is in the list already. -/
def withItemOnce (l : List BlockId) (b : BlockId) : List BlockId := if l.contains b then l else l ++ [b]

/-- Adds an edge. An end that does not exist stays away, and the other end learns of it all the
same. -/
def addEdge (g : FlowGraph) (source target : BlockId) : FlowGraph :=
  (g.update source fun block => { block with successors := withItemOnce block.successors target }).update target
    fun block => { block with predecessors := withItemOnce block.predecessors source }

def setTerminator (g : FlowGraph) (b : BlockId) (t : Terminator) : FlowGraph :=
  g.update b fun block => { block with terminator := some t }

def addElement (g : FlowGraph) (b : BlockId) (e : Element) : FlowGraph :=
  g.update b fun block => { block with elements := block.elements ++ [e] }

end FlowGraph

end PythonTypes
