import PythonTypes.Data.OrderedMap
import PythonTypes.Flow.Order

/-!
# Forward analyses

An analysis gives facts at the start and at the end of each block: the fact at the start joins those
at the end of the predecessors, and `transfer` leads from the start of a block to its end. The
solver evaluates the blocks in a queue, first all reachable ones in reverse postorder, and queues
the successors of a block whenever the fact at its end changes. It stops when the queue is empty, or
when the bound on evaluations is exceeded.

Joining and transfer may have effects of a monad, such as adding types to a table.
-/

set_option autoImplicit false

namespace PythonTypes

/-- A forward analysis with facts of type `φ`. -/
structure Analysis (m : Type → Type) (φ : Type) where
  /-- The fact on entry. -/
  initial : φ
  /-- The fact where control has not come yet. -/
  bottom : φ
  join : List φ → m φ
  transfer : BlockId → Block → φ → m φ

/-- How far the solver has come. -/
structure Solution (φ : Type) where
  /-- The facts at the start of the blocks evaluated so far. -/
  before : OrderedMap BlockId φ := ∅
  /-- The facts at the end of the reachable blocks. -/
  after : OrderedMap BlockId φ
  queue : List BlockId
  /-- Number of evaluations, the one that exceeded the bound included. -/
  iterations : Nat := 0
  /-- Whether the bound has not been exceeded. -/
  converged : Bool := true

namespace Solution

variable {φ : Type}

/-- The fact at the end of a block has changed: its successors are due again, each at most once. -/
def requeue (queue successors : List BlockId) : List BlockId :=
  successors.foldl (fun queue b => if queue.contains b then queue else queue ++ [b]) queue

def record [BEq φ] (s : Solution φ) (b : BlockId) (block : Block) (factBefore factAfter : φ) : Solution φ :=
  let s := { s with before := s.before.insert b factBefore }
  let changed := match s.after.get? b with
    | some old => old != factAfter
    | none => true
  if changed then
    { s with after := s.after.insert b factAfter, queue := requeue s.queue block.successors }
  else s

end Solution

namespace Analysis

variable {m : Type → Type} {φ : Type}

/-- The facts that meet at the start of a block: those at the end of its reachable predecessors, and
the initial one on entry. -/
def incoming (a : Analysis m φ) (s : Solution φ) (b : BlockId) (block : Block) : List φ :=
  block.predecessors.filterMap s.after.get? ++ if b = FlowGraph.entry then [a.initial] else []

def factBefore [Monad m] (a : Analysis m φ) (s : Solution φ) (b : BlockId) (block : Block) : m φ :=
  match a.incoming s b block with
  | [] => pure a.bottom
  | facts => a.join facts

/-- Evaluates a block; one that does not exist changes nothing. -/
def evaluate [Monad m] [BEq φ] (a : Analysis m φ) (g : FlowGraph) (s : Solution φ) (b : BlockId) : m (Solution φ) :=
  match g.block? b with
  | none => pure s
  | some block => do
    let factBefore ← a.factBefore s b block
    let factAfter ← a.transfer b block factBefore
    return s.record b block factBefore factAfter

/-- Evaluates the blocks in the queue, at most `remaining` of them. -/
def run [Monad m] [BEq φ] (a : Analysis m φ) (g : FlowGraph) : Nat → Solution φ → m (Solution φ)
  | remaining, s =>
    match s.queue with
    | [] => pure s
    | b :: rest =>
      let s := { s with queue := rest, iterations := s.iterations + 1 }
      match remaining with
      | 0 => pure { s with converged := false }
      | remaining + 1 => do
        let s ← a.evaluate g s b
        run a g remaining s

/-- The solver before the first evaluation. -/
def start (a : Analysis m φ) (g : FlowGraph) : Solution φ :=
  let order := g.reversePostorder
  { after := .ofList (order.map (·, a.bottom)), queue := order }

/-- Solves an analysis with at most `maxIterations` evaluations. -/
def solve [Monad m] [BEq φ] (a : Analysis m φ) (g : FlowGraph) (maxIterations : Nat) : m (Solution φ) :=
  a.run g maxIterations (a.start g)

end Analysis

end PythonTypes
