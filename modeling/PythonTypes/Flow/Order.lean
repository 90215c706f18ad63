import PythonTypes.Flow.Graph

/-!
# Orders of blocks

A depth-first walk from the entry finishes each reachable block after the blocks first found from
it. Listed with the block finished last in front, the blocks are in reverse postorder: along every
edge that is not part of a cycle they come in the direction of control.
-/

set_option autoImplicit false

namespace PythonTypes

/-- How far a depth-first walk has come. -/
structure Walk where
  visited : List BlockId := []
  /-- The finished blocks, the one finished last in front. -/
  finished : List BlockId := []

namespace FlowGraph

/-- Walks on into a block, at most `depth` blocks deep. -/
def walkWithin (g : FlowGraph) : Nat → BlockId → Walk → Walk
  | 0, _, w => w
  | depth + 1, b, w =>
    if w.visited.contains b then w
    else
      let w := (g.successors b).foldl (fun w next => walkWithin g depth next w) { w with visited := b :: w.visited }
      { w with finished := b :: w.finished }

def edgeCount (g : FlowGraph) : Nat := (g.blocks.toList.flatMap Block.successors).length

/-- A walk visits a block only once, so it is never deeper than the number of blocks and targets of
edges. -/
def walkDepth (g : FlowGraph) : Nat := g.blocks.size + g.edgeCount + 1

def reversePostorder (g : FlowGraph) : List BlockId := (g.walkWithin g.walkDepth entry {}).finished

/-- The blocks reachable from the entry, in postorder. -/
def postorder (g : FlowGraph) : List BlockId := g.reversePostorder.reverse

end FlowGraph

end PythonTypes
