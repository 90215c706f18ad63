import PythonTypes.Flow.Passage
import PythonTypes.Tree.Codec

/-!
# Control flow graphs as JSON

A graph is written block by block, with its orders; expressions, statements and blocks are referred
to by id.
-/

set_option autoImplicit false

namespace PythonTypes

namespace BlockId

def toJson (b : BlockId) : Json := .ofNat b.index

def listToJson (bs : List BlockId) : Json := .array (bs.map toJson)

end BlockId

def Element.toJson : Element → Json
  | stmt s => .array [.string "stmt", s.refToJson]
  | condition test => .array [.string "condition", test.refToJson]
  | loopTarget target iter => .array [.string "loop_target", target.refToJson, iter.refToJson]
  | withItem item => .array [.string "with_item", item.context.refToJson, .ofOption Expr.refToJson item.target]

def Terminator.toJson : Terminator → Json
  | goto target => .array [.string "goto", target.toJson]
  | branch test thenBlock elseBlock => .array [.string "branch", test.refToJson, thenBlock.toJson, elseBlock.toJson]
  | loop body exit => .array [.string "loop", body.toJson, exit.toJson]
  | returned value => .array [.string "return", .ofOption Expr.refToJson value]
  | unreachable => .array [.string "unreachable"]

def Block.toJson (id : BlockId) (b : Block) : Json :=
  .object [
    ("id", id.toJson),
    ("elements", .array (b.elements.map Element.toJson)),
    ("terminator", .ofOption Terminator.toJson b.terminator),
    ("predecessors", BlockId.listToJson b.predecessors),
    ("successors", BlockId.listToJson b.successors)]

def FlowGraph.toJson (g : FlowGraph) : Json :=
  .object [
    ("entry", entry.toJson),
    ("exit", exit.toJson),
    ("blocks", .array (g.blocks.toList.zipIdx.map fun (b, i) => b.toJson ⟨i⟩)),
    ("postorder", BlockId.listToJson g.postorder),
    ("reverse_postorder", BlockId.listToJson g.reversePostorder)]

namespace Passage

def factsToJson (facts : OrderedMap BlockId (List Nat)) : Json :=
  .array ((facts.entries.mergeSort fun a b => a.1.index ≤ b.1.index).map fun (b, fact) =>
    .array [b.toJson, .array (fact.map .ofNat)])

def toJson (s : Solution (List Nat)) (evaluated : List BlockId) : Json :=
  .object [
    ("in", factsToJson s.before),
    ("out", factsToJson s.after),
    ("iterations", .ofNat s.iterations),
    ("converged", .bool s.converged),
    ("evaluated", BlockId.listToJson evaluated)]

end Passage

end PythonTypes
