import PythonTypes.Flow.Solver

/-!
# The blocks on the way

A small analysis of control flow: the facts are sets of numbers, and a number comes in from a seed
on entry and from each block with elements that control passes. Along the way it notes the order in
which blocks are evaluated.
-/

set_option autoImplicit false

namespace PythonTypes.Passage

/-- Adds a number to a set, which is written in increasing order. -/
def add (n : Nat) : List Nat → List Nat
  | [] => [n]
  | k :: rest => if n < k then n :: k :: rest else if n = k then k :: rest else k :: add n rest

def union (sets : List (List Nat)) : List Nat := sets.flatten.foldl (fun s n => add n s) []

/-- The analysis of which blocks with elements have been passed, with `seed` standing for the
entry. -/
def analysis (seed : Nat) : Analysis (StateM (List BlockId)) (List Nat) where
  initial := [seed]
  bottom := []
  join := fun facts => pure (union facts)
  transfer := fun b block fact => do
    modify (· ++ [b])
    return if block.elements.isEmpty then fact else add b.index fact

/-- Solves the analysis, and lists the blocks in the order in which they were evaluated. -/
def solve (seed : Nat) (g : FlowGraph) (maxIterations : Nat) : Solution (List Nat) × List BlockId :=
  (analysis seed).solve g maxIterations []

end PythonTypes.Passage
