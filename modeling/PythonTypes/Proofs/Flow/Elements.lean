import PythonTypes.Proofs.Flow.ControlFlow

/-!
# The elements of a graph

Building a graph loses none of the elements that the statements of a body bring to it, and brings
none of them twice: over all blocks they are those of the statements that stand in the body
(`FlowGraph.elements_ofBody`). Code that control never comes to is no exception, and a definition
inside the body counts as one statement, whatever stands in its own body.
-/

set_option autoImplicit false

namespace PythonTypes.FlowGraph

/-- The elements of all blocks. -/
def elements (g : FlowGraph) : List Element := g.blocks.toList.flatMap Block.elements

section

variable {g g' : FlowGraph} {u u' : Multiset BlockId} {xs : List Element} {b : BlockId}

theorem toList_update (hb : g.Has b) (f : Block → Block) : ∃ before block after,
    g.blocks.toList = before ++ block :: after ∧ (g.update b f).blocks.toList = before ++ f block :: after := by
  obtain ⟨before, block, after, hblocks, -, hmodify⟩ := List.exists_of_modify f (l := g.blocks.toList) hb
  exact ⟨before, block, after, hblocks, Array.toList_modify.trans hmodify⟩

theorem update_of_not_has (hb : ¬ g.Has b) (f : Block → Block) : (g.update b f).blocks.toList = g.blocks.toList :=
  Array.toList_modify.trans (List.modify_eq_self (Nat.le_of_not_lt hb))

theorem elements_update (g : FlowGraph) (b : BlockId) {f : Block → Block}
    (hf : ∀ block, (f block).elements = block.elements) : (g.update b f).elements = g.elements := by
  unfold elements
  by_cases hb : g.Has b
  · obtain ⟨before, block, after, hblocks, hupdate⟩ := toList_update hb f
    simp_all
  · rw [update_of_not_has hb]

theorem elements_addBlock (g : FlowGraph) : g.addBlock.elements = g.elements := by
  simp [elements, addBlock]

theorem elements_addEdge (g : FlowGraph) (source target : BlockId) : (g.addEdge source target).elements = g.elements := by
  simp_all [addEdge, elements_update]

theorem elements_ended (g : FlowGraph) (b : BlockId) (t : Terminator) (targets : List BlockId) :
    (g.ended b t targets).elements = g.elements := by
  have hfold : ∀ g : FlowGraph, (targets.foldl (fun g target => g.addEdge b target) g).elements = g.elements := by
    induction targets with
    | nil => exact fun _ => rfl
    | cons c rest ih =>
      grind [elements_addEdge]
  exact (hfold _).trans (g.elements_update b fun _ => rfl)

theorem elements_addElement (hb : g.Has b) (x : Element) : (g.addElement b x).elements.Perm (g.elements ++ [x]) := by
  obtain ⟨before, block, after, hblocks, hupdate⟩ := toList_update hb fun block =>
    { block with elements := block.elements ++ [x] }
  unfold elements addElement
  rw [hupdate, hblocks]
  simp only [List.flatMap_append, List.flatMap_cons, List.append_assoc]
  -- the new element moves behind those of the later blocks
  exact (List.perm_append_comm.append_left block.elements).append_left (before.flatMap Block.elements)

theorem Shaped.elements_step (h : g.Shaped u) (hstep : Step g u xs g' u') : g'.elements.Perm (g.elements ++ xs) := by
  cases hstep with
  | block => rw [elements_addBlock, List.append_nil]
  | element b rest x => grind [elements_addElement, has_unfinished]
  | finish b rest t => rw [elements_ended, List.append_nil]

theorem Shaped.elements_steps (h : g.Shaped u) (hsteps : Steps g u xs g' u') : g'.elements.Perm (g.elements ++ xs) := by
  induction hsteps with
  | refl => rw [List.append_nil]
  | tail hsteps hstep ih =>
    rw [← List.append_assoc]
    exact ((h.steps hsteps).elements_step hstep).trans (ih.append_right _)

end

/-- The elements of the graph of a body are those of the statements in it, up to order. -/
theorem elements_ofBody {body : List Stmt} {g : FlowGraph} (h : ofBody body = .ok g) :
    g.elements.Perm ((Stmt.flatten body).flatMap Stmt.elements) :=
  shaped_start.elements_steps (steps_ofBody h)

/-- The elements of a loop whose jumps leave code behind that control never comes to, and of a
`with` around a definition. -/
theorem elements_loop_with_dead_code :
    let x : Expr := .name ⟨0⟩ "x"
    let opened : WithItem := ⟨.name ⟨1⟩ "f", none⟩
    let inner : Stmt := .classDef ⟨4⟩ { name := "C", symbol := ⟨0⟩, bases := [], decorators := [] } [.passStmt ⟨3⟩]
    let body : List Stmt :=
      [.whileStmt ⟨6⟩ x [.breakStmt ⟨0⟩, .passStmt ⟨1⟩] [.returnStmt ⟨2⟩ none],
      .withStmt ⟨5⟩ [opened, opened] [inner]]
    ∃ g, ofBody body = .ok g ∧
    g.elements.Perm [.condition x, .stmt (.passStmt ⟨1⟩), .stmt (.returnStmt ⟨2⟩ none),
      .withItem opened,
      .withItem opened, .stmt inner] := by
  intro x opened inner body
  have hok : (ofBody body).isOk = true := by decide +kernel
  cases h : ofBody body with
  | error err => simp [h, Except.isOk, Except.toBool] at hok
  | ok g =>
    refine ⟨g, rfl, ?_⟩
    have helements := elements_ofBody h
    simpa [body, inner, Stmt.flatten, Stmt.childBlocks, Stmt.elements] using helements

end PythonTypes.FlowGraph
