import PythonTypes.Proofs.Flow.ControlFlow

/-!
# The shape of a finished graph

A graph that has been built from a body is complete: its edges are known to both ends, the entry
is where nothing leads, the exit is where everything ends, and every other block has a terminator
that says where its edges lead (`FlowGraph.complete_ofBody`). It is the shape that the steps of
building a graph keep, with no block left unfinished.
-/

set_option autoImplicit false

namespace PythonTypes.FlowGraph

variable {body : List Stmt} {g : FlowGraph}

/-- The shape of a graph that has been built to the end. -/
structure Complete (g : FlowGraph) : Prop where
  linked : ∀ b c, c ∈ g.successors b ↔ b ∈ g.predecessors c
  ends_exist : ∀ b c, c ∈ g.successors b → g.Has b ∧ g.Has c
  nodup_successors : ∀ b, (g.successors b).Nodup
  nodup_predecessors : ∀ b, (g.predecessors b).Nodup
  /-- Nothing leads to the entry. -/
  entry : ∃ block, g.block? entry = some block ∧ block.predecessors = []
  /-- Nothing happens at the exit. -/
  exit : ∃ block, g.block? exit = some block ∧ block.elements = [] ∧ block.terminator = none ∧ block.successors = []
  /-- Every other block ends, with edges to where its terminator leads and to no other block. -/
  terminated : ∀ b block, g.block? b = some block → b ≠ FlowGraph.exit →
    ∃ t, block.terminator = some t ∧ block.successors = t.targets

section

variable {b c : BlockId}

theorem Linked.has_of_successor (h : g.Linked) (hc : c ∈ g.successors b) : g.Has c := by
  obtain ⟨block, hblock⟩ := h.block?_of_successor hc
  exact (Array.getElem?_eq_some_iff.1 hblock).1

theorem core_of_block? {block : Block} (h : g.block? b = some block) : g.core b = some block.core := by
  rw [core, h, Option.map_some]

theorem Shaped.nodup_successors (h : g.Shaped 0) (b : BlockId) : (g.successors b).Nodup := by
  rw [successors_eq]
  cases hb : g.block? b with
  | none => exact List.nodup_nil
  | some block =>
    by_cases hexit : b = FlowGraph.exit
    · have hempty : block.core = {} := Option.some.inj ((core_of_block? hb).symm.trans (hexit ▸ h.exit))
      have hnone : block.successors = [] := congrArg Block.successors hempty
      simp [hnone]
    · obtain ⟨t, -, hsuccessors, hnodup⟩ := h.finished b block.core (core_of_block? hb) hexit (Multiset.notMem_zero b)
      have hsuccessors : block.successors = t.targets := hsuccessors
      simpa [hsuccessors] using hnodup

/-- A graph without open blocks is complete. -/
theorem Shaped.complete (h : g.Shaped 0) : g.Complete := by
  constructor
  case linked => exact h.linked
  case ends_exist => grind [has_of_successor, Linked.has_of_successor, linked]
  case nodup_successors => exact h.nodup_successors
  case nodup_predecessors => exact h.nodup_predecessors
  case entry =>
    obtain ⟨block, hblock⟩ := h.has_entry.exists_block
    have hnone := h.entry
    grind [predecessors_eq]
  case exit =>
    obtain ⟨block, hblock⟩ := h.enterable_exit.1.exists_block
    have hempty : block.core = {} := Option.some.inj ((core_of_block? hblock).symm.trans h.exit)
    exact ⟨block, hblock, congrArg Block.elements hempty, congrArg Block.terminator hempty, congrArg Block.successors hempty⟩
  case terminated =>
    intro b block hblock hexit
    obtain ⟨t, ht, hsuccessors, -⟩ := h.finished b block.core (core_of_block? hblock) hexit (Multiset.notMem_zero b)
    exact ⟨t, ht, hsuccessors⟩

end

theorem shaped_ofBody (h : ofBody body = .ok g) : g.Shaped 0 := shaped_start.steps (steps_ofBody h)

theorem linked_ofBody (h : ofBody body = .ok g) : g.Linked := (shaped_ofBody h).linked

theorem exists_block_of_reachable (h : ofBody body = .ok g) {b : BlockId} (hb : g.Reachable b) :
    ∃ block, g.block? b = some block := by
  have hshaped := shaped_ofBody h
  rcases Relation.ReflTransGen.cases_tail hb with rfl | ⟨p, -, hedge⟩
  · exact hshaped.has_entry.exists_block
  · exact hshaped.linked.block?_of_successor hedge

/-- Every body that has a control flow graph has a complete one. -/
theorem complete_ofBody {body : List Stmt} {g : FlowGraph} (h : ofBody body = .ok g) : g.Complete :=
  (shaped_ofBody h).complete

/-- A loop that is left in two ways, with statements behind the jumps that control never comes
to. -/
theorem complete_loop_with_dead_code :
    let body : List Stmt := [.forStmt ⟨6⟩ (.name ⟨0⟩ "x") (.name ⟨1⟩ "xs")
      [.ifStmt ⟨3⟩ (.name ⟨2⟩ "x") [.breakStmt ⟨0⟩, .passStmt ⟨1⟩] [.continueStmt ⟨2⟩]]
      [.raiseStmt ⟨4⟩ none, .passStmt ⟨5⟩], .returnStmt ⟨7⟩ none]
    ∃ g, ofBody body = .ok g ∧ g.blocks.size = 13 ∧ g.Complete := by
  intro body
  have hsize : (ofBody body).toOption.map (·.blocks.size) = some 13 := by decide +kernel
  cases h : ofBody body with
  | error err => simp [h, Except.toOption] at hsize
  | ok g =>
    rw [h] at hsize
    exact ⟨g, rfl, Option.some.inj hsize, complete_ofBody h⟩

end PythonTypes.FlowGraph
