import PythonTypes.Proofs.Flow.Draft
import PythonTypes.Proofs.Flow.Solver

/-!
# Edges and their ends

A graph is linked if every edge is known to both of its ends (`FlowGraph.Linked`). Adding blocks and
elements leaves the edges as they are, and ending a block adds edges one by one, so what an edge
between existing blocks keeps, ending a block keeps (`FlowGraph.ended_induction`).
-/

set_option autoImplicit false

namespace PythonTypes.FlowGraph

variable {g g' : FlowGraph} {b c source target : BlockId}
variable {f : Block → Block} {targets : List BlockId}

/-- The predecessors of a block, of which there are none if it does not exist. -/
def predecessors (g : FlowGraph) (b : BlockId) : List BlockId :=
  match g.block? b with
  | some block => block.predecessors
  | none => []

theorem successors_eq (g : FlowGraph) (b : BlockId) : g.successors b = ((g.block? b).map Block.successors).getD [] := by
  unfold successors
  cases g.block? b <;> rfl

theorem predecessors_eq (g : FlowGraph) (b : BlockId) : g.predecessors b = ((g.block? b).map Block.predecessors).getD [] := by
  unfold predecessors
  cases g.block? b <;> rfl

/-- Every edge is known to both of its ends. -/
def Linked (g : FlowGraph) : Prop := ∀ b c, c ∈ g.successors b ↔ b ∈ g.predecessors c

/-- In a linked graph, successors and predecessors mirror each other. -/
theorem Linked.symmetric (h : g.Linked) : g.Symmetric := by
  intro b c x y hx hy
  have hbc := h b c
  rwa [successors_eq, predecessors_eq, hx, hy] at hbc

theorem Linked.block?_of_successor (h : g.Linked) (hc : c ∈ g.successors b) : ∃ block, g.block? c = some block := by
  have hpred := (h b c).1 hc
  rw [predecessors_eq] at hpred
  cases hblock : g.block? c with
  | none =>
    rw [hblock] at hpred
    cases hpred
  | some block => exact ⟨block, rfl⟩

theorem block?_start {block : Block} (h : start.block? b = some block) : block = {} := by
  have hmem : block ∈ start.blocks := Array.mem_of_getElem? h
  simpa [start] using hmem

theorem successors_start (b : BlockId) : start.successors b = [] := by
  rw [successors_eq]
  cases hb : start.block? b with
  | none => rfl
  | some block => simp [block?_start hb]

theorem predecessors_start (b : BlockId) : start.predecessors b = [] := by
  rw [predecessors_eq]
  cases hb : start.block? b with
  | none => rfl
  | some block => simp [block?_start hb]

theorem linked_start : start.Linked := by
  intro b c
  rw [successors_start, predecessors_start]
  simp

theorem Linked.congr (h : g.Linked) (hsuccessors : ∀ b, g'.successors b = g.successors b)
    (hpredecessors : ∀ b, g'.predecessors b = g.predecessors b) : g'.Linked := by
  intro b c
  rw [hsuccessors, hpredecessors]
  exact h b c

@[simp] theorem successors_addBlock (g : FlowGraph) (b : BlockId) : g.addBlock.successors b = g.successors b := by
  have hnew : g.block? g.nextId = none := by simp [block?]
  rw [successors_eq, successors_eq, block?_addBlock]
  split <;> simp_all

@[simp] theorem predecessors_addBlock (g : FlowGraph) (b : BlockId) : g.addBlock.predecessors b = g.predecessors b := by
  have hnew : g.block? g.nextId = none := by simp [block?]
  rw [predecessors_eq, predecessors_eq, block?_addBlock]
  split <;> simp_all

theorem Linked.addBlock (h : g.Linked) : g.addBlock.Linked := h.congr g.successors_addBlock g.predecessors_addBlock

theorem successors_update (hf : ∀ block, (f block).successors = block.successors) :
    (g.update c f).successors b = g.successors b := by
  rw [successors_eq, successors_eq, block?_update]
  cases g.block? b <;> split <;> simp [hf]

theorem predecessors_update (hf : ∀ block, (f block).predecessors = block.predecessors) :
    (g.update c f).predecessors b = g.predecessors b := by
  rw [predecessors_eq, predecessors_eq, block?_update]
  cases g.block? b <;> split <;> simp [hf]

@[simp] theorem predecessors_addElement (x : Element) : (g.addElement c x).predecessors b = g.predecessors b :=
  predecessors_update fun _ => rfl

@[simp] theorem predecessors_setTerminator (t : Terminator) : (g.setTerminator c t).predecessors b = g.predecessors b :=
  predecessors_update fun _ => rfl

theorem Linked.update (h : g.Linked) (c : BlockId) (hsuccessors : ∀ block, (f block).successors = block.successors)
    (hpredecessors : ∀ block, (f block).predecessors = block.predecessors) : (g.update c f).Linked :=
  h.congr (fun _ => successors_update hsuccessors) fun _ => predecessors_update hpredecessors

@[simp] theorem size_update (g : FlowGraph) (c : BlockId) (f : Block → Block) :
    (g.update c f).blocks.size = g.blocks.size := by
  simp [update]

@[simp] theorem size_addElement (g : FlowGraph) (c : BlockId) (x : Element) :
    (g.addElement c x).blocks.size = g.blocks.size :=
  g.size_update c _

/-- Whether a block exists. -/
def Has (g : FlowGraph) (b : BlockId) : Prop := b.index < g.blocks.size

theorem Has.exists_block (h : g.Has b) : ∃ block, g.block? b = some block := ⟨_, Array.getElem?_eq_getElem h⟩

theorem has_of_successor (h : c ∈ g.successors b) : g.Has b := by
  rw [successors_eq] at h
  cases hb : g.block? b with
  | none =>
    rw [hb] at h
    cases h
  | some block => exact (Array.getElem?_eq_some_iff.1 hb).1

theorem mem_withItemOnce (l : List BlockId) (b c : BlockId) : b ∈ withItemOnce l c ↔ b ∈ l ∨ b = c := by
  grind [withItemOnce]

theorem nodup_withItemOnce {l : List BlockId} (h : l.Nodup) (b : BlockId) : (withItemOnce l b).Nodup := by
  grind [withItemOnce]

theorem mem_successors_addEdge (hsource : g.Has source) :
    c ∈ (g.addEdge source target).successors b ↔ c ∈ g.successors b ∨ b = source ∧ c = target := by
  obtain ⟨block, hblock⟩ := hsource.exists_block
  unfold addEdge
  rw [successors_eq, successors_eq, block?_update, block?_update]
  by_cases hb : b = source
  · grind [mem_withItemOnce]
  · cases g.block? b <;> split <;> simp [hb]

theorem predecessors_addEdge (htarget : g.Has target) :
    (g.addEdge source target).predecessors c = if c = target then
    withItemOnce (g.predecessors c) source else g.predecessors c := by
  obtain ⟨block, hblock⟩ := htarget.exists_block
  unfold addEdge
  rw [predecessors_eq, predecessors_eq, block?_update, block?_update]
  by_cases hc : c = target
  · grind
  · rw [if_neg hc, if_neg hc]
    cases g.block? c <;> split <;> simp

theorem mem_predecessors_addEdge (htarget : g.Has target) :
    b ∈ (g.addEdge source target).predecessors c ↔ b ∈ g.predecessors c ∨ b = source ∧ c = target := by
  grind [predecessors_addEdge, mem_withItemOnce]

/-- An edge between two blocks keeps a graph linked. -/
theorem Linked.addEdge (h : g.Linked) (hsource : g.Has source) (htarget : g.Has target) :
    (g.addEdge source target).Linked := by
  intro b c
  rw [mem_successors_addEdge hsource, mem_predecessors_addEdge htarget, h b c]

@[simp] theorem size_addEdge (g : FlowGraph) (source target : BlockId) :
    (g.addEdge source target).blocks.size = g.blocks.size := by
  simp [addEdge]

@[simp] theorem size_ended (g : FlowGraph) (b : BlockId) (t : Terminator) (targets : List BlockId) :
    (g.ended b t targets).blocks.size = g.blocks.size := by
  have hfold : ∀ g : FlowGraph, (targets.foldl (fun g target => g.addEdge b target) g).blocks.size = g.blocks.size := by
    induction targets with
    | nil => exact fun _ => rfl
    | cons c rest ih => simp_all
  exact (hfold _).trans (g.size_update b _)

theorem size_branching (g : FlowGraph) (b : BlockId) (test : Expr) :
    (g.branching b test).blocks.size = g.blocks.size + 3 := by
  simp [branching]

theorem size_looping (g : FlowGraph) (b : BlockId) (head : Element) : (g.looping b head).blocks.size = g.blocks.size + 4 := by
  simp [looping]

/-- A block is ended by setting its terminator and adding its edges one by one. -/
theorem ended_induction {P : FlowGraph → Prop} (hb : g.Has b) (t : Terminator)
    (htargets : ∀ c ∈ targets, g.Has c) (hset : P (g.setTerminator b t))
    (hedge : ∀ g' : FlowGraph, ∀ c ∈ targets, g'.Has b → g'.Has c → P g' → P (g'.addEdge b c)) : P (g.ended b t targets) := by
  have hsize : (g.setTerminator b t).blocks.size = g.blocks.size := g.size_update b _
  have hb' : (g.setTerminator b t).Has b := by
    unfold Has
    rwa [hsize]
  have htargets' : ∀ c ∈ targets, (g.setTerminator b t).Has c := by
    unfold Has
    rw [hsize]
    exact htargets
  unfold ended
  clear hsize htargets
  generalize g.setTerminator b t = g1 at hset hb' htargets'
  induction targets generalizing g1 with
  | nil => exact hset
  | cons c rest ih =>
    simp_all [Has, size_addEdge]

theorem Linked.ended (h : g.Linked) (hb : g.Has b) (t : Terminator)
    (htargets : ∀ c ∈ targets, g.Has c) : (g.ended b t targets).Linked :=
  ended_induction hb t htargets (h.update b (fun _ => rfl) fun _ => rfl) fun _ _ _ hb hc h => h.addEdge hb hc

end PythonTypes.FlowGraph
