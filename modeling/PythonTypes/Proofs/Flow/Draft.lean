import PythonTypes.Flow.Build

/-!
# Building graphs, step by step

What each action on a graph under construction does to the blocks. The edges into a block are of no
interest here, so blocks are compared by their `core`, which leaves them out. Block ids are handed
out in order, an action changes the blocks that it names and no others, and an action of `FlowM`
that succeeds is a chain of actions that succeed.
-/

set_option autoImplicit false

namespace PythonTypes

/-- A block without the edges that lead to it. -/
def Block.core (block : Block) : Block := { block with predecessors := [] }

namespace FlowGraph

variable {b c : BlockId} {g : FlowGraph} {xs : List Element}

/-- The block with an id, without the edges that lead to it. -/
def core (g : FlowGraph) (b : BlockId) : Option Block := (g.block? b).map Block.core

theorem block?_update (g : FlowGraph) (b c : BlockId) (f : Block → Block) :
    (g.update c f).block? b = if b = c then (g.block? b).map f else g.block? b := by
  obtain ⟨i⟩ := b
  obtain ⟨j⟩ := c
  grind [block?, update]

theorem block?_addBlock (g : FlowGraph) (b : BlockId) :
    g.addBlock.block? b = if b = g.nextId then some {} else g.block? b := by
  obtain ⟨i⟩ := b
  simp only [block?, addBlock, nextId, Array.getElem?_push, BlockId.mk.injEq]

@[simp] theorem nextId_index (g : FlowGraph) : g.nextId.index = g.blocks.size := rfl

@[simp] theorem size_addBlock (g : FlowGraph) : g.addBlock.blocks.size = g.blocks.size + 1 := by
  simp [addBlock]

theorem core_eq_none_iff (g : FlowGraph) (b : BlockId) : g.core b = none ↔ g.blocks.size ≤ b.index := by
  simp [core, block?]

theorem core_nextId (g : FlowGraph) : g.core g.nextId = none := by
  simp [core_eq_none_iff]

theorem index_lt_of_core {x : Block} (h : g.core b = some x) : b.index < g.blocks.size := by
  grind [core_eq_none_iff]

theorem core_addBlock (g : FlowGraph) (b : BlockId) : g.addBlock.core b = if b = g.nextId then some {} else g.core b := by
  unfold core
  rw [block?_addBlock]
  split <;> rfl

theorem core_addBlock_new (g : FlowGraph) : g.addBlock.core g.nextId = some {} := by
  rw [core_addBlock, if_pos rfl]

theorem core_addBlock_old {x : Block} (h : g.core b = some x) : g.addBlock.core b = some x := by
  grind [core_addBlock, core_nextId]

theorem core_addElement (g : FlowGraph) (b c : BlockId) (x : Element) : (g.addElement c x).core b =
      if b = c then (g.core b).map fun block => { block with elements := block.elements ++ [x] } else g.core b := by
  unfold core addElement
  rw [block?_update]
  split
  · cases g.block? b <;> rfl
  · rfl

theorem core_setTerminator (g : FlowGraph) (b c : BlockId) (t : Terminator) : (g.setTerminator c t).core b =
      if b = c then (g.core b).map fun block => { block with terminator := some t } else g.core b := by
  unfold core setTerminator
  rw [block?_update]
  split
  · cases g.block? b <;> rfl
  · rfl

theorem core_addEdge (g : FlowGraph) (b source target : BlockId) :
    (g.addEdge source target).core b = if b = source then (g.core b).map fun block =>
      { block with successors := withItemOnce block.successors target } else g.core b := by
  unfold core addEdge
  rw [block?_update, block?_update]
  cases g.block? b with
  | none | some block => split <;> split <;> rfl

/-- The graph after a block has been ended with edges to where its terminator leads. -/
def ended (g : FlowGraph) (b : BlockId) (t : Terminator) (targets : List BlockId) : FlowGraph :=
  targets.foldl (fun g target => g.addEdge b target) (g.setTerminator b t)

theorem core_foldl_addEdge (g : FlowGraph) (b source : BlockId) (targets : List BlockId) :
    (targets.foldl (fun g target => g.addEdge source target) g).core b = if b = source then (g.core b).map fun block =>
      { block with successors := targets.foldl withItemOnce block.successors } else g.core b := by
  induction targets generalizing g with
  | nil => simp
  | cons target rest ih =>
    rw [List.foldl_cons, ih, core_addEdge]
    split
    · cases g.core b <;> rfl
    · rfl

theorem foldl_withItemOnce (seen targets : List BlockId) (h : (seen ++ targets).Nodup) :
    targets.foldl withItemOnce seen = seen ++ targets := by
  induction targets generalizing seen with
  | nil => simp
  | cons target rest ih =>
    grind [withItemOnce]

theorem core_ended (g : FlowGraph) (b c : BlockId) (t : Terminator) (targets : List BlockId) (xs : List Element)
    (hc : g.core c = some { elements := xs }) (hnodup : targets.Nodup) : (g.ended c t targets).core b =
      if b = c then some { elements := xs, terminator := some t, successors := targets } else g.core b := by
  simp_all [ended, core_foldl_addEdge, core_setTerminator, foldl_withItemOnce]

/-- The graph at the start of a branch: three new blocks, and the given block ends with the test. -/
def branching (g : FlowGraph) (c : BlockId) (test : Expr) : FlowGraph :=
  (g.addBlock.addBlock.addBlock.addElement c (.condition test)).ended c
    (.branch test g.nextId g.addBlock.nextId) [g.nextId, g.addBlock.nextId]

section

variable (hc : g.core c = some { elements := xs }) (test : Expr)

include hc

theorem core_branching (b : BlockId) : (g.branching c test).core b =
      if b = c then some { elements := xs ++ [.condition test]
                           terminator := some (.branch test g.nextId g.addBlock.nextId)
                           successors := [g.nextId, g.addBlock.nextId] }
      else g.addBlock.addBlock.addBlock.core b := by
  have hc' := core_addBlock_old (core_addBlock_old (core_addBlock_old hc))
  simp_all [branching, nextId, core_addElement, core_ended]

theorem core_branching_new
    (hb : b ∈ [g.nextId, g.addBlock.nextId, g.addBlock.addBlock.nextId]) : (g.branching c test).core b = some {} := by
  have hlt := index_lt_of_core hc
  simp only [List.mem_cons, List.not_mem_nil, or_false] at hb
  have hne : b ≠ c := by
    rintro rfl
    rcases hb with hb | hb | hb <;> simp [hb] at hlt <;> omega
  rw [core_branching hc, if_neg hne]
  grind [core_addBlock_old, core_addBlock_new]

/-- The graph at the start of a loop: four new blocks, the first of which is the head of the
loop. -/
def looping (g : FlowGraph) (c : BlockId) (head : Element) : FlowGraph :=
  ((g.addBlock.addBlock.addBlock.addBlock.ended c (.goto g.nextId) [g.nextId]).addElement g.nextId head).ended g.nextId
    (.loop g.addBlock.nextId g.addBlock.addBlock.nextId) [g.addBlock.nextId, g.addBlock.addBlock.nextId]

theorem core_looping (head : Element) (b : BlockId) : (g.looping c head).core b =
      if b = c then some { elements := xs, terminator := some (.goto g.nextId), successors := [g.nextId] }
      else if b = g.nextId then some { elements := [head]
                                       terminator := some (.loop g.addBlock.nextId g.addBlock.addBlock.nextId)
                                       successors := [g.addBlock.nextId, g.addBlock.addBlock.nextId] }
      else g.addBlock.addBlock.addBlock.addBlock.core b := by
  have hne : c ≠ g.nextId := by
    rintro rfl
    simp [core_nextId] at hc
  have hc' := core_addBlock_old (core_addBlock_old (core_addBlock_old (core_addBlock_old hc)))
  have hhead := core_addBlock_old (core_addBlock_old (core_addBlock_old g.core_addBlock_new))
  have hgoto := fun b => core_ended _ b c (.goto g.nextId) [g.nextId] xs hc' (by simp)
  have hadd := fun b => core_addElement
    (g.addBlock.addBlock.addBlock.addBlock.ended c (.goto g.nextId) [g.nextId]) b g.nextId head
  unfold looping
  rw [core_ended _ b g.nextId _ _ [head]]
  · grind
  · grind
  · simp [nextId]

theorem core_looping_new (head : Element)
    (hb : b ∈ [g.addBlock.nextId, g.addBlock.addBlock.nextId, g.addBlock.addBlock.addBlock.nextId]) :
    (g.looping c head).core b = some {} := by
  have hlt := index_lt_of_core hc
  simp only [List.mem_cons, List.not_mem_nil, or_false] at hb
  have hne : b ≠ c ∧ b ≠ g.nextId := by
    constructor <;> rintro rfl <;> rcases hb with hb | hb | hb <;>
      have := congrArg BlockId.index hb <;> simp at this hlt <;> omega
  rw [core_looping hc, if_neg hne.1, if_neg hne.2]
  grind [core_addBlock_old, core_addBlock_new]

end

theorem isOpen_of_core (h : g.core b = some { elements := xs }) : g.isOpen b = true := by
  unfold core at h
  unfold isOpen
  cases hb : g.block? b with
  | none => simp [hb] at h
  | some block =>
    simp_all [Block.core]

end FlowGraph

namespace FlowDraft

variable {d d' : FlowDraft} {orelse : FlowM Unit} {xs : List Element} {α : Type}
variable {β : Type} {test : Expr} {body : LoopExits → FlowM Unit} {head : Element} (b : BlockId)
variable (t : Terminator) (targets : List BlockId)

theorem bind_eq_ok (m : FlowM α) (f : α → FlowM β) (d d' : FlowDraft) (b : β) :
    (m >>= f) d = .ok (b, d') ↔ ∃ a e, m d = .ok (a, e) ∧ f a e = .ok (b, d') := by
  simp only [bind, StateT.bind, Except.bind]
  cases h : m d with
  | error err => simp
  | ok p =>
    grind

theorem bind_of_ok {m : FlowM α} {f : α → FlowM β} {e : FlowDraft} {a : α} (h : m d = .ok (a, e)) : (m >>= f) d = f a e := by
  simp only [bind, StateT.bind, Except.bind, h]

@[simp] theorem newBlock_apply (d : FlowDraft) :
    newBlock d = .ok (d.graph.nextId, { d with graph := d.graph.addBlock }) := rfl

@[simp] theorem continueIn_apply (d : FlowDraft) :
    continueIn b d = .ok ((), { d with current := b }) := rfl

@[simp] theorem addElement_apply (x : Element) (d : FlowDraft) :
    addElement x d = .ok ((), { d with graph := d.graph.addElement d.current x }) := rfl

@[simp] theorem change_apply (f : FlowGraph → FlowGraph) (d : FlowDraft) :
    change f d = .ok ((), { d with graph := f d.graph }) := rfl

@[simp] theorem terminate_apply (d : FlowDraft) :
    terminate b t targets d = .ok ((), { d with graph := d.graph.ended b t targets }) := rfl

@[simp] theorem get_apply (d : FlowDraft) : (get : FlowM FlowDraft) d = .ok (d, d) := rfl

@[simp] theorem pure_apply (a : α) (d : FlowDraft) : (pure a : FlowM α) d = .ok (a, d) := rfl

@[simp] theorem throw_apply (err : Unsupported) (d : FlowDraft) : (throw err : FlowM α) d = .error err := rfl

theorem leave_apply (d : FlowDraft) :
    leave t targets d = .ok ((), { graph := (d.graph.ended d.current t targets).addBlock
                                   current := (d.graph.ended d.current t targets).nextId }) := rfl

theorem fallThrough_apply (target : BlockId) (d : FlowDraft) (h : d.graph.isOpen d.current = true) :
    fallThrough target d = .ok ((), { d with graph := d.graph.ended d.current (.goto target) [target] }) := by
  show (if d.graph.isOpen d.current then terminate d.current (.goto target) [target] else pure ()) d = _
  rw [if_pos h]
  rfl

/-- From the draft, the action leads to a graph in which control goes on to the target. -/
def Falls (action : FlowM Unit) (d : FlowDraft) (target : BlockId) (g : FlowGraph) : Prop :=
  ∃ d1 d2, action d = .ok ((), d1) ∧ fallThrough target d1 = .ok ((), d2) ∧ d2.graph = g

/-- One action after the other, each from a block of its own to a target. -/
theorem falls_twice {first second : FlowM Unit} {mid next last : BlockId} (h : (do
      first
      fallThrough mid
      continueIn next
      second
      fallThrough last
      continueIn last : FlowM Unit) d = .ok ((), d')) :
    ∃ g1 g2, Falls first d mid g1 ∧ Falls second { graph := g1, current := next } last g2 ∧
    d' = { graph := g2, current := last } := by
  obtain ⟨_, d1, h1, h⟩ := (bind_eq_ok _ _ _ _ _).1 h
  obtain ⟨_, d2, h2, h⟩ := (bind_eq_ok _ _ _ _ _).1 h
  rw [bind_of_ok (continueIn_apply _ _)] at h
  obtain ⟨_, d3, h3, h⟩ := (bind_eq_ok _ _ _ _ _).1 h
  obtain ⟨_, d4, h4, h⟩ := (bind_eq_ok _ _ _ _ _).1 h
  cases h
  exact ⟨_, _, ⟨d1, d2, h1, h2, rfl⟩, ⟨d3, d4, h3, h4, rfl⟩, rfl⟩

/-- The two bodies of a branch are built each from a block of its own to where they meet. -/
theorem branch_run {body : FlowM Unit} (h : branch test body orelse d = .ok ((), d')) : ∃ g1 g2,
      Falls body { graph := d.graph.branching d.current test, current := d.graph.nextId }
        d.graph.addBlock.addBlock.nextId g1 ∧
      Falls orelse { graph := g1, current := d.graph.addBlock.nextId } d.graph.addBlock.addBlock.nextId g2 ∧
      d' = { graph := g2, current := d.graph.addBlock.addBlock.nextId } :=
  falls_twice h

/-- The body of a loop is built from a block of its own back to the head, and its `else` to the
block behind it. -/
theorem loop_run (hc : d.graph.core d.current = some { elements := xs })
    (h : loop head body orelse d = .ok ((), d')) : ∃ g1 g2,
      Falls (body { continueTo := d.graph.nextId, breakTo := d.graph.addBlock.addBlock.addBlock.nextId })
        { graph := d.graph.looping d.current head, current := d.graph.addBlock.nextId } d.graph.nextId g1 ∧
      Falls orelse { graph := g1, current := d.graph.addBlock.addBlock.nextId } d.graph.addBlock.addBlock.addBlock.nextId g2 ∧
      d' = { graph := g2, current := d.graph.addBlock.addBlock.addBlock.nextId } := by
  have hopen := FlowGraph.isOpen_of_core (FlowGraph.core_addBlock_old (FlowGraph.core_addBlock_old
    (FlowGraph.core_addBlock_old (FlowGraph.core_addBlock_old hc))))
  have h : (do
      fallThrough d.graph.nextId
      change (·.addElement d.graph.nextId head)
      terminate d.graph.nextId (.loop d.graph.addBlock.nextId d.graph.addBlock.addBlock.nextId)
        [d.graph.addBlock.nextId, d.graph.addBlock.addBlock.nextId]
      continueIn d.graph.addBlock.nextId
      body { continueTo := d.graph.nextId, breakTo := d.graph.addBlock.addBlock.addBlock.nextId }
      fallThrough d.graph.nextId
      continueIn d.graph.addBlock.addBlock.nextId
      orelse
      fallThrough d.graph.addBlock.addBlock.addBlock.nextId
      continueIn d.graph.addBlock.addBlock.addBlock.nextId : FlowM Unit)
        { graph := d.graph.addBlock.addBlock.addBlock.addBlock, current := d.current } = .ok ((), d') := h
  rw [bind_of_ok (fallThrough_apply _ _ hopen), bind_of_ok (change_apply _ _),
    bind_of_ok (terminate_apply _ _ _ _), bind_of_ok (continueIn_apply _ _)] at h
  exact falls_twice h

end FlowDraft

namespace FlowGraph

/-- The graph of a body is that of its statements, with a return at the end if control can come
there. -/
theorem ofBody_eq (body : List Stmt) : ofBody body = ((do
    FlowDraft.addBlock none body
    let d ← get
    if d.graph.isOpen d.current then FlowDraft.terminate d.current (.returned none) [exit] : FlowM Unit) {}).map
      fun p => p.2.graph := by
  show Except.bind _ _ = _
  unfold Except.bind Except.map
  split <;> rfl

end FlowGraph

end PythonTypes
