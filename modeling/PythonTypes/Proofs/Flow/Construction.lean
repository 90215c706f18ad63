import PythonTypes.Proofs.Flow.Linking
import PythonTypes.Proofs.Tree.Traversal
import Mathlib.Data.Multiset.AddSub

/-!
# Building a graph as a sequence of steps

While a graph is being built, some of its blocks are unfinished: they still lack a terminator. A
`Step` adds a block, which is unfinished, adds an element to an unfinished block, or finishes a
block. What steps keep is the shape of the graph (`FlowGraph.Shaped`), and blocks that are finished
stay as they are (`FlowGraph.Shaped.core_finished`).
-/

set_option autoImplicit false

namespace PythonTypes

/-- Where control goes from a block that ends so. -/
def Terminator.targets : Terminator → List BlockId
  | goto target => [target]
  | branch _ thenBlock elseBlock => [thenBlock, elseBlock]
  | loop body exit => [body, exit]
  | returned _ => [FlowGraph.exit]
  | unreachable => []

namespace Stmt

/-- What a statement itself brings to a graph, apart from the statements in its blocks. -/
def elements : Stmt → List Element
  | ifStmt _ test _ _ => [.condition test]
  | whileStmt _ test _ _ => [.condition test]
  | forStmt _ target iter _ _ => [.loopTarget target iter]
  | withStmt _ items _ => items.map .withItem
  | breakStmt _ => []
  | continueStmt _ => []
  | s => [.stmt s]

/-- What statements bring to a graph, those in their blocks included. -/
def elementsAll (body : List Stmt) : List Element := (flatten body).flatMap elements

@[simp] theorem elementsAll_nil : elementsAll [] = [] := by
  simp [elementsAll, flatten]

theorem elementsAll_append (xs ys : List Stmt) : elementsAll (xs ++ ys) = elementsAll xs ++ elementsAll ys := by
  simp_all [elementsAll, flatten_append]

theorem elementsAll_cons (s : Stmt) (rest : List Stmt) :
    elementsAll (s :: rest) = s.elements ++ elementsAll s.childBlocks.flatten ++ elementsAll rest := by
  simp_all [elementsAll, flatten_cons]

end Stmt

namespace FlowGraph

/-- Whether an edge may lead to a block. -/
def Enterable (g : FlowGraph) (b : BlockId) : Prop := g.Has b ∧ b ≠ entry

/-- A step of building a graph with some unfinished blocks, and the elements that it adds. -/
inductive Step : FlowGraph → Multiset BlockId → List Element → FlowGraph → Multiset BlockId → Prop
  | block (g : FlowGraph) (rest : Multiset BlockId) : Step g rest [] g.addBlock (g.nextId ::ₘ rest)
  | element (g : FlowGraph) (b : BlockId) (rest : Multiset BlockId) (x : Element) :
    Step g (b ::ₘ rest) [x] (g.addElement b x) (b ::ₘ rest)
  | finish (g : FlowGraph) (b : BlockId) (rest : Multiset BlockId) (t : Terminator) (hnodup : t.targets.Nodup)
    (htargets : ∀ c ∈ t.targets, g.Enterable c) : Step g (b ::ₘ rest) [] (g.ended b t t.targets) rest

/-- Steps one after the other. -/
inductive Steps (g : FlowGraph) (unfinished : Multiset BlockId) : List Element → FlowGraph → Multiset BlockId → Prop
  | refl : Steps g unfinished [] g unfinished
  | tail {xs ys : List Element} {g1 g2 : FlowGraph} {u1 u2 : Multiset BlockId} :
    Steps g unfinished xs g1 u1 → Step g1 u1 ys g2 u2 → Steps g unfinished (xs ++ ys) g2 u2

/-- The shape of a graph with some unfinished blocks, on which nothing but elements has been put.
Every other block is finished, with edges to where its terminator leads; the exit alone stays empty,
and nothing leads to the entry. -/
structure Shaped (g : FlowGraph) (unfinished : Multiset BlockId) : Prop where
  linked : g.Linked
  nodup_predecessors : ∀ b, (g.predecessors b).Nodup
  entry : g.predecessors entry = []
  exit : g.core exit = some {}
  nodup : unfinished.Nodup
  ne_exit : FlowGraph.exit ∉ unfinished
  open_blocks : ∀ b ∈ unfinished, ∃ xs, g.core b = some { elements := xs }
  finished : ∀ b block, g.core b = some block → b ≠ FlowGraph.exit → b ∉ unfinished →
    ∃ t, block.terminator = some t ∧ block.successors = t.targets ∧ t.targets.Nodup

section Steps

variable {g g1 g2 : FlowGraph} {u u1 u2 : Multiset BlockId} {xs ys : List Element} {b : BlockId}

theorem Steps.single (h : Step g u xs g1 u1) : Steps g u xs g1 u1 := .tail .refl h

theorem Steps.trans (h : Steps g u xs g1 u1) (h' : Steps g1 u1 ys g2 u2) : Steps g u (xs ++ ys) g2 u2 := by
  induction h' with
  | refl => rwa [List.append_nil]
  | tail _ hstep ih => exact List.append_assoc .. ▸ ih.tail hstep

theorem Step.size_le (h : Step g u xs g1 u1) : g.blocks.size ≤ g1.blocks.size := by
  cases h with
  | block => simp
  | element b rest x => exact (g.size_update b _).ge
  | finish => simp

theorem Steps.size_le (h : Steps g u xs g1 u1) : g.blocks.size ≤ g1.blocks.size := by
  induction h with
  | refl => exact le_rfl
  | tail _ hstep ih => exact ih.trans hstep.size_le

theorem Steps.has (h : Steps g u xs g1 u1) (hb : g.Has b) : g1.Has b := lt_of_lt_of_le hb h.size_le

theorem Steps.enterable (h : Steps g u xs g1 u1) (hb : g.Enterable b) : g1.Enterable b := hb.imp_left h.has

theorem enterable_iff : g.Enterable b ↔ b.index < g.blocks.size ∧ b.index ≠ 0 :=
  and_congr_right fun _ => not_congr ⟨congrArg BlockId.index, congrArg BlockId.mk⟩

theorem has_of_core {block : Block} (h : g.core b = some block) : g.Has b := index_lt_of_core h

namespace Shaped

theorem has_unfinished (h : g.Shaped u) (hb : b ∈ u) : g.Has b := by
  grind [open_blocks, has_of_core]

theorem one_lt_size (h : g.Shaped u) : 1 < g.blocks.size := has_of_core h.exit

theorem has_entry (h : g.Shaped u) : g.Has FlowGraph.entry := Nat.zero_lt_of_lt h.one_lt_size

theorem enterable_exit (h : g.Shaped u) : g.Enterable FlowGraph.exit := enterable_iff.2 ⟨h.one_lt_size, Nat.one_ne_zero⟩

theorem addBlock (h : g.Shaped u) : g.addBlock.Shaped (g.nextId ::ₘ u) := by
  have hfresh : ∀ {b : BlockId}, g.Has b → b ≠ g.nextId := fun hb heq => by
    subst heq
    exact Nat.lt_irrefl _ hb
  constructor
  case linked => exact h.linked.addBlock
  case nodup_predecessors => simpa using h.nodup_predecessors
  case entry => simpa using h.entry
  case exit => exact core_addBlock_old h.exit
  case nodup => exact Multiset.nodup_cons.2 ⟨fun hmem => hfresh (h.has_unfinished hmem) rfl, h.nodup⟩
  case ne_exit => simpa [h.ne_exit] using hfresh h.enterable_exit.1
  case open_blocks =>
    intro b hb
    rcases Multiset.mem_cons.1 hb with rfl | hb
    · exact ⟨[], g.core_addBlock_new⟩
    · grind [open_blocks, core_addBlock_old]
  case finished =>
    grind [core_addBlock, finished]

theorem addElement (h : g.Shaped (b ::ₘ u)) (x : Element) : (g.addElement b x).Shaped (b ::ₘ u) := by
  have hb : b ∈ b ::ₘ u := Multiset.mem_cons_self b u
  have hother : ∀ {c : BlockId}, c ≠ b → (g.addElement b x).core c = g.core c := fun hc => by rw [core_addElement, if_neg hc]
  constructor
  case linked => exact h.linked.update b (fun _ => rfl) fun _ => rfl
  case nodup_predecessors => simpa using h.nodup_predecessors
  case entry => simpa using h.entry
  case exit =>
    grind [ne_exit, exit]
  case nodup => exact h.nodup
  case ne_exit => exact h.ne_exit
  case open_blocks =>
    grind [open_blocks, core_addElement]
  case finished =>
    grind [finished]

theorem ended (h : g.Shaped (b ::ₘ u)) (t : Terminator) (hnodup : t.targets.Nodup)
    (htargets : ∀ c ∈ t.targets, g.Enterable c) : (g.ended b t t.targets).Shaped u := by
  have hb : b ∈ b ::ₘ u := Multiset.mem_cons_self b u
  obtain ⟨hbu, hu⟩ := Multiset.nodup_cons.1 h.nodup
  obtain ⟨xs, hxs⟩ := h.open_blocks b hb
  have hexists : ∀ c ∈ t.targets, g.Has c := fun c hc => (htargets c hc).1
  have hcore := fun c => core_ended g c b t t.targets xs hxs hnodup
  constructor
  case linked => exact h.linked.ended (has_of_core hxs) t hexists
  case nodup_predecessors =>
    intro c
    refine ended_induction (P := fun g' => (g'.predecessors c).Nodup) (has_of_core hxs) t hexists ?_ ?_
    · simpa using h.nodup_predecessors c
    · grind [predecessors_addEdge, nodup_withItemOnce]
  case entry =>
    refine ended_induction (P := fun g' => g'.predecessors FlowGraph.entry = []) (has_of_core hxs) t hexists ?_ ?_
    · simpa using h.entry
    · intro g' target hmem _ htarget hg'
      rw [predecessors_addEdge htarget, if_neg (htargets target hmem).2.symm]
      exact hg'
  case exit =>
    grind [ne_exit, exit]
  case nodup => exact hu
  case ne_exit => exact fun hmem => h.ne_exit (Multiset.mem_cons_of_mem hmem)
  case open_blocks =>
    intro c hc
    rw [hcore, if_neg (ne_of_mem_of_not_mem hc hbu)]
    exact h.open_blocks c (Multiset.mem_cons_of_mem hc)
  case finished =>
    grind [finished]

theorem step (h : g.Shaped u) (hstep : Step g u xs g1 u1) : g1.Shaped u1 := by
  cases hstep with
  | block => exact h.addBlock
  | element b rest x => exact h.addElement x
  | finish b rest t hnodup htargets => exact h.ended t hnodup htargets

/-- The run lemma: steps keep the shape. -/
theorem steps (h : g.Shaped u) (hsteps : Steps g u xs g1 u1) : g1.Shaped u1 := by
  induction hsteps with
  | refl => exact h
  | tail _ hstep ih => exact ih.step hstep

/-- A step adds to blocks at most, and leaves those alone that are finished. -/
theorem extends_step (h : g.Shaped u) (hstep : Step g u xs g1 u1) {x : Block} (hx : g.core b = some x) :
    ∃ y, g1.core b = some y ∧ x.elements <+: y.elements ∧ (x.terminator.isSome → y = x) := by
  cases hstep with
  | block => exact ⟨x, core_addBlock_old hx, List.prefix_refl _, fun _ => rfl⟩
  | element c rest a =>
    obtain ⟨zs, hzs⟩ := h.open_blocks c (Multiset.mem_cons_self c _)
    rw [core_addElement]
    split
    · obtain rfl : x = { elements := zs } := by simp_all
      exact ⟨_, by rw [hx]; rfl, List.prefix_append _ _, nofun⟩
    · exact ⟨x, hx, List.prefix_refl _, fun _ => rfl⟩
  | finish c rest t hnodup _ =>
    obtain ⟨zs, hzs⟩ := h.open_blocks c (Multiset.mem_cons_self c _)
    rw [core_ended g b c t t.targets zs hzs hnodup]
    split
    · obtain rfl : x = { elements := zs } := by simp_all
      exact ⟨_, rfl, List.prefix_refl _, nofun⟩
    · exact ⟨x, hx, List.prefix_refl _, fun _ => rfl⟩

theorem extends_steps (h : g.Shaped u) (hsteps : Steps g u xs g1 u1) {x : Block} (hx : g.core b = some x) :
    ∃ y, g1.core b = some y ∧ x.elements <+: y.elements ∧ (x.terminator.isSome → y = x) := by
  induction hsteps with
  | refl => exact ⟨x, hx, List.prefix_refl _, fun _ => rfl⟩
  | tail hsteps hstep ih =>
    obtain ⟨y, hy, hprefix, hsame⟩ := ih
    obtain ⟨z, hz, hprefix', hsame'⟩ := (h.steps hsteps).extends_step hstep hy
    exact ⟨z, hz, hprefix.trans hprefix', fun hx => by grind⟩

theorem core_finished (h : g.Shaped u) (hsteps : Steps g u xs g1 u1) {x : Block}
    (hx : g.core b = some x) (hfinished : x.terminator.isSome) : g1.core b = some x := by
  obtain ⟨y, hy, -, hsame⟩ := h.extends_steps hsteps hx
  exact hsame hfinished ▸ hy

end Shaped

theorem shaped_start : start.Shaped {entry} := by
  constructor
  case linked => exact linked_start
  case nodup_predecessors => simp [predecessors_start]
  case entry => rfl
  case exit => rfl
  case nodup => exact Multiset.nodup_singleton _
  case ne_exit => simp [entry, FlowGraph.exit]
  case open_blocks =>
    intro b hb
    obtain rfl := Multiset.mem_singleton.1 hb
    exact ⟨[], rfl⟩
  case finished =>
    intro b block hblock hexit hb
    have hlt : b.index < 2 := index_lt_of_core hblock
    have hentry : b.index ≠ 0 := fun heq => hb (Multiset.mem_singleton.2 (congrArg BlockId.mk heq))
    exact absurd (congrArg BlockId.mk (show b.index = 1 by omega)) hexit

/-- Steps that leave the blocks `rest` as they are. -/
structure StepsBeside (rest : Multiset BlockId) (g : FlowGraph) (u : Multiset BlockId)
    (xs : List Element) (g1 : FlowGraph) (u1 : Multiset BlockId) : Prop where
  steps : Steps g u xs g1 u1
  kept : ∀ b ∈ rest, g1.core b = g.core b

theorem StepsBeside.trans {rest rest' v : Multiset BlockId} (h : StepsBeside rest g u xs g1 u1)
    (h' : StepsBeside rest' g1 u1 ys g2 u2)
    (hrest : ∀ b ∈ v, b ∈ rest ∧ b ∈ rest' := by simp +contextual) : StepsBeside v g u (xs ++ ys) g2 u2 :=
  ⟨h.steps.trans h'.steps, fun b hb => (h'.kept b (hrest b hb).2).trans (h.kept b (hrest b hb).1)⟩

namespace Shaped

section

variable (h : g.Shaped (b ::ₘ u))

include h

theorem ne_of_mem {c : BlockId} (hc : c ∈ u) : c ≠ b :=
  ne_of_mem_of_not_mem hc (Multiset.nodup_cons.1 h.nodup).1

theorem finish (t : Terminator) (hnodup : t.targets.Nodup) (htargets : ∀ c ∈ t.targets, g.Enterable c) :
    StepsBeside u g (b ::ₘ u) [] (g.ended b t t.targets) u := by
  obtain ⟨zs, hzs⟩ := h.open_blocks b (Multiset.mem_cons_self b u)
  refine ⟨.single (.finish g b u t hnodup htargets), fun c hc => ?_⟩
  rw [core_ended g c b t t.targets zs hzs hnodup, if_neg (h.ne_of_mem hc)]

/-- A branch starts with a block for either of its bodies and one where they meet. -/
theorem branching (test : Expr) : StepsBeside u g (b ::ₘ u) [.condition test] (g.branching b test)
      (g.nextId ::ₘ g.addBlock.nextId ::ₘ g.addBlock.addBlock.nextId ::ₘ u) := by
  have hblocks : Steps g (b ::ₘ u) [] g.addBlock.addBlock.addBlock
      (b ::ₘ g.nextId ::ₘ g.addBlock.nextId ::ₘ g.addBlock.addBlock.nextId ::ₘ u) := by
    have hnew := ((Steps.single (.block g (b ::ₘ u))).tail (.block _ _)).tail (.block _ _)
    simpa only [List.append_nil, Multiset.cons_swap] using hnew
  have hsize := h.one_lt_size
  refine ⟨(hblocks.tail (.element _ b _ (.condition test))).tail
    (.finish _ b _ (.branch test g.nextId g.addBlock.nextId) ?_ ?_), fun c hc => ?_⟩
  · simp [Terminator.targets, nextId]
  · intro c hc
    rw [enterable_iff, size_addElement]
    rcases List.mem_pair.1 hc with rfl | rfl <;> simp only [nextId_index, size_addBlock] <;> omega
  · obtain ⟨xs, hxs⟩ := h.open_blocks b (Multiset.mem_cons_self b u)
    obtain ⟨ys, hys⟩ := h.open_blocks c (Multiset.mem_cons_of_mem hc)
    rw [core_branching hxs, if_neg (h.ne_of_mem hc), hys]
    exact core_addBlock_old (core_addBlock_old (core_addBlock_old hys))

/-- A loop starts with its head, a block for its body, one for its `else` and one behind it. -/
theorem looping (head : Element) : StepsBeside u g (b ::ₘ u) [head] (g.looping b head)
      (g.addBlock.nextId ::ₘ g.addBlock.addBlock.nextId ::ₘ g.addBlock.addBlock.addBlock.nextId ::ₘ u) := by
  have hblocks : Steps g (b ::ₘ u) [] g.addBlock.addBlock.addBlock.addBlock
      (b ::ₘ g.nextId ::ₘ g.addBlock.nextId ::ₘ g.addBlock.addBlock.nextId ::ₘ
        g.addBlock.addBlock.addBlock.nextId ::ₘ u) := by
    have hnew := (((Steps.single (.block g (b ::ₘ u))).tail (.block _ _)).tail (.block _ _)).tail (.block _ _)
    simpa only [List.append_nil, Multiset.cons_swap] using hnew
  have hsize := h.one_lt_size
  refine ⟨((hblocks.tail (.finish _ b _ (.goto g.nextId) (List.nodup_singleton _) ?_)).tail (.element _ g.nextId _ head)).tail
    (.finish _ g.nextId _ (.loop g.addBlock.nextId g.addBlock.addBlock.nextId) ?_ ?_), fun c hc => ?_⟩
  · intro c hc
    obtain rfl := List.mem_singleton.1 hc
    grind [enterable_iff, nextId_index, size_addBlock]
  · simp [Terminator.targets, nextId]
  · intro c hc
    rw [enterable_iff, size_addElement, size_ended]
    rcases List.mem_pair.1 hc with rfl | rfl <;> simp only [nextId_index, size_addBlock] <;> omega
  · obtain ⟨xs, hxs⟩ := h.open_blocks b (Multiset.mem_cons_self b u)
    obtain ⟨ys, hys⟩ := h.open_blocks c (Multiset.mem_cons_of_mem hc)
    have hne : c ≠ g.nextId := by
      rintro rfl
      simp [core_nextId] at hys
    rw [core_looping hxs, if_neg (h.ne_of_mem hc), if_neg hne, hys]
    exact core_addBlock_old (core_addBlock_old (core_addBlock_old (core_addBlock_old hys)))

end

end Shaped

end Steps

end FlowGraph

end PythonTypes
