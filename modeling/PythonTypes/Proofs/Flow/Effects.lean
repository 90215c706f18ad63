import PythonTypes.Proofs.Flow.Solver

/-!
# Solving an analysis with effects

Joining facts and leading them through a block may change a state. What every evaluation of a block
keeps of the facts and of the state holds after the last evaluation (`Analysis.run_keeps`), whether
the solver converged or was stopped.

The facts of a block are justified by the facts that meet at it, in a sense that may depend on the
state in which the block was evaluated. As in an analysis without effects, the facts of every block
that is not due are justified by the facts of the moment (`Analysis.Justified`).
-/

set_option autoImplicit false

namespace PythonTypes.Analysis

variable {σ φ : Type}

theorem evaluate_state [BEq φ] (a : Analysis (StateM σ) φ) (g : FlowGraph) (P : σ → Prop)
    (hjoin : ∀ facts s, P s → P (a.join facts s).2) (htransfer : ∀ b block fact s, P s → P (a.transfer b block fact s).2)
    (solution : Solution φ) (b : BlockId) {s : σ} (hs : P s) : P (a.evaluate g solution b s).2 := by
  have hbefore : ∀ block, P (a.factBefore solution b block s).2 := by
    intro block
    unfold factBefore
    cases a.incoming solution b block with
    | nil => exact hs
    | cons fact rest => exact hjoin _ s hs
  unfold evaluate
  cases g.block? b with
  | none => exact hs
  | some block => exact htransfer b block _ _ (hbefore block)

/-- The solutions that the solver passes through, one for each evaluation. -/
def trace [BEq φ] (a : Analysis (StateM σ) φ) (g : FlowGraph) : Nat → Solution φ → σ → List (Solution φ)
  | 0, _, _ => []
  | remaining + 1, solution, s =>
    match solution.queue with
    | [] => []
    | b :: rest =>
      let r := a.evaluate g { solution with queue := rest, iterations := solution.iterations + 1 } b s
      r.1 :: trace a g remaining r.1 r.2

/-- What every evaluation keeps holds after the last one. A solver that was stopped gives the facts
before blocks of that moment, and one that was not has nothing left to evaluate. -/
theorem run_keeps [BEq φ] (a : Analysis (StateM σ) φ) (g : FlowGraph) (I : Solution φ → σ → Prop) (T : Solution φ → Prop)
    (hstep : ∀ solution b rest s, solution.queue = b :: rest → I solution s →
      let r := a.evaluate g { solution with queue := rest, iterations := solution.iterations + 1 } b s
      T r.1 → I r.1 r.2) (remaining : Nat) (solution : Solution φ) (s : σ) (h : I solution s)
    (htrace : ∀ x ∈ a.trace g remaining solution s, T x) :
    ∃ last, I last (a.run g remaining solution s).2 ∧ (a.run g remaining solution s).1.before = last.before ∧
      ((a.run g remaining solution s).1 = last ∧ last.queue = [] ∨ (a.run g remaining solution s).1.converged = false) := by
  induction remaining generalizing solution s with
  | zero =>
    unfold run
    cases hqueue : solution.queue with
    | nil => exact ⟨solution, h, rfl, .inl ⟨rfl, hqueue⟩⟩
    | cons b rest => exact ⟨solution, h, rfl, .inr rfl⟩
  | succ remaining ih =>
    unfold run
    unfold trace at htrace
    cases hqueue : solution.queue with
    | nil => exact ⟨solution, h, rfl, .inl ⟨rfl, hqueue⟩⟩
    | cons b rest =>
      rw [hqueue] at htrace
      obtain ⟨hfirst, hrest⟩ := List.forall_mem_cons.1 htrace
      exact ih _ _ (hstep solution b rest s hqueue h hfirst) hrest

theorem solve_state [BEq φ] (a : Analysis (StateM σ) φ) (g : FlowGraph) (P : σ → Prop)
    (hjoin : ∀ facts s, P s → P (a.join facts s).2) (htransfer : ∀ b block fact s, P s → P (a.transfer b block fact s).2)
    (maxIterations : Nat) {s : σ} (hs : P s) : P (a.solve g maxIterations s).2 := by
  obtain ⟨-, hlast, -⟩ := a.run_keeps g (fun _ s => P s) (fun _ => True)
    (fun _ b _ _ _ hP _ => a.evaluate_state g P hjoin htransfer _ b hP) maxIterations (a.start g) s hs fun _ _ => trivial
  exact hlast

/-! ## Facts that are justified -/

variable {a : Analysis (StateM σ) φ} {g : FlowGraph} {solution : Solution φ} {b : BlockId}
  {block : Block} {rest : List BlockId} {J : BlockId → Block → List φ → φ → φ → Prop}

theorem incoming_congr {solution' : Solution φ}
    (h : ∀ p ∈ block.predecessors, solution'.after.get? p = solution.after.get? p) :
    a.incoming solution' b block = a.incoming solution b block := by
  unfold incoming
  rw [List.filterMap_congr h]

/-- What holds between evaluations: facts behind exactly the reachable blocks, and the facts of
every block that is not due are justified by the facts that meet at it. -/
structure Justified (a : Analysis (StateM σ) φ) (g : FlowGraph)
    (J : BlockId → Block → List φ → φ → φ → Prop) (solution : Solution φ) : Prop where
  queued : ∀ b ∈ solution.queue, g.Reachable b
  after_iff : ∀ b, (solution.after.get? b).isSome ↔ g.Reachable b
  settled : ∀ b block, g.Reachable b → g.block? b = some block → b ∉ solution.queue →
    ∃ before after, solution.before.get? b = some before ∧ solution.after.get? b = some after ∧
      J b block (a.incoming solution b block) before after

namespace Justified

theorem start (a : Analysis (StateM σ) φ) (g : FlowGraph)
    (J : BlockId → Block → List φ → φ → φ → Prop) : a.Justified g J (a.start g) := by
  refine ⟨fun b hb => (g.mem_reversePostorder_iff b).1 hb, fun b => ?_, fun b block hreach _ hqueue => ?_⟩
  · unfold Analysis.start
    rw [OrderedMap.get?_ofList_const, ← g.mem_reversePostorder_iff]
    split <;> simp_all
  · exact absurd ((g.mem_reversePostorder_iff b).2 hreach) hqueue

theorem mono {J' : BlockId → Block → List φ → φ → φ → Prop} (h : a.Justified g J solution)
    (hJ : ∀ b block facts before after, J b block facts before after →
      J' b block facts before after) : a.Justified g J' solution := by
  refine ⟨h.queued, h.after_iff, fun b block hreach hb hqueue => ?_⟩
  obtain ⟨before, after, hbefore, hafter, hjustified⟩ := h.settled b block hreach hb hqueue
  exact ⟨before, after, hbefore, hafter, hJ _ _ _ _ _ hjustified⟩

theorem skip (h : a.Justified g J solution) (hqueue : solution.queue = b :: rest)
    (hb : g.block? b = none) (iterations : Nat) :
    a.Justified g J { solution with queue := rest, iterations } := by
  refine ⟨fun d hd => h.queued d (by simp [hqueue, hd]), h.after_iff, fun d x hd hx hnot => ?_⟩
  have hne : d ≠ b := by
    rintro rfl
    rw [hb] at hx
    cases hx
  exact h.settled d x hd hx (by simp [hqueue, hne, hnot])

/-- After an evaluation, the facts of the block are justified, and those that look at a changed fact
have become due. -/
theorem record [BEq φ] (h : a.Justified g J solution) (hsym : g.Symmetric) (hqueue : solution.queue = b :: rest)
    (hb : g.block? b = some block) {before after : φ} (hJ : J b block (a.incoming solution b block) before after)
    (hsame : ∀ old, (old == after) = true → J b block (a.incoming solution b block) before old) (iterations : Nat) :
    a.Justified g J (Solution.record { solution with queue := rest, iterations } b block before after) := by
  have hreach : g.Reachable b := h.queued b (by simp [hqueue])
  rcases Solution.record_cases { solution with queue := rest, iterations } b block before after with
    ⟨old, hold, heq, hrecord⟩ | ⟨-, hrecord⟩
  · rw [hrecord]
    refine ⟨fun d hd => h.queued d (by simp [hqueue, hd]), h.after_iff, fun d x hd hx hnot => ?_⟩
    by_cases hdb : d = b
    · subst hdb
      obtain rfl := Option.some.inj (hb.symm.trans hx)
      exact ⟨before, old, OrderedMap.get?_insert_self _ _ _, hold, hsame old heq⟩
    · obtain ⟨before', after', hbefore, hafter⟩ := h.settled d x hd hx (by simp [hqueue, hdb, hnot])
      exact ⟨before', after', (OrderedMap.get?_insert_of_ne _ hdb _).trans hbefore, hafter⟩
  · rw [hrecord]
    refine ⟨fun d hd => ?_, fun d => ?_, fun d x hd hx hnot => ?_⟩
    · rcases (Solution.mem_requeue _ _ _).1 hd with hd | hd
      · exact h.queued d (by simp [hqueue, hd])
      · exact hreach.tail (by simpa [FlowGraph.successors, hb] using hd)
    · grind [OrderedMap.get?_insert, after_iff]
    · rw [Solution.mem_requeue, not_or] at hnot
      -- A block that is not due does not look at the fact that has changed.
      have hsees : ∀ p ∈ x.predecessors, (solution.after.insert b after).get? p = solution.after.get? p := by
        intro p hp
        refine OrderedMap.get?_insert_of_ne _ ?_ _
        rintro rfl
        exact hnot.2 ((hsym p d block x hb hx).2 hp)
      rw [incoming_congr hsees]
      by_cases hdb : d = b
      · grind [OrderedMap.get?_insert_self]
      · obtain ⟨before', after', hbefore, hafter, hjustified⟩ := h.settled d x hd hx (by simp [hqueue, hdb, hnot.1])
        exact ⟨before', after', (OrderedMap.get?_insert_of_ne _ hdb _).trans hbefore,
          (OrderedMap.get?_insert_of_ne _ hdb _).trans hafter, hjustified⟩

end Justified

end PythonTypes.Analysis
