import PythonTypes.Flow.Solver
import PythonTypes.Proofs.Data.OrderedMap
import PythonTypes.Proofs.Flow.Reachability

/-!
# What the solver computes

For an analysis without effects, a solution that has converged satisfies the equations of the
analysis at every reachable block, and has no facts for any other block. The analysis need not be
monotone, nor its facts ordered: the invariant is that a block that is not in the queue satisfies
its equations with the facts of the moment. It survives an evaluation because a changed fact puts
all the blocks that look at it into the queue, the evaluated block itself included if it is its own
successor.
-/

set_option autoImplicit false

namespace PythonTypes

/-- Whether, among the blocks that exist, the edges out of blocks are the edges into blocks. -/
def FlowGraph.Symmetric (g : FlowGraph) : Prop :=
  ∀ b c x y, g.block? b = some x → g.block? c = some y → (c ∈ x.successors ↔ b ∈ y.predecessors)

theorem FlowGraph.symmetric_iff (g : FlowGraph) : g.Symmetric ↔ ∀ i j : Fin g.blocks.size,
    (⟨j⟩ ∈ g.blocks[i].successors ↔ ⟨i⟩ ∈ g.blocks[j].predecessors) := by
  constructor
  · intro h i j
    exact h ⟨i⟩ ⟨j⟩ _ _ (Array.getElem?_eq_getElem i.isLt) (Array.getElem?_eq_getElem j.isLt)
  · rintro h ⟨i⟩ ⟨j⟩ x y hx hy
    obtain ⟨hi, rfl⟩ := Array.getElem?_eq_some_iff.1 hx
    obtain ⟨hj, rfl⟩ := Array.getElem?_eq_some_iff.1 hy
    exact h ⟨i, hi⟩ ⟨j, hj⟩

instance (g : FlowGraph) : Decidable g.Symmetric := decidable_of_iff _ g.symmetric_iff.symm

/-- Whether two facts are the same, or pass as the same by the comparison that the solver uses. -/
def SameFact {φ : Type} [BEq φ] (x y : φ) : Prop := x = y ∨ (x == y) = true

theorem sameFact_iff {φ : Type} [BEq φ] [LawfulBEq φ] (x y : φ) : SameFact x y ↔ x = y := by
  simp [SameFact]

namespace Analysis

variable {φ : Type}

open Classical in
/-- The facts that meet at the start of a block, given the facts at the end of the blocks: those of
its reachable predecessors, in order, and the initial one on entry. -/
noncomputable def meeting (a : Analysis Id φ) (g : FlowGraph) (after : BlockId → φ) (b : BlockId)
    (block : Block) : List φ :=
  (block.predecessors.filter fun p => g.Reachable p).map after ++ if b = FlowGraph.entry then [a.initial] else []

/-- The forward equations of an analysis at the reachable blocks of a graph: the fact at the start
of a block joins the facts that meet there, and the fact at its end is what the block makes of
that. -/
def Solves [BEq φ] (a : Analysis Id φ) (g : FlowGraph) (before after : BlockId → φ) : Prop :=
  ∀ b block, g.Reachable b → g.block? b = some block →
    before b = Id.run (a.join (a.meeting g after b block)) ∧
      SameFact (after b) (Id.run (a.transfer b block (before b)))

/-- Whether the facts of a solution are the given ones at the reachable blocks, which satisfy the
equations, and there are no facts for other blocks. An id that only occurs as the target of an edge
has no block to evaluate, so nothing is before it. -/
structure SolvedBy [BEq φ] (a : Analysis Id φ) (g : FlowGraph) (s : Solution φ) (before after : BlockId → φ) : Prop where
  solves : a.Solves g before after
  before_eq : ∀ b, g.Reachable b → (g.block? b).isSome → s.before.get? b = some (before b)
  after_eq : ∀ b, g.Reachable b → s.after.get? b = some (after b)
  none_elsewhere : ∀ b, ¬ g.Reachable b → s.before.get? b = none ∧ s.after.get? b = none

end Analysis

namespace Solution

variable {φ : Type}

theorem mem_requeue (queue successors : List BlockId) (b : BlockId) :
    b ∈ requeue queue successors ↔ b ∈ queue ∨ b ∈ successors := by
  unfold requeue
  induction successors generalizing queue with
  | nil => simp
  | cons c rest ih =>
    grind

/-- What recording the facts of a block changes: always the fact before it, and the fact behind it
with the queue unless the old fact passes as the same. -/
theorem record_cases [BEq φ] (s : Solution φ) (b : BlockId) (block : Block) (factBefore factAfter : φ) :
    (∃ old, s.after.get? b = some old ∧ (old == factAfter) = true ∧
      s.record b block factBefore factAfter = { s with before := s.before.insert b factBefore }) ∨
    ((∀ old, s.after.get? b = some old → (old == factAfter) = false) ∧
      s.record b block factBefore factAfter =
        { s with before := s.before.insert b factBefore
                 after := s.after.insert b factAfter
                 queue := requeue s.queue block.successors }) := by
  unfold record
  cases h : s.after.get? b with
  | none => exact .inr ⟨by simp, by simp [h]⟩
  | some old =>
    cases hsame : old == factAfter with
    | true => exact .inl ⟨old, rfl, hsame, by simp [h, hsame, bne]⟩
    | false => exact .inr ⟨by simpa using hsame, by simp [h, hsame, bne]⟩

end Solution

namespace Analysis

variable {φ : Type}
variable {b : BlockId} {block : Block} {g : FlowGraph} {s : Solution φ}

theorem factBefore_congr (a : Analysis Id φ) {s' : Solution φ}
    (h : ∀ p ∈ block.predecessors, s'.after.get? p = s.after.get? p) :
    a.factBefore s' b block = a.factBefore s b block := by
  simp_all [incoming, factBefore]

/-- A solver that has converged has an empty queue, and what every evaluation preserves holds of
it. -/
theorem run_preserves [BEq φ] (a : Analysis Id φ) (g : FlowGraph) (P : Solution φ → Prop)
    (hstep : ∀ s b rest, s.queue = b :: rest → P s →
      P (Id.run (a.evaluate g { s with queue := rest, iterations := s.iterations + 1 } b)))
    (remaining : Nat) (s : Solution φ) (hs : P s) (hconverged : (Id.run (a.run g remaining s)).converged = true) :
    P (Id.run (a.run g remaining s)) ∧ (Id.run (a.run g remaining s)).queue = [] := by
  induction remaining generalizing s with
  | zero =>
    grind [run]
  | succ remaining ih =>
    grind [run]

/-- What holds between evaluations: facts behind exactly the reachable blocks, and every block that
is not due satisfies its equations with the facts of the moment. -/
structure Current [BEq φ] (a : Analysis Id φ) (g : FlowGraph) (s : Solution φ) : Prop where
  queued : ∀ b ∈ s.queue, g.Reachable b
  after_iff : ∀ b, (s.after.get? b).isSome ↔ g.Reachable b
  before_reachable : ∀ b, (s.before.get? b).isSome → g.Reachable b
  settled : ∀ b block, g.Reachable b → g.block? b = some block → b ∉ s.queue →
    s.before.get? b = some (Id.run (a.factBefore s b block)) ∧
      ∃ fact, s.after.get? b = some fact ∧
        SameFact fact (Id.run (a.transfer b block (Id.run (a.factBefore s b block))))

theorem current_start [BEq φ] (a : Analysis Id φ) (g : FlowGraph) : a.Current g (a.start g) := by
  refine ⟨fun b hb => (g.mem_reversePostorder_iff b).1 hb, ?_, ?_, ?_⟩
  · simp_all [start, OrderedMap.get?_ofList_const, FlowGraph.mem_reversePostorder_iff]
  · intro b hb
    simp [start] at hb
  · intro b block hreach _ hqueue
    exact absurd ((g.mem_reversePostorder_iff b).2 hreach) hqueue

theorem evaluate_of_block [BEq φ] (a : Analysis Id φ) (hb : g.block? b = some block) (s : Solution φ) :
    Id.run (a.evaluate g s b) = s.record b block (Id.run (a.factBefore s b block))
      (Id.run (a.transfer b block (Id.run (a.factBefore s b block)))) := by
  unfold evaluate
  rw [hb]
  rfl

theorem evaluate_of_no_block [BEq φ] (a : Analysis Id φ) (hb : g.block? b = none) (s : Solution φ) :
    Id.run (a.evaluate g s b) = s := by
  unfold evaluate
  rw [hb]
  rfl

section Evaluation

variable [BEq φ] {a : Analysis Id φ} {g : FlowGraph} {s : Solution φ} {b : BlockId} {block : Block} {rest : List BlockId}

theorem Current.before_reachable_insert (h : a.Current g s) (hreach : g.Reachable b) (fact : φ)
    (c : BlockId) (hc : ((s.before.insert b fact).get? c).isSome) : g.Reachable c := by
  grind [OrderedMap.get?_insert, before_reachable]

theorem Current.keep (h : a.Current g s) (hqueue : s.queue = b :: rest) (hb : g.block? b = some block) {old : φ}
    (hold : s.after.get? b = some old)
    (hsame : (old == Id.run (a.transfer b block (Id.run (a.factBefore s b block)))) = true) (iterations : Nat) :
    a.Current g { s with queue := rest
                         iterations
                         before := s.before.insert b (Id.run (a.factBefore s b block)) } := by
  have hreach : g.Reachable b := h.queued b (by simp [hqueue])
  refine ⟨fun c hc => h.queued c (by simp [hqueue, hc]), h.after_iff, h.before_reachable_insert hreach _, ?_⟩
  intro c x hc hx hnot
  by_cases hcb : c = b
  · subst hcb
    obtain rfl := Option.some.inj (hb.symm.trans hx)
    exact ⟨OrderedMap.get?_insert_self _ _ _, old, hold, .inr hsame⟩
  · obtain ⟨hbefore, hafter⟩ := h.settled c x hc hx (by simp [hqueue, hcb, hnot])
    exact ⟨(OrderedMap.get?_insert_of_ne _ hcb _).trans hbefore, hafter⟩

theorem Current.update (h : a.Current g s) (hsym : g.Symmetric) (hqueue : s.queue = b :: rest)
    (hb : g.block? b = some block) (iterations : Nat) :
    a.Current g { s with before := s.before.insert b (Id.run (a.factBefore s b block))
                         after := s.after.insert b (Id.run (a.transfer b block (Id.run (a.factBefore s b block))))
                         queue := Solution.requeue rest block.successors
                         iterations } := by
  have hreach : g.Reachable b := h.queued b (by simp [hqueue])
  refine ⟨?_, ?_, h.before_reachable_insert hreach _, ?_⟩
  · intro c hc
    rcases (Solution.mem_requeue _ _ _).1 hc with hc | hc
    · exact h.queued c (by simp [hqueue, hc])
    · exact hreach.tail (by simpa [FlowGraph.successors, hb] using hc)
  · grind [OrderedMap.get?_insert, after_iff]
  · intro c x hc hx hnot
    rw [Solution.mem_requeue, not_or] at hnot
    -- a block that is not due does not look at the fact that has changed
    have hsees : ∀ p ∈ x.predecessors,
        (s.after.insert b (Id.run (a.transfer b block (Id.run (a.factBefore s b block))))).get? p = s.after.get? p := by
      intro p hp
      refine OrderedMap.get?_insert_of_ne _ ?_ _
      rintro rfl
      exact hnot.2 ((hsym p c block x hb hx).2 hp)
    rw [a.factBefore_congr (b := c) hsees]
    by_cases hcb : c = b
    · subst hcb
      obtain rfl := Option.some.inj (hb.symm.trans hx)
      exact ⟨OrderedMap.get?_insert_self _ _ _, _, OrderedMap.get?_insert_self _ _ _, .inl rfl⟩
    · grind [settled, OrderedMap.get?_insert_of_ne]

end Evaluation

theorem current_evaluate [BEq φ] (a : Analysis Id φ) (hsym : g.Symmetric) (s : Solution φ) (b : BlockId)
    (rest : List BlockId) (hqueue : s.queue = b :: rest) (h : a.Current g s) :
    a.Current g (Id.run (a.evaluate g { s with queue := rest, iterations := s.iterations + 1 } b)) := by
  cases hb : g.block? b with
  | none =>
    rw [a.evaluate_of_no_block hb]
    refine ⟨fun c hc => h.queued c (by simp [hqueue, hc]), h.after_iff, h.before_reachable, ?_⟩
    intro c x hc hx hnot
    have hcb : c ≠ b := by
      rintro rfl
      simp [hb] at hx
    exact h.settled c x hc hx (by simp [hqueue, hcb, hnot])
  | some block =>
    rw [a.evaluate_of_block hb]
    rcases Solution.record_cases { s with queue := rest, iterations := s.iterations + 1 } b block _ _ with
      ⟨old, hold, hsame, hrecord⟩ | ⟨-, hrecord⟩
    · rw [hrecord]
      exact h.keep hqueue hb hold hsame _
    · rw [hrecord]
      exact h.update hsym hqueue hb _

/-- The facts behind the blocks, with `bottom` for the blocks that have none. -/
def afterAt (a : Analysis Id φ) (s : Solution φ) (b : BlockId) : φ := (s.after.get? b).getD a.bottom

/-- The facts before the blocks, with `bottom` for the blocks that have none. -/
def beforeAt (a : Analysis Id φ) (s : Solution φ) (b : BlockId) : φ := (s.before.get? b).getD a.bottom

theorem incoming_eq_meeting [BEq φ] (a : Analysis Id φ) (h : a.Current g s)
    (b : BlockId) (block : Block) : a.incoming s b block = a.meeting g (a.afterAt s) b block := by
  classical
  unfold incoming meeting
  congr 1
  induction block.predecessors with
  | nil => rfl
  | cons p rest ih =>
    grind [afterAt, Current.after_iff]

theorem meeting_ne_nil (a : Analysis Id φ) (hsym : g.Symmetric) (after : BlockId → φ)
    (hreach : g.Reachable b) (hb : g.block? b = some block) : a.meeting g after b block ≠ [] := by
  classical
  unfold meeting
  rcases Relation.ReflTransGen.cases_tail hreach with rfl | ⟨p, hp, hedge⟩
  · simp
  · have hpred : p ∈ block.predecessors := by
      unfold FlowGraph.successors at hedge
      split at hedge
      · rename_i x hx
        exact (hsym p b x block hx hb).1 hedge
      · simp at hedge
    have hmem : after p ∈ (block.predecessors.filter fun p => g.Reachable p).map after :=
      List.mem_map_of_mem (List.mem_filter.2 ⟨hpred, decide_eq_true hp⟩)
    intro hnil
    simp [List.append_eq_nil_iff.1 hnil] at hmem

theorem factBefore_eq_join [BEq φ] (a : Analysis Id φ) (hsym : g.Symmetric)
    (h : a.Current g s) (hreach : g.Reachable b) (hb : g.block? b = some block) :
    a.factBefore s b block = a.join (a.meeting g (a.afterAt s) b block) := by
  grind [factBefore, meeting_ne_nil, incoming_eq_meeting]

theorem Current.solvedBy [BEq φ] {a : Analysis Id φ} (hsym : g.Symmetric)
    (h : a.Current g s) (hqueue : s.queue = []) : a.SolvedBy g s (a.beforeAt s) (a.afterAt s) := by
  have hdone : ∀ b block, g.Reachable b → g.block? b = some block → _ :=
    fun b block hreach hb => h.settled b block hreach hb (by simp [hqueue])
  refine ⟨?_, ?_, ?_, ?_⟩
  · intro b block hreach hb
    grind [beforeAt, afterAt, factBefore_eq_join]
  · intro b hreach hb
    obtain ⟨block, hblock⟩ := Option.isSome_iff_exists.1 hb
    simp_all [beforeAt]
  · intro b hreach
    obtain ⟨fact, hfact⟩ := Option.isSome_iff_exists.1 ((h.after_iff b).2 hreach)
    simp [afterAt, hfact]
  · intro b hnot
    constructor
    · exact Option.not_isSome_iff_eq_none.1 fun hsome => hnot (h.before_reachable b hsome)
    · exact Option.not_isSome_iff_eq_none.1 fun hsome => hnot ((h.after_iff b).1 hsome)

/-- A solution that has converged gives facts for the reachable blocks and for no others, and these
facts satisfy the equations of the analysis. -/
theorem solvedBy_of_converged [BEq φ] (a : Analysis Id φ) {g : FlowGraph} (hsym : g.Symmetric)
    (maxIterations : Nat) (hconverged : (Id.run (a.solve g maxIterations)).converged = true) :
    ∃ before after : BlockId → φ, a.SolvedBy g (Id.run (a.solve g maxIterations)) before after := by
  obtain ⟨hcurrent, hqueue⟩ :=
    a.run_preserves g (a.Current g) (a.current_evaluate hsym) maxIterations _ (a.current_start g) hconverged
  exact ⟨_, _, hcurrent.solvedBy hsym hqueue⟩

/-- A loop of one block whose transfer is not monotone: the fact behind it first rises to 3 and then
falls to 2, where it stays. -/
theorem solvedBy_rising_and_falling :
    let g : FlowGraph := ⟨#[{ successors := [⟨2⟩] }, { predecessors := [⟨2⟩] },
      { predecessors := [⟨0⟩, ⟨2⟩], successors := [⟨2⟩, ⟨1⟩] }]⟩
    let a : Analysis Id Nat :=
      { initial := 1
        bottom := 0
        join := fun facts => pure (facts.foldl max 0)
        transfer := fun b _ fact => pure (if b.index = 2 then if fact = 1 then 3 else 2 else fact) }
    g.Symmetric ∧ (Id.run (a.solve g 6)).converged = true ∧
      ∃ before after : BlockId → Nat, a.SolvedBy g (Id.run (a.solve g 6)) before after := by
  intro g a
  have hsym : g.Symmetric := by decide
  have hconverged : (Id.run (a.solve g 6)).converged = true := by decide +kernel
  exact ⟨hsym, hconverged, a.solvedBy_of_converged hsym 6 hconverged⟩

end Analysis

end PythonTypes
