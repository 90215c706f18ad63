import Mathlib.Algebra.BigOperators.Ring.Finset
import Mathlib.Algebra.Order.BigOperators.Group.Finset
import Mathlib.Data.Set.Card
import Mathlib.Order.KrullDimension
import PythonTypes.Proofs.Flow.Solver

/-!
# The solver finds the least solution

If facts are ordered, joins are least upper bounds, the blocks are monotone and no chain of facts
has more than `h` steps, then the solver converges within as many evaluations as there are reachable
blocks plus `h` times the number of edges between them, to the least solution of the equations.

Two facts carry the argument through every order of evaluation. The facts only rise, and they stay
below every solution (`Rising`). Each rise of a fact is a step up a chain, so the evaluations made
and still due never exceed the reachable blocks plus, for each edge, the height that the fact at its
source has reached.
-/

set_option autoImplicit false

namespace PythonTypes

namespace FlowGraph

/-- The blocks that control can reach; a target of an edge that does not exist as a block is one of
them. -/
def reachableSet (g : FlowGraph) : Set BlockId := { b | g.Reachable b }

/-- The edges that control can take. -/
def reachableEdges (g : FlowGraph) : Set (BlockId × BlockId) := { e | g.Reachable e.1 ∧ e.2 ∈ g.successors e.1 }

theorem ncard_reachableSet (g : FlowGraph) : g.reachableSet.ncard = g.reversePostorder.length := by
  have hset : g.reachableSet = ↑g.reversePostorder.toFinset := by
    ext b
    simp [reachableSet, g.mem_reversePostorder_iff]
  rw [hset, Set.ncard_coe_finset, List.toFinset_card_of_nodup g.nodup_reversePostorder]

theorem ncard_reachableEdges (g : FlowGraph) :
    g.reachableEdges.ncard = ∑ b ∈ g.reversePostorder.toFinset, (g.successors b).toFinset.card := by
  have hset : g.reachableEdges =
      ↑(g.reversePostorder.toFinset.biUnion fun b => (g.successors b).toFinset.image (b, ·)) := by
    ext ⟨b, c⟩
    simp [reachableEdges, g.mem_reversePostorder_iff, and_comm]
  rw [hset, Set.ncard_coe_finset, Finset.card_biUnion]
  · refine Finset.sum_congr rfl fun b _ => ?_
    exact Finset.card_image_of_injective _ fun c d hcd => (Prod.mk.inj hcd).2
  · intro b _ c _ hbc
    refine Finset.disjoint_left.2 ?_
    grind

end FlowGraph

namespace Solution

theorem length_requeue_le (queue successors : List BlockId) :
    (requeue queue successors).length ≤ queue.length + (successors.toFinset \ queue.toFinset).card := by
  unfold requeue
  induction successors generalizing queue with
  | nil => simp
  | cons c rest ih =>
    rw [List.foldl_cons]
    by_cases hc : c ∈ queue
    · rw [if_pos (by simpa using hc)]
      have hsub : (rest.toFinset \ queue.toFinset).card ≤ ((c :: rest).toFinset \ queue.toFinset).card := by
        apply Finset.card_le_card
        intro d hd
        simp only [Finset.mem_sdiff, List.mem_toFinset, List.mem_cons] at hd ⊢
        exact ⟨.inr hd.1, hd.2⟩
      exact (ih queue).trans (by omega)
    · rw [if_neg (by simpa using hc)]
      have hinsert : (c :: rest).toFinset \ queue.toFinset =
          insert c (rest.toFinset \ (queue ++ [c]).toFinset) := by
        ext d
        simp only [Finset.mem_sdiff, List.mem_toFinset, List.mem_cons, Finset.mem_insert,
          List.mem_append, List.not_mem_nil, or_false, not_or]
        by_cases hd : d = c
        · simp [hd, hc]
        · simp [hd]
      have hcard := Finset.card_insert_of_notMem (s := rest.toFinset \ (queue ++ [c]).toFinset) (a := c) (by simp)
      grind

end Solution

namespace Analysis

variable {φ : Type}

theorem iterations_evaluate [BEq φ] (a : Analysis Id φ) (g : FlowGraph) (s : Solution φ) (b : BlockId) :
    (Id.run (a.evaluate g s b)).iterations = s.iterations ∧ (Id.run (a.evaluate g s b)).converged = s.converged := by
  cases hb : g.block? b with
  | none =>
    grind [evaluate_of_no_block]
  | some block =>
    rw [a.evaluate_of_block hb]
    rcases s.record_cases b block _ _ with ⟨old, -, -, hrecord⟩ | ⟨-, hrecord⟩ <;> rw [hrecord] <;> exact ⟨rfl, rfl⟩

/-- If the evaluations made and due never exceed a bound, a solver that is allowed that many
converges. -/
theorem run_converges [BEq φ] (a : Analysis Id φ) (g : FlowGraph) (P : Solution φ → Prop) (bound : Nat)
    (hstep : ∀ s b rest, s.queue = b :: rest → P s →
      P (Id.run (a.evaluate g { s with queue := rest, iterations := s.iterations + 1 } b)))
    (hbound : ∀ s, P s → s.iterations + s.queue.length ≤ bound) (remaining : Nat) (s : Solution φ)
    (hs : P s) (hconverged : s.converged = true) (hremaining : bound ≤ s.iterations + remaining) :
    (Id.run (a.run g remaining s)).converged = true := by
  induction remaining generalizing s with
  | zero =>
    grind [run]
  | succ remaining ih =>
    grind [run, iterations_evaluate]

/-- What the equations ask for before a block, given the facts behind the blocks. -/
noncomputable def required (a : Analysis Id φ) (g : FlowGraph) (after : BlockId → φ) (b : BlockId) (block : Block) : φ :=
  Id.run (a.join (a.meeting g after b block))

/-- What the evaluation of a due block changes: it counts, and unless the fact behind the block is
up to date, that fact is replaced and the successors of the block are due. -/
theorem evaluate_cases [BEq φ] [LawfulBEq φ] {a : Analysis Id φ} {g : FlowGraph} (hsym : g.Symmetric) {s : Solution φ}
    (hs : a.Current g s) {b : BlockId} {block : Block} (hreach : g.Reachable b)
    (hb : g.block? b = some block) (rest : List BlockId) :
    let next := Id.run (a.evaluate g { s with queue := rest, iterations := s.iterations + 1 } b)
    let fact := Id.run (a.transfer b block (a.required g (a.afterAt s) b block))
    (a.afterAt next = a.afterAt s ∧ next.queue = rest) ∨
      (a.afterAt s b ≠ fact ∧ a.afterAt next = Function.update (a.afterAt s) b fact ∧
        next.queue = Solution.requeue rest block.successors) := by
  intro next fact
  have hfact : Id.run (a.factBefore { s with queue := rest, iterations := s.iterations + 1 } b block) =
      a.required g (a.afterAt s) b block := congrArg Id.run (a.factBefore_eq_join (s := s) hsym hs hreach hb)
  have hnext : next = _ := a.evaluate_of_block hb _
  rw [hfact] at hnext
  rcases Solution.record_cases { s with queue := rest, iterations := s.iterations + 1 } b block
    (a.required g (a.afterAt s) b block) fact with ⟨_, -, -, hrecord⟩ | ⟨hchanged, hrecord⟩
  · rw [hnext, hrecord]
    exact .inl ⟨rfl, rfl⟩
  · obtain ⟨old, hold⟩ := Option.isSome_iff_exists.1 ((hs.after_iff b).2 hreach)
    grind [afterAt, OrderedMap.get?_insert_self, OrderedMap.get?_insert_of_ne]

section Monotone

variable [PartialOrder φ]
variable {b : BlockId} {block : Block} {g : FlowGraph} {h : Nat} {a : Analysis Id φ} {after : BlockId → φ} {x : φ}

/-- An analysis whose facts rise: `bottom` is the least fact, facts that meet are joined to their
least upper bound, and what a block of the graph makes of a fact is monotone. -/
structure MonotoneOn (a : Analysis Id φ) (g : FlowGraph) : Prop where
  bottom_le : ∀ x, a.bottom ≤ x
  join_isLUB : ∀ facts, facts ≠ [] → IsLUB { x | x ∈ facts } (Id.run (a.join facts))
  transfer_mono : ∀ b block, g.block? b = some block → Monotone fun x => Id.run (a.transfer b block x)

theorem required_mono (ha : a.MonotoneOn g) (hsym : g.Symmetric)
    {lower upper : BlockId → φ} (hle : ∀ b, g.Reachable b → lower b ≤ upper b)
    (hreach : g.Reachable b) (hb : g.block? b = some block) :
    a.required g lower b block ≤ a.required g upper b block := by
  classical
  have hlower := ha.join_isLUB _ (a.meeting_ne_nil hsym lower hreach hb)
  have hupper := ha.join_isLUB _ (a.meeting_ne_nil hsym upper hreach hb)
  refine hlower.2 fun x hx => ?_
  rcases List.mem_append.1 hx with hx | hx
  · obtain ⟨p, hp, rfl⟩ := List.mem_map.1 hx
    have hreachable : g.Reachable p := of_decide_eq_true (List.mem_filter.1 hp).2
    have hmem : upper p ∈ a.meeting g upper b block := List.mem_append_left _ (List.mem_map_of_mem hp)
    exact (hle p hreachable).trans (hupper.1 hmem)
  · exact hupper.1 (List.mem_append_right _ hx)

/-- The facts behind the blocks have risen from `bottom`: they are below every solution, and below
what the equations make of them, so that the next evaluation of a block can only raise them. -/
structure Rising [BEq φ] (a : Analysis Id φ) (g : FlowGraph) (after : BlockId → φ) : Prop where
  below : ∀ before' after', a.Solves g before' after' → ∀ b, g.Reachable b → after b ≤ after' b
  rises : ∀ b block, g.Reachable b → g.block? b = some block →
    after b ≤ Id.run (a.transfer b block (a.required g after b block))

theorem rising_bottom [BEq φ] (ha : a.MonotoneOn g) : a.Rising g fun _ => a.bottom :=
  ⟨fun _ _ _ _ _ => ha.bottom_le _, fun _ _ _ _ => ha.bottom_le _⟩

theorem Rising.required_le [BEq φ] [LawfulBEq φ] (ha : a.MonotoneOn g)
    (hsym : g.Symmetric) (h : a.Rising g after) {before' after' : BlockId → φ}
    (hsolves : a.Solves g before' after') (hreach : g.Reachable b)
    (hb : g.block? b = some block) : a.required g after b block ≤ before' b := by
  rw [(hsolves b block hreach hb).1]
  exact required_mono ha hsym (h.below _ _ hsolves) hreach hb

theorem Rising.update [BEq φ] [LawfulBEq φ] (ha : a.MonotoneOn g) (hsym : g.Symmetric) (h : a.Rising g after)
    (hreach : g.Reachable b) (hb : g.block? b = some block) :
    a.Rising g (Function.update after b (Id.run (a.transfer b block (a.required g after b block)))) := by
  set raised := Function.update after b (Id.run (a.transfer b block (a.required g after b block)))
  have hle : ∀ c, g.Reachable c → after c ≤ raised c := by
    intro c _
    by_cases hcb : c = b
    · subst hcb
      simpa [raised] using h.rises c block hreach hb
    · simp [raised, hcb]
  refine ⟨fun before' after' hsolves c hc => ?_, fun c x hc hx => ?_⟩
  · by_cases hcb : c = b
    · subst hcb
      have hafter : after' c = Id.run (a.transfer c block (before' c)) :=
        (sameFact_iff _ _).1 (hsolves c block hreach hb).2
      rw [hafter]
      simpa [raised] using ha.transfer_mono c block hb (h.required_le ha hsym hsolves hreach hb)
    · grind [below]
  · have hmono := ha.transfer_mono c x hx (required_mono ha hsym hle hc hx)
    grind [rises]

/-- How many steps up a chain can lead to a fact. -/
noncomputable def rank (x : φ) : Nat := (Order.height x).toNat

section

variable (hchains : ∀ c : LTSeries φ, c.length ≤ h)

include hchains

theorem height_le_of_chains (x : φ) : Order.height x ≤ h :=
  Order.height_le fun c _ => Nat.cast_le.2 (hchains c)

theorem rank_le (x : φ) : rank x ≤ h :=
  ENat.toNat_le_of_le_natCast (height_le_of_chains hchains x)

theorem rank_lt {y : φ} (hxy : x < y) : rank x < rank y := by
  have hfinite : ∀ z : φ, Order.height z ≠ ⊤ := fun z htop =>
    ENat.natCast_ne_top h (top_le_iff.1 (htop ▸ height_le_of_chains hchains z))
  have hlt : Order.height x < Order.height y := Order.height_strictMono hxy (lt_top_iff_ne_top.2 (hfinite x))
  rwa [← ENat.natCast_toNat (hfinite x), ← ENat.natCast_toNat (hfinite y), Nat.cast_lt] at hlt

/-- The evaluations that the facts behind the blocks account for: one for each reachable block, and
one more along each edge for each step that the fact at its source has risen. -/
noncomputable def account (g : FlowGraph) (after : BlockId → φ) : Nat :=
  g.reversePostorder.length + ∑ b ∈ g.reversePostorder.toFinset, rank (after b) * (g.successors b).toFinset.card

theorem account_le (g : FlowGraph) (after : BlockId → φ) :
    account g after ≤ g.reachableSet.ncard + h * g.reachableEdges.ncard := by
  unfold account
  rw [g.ncard_reachableSet, g.ncard_reachableEdges, Finset.mul_sum]
  gcongr with b _
  exact rank_le hchains _

/-- A fact that rises accounts for an evaluation of each successor. -/
theorem account_update (g : FlowGraph) (after : BlockId → φ) (hreach : g.Reachable b) (hlt : after b < x) :
    account g after + (g.successors b).toFinset.card ≤ account g (Function.update after b x) := by
  have hmem : b ∈ g.reversePostorder.toFinset := by simpa [g.mem_reversePostorder_iff] using hreach
  unfold account
  rw [← Finset.add_sum_erase _ _ hmem, ← Finset.add_sum_erase _ _ hmem, Function.update_self]
  have hrest : ∑ c ∈ g.reversePostorder.toFinset.erase b,
        rank (Function.update after b x c) * (g.successors c).toFinset.card =
      ∑ c ∈ g.reversePostorder.toFinset.erase b, rank (after c) * (g.successors c).toFinset.card := by
    refine Finset.sum_congr rfl fun c hc => ?_
    rw [Function.update_of_ne (Finset.ne_of_mem_erase hc)]
  have hrank : (rank (after b) + 1) * (g.successors b).toFinset.card ≤ rank x * (g.successors b).toFinset.card :=
    Nat.mul_le_mul_right _ (rank_lt hchains hlt)
  grind

end

/-- What holds between evaluations of a monotone analysis: the facts have risen, and they account
for the evaluations made and due. -/
structure Climbs [BEq φ] (a : Analysis Id φ) (g : FlowGraph) (s : Solution φ) : Prop where
  current : a.Current g s
  rising : a.Rising g (a.afterAt s)
  accounted : s.iterations + s.queue.length ≤ account g (a.afterAt s)

theorem climbs_start [BEq φ] (ha : a.MonotoneOn g) : a.Climbs g (a.start g) := by
  have hbottom : a.afterAt (a.start g) = fun _ => a.bottom := by
    funext b
    unfold afterAt start
    rw [OrderedMap.get?_ofList_const]
    split <;> rfl
  refine ⟨a.current_start g, ?_, ?_⟩
  · rw [hbottom]
    exact rising_bottom ha
  · show 0 + g.reversePostorder.length ≤ _
    unfold account
    omega

theorem climbs_evaluate [BEq φ] [LawfulBEq φ] (ha : a.MonotoneOn g)
    (hsym : g.Symmetric) (hchains : ∀ c : LTSeries φ, c.length ≤ h) (s : Solution φ) (b : BlockId)
    (rest : List BlockId) (hqueue : s.queue = b :: rest) (hs : a.Climbs g s) :
    a.Climbs g (Id.run (a.evaluate g { s with queue := rest, iterations := s.iterations + 1 } b)) := by
  have hcurrent := a.current_evaluate hsym s b rest hqueue hs.current
  have hcount := (a.iterations_evaluate g { s with queue := rest, iterations := s.iterations + 1 } b).1
  have hreach : g.Reachable b := hs.current.queued b (by simp [hqueue])
  have haccounted := hs.accounted
  rw [hqueue, List.length_cons] at haccounted
  cases hb : g.block? b with
  | none =>
    rw [a.evaluate_of_no_block hb] at hcurrent ⊢
    refine ⟨hcurrent, hs.rising, ?_⟩
    show s.iterations + 1 + rest.length ≤ account g (a.afterAt s)
    omega
  | some block =>
    rcases evaluate_cases hsym hs.current hreach hb rest with ⟨hafter, hrest⟩ | ⟨hne, hafter, hrest⟩
    · refine ⟨hcurrent, hafter ▸ hs.rising, ?_⟩
      grind
    · refine ⟨hcurrent, hafter ▸ hs.rising.update ha hsym hreach hb, ?_⟩
      -- the fact has risen, and each successor is queued at most once
      have hrise := account_update hchains g (a.afterAt s) hreach
        (lt_of_le_of_ne (hs.rising.rises b block hreach hb) hne)
      grind [FlowGraph.successors, Solution.length_requeue_le]

/-- A monotone analysis over chains of at most `h` steps converges within one evaluation for each
reachable block and `h` for each edge, to the least facts that satisfy the equations. -/
theorem converges_to_least [BEq φ] [LawfulBEq φ] (a : Analysis Id φ) {g : FlowGraph} (hsym : g.Symmetric)
    (ha : a.MonotoneOn g) {h : Nat} (hchains : ∀ c : LTSeries φ, c.length ≤ h) {maxIterations : Nat}
    (hmax : g.reachableSet.ncard + h * g.reachableEdges.ncard ≤ maxIterations) :
    (Id.run (a.solve g maxIterations)).converged = true ∧
      ∃ before after : BlockId → φ, a.SolvedBy g (Id.run (a.solve g maxIterations)) before after ∧
        ∀ before' after', a.Solves g before' after' →
          ∀ b, g.Reachable b → (g.block? b).isSome → before b ≤ before' b ∧ after b ≤ after' b := by
  have hstep := climbs_evaluate ha hsym hchains
  have hconverged : (Id.run (a.solve g maxIterations)).converged = true := by
    refine a.run_converges g (a.Climbs g) (g.reachableSet.ncard + h * g.reachableEdges.ncard) hstep
      (fun s hs => hs.accounted.trans (account_le hchains g _)) maxIterations _ (climbs_start ha) rfl ?_
    exact hmax.trans (Nat.le_add_left _ _)
  refine ⟨hconverged, ?_⟩
  obtain ⟨hlast, hqueue⟩ := a.run_preserves g (a.Climbs g) hstep maxIterations _ (climbs_start ha) hconverged
  have hsolved := hlast.current.solvedBy hsym hqueue
  refine ⟨_, _, hsolved, fun before' after' hsolves b hreach hsome => ?_⟩
  obtain ⟨block, hb⟩ := Option.isSome_iff_exists.1 hsome
  refine ⟨?_, hlast.rising.below _ _ hsolves b hreach⟩
  rw [(hsolved.solves b block hreach hb).1]
  exact hlast.rising.required_le ha hsym hsolves hreach hb

end Monotone

theorem chains_bool (c : LTSeries Bool) : c.length ≤ 1 := by
  have hcard := c.length_lt_card
  rw [Fintype.card_bool] at hcard
  omega

/-- Whether control may have come through one of the given blocks. -/
def through (marked : List Nat) : Analysis Id Bool where
  initial := false
  bottom := false
  join facts := pure (facts.any id)
  transfer b _ fact := pure (fact || marked.contains b.index)

theorem monotoneOn_through (marked : List Nat) (g : FlowGraph) : (through marked).MonotoneOn g := by
  refine ⟨fun _ => Bool.false_le _, fun facts _ => ⟨fun x hx => ?_, fun bound hbound => ?_⟩, fun b _ _ x y hxy => ?_⟩
  · cases x with
    | false => exact Bool.false_le _
    | true =>
      show true ≤ facts.any id
      rw [List.any_eq_true.2 ⟨true, hx, rfl⟩]
  · show facts.any id ≤ bound
    cases hany : facts.any id with
    | false => exact Bool.false_le _
    | true =>
      obtain ⟨x, hx, htrue⟩ := List.any_eq_true.1 hany
      exact le_of_eq_of_le htrue.symm (hbound hx)
  · show (x || marked.contains b.index) ≤ (y || marked.contains b.index)
    exact sup_le_sup_right hxy _

/-- Two nested loops, of which the inner body is marked: every block behind the entry can be reached
through it. -/
theorem converges_to_least_nested_loops :
    let g : FlowGraph := ⟨#[{ successors := [⟨2⟩] }, { predecessors := [⟨2⟩] },
      { predecessors := [⟨0⟩, ⟨3⟩], successors := [⟨3⟩, ⟨1⟩] },
      { predecessors := [⟨2⟩, ⟨4⟩], successors := [⟨4⟩, ⟨2⟩] }, { predecessors := [⟨3⟩], successors := [⟨3⟩] }]⟩
    let a := through [4]
    g.Symmetric ∧ a.MonotoneOn g ∧ (∀ c : LTSeries Bool, c.length ≤ 1) ∧
      g.reachableSet.ncard + 1 * g.reachableEdges.ncard ≤ 11 ∧ (Id.run (a.solve g 11)).converged = true ∧
      ∃ before after : BlockId → Bool, a.SolvedBy g (Id.run (a.solve g 11)) before after ∧
        ∀ before' after', a.Solves g before' after' →
          ∀ b, g.Reachable b → (g.block? b).isSome → before b ≤ before' b ∧ after b ≤ after' b := by
  intro g a
  have hsym : g.Symmetric := by decide
  have hmax : g.reachableSet.ncard + 1 * g.reachableEdges.ncard ≤ 11 := by
    rw [g.ncard_reachableSet, g.ncard_reachableEdges]
    decide +kernel
  exact ⟨hsym, monotoneOn_through _ _, chains_bool, hmax,
    a.converges_to_least hsym (monotoneOn_through _ _) chains_bool hmax⟩

/-- Where an edge into a block is not an edge out of its source, the solver may stop before the
equations hold: here control reaches the marked block 3, which blocks 1 and 2 have as a predecessor,
and block 1 is not evaluated again. -/
theorem not_solved_without_symmetry :
    let g : FlowGraph := ⟨#[{ successors := [⟨2⟩, ⟨3⟩, ⟨1⟩] }, { predecessors := [⟨3⟩, ⟨0⟩] },
      { predecessors := [⟨3⟩, ⟨0⟩] }, { predecessors := [⟨0⟩] }]⟩
    let a := through [3]
    a.MonotoneOn g ∧ (∀ c : LTSeries Bool, c.length ≤ 1) ∧
      g.reachableSet.ncard + 1 * g.reachableEdges.ncard ≤ 100 ∧
      ¬ ∃ before after : BlockId → Bool, a.SolvedBy g (Id.run (a.solve g 100)) before after := by
  intro g a
  refine ⟨monotoneOn_through _ _, chains_bool, ?_, ?_⟩
  · rw [g.ncard_reachableSet, g.ncard_reachableEdges]
    decide +kernel
  · classical
    rintro ⟨before, after, hsolved⟩
    have hreach : ∀ b ∈ [⟨1⟩, ⟨3⟩], g.Reachable b := by
      intro b hb
      rw [← g.mem_reversePostorder_iff]
      revert b
      decide +kernel
    have hbefore := hsolved.before_eq ⟨1⟩ (hreach _ (by simp)) rfl
    have hafter := hsolved.after_eq ⟨3⟩ (hreach _ (by simp))
    have hfalse : (Id.run (a.solve g 100)).before.get? ⟨1⟩ = some false := by decide +kernel
    have htrue : (Id.run (a.solve g 100)).after.get? ⟨3⟩ = some true := by decide +kernel
    have hmeet : true ∈ a.meeting g after ⟨1⟩ { predecessors := [⟨3⟩, ⟨0⟩] } := by
      rw [htrue] at hafter
      rw [Option.some.inj hafter]
      refine List.mem_append_left _ (List.mem_map_of_mem (List.mem_filter.2 ⟨by simp, ?_⟩))
      exact decide_eq_true (hreach _ (by simp))
    have hequation := (hsolved.solves ⟨1⟩ _ (hreach _ (by simp)) rfl).1
    rw [hfalse] at hbefore
    rw [← Option.some.inj hbefore] at hequation
    have hjoin : (a.meeting g after ⟨1⟩ { predecessors := [⟨3⟩, ⟨0⟩] }).any id = true :=
      List.any_eq_true.2 ⟨true, hmeet, rfl⟩
    exact Bool.false_ne_true (hequation.trans hjoin)

end Analysis

end PythonTypes
