import PythonTypes.Proofs.Inference.Propagation

/-!
# Propagation stops

A phase takes nodes from its queue turn by turn (`Turn`). A turn may put any number of nodes back
into the queue, but only if it counts an evaluation, and a node that is not due leaves the queue
without being counted. So the evaluations left and then the length of the queue decrease
(`Turn.decreases`), and whatever depends on what, every phase comes to its end within its bound
(`propagation_stops`).
-/

set_option autoImplicit false

namespace PythonTypes.Propagation

/-- Where a phase stands. -/
structure Worklist where
  queue : List Nat
  /-- The evaluations counted so far. -/
  steps : Nat
  state : State

/-- One turn of a phase: the first node of the queue is dropped, evaluated, or too much. -/
inductive Turn (c : Setting) (gated : Bool) (bound : Nat) : Worklist → Worklist → Prop
  | drop {n steps : Nat} {rest : List Nat} {s : State} (h : isDue c gated s n = false) :
      Turn c gated bound ⟨n :: rest, steps, s⟩ ⟨rest, steps, s⟩
  | evaluate {n steps : Nat} {rest : List Nat} {s : State} (h : isDue c gated s n = true)
      (hsteps : steps < bound) : Turn c gated bound ⟨n :: rest, steps, s⟩
        ⟨if (propagateAt c n s).1 then requeue c n rest else rest, steps + 1, (propagateAt c n s).2⟩
  | stop {n steps : Nat} {rest : List Nat} {s : State} (h : isDue c gated s n = true)
      (hsteps : bound ≤ steps) : Turn c gated bound ⟨n :: rest, steps, s⟩ ⟨[], steps + 1, s⟩

variable {c : Setting} {gated : Bool} {bound : Nat} {w w' : Worklist}

theorem Turn.decreases (h : Turn c gated bound w w') :
    Prod.Lex (· < ·) (· < ·) (bound + 1 - w'.steps, w'.queue.length) (bound + 1 - w.steps, w.queue.length) := by
  cases h with
  | drop h => exact .right _ (Nat.lt_succ_self _)
  | evaluate h hsteps => exact .left _ _ (by simp only; omega)
  | @stop n steps rest s h hsteps =>
    rcases Nat.eq_or_lt_of_le hsteps with heq | hlt
    · exact .left _ _ (by simp only; omega)
    · rw [show bound + 1 - (steps + 1) = bound + 1 - steps by omega]
      exact .right _ (Nat.zero_lt_succ _)

theorem wellFounded_turn (c : Setting) (gated : Bool) (bound : Nat) : WellFounded fun w' w => Turn c gated bound w w' :=
  Subrelation.wf Turn.decreases (InvImage.wf (fun w : Worklist => (bound + 1 - w.steps, w.queue.length))
    (Prod.lex Nat.lt_wfRel Nat.lt_wfRel).wf)

/-- More than the bound is counted only at the end. -/
def Worklist.InBound (bound : Nat) (w : Worklist) : Prop := w.steps ≤ bound ∨ w.queue = [] ∧ w.steps ≤ bound + 1

theorem Turn.inBound (h : Turn c gated bound w w') (hw : w.InBound bound) : w'.InBound bound := by
  cases h with
  | drop h => exact hw.imp_right fun hw => absurd hw.1 (List.cons_ne_nil _ _)
  | evaluate h hsteps => exact .inl hsteps
  | stop h hsteps => exact .inr ⟨rfl, hw.elim Nat.succ_le_succ fun hw => absurd hw.1 (List.cons_ne_nil _ _)⟩

theorem inBound_of_turns (h : Relation.ReflTransGen (Turn c gated bound) w w') (hw : w.InBound bound) : w'.InBound bound := by
  induction h with
  | refl => exact hw
  | tail _ hturn ih => exact hturn.inBound ih

theorem turns_dropWhile (c : Setting) (gated : Bool) (bound steps : Nat) (queue : List Nat) (s : State) :
    Relation.ReflTransGen (Turn c gated bound) ⟨queue, steps, s⟩ ⟨queue.dropWhile fun n => !isDue c gated s n, steps, s⟩ := by
  induction queue with
  | nil => exact .refl
  | cons n rest ih =>
    rw [List.dropWhile_cons]
    split
    · rename_i hdue
      exact .head (.drop (by simpa using hdue)) ih
    · exact .refl

theorem isDue_of_dropWhile {n : Nat} {queue rest : List Nat} {s : State}
    (h : (queue.dropWhile fun n => !isDue c gated s n) = n :: rest) : isDue c gated s n = true := by
  have hhead := List.head?_dropWhile_not (fun n => !isDue c gated s n) queue
  rw [h] at hhead
  simpa using hhead

/-- Working off a queue is to take turns until it is empty. -/
theorem turns_run {remaining steps : Nat} (hbound : steps + remaining = bound) (queue : List Nat)
    (s : State) : Relation.ReflTransGen (Turn c gated bound) ⟨queue, steps, s⟩
      ⟨[], (run c gated remaining steps queue s).1, (run c gated remaining steps queue s).2⟩ := by
  induction remaining generalizing steps queue s with
  | zero =>
    have hdrop := turns_dropWhile c gated bound steps queue s
    cases hqueue : queue.dropWhile fun n => !isDue c gated s n with
    | nil =>
      rw [run_nil hqueue]
      exact hqueue ▸ hdrop
    | cons n rest =>
      rw [run_zero hqueue]
      exact .tail (hqueue ▸ hdrop) (.stop (isDue_of_dropWhile hqueue) hbound.ge)
  | succ remaining ih =>
    have hdrop := turns_dropWhile c gated bound steps queue s
    cases hqueue : queue.dropWhile fun n => !isDue c gated s n with
    | nil =>
      rw [run_nil hqueue]
      exact hqueue ▸ hdrop
    | cons n rest =>
      rw [run_succ hqueue]
      refine .trans (.tail (hqueue ▸ hdrop) (.evaluate (isDue_of_dropWhile hqueue) (by omega))) (ih (by omega) _ _)

theorem isReady_iff {s : State} {node : Node} : isReady s node = true ↔
    (∀ symbol ∈ node.symbols, ∃ t, s.types.get? symbol = some t) ∧
      ∀ e ∈ node.members, ∃ t f, s.members.get? e = some t ∧ s.typing.table.form t = .ofFunction f := by
  have hfunction : ∀ form : TypeForm, form.isFunction = true ↔ ∃ f, form = .ofFunction f := by
    intro form
    cases form <;> simp [TypeForm.isFunction]
  unfold isReady OrderedMap.contains
  simp only [Bool.and_eq_true, List.all_eq_true, Option.isSome_iff_exists, Option.any_eq_true, hfunction]
  simp only [exists_and_left]

/-- Every phase of a propagation, gated or not, comes to its end, whatever depends on what, and
counts at most one evaluation more than its bound. In the phase that is gated an evaluation is
counted only for a node whose variables have a type by then and whose members are functions. -/
theorem propagation_stops (c : Setting) (maxIterations : Nat) (typing : Typing) :
    (∀ gated, WellFounded fun w' w => Turn c gated (limit c maxIterations) w w') ∧
    (∀ gated s, Relation.ReflTransGen (Turn c gated (limit c maxIterations)) ⟨c.graph.indices, 0, s⟩
        ⟨[], (run c gated (limit c maxIterations) 0 c.graph.indices s).1,
          (run c gated (limit c maxIterations) 0 c.graph.indices s).2⟩ ∧
      (run c gated (limit c maxIterations) 0 c.graph.indices s).1 ≤ limit c maxIterations + 1) ∧
    (infer c maxIterations typing).1.iterations ≤ 2 * (limit c maxIterations + 1) ∧
    ∀ w w', Turn c true (limit c maxIterations) w w' → w.steps < w'.steps → ∃ n rest node, w.queue = n :: rest ∧
      c.graph.nodes[n]? = some node ∧ (∀ symbol ∈ node.symbols, ∃ t, w.state.types.get? symbol = some t) ∧
      ∀ e ∈ node.members, ∃ t f, w.state.members.get? e = some t ∧ w.state.typing.table.form t = .ofFunction f := by
  have hbound : ∀ gated s, (run c gated (limit c maxIterations) 0 c.graph.indices s).1 ≤ limit c maxIterations + 1 := by
    intro gated s
    have hturns : Relation.ReflTransGen (Turn c gated (limit c maxIterations)) ⟨c.graph.indices, 0, s⟩ _ :=
      turns_run (Nat.zero_add _) _ s
    rcases inBound_of_turns hturns (.inl (Nat.zero_le _)) with h | h
    · exact Nat.le_succ_of_le h
    · exact h.2
  refine ⟨fun gated => wellFounded_turn c gated _, fun gated s => ⟨turns_run (Nat.zero_add _) _ s, hbound gated s⟩, ?_, ?_⟩
  · have hfirst := hbound true (start c typing)
    have hsecond := hbound false (run c true (limit c maxIterations) 0 c.graph.indices (start c typing)).2
    show _ + _ ≤ _
    omega
  · rintro _ _ (_ | ⟨hdue, -⟩ | ⟨hdue, -⟩) hsteps
    · exact absurd hsteps (Nat.lt_irrefl _)
    all_goals
      obtain ⟨node, hnode, hready⟩ := (Option.any_eq_true _ _).1 hdue
      exact ⟨_, _, node, rfl, hnode, isReady_iff.1 hready⟩

end PythonTypes.Propagation
