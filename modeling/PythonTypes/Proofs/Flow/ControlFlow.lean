import PythonTypes.Proofs.Flow.Construction
import PythonTypes.Proofs.Flow.Execution

/-!
# Graphs have the control flow of their bodies

The element sequences along the paths of the graph of a body are those of the structured executions
of the body.

The argument is compositional. `Realises` relates an action that builds a part of a graph to the
elements and the behaviour of that part: it goes from the current block to another by steps that add
the elements and leave the other unfinished blocks as they are, and in every graph that building
leads to from there on, what is read from the point where the part begins is a run of the part
followed by what is read from the point to which the run leads. One lemma per construct (a straight
element, a jump, a sequence, a branch, a loop) then follows the definition of the builder, and an
induction over statements puts them together.
-/

set_option autoImplicit false

namespace PythonTypes

namespace FlowGraph

variable {b : BlockId} {g : FlowGraph}

theorem reads_iff {x : Block} (hx : g.core b = some x) (n : Nat) (w : List Element) :
    g.Reads n b w ↔ (n = 0 ∧ w = x.elements ∧ EndsIn b x) ∨
      ∃ m next v, n = m + 1 ∧ next ∈ x.successors ∧ w = x.elements ++ v ∧ g.Reads m next v := by
  obtain ⟨block, hblock, rfl⟩ := Option.map_eq_some_iff.1 hx
  constructor
  · intro h
    cases h with
    | last hb hend =>
      obtain rfl := Option.some.inj (hb.symm.trans hblock)
      exact .inl ⟨rfl, rfl, hend⟩
    | edge hb hnext hrest =>
      obtain rfl := Option.some.inj (hb.symm.trans hblock)
      exact .inr ⟨_, _, _, rfl, hnext, rfl, hrest⟩
  · rintro (⟨rfl, rfl, hend⟩ | ⟨m, next, v, rfl, hnext, rfl, hrest⟩)
    · exact @Reads.last g b block hblock hend
    · exact @Reads.edge g b next block m v hblock hnext hrest

theorem Reads.elements_prefix {x : Block} {n : Nat} {w : List Element}
    (h : g.Reads n b w) (hx : g.core b = some x) : x.elements <+: w := by
  grind [reads_iff]

theorem reads_exit (hx : g.core exit = some {}) (n : Nat) (w : List Element) : g.Reads n exit w ↔ n = 0 ∧ w = [] := by
  rw [reads_iff hx]
  simp [EndsIn]

theorem reads_along {xs : List Element} {t : Terminator} {targets : List BlockId}
    (hx : g.core b = some { elements := xs, terminator := some t, successors := targets })
    (hb : b ≠ exit) (ht : t ≠ .unreachable) (n : Nat) (w : List Element) :
    g.Reads n b (xs ++ w) ↔ ∃ m, n = m + 1 ∧ ∃ next ∈ targets, g.Reads m next w := by
  rw [reads_iff hx]
  constructor
  · rintro (⟨-, -, hend⟩ | ⟨m, next, v, rfl, hnext, hv, hrest⟩)
    · rcases hend with rfl | hend
      · exact absurd rfl hb
      · exact absurd (Option.some.inj hend) ht
    · grind [List.append_cancel_left]
  · simp_all

end FlowGraph

namespace FlowDraft

open FlowGraph

/-- What is read from where a run leads that leaves a part of the graph in the given way, when
`behind` is what is read from the point behind that part. -/
def Leads (g : FlowGraph) (exits : Option LoopExits) (behind : Nat → List Element → Prop) :
    Ending → Nat → List Element → Prop
  | .falls, n, w => behind n w
  | .breaks, n, w => ∃ x, exits = some x ∧ g.Reads n x.breakTo w
  | .continues, n, w => ∃ x, exits = some x ∧ g.Reads n x.continueTo w
  | .stops, _, w => w = []

/-- Whether the paths through a part of the graph are the runs of a behaviour, when `start` and
`behind` are what is read from the points before and behind that part. -/
structure Spans (g : FlowGraph) (exits : Option LoopExits) (start : Nat → List Element → Prop)
    (B : Behaviour) (behind : Nat → List Element → Prop) : Prop where
  path_run : ∀ n w, start n w → ∃ u v e m, m ≤ n ∧ w = u ++ v ∧ B u e ∧ Leads g exits behind e m v
  run_path : ∀ u v e m, B u e → Leads g exits behind e m v → ∃ n, start n (u ++ v)

/-- What the current block holds so far. -/
def written (d : FlowDraft) : List Element := (d.graph.core d.current).elim [] Block.elements

/-- What is read from the point that a draft has reached. -/
def reads (d : FlowDraft) (g : FlowGraph) (n : Nat) (w : List Element) : Prop := g.Reads n d.current (d.written ++ w)

/-- A draft with other unfinished blocks besides its current one, which may jump to the given
blocks. -/
structure Ready (d : FlowDraft) (rest : Multiset BlockId) (needs : List BlockId) : Prop where
  shaped : d.graph.Shaped (d.current ::ₘ rest)
  needs : ∀ c ∈ needs, d.graph.Enterable c

/-- Where the jumps of a loop lead. -/
def jumpTargets : Option LoopExits → List BlockId
  | some exits => [exits.continueTo, exits.breakTo]
  | none => []

/-- Whether an action builds a part of the graph with the given elements and behaviour. -/
def Realises (exits : Option LoopExits) (action : FlowM Unit) (xs : List Element) (B : Behaviour) : Prop :=
  ∀ d d' rest, d.Ready rest (jumpTargets exits) → action d = .ok ((), d') →
    StepsBeside rest d.graph (d.current ::ₘ rest) xs d'.graph (d'.current ::ₘ rest) ∧
      ∀ g ys u, Steps d'.graph (d'.current ::ₘ rest) ys g u → Spans g exits (d.reads g) B (d'.reads g)

section Ready

variable {d d' : FlowDraft} {rest rest' : Multiset BlockId} {needs : List BlockId} {xs ys : List Element} {g : FlowGraph}
variable {u : Multiset BlockId} {exits : Option LoopExits}

section

variable (h : d.Ready rest needs)

include h

theorem Ready.next (hsteps : Steps d.graph (d.current ::ₘ rest) xs d'.graph (d'.current ::ₘ rest')) :
    d'.Ready rest' needs := ⟨h.shaped.steps hsteps, fun c hc => hsteps.enterable (h.needs c hc)⟩

theorem Ready.core_current : d.graph.core d.current = some { elements := d.written } := by
  obtain ⟨xs, hxs⟩ := h.shaped.open_blocks d.current (Multiset.mem_cons_self _ _)
  rw [written, hxs]
  rfl

theorem Ready.ne_exit : d.current ≠ FlowGraph.exit := fun heq =>
  h.shaped.ne_exit (heq ▸ Multiset.mem_cons_self _ _)

/-- What the current block holds when it is finished, it holds in every graph that building leads
to. -/
theorem Ready.core_of_finished (t : Terminator) (hnodup : t.targets.Nodup)
    (htargets : ∀ c ∈ t.targets, d.graph.Enterable c) (hsteps : Steps (d.graph.ended d.current t t.targets) rest ys g u) :
    g.core d.current = some { elements := d.written, terminator := some t, successors := t.targets } := by
  refine (h.shaped.ended t hnodup htargets).core_finished hsteps ?_ rfl
  rw [core_ended _ _ _ _ _ _ h.core_current hnodup, if_pos rfl]

end

theorem reads_of_empty (h : d.graph.core d.current = some {}) : d.reads g = fun n w => g.Reads n d.current w := by
  funext n w
  rw [reads, written, h]
  rfl

/-- A run that does not go on behind a part leads to the same place wherever the part ends. -/
theorem Leads.elsewhere {behind behind' : Nat → List Element → Prop}
    {e : Ending} {n : Nat} {w : List Element} (h : Leads g exits behind e n w) (he : e ≠ .falls) :
    Leads g exits behind' e n w := by
  cases e with
  | falls => exact absurd rfl he
  | breaks => exact h
  | continues => exact h
  | stops => exact h

end Ready

section Constructs

variable {exits : Option LoopExits} {A B : Behaviour} {g : FlowGraph} {d : FlowDraft} {xs ys : List Element}
variable {action action' body orelse : FlowM Unit} {start behind next : Nat → List Element → Prop}

theorem realises_pure : Realises exits (pure ()) [] (.emit [] .falls) := by
  intro d d' rest hd h
  cases h
  refine ⟨⟨.refl, fun _ _ => rfl⟩, fun g ys u _ => ⟨?_, ?_⟩⟩
  · intro n w hw
    exact ⟨[], w, .falls, n, Nat.le_refl n, rfl, ⟨rfl, rfl⟩, hw⟩
  · rintro u v e m ⟨rfl, rfl⟩ hv
    exact ⟨m, hv⟩

theorem realises_addElement (a : Element) : Realises exits (addElement a) [a] (.emit [a] .falls) := by
  intro d d' rest hd h
  rw [addElement_apply] at h
  cases h
  have hstep : Steps d.graph (d.current ::ₘ rest) [a] (d.graph.addElement d.current a) (d.current ::ₘ rest) :=
    .single (.element _ _ _ a)
  have hcurrent : (d.graph.addElement d.current a).core d.current = some { elements := d.written ++ [a] } := by
    rw [core_addElement, if_pos rfl, hd.core_current]
    rfl
  refine ⟨⟨hstep, fun c hc => ?_⟩, fun g ys u hsteps => ?_⟩
  · rw [core_addElement, if_neg (hd.shaped.ne_of_mem hc)]
  have hreads : ∀ n w, FlowDraft.reads { d with graph := d.graph.addElement d.current a } g n w ↔
      g.Reads n d.current (d.written ++ a :: w) := by
    intro n w
    unfold reads written
    rw [hcurrent, Option.elim_some, List.append_assoc]
    rfl
  constructor
  · intro n w hw
    obtain ⟨x, hx, hpre, -⟩ := (hd.shaped.steps hstep).extends_steps hsteps hcurrent
    obtain ⟨v, hv⟩ := hpre.trans (hw.elements_prefix hx)
    obtain rfl : w = a :: v := by
      rw [List.append_assoc] at hv
      exact (List.append_cancel_left hv).symm
    exact ⟨[a], v, .falls, n, Nat.le_refl n, rfl, ⟨rfl, rfl⟩, (hreads n v).2 hw⟩
  · rintro u v e m ⟨rfl, rfl⟩ hv
    exact ⟨m, (hreads m v).1 hv⟩

/-- One action after another: the runs of the first that go on are continued by the second. -/
theorem Realises.bind (h : Realises exits action xs A) (h' : Realises exits action' ys B) :
    Realises exits (action >>= fun _ => action') (xs ++ ys) (A.followedBy B) := by
  intro d d'' rest hd hrun
  obtain ⟨_, d', h1, h2⟩ := (bind_eq_ok _ _ _ _ _).1 hrun
  obtain ⟨hsteps, hspans⟩ := h d d' rest hd h1
  obtain ⟨hsteps', hspans'⟩ := h' d' d'' rest (hd.next hsteps.steps) h2
  refine ⟨hsteps.trans hsteps', fun g zs u hg => ?_⟩
  have hA := hspans g _ u (hsteps'.steps.trans hg)
  have hB := hspans' g zs u hg
  constructor
  · intro n w hw
    obtain ⟨u, v, e, m, hm, rfl, hu, hv⟩ := hA.path_run n w hw
    by_cases he : e = .falls
    · subst he
      obtain ⟨u', v', e', m', hm', rfl, hu', hv'⟩ := hB.path_run m v hv
      exact ⟨u ++ u', v', e', m', Nat.le_trans hm' hm, by simp, .inr ⟨u, u', rfl, hu, hu'⟩, hv'⟩
    · exact ⟨u, v, e, m, hm, rfl, .inl ⟨hu, he⟩, hv.elsewhere he⟩
  · rintro u v e m (⟨hu, he⟩ | ⟨u1, u2, rfl, hu1, hu2⟩) hv
    · exact hA.run_path u v e m hu (hv.elsewhere he)
    · obtain ⟨n, hn⟩ := hB.run_path u2 v e m hu2 hv
      rw [List.append_assoc]
      exact hA.run_path u1 (u2 ++ v) .falls n hu1 hn

/-- Control leaves the current block for good. -/
theorem realises_leave (t : Terminator) (hnodup : t.targets.Nodup)
    (htargets : t.targets ⊆ FlowGraph.exit :: jumpTargets exits)
    (hspans : ∀ (d : FlowDraft) g behind, d.current ≠ FlowGraph.exit → g.core FlowGraph.exit = some {} →
      g.core d.current = some { elements := d.written, terminator := some t, successors := t.targets } →
      Spans g exits (d.reads g) B behind) : Realises exits (leave t t.targets) [] B := by
  intro d d' rest hd h
  rw [leave_apply] at h
  cases h
  have henterable : ∀ c ∈ t.targets, d.graph.Enterable c := fun c hc =>
    (List.mem_cons.1 (htargets hc)).elim (fun heq => heq ▸ hd.shaped.enterable_exit) (hd.needs c)
  have hfinish := hd.shaped.finish t hnodup henterable
  have hended := hd.shaped.steps hfinish.steps
  have hblock : StepsBeside rest (d.graph.ended d.current t t.targets) rest [] (d.graph.ended d.current t t.targets).addBlock
      ((d.graph.ended d.current t t.targets).nextId ::ₘ rest) := by
    refine ⟨.single (.block _ _), fun c hc => ?_⟩
    obtain ⟨zs, hzs⟩ := hended.open_blocks c hc
    rw [hzs, core_addBlock_old hzs]
  refine ⟨hfinish.trans hblock, fun g ys u hg => hspans d g _ hd.ne_exit ?_ ?_⟩
  · exact ((hended.steps hblock.steps).steps hg).exit
  · exact hd.core_of_finished t hnodup henterable (hblock.steps.trans hg)

theorem realises_return (value : Option Expr) :
    Realises exits (leave (.returned value) [FlowGraph.exit]) [] (.emit [] .stops) := by
  refine realises_leave (.returned value) (List.nodup_singleton _) (by simp [Terminator.targets])
    fun d g behind hne hexit hcur => ?_
  have hreads := reads_along hcur hne (by simp)
  constructor
  · intro n w hw
    obtain ⟨m, rfl, next, hnext, hrest⟩ := (hreads n w).1 hw
    obtain rfl := List.mem_singleton.1 hnext
    obtain ⟨rfl, rfl⟩ := (reads_exit hexit m w).1 hrest
    exact ⟨[], [], .stops, 0, Nat.zero_le _, rfl, ⟨rfl, rfl⟩, rfl⟩
  · rintro u v e m ⟨rfl, rfl⟩ hv
    obtain rfl : v = [] := hv
    refine ⟨1, (hreads 1 []).2 ⟨0, rfl, FlowGraph.exit, by simp [Terminator.targets], ?_⟩⟩
    exact (reads_exit hexit 0 []).2 ⟨rfl, rfl⟩

theorem realises_raise : Realises exits (leave .unreachable []) [] (.emit [] .stops) := by
  refine realises_leave .unreachable List.nodup_nil (by simp [Terminator.targets]) fun d g behind hne hexit hcur => ?_
  have hreads := reads_iff hcur
  constructor
  · intro n w hw
    rcases (hreads n (d.written ++ w)).1 hw with ⟨rfl, hw, -⟩ | ⟨m, next, v, -, hnext, -⟩
    · obtain rfl : w = [] := by simpa using hw
      exact ⟨[], [], .stops, 0, Nat.le_refl 0, rfl, ⟨rfl, rfl⟩, rfl⟩
    · cases hnext
  · rintro u v e m ⟨rfl, rfl⟩ hv
    obtain rfl : v = [] := hv
    exact ⟨0, (hreads 0 (d.written ++ [])).2 (.inl ⟨rfl, by simp, .inr rfl⟩)⟩

theorem realises_jump (target : BlockId) (e : Ending) (htarget : target ∈ jumpTargets exits)
    (hlead : ∀ g behind n w, Leads g exits behind e n w ↔ g.Reads n target w) :
    Realises exits (jump target) [] (.emit [] e) := by
  refine realises_leave (.goto target) (List.nodup_singleton _)
    (by simp [Terminator.targets, htarget]) fun d g behind hne _ hcur => ?_
  have hreads := reads_along hcur hne (by simp)
  constructor
  · intro n w hw
    obtain ⟨m, rfl, next, hnext, hrest⟩ := (hreads n w).1 hw
    obtain rfl := List.mem_singleton.1 hnext
    exact ⟨[], w, e, m, Nat.le_succ m, rfl, ⟨rfl, rfl⟩, (hlead g _ m w).2 hrest⟩
  · rintro u v e' m ⟨rfl, rfl⟩ hv
    exact ⟨m + 1, (hreads (m + 1) v).2 ⟨m, rfl, target, by simp [Terminator.targets], (hlead g _ m v).1 hv⟩⟩

/-- If `behind` is one edge away from `next`, a part that ends at `behind` may as well end at
`next`. -/
theorem Spans.step_behind (h : Spans g exits start B behind)
    (hstep : ∀ n w, behind n w ↔ ∃ m, n = m + 1 ∧ next m w) : Spans g exits start B next := by
  constructor
  · intro n w hw
    obtain ⟨u, v, e, m, hm, rfl, hu, hv⟩ := h.path_run n w hw
    by_cases he : e = .falls
    · subst he
      obtain ⟨m', rfl, hv'⟩ := (hstep m v).1 hv
      exact ⟨u, v, .falls, m', by omega, rfl, hu, hv'⟩
    · exact ⟨u, v, e, m, hm, rfl, hu, hv.elsewhere he⟩
  · intro u v e m hu hv
    by_cases he : e = .falls
    · subst he
      exact h.run_path u v .falls (m + 1) hu ((hstep (m + 1) v).2 ⟨m, rfl, hv⟩)
    · exact h.run_path u v e m hu (hv.elsewhere he)

/-- Building from an empty block and then falling through to a target. -/
theorem Realises.falling (h : Realises exits action xs B) {rest : Multiset BlockId} {target : BlockId} {g1 : FlowGraph}
    (hd : d.Ready rest (jumpTargets exits)) (hempty : d.graph.core d.current = some {}) (htarget : d.graph.Enterable target)
    (hfalls : Falls action d target g1) : StepsBeside rest d.graph (d.current ::ₘ rest) xs g1 rest ∧
      ∀ g ys u, Steps g1 rest ys g u → Spans g exits (fun n w => g.Reads n d.current w) B fun n w => g.Reads n target w := by
  obtain ⟨d1, d2, h1, h2, rfl⟩ := hfalls
  obtain ⟨hsteps, hspans⟩ := h d d1 rest hd h1
  have hd1 := hd.next hsteps.steps
  rw [fallThrough_apply _ _ (isOpen_of_core hd1.core_current)] at h2
  cases h2
  have henterable : ∀ c ∈ (Terminator.goto target).targets, d1.graph.Enterable c := by
    simpa [Terminator.targets] using hsteps.steps.enterable htarget
  have hfinish := hd1.shaped.finish (.goto target) (List.nodup_singleton _) henterable
  refine ⟨List.append_nil xs ▸ hsteps.trans hfinish, fun g ys u hg => ?_⟩
  rw [← reads_of_empty hempty]
  refine (hspans g _ u (hfinish.steps.trans hg)).step_behind fun n w => ?_
  show g.Reads n d1.current (d1.written ++ w) ↔ _
  have hcur := hd1.core_of_finished (.goto target) (List.nodup_singleton _) henterable hg
  rw [reads_along hcur hd1.ne_exit (by simp)]
  simp [Terminator.targets]

theorem followedBy_emit_iff (xs w : List Element) (B : Behaviour) (e : Ending) :
    (Behaviour.emit xs .falls).followedBy B w e ↔ ∃ v, w = xs ++ v ∧ B v e := by
  constructor
  · rintro (⟨⟨-, rfl⟩, he⟩ | ⟨u, v, rfl, ⟨rfl, -⟩, hv⟩)
    · exact absurd rfl he
    · exact ⟨v, rfl, hv⟩
  · rintro ⟨v, rfl, hv⟩
    exact .inr ⟨xs, v, rfl, ⟨rfl, rfl⟩, hv⟩

theorem realises_branch (test : Expr) (hbody : Realises exits body xs A) (horelse : Realises exits orelse ys B) :
    Realises exits (branch test body orelse) (.condition test :: (xs ++ ys))
      (.followedBy (.emit [.condition test] .falls) (.either A B)) := by
  intro d d' rest hd h
  obtain ⟨g1, g2, hthen, helse, rfl⟩ := branch_run h
  have hstart := hd.shaped.branching test
  have hnew := fun b => core_branching_new (b := b) hd.core_current test
  have hmerge : (d.graph.branching d.current test).Enterable d.graph.addBlock.addBlock.nextId := by
    simp [enterable_iff, size_branching]
  have hd0 : Ready ⟨d.graph.branching d.current test, d.graph.nextId⟩ _ _ := hd.next hstart.steps
  obtain ⟨hsteps1, hspans1⟩ := hbody.falling hd0 (hnew _ (by simp)) hmerge hthen
  have hd1 : Ready ⟨g1, d.graph.addBlock.nextId⟩ _ _ := hd0.next hsteps1.steps
  obtain ⟨hsteps2, hspans2⟩ := horelse.falling hd1 ((hsteps1.kept _ (by simp)).trans (hnew _ (by simp)))
    (hsteps1.steps.enterable hmerge) helse
  have hsteps : StepsBeside (d.graph.addBlock.addBlock.nextId ::ₘ rest) _ _ _ _ _ := hsteps1.trans hsteps2
  refine ⟨hstart.trans hsteps, fun g zs u hg => ?_⟩
  rw [reads_of_empty (d := ⟨g2, _⟩) ((hsteps.kept _ (by simp)).trans (hnew _ (by simp)))]
  have hA := hspans1 g _ u (hsteps2.steps.trans hg)
  have hB := hspans2 g zs u hg
  have hcur := hd0.shaped.core_finished (hsteps.steps.trans hg)
    ((core_branching hd.core_current test _).trans (if_pos rfl)) rfl
  have hreads := reads_along hcur hd.ne_exit (by simp)
  constructor
  · intro n w hw
    obtain ⟨v, hv⟩ := Reads.elements_prefix hw hcur
    obtain rfl : w = .condition test :: v := by simpa using hv.symm
    obtain ⟨m, rfl, next, hnext, hrest⟩ := (hreads n v).1 (by simpa [reads] using hw)
    -- either way the rest is a run of that body
    have hrun : ∃ u v' e m', m' ≤ m ∧ v = u ++ v' ∧ A.either B u e ∧
        Leads g exits (fun n w => g.Reads n d.graph.addBlock.addBlock.nextId w) e m' v' := by
      rcases List.mem_pair.1 hnext with rfl | rfl
      · obtain ⟨u, v', e, m', hm', hv', hu, hlead⟩ := hA.path_run m v hrest
        exact ⟨u, v', e, m', hm', hv', .inl hu, hlead⟩
      · obtain ⟨u, v', e, m', hm', hv', hu, hlead⟩ := hB.path_run m v hrest
        exact ⟨u, v', e, m', hm', hv', .inr hu, hlead⟩
    obtain ⟨u, v', e, m', hm', rfl, hu, hlead⟩ := hrun
    exact ⟨.condition test :: u, v', e, m', by omega, rfl, (followedBy_emit_iff _ _ _ _).2 ⟨u, rfl, hu⟩, hlead⟩
  · intro w v e m hw hlead
    obtain ⟨u, rfl, hu⟩ := (followedBy_emit_iff _ _ _ _).1 hw
    have hrun : ∃ n, ∃ next ∈ [d.graph.nextId, d.graph.addBlock.nextId], g.Reads n next (u ++ v) := by
      rcases hu with hu | hu
      · obtain ⟨n, hn⟩ := hA.run_path u v e m hu hlead
        exact ⟨n, _, by simp, hn⟩
      · obtain ⟨n, hn⟩ := hB.run_path u v e m hu hlead
        exact ⟨n, _, by simp, hn⟩
    obtain ⟨n, next, hnext, hn⟩ := hrun
    have := (hreads (n + 1) (u ++ v)).2 ⟨n, rfl, next, hnext, hn⟩
    exact ⟨n + 1, by simpa [reads] using this⟩

/-- A part of a graph that is a loop: from the head control goes to the body or to the `else`, from
the end of the body and by `continue` back to the head, and from the end of the `else` and by
`break` behind the loop. -/
theorem spans_loop {header behind bodyBlock elseBlock : BlockId} {head : Element} (hheader : ∀ n w, g.Reads n header w ↔
      ∃ m v, n = m + 1 ∧ w = head :: v ∧ (g.Reads m bodyBlock v ∨ g.Reads m elseBlock v))
    (hbody : Spans g (some { continueTo := header, breakTo := behind }) (fun n w => g.Reads n bodyBlock w) A
      (fun n w => g.Reads n header w))
        (horelse : Spans g exits (fun n w => g.Reads n elseBlock w) B
        (fun n w => g.Reads n behind w)) :
    Spans g exits (fun n w => g.Reads n header w) (.loop head A B) (fun n w => g.Reads n behind w) := by
  constructor
  · intro n
    -- a path that comes back to the head has fewer edges left
    induction n using Nat.strongRecOn with
    | _ n ih =>
      intro w hw
      obtain ⟨m, v, rfl, rfl, hrest | hrest⟩ := (hheader n w).1 hw
      · obtain ⟨u, v', e, m', hm', rfl, hu, hlead⟩ := hbody.path_run m v hrest
        have hagain : (A u .falls ∨ A u .continues) → g.Reads m' header v' →
            ∃ u' v'' e m'', m'' ≤ m + 1 ∧ head :: (u ++ v') = u' ++ v'' ∧ Behaviour.loop head A B u' e ∧
              Leads g exits (fun n w => g.Reads n behind w) e m'' v'' := by
          intro hu hback
          obtain ⟨u', v'', e', m'', hm'', rfl, hu', hlead'⟩ := ih m' (by omega) v' hback
          exact ⟨head :: (u ++ u'), v'', e', m'', by omega, by simp, .again hu hu', hlead'⟩
        cases e with
        | falls => exact hagain (.inl hu) hlead
        | continues =>
          obtain ⟨x, hx, hback⟩ := hlead
          cases hx
          exact hagain (.inr hu) hback
        | breaks =>
          obtain ⟨x, hx, hout⟩ := hlead
          cases hx
          exact ⟨head :: u, v', .falls, m', by omega, rfl, .broken hu, hout⟩
        | stops => exact ⟨head :: u, v', .stops, m', by omega, rfl, .stopped hu, hlead⟩
      · obtain ⟨u, v', e, m', hm', rfl, hu, hlead⟩ := horelse.path_run m v hrest
        exact ⟨head :: u, v', e, m', by omega, rfl, .ends hu, hlead⟩
  · intro u v e m hu hlead
    -- induction on the number of iterations of the run
    induction hu generalizing v m with
    | ends hu =>
      obtain ⟨n, hn⟩ := horelse.run_path _ v _ m hu hlead
      exact ⟨n + 1, (hheader _ _).2 ⟨n, _, rfl, rfl, .inr hn⟩⟩
    | @again u u' e hu _ ih =>
      obtain ⟨n, hn⟩ := ih v m hlead
      have hback : ∃ n, g.Reads n bodyBlock (u ++ (u' ++ v)) := by
        rcases hu with hu | hu
        · exact hbody.run_path u _ .falls n hu hn
        · exact hbody.run_path u _ .continues n hu ⟨_, rfl, hn⟩
      obtain ⟨n', hn'⟩ := hback
      exact ⟨n' + 1, (hheader _ _).2 ⟨n', _, rfl, by simp, .inl hn'⟩⟩
    | broken hu =>
      obtain ⟨n, hn⟩ := hbody.run_path _ v .breaks m hu ⟨_, rfl, hlead⟩
      exact ⟨n + 1, (hheader _ _).2 ⟨n, _, rfl, rfl, .inl hn⟩⟩
    | stopped hu =>
      obtain ⟨n, hn⟩ := hbody.run_path _ v .stops m hu hlead
      exact ⟨n + 1, (hheader _ _).2 ⟨n, _, rfl, rfl, .inl hn⟩⟩

theorem Spans.step_start (h : Spans g exits next B behind)
    (hstep : ∀ n w, start n w ↔ ∃ m, n = m + 1 ∧ next m w) : Spans g exits start B behind := by
  constructor
  · intro n w hw
    obtain ⟨m, rfl, hrest⟩ := (hstep n w).1 hw
    obtain ⟨u, v, e, m', hm', hw, hu, hv⟩ := h.path_run m w hrest
    exact ⟨u, v, e, m', by omega, hw, hu, hv⟩
  · intro u v e m hu hv
    obtain ⟨n, hn⟩ := h.run_path u v e m hu hv
    exact ⟨n + 1, (hstep _ _).2 ⟨n, rfl, hn⟩⟩

theorem realises_loop (head : Element) {body : LoopExits → FlowM Unit}
    (hbody : ∀ inner, Realises (some inner) (body inner) xs A)
    (horelse : Realises exits orelse ys B) :
    Realises exits (loop head body orelse) (head :: (xs ++ ys)) (.loop head A B) := by
  intro d d' rest hd h
  obtain ⟨g1, g2, hloop, helse, rfl⟩ := loop_run hd.core_current h
  have hstart := hd.shaped.looping head
  have hnew := fun b => core_looping_new (b := b) hd.core_current head
  have hcore := core_looping hd.core_current head
  have hsize := hd.shaped.one_lt_size
  have hheader : (d.graph.looping d.current head).Enterable d.graph.nextId := by
    rw [enterable_iff, size_looping, nextId_index]
    omega
  have hbehind : (d.graph.looping d.current head).Enterable d.graph.addBlock.addBlock.addBlock.nextId := by
    simp [enterable_iff, size_looping]
  have hd0 : Ready ⟨d.graph.looping d.current head, d.graph.addBlock.nextId⟩ _ _ := hd.next hstart.steps
  obtain ⟨hsteps1, hspans1⟩ :=
    (hbody _).falling ⟨hd0.shaped, by simpa [jumpTargets] using ⟨hheader, hbehind⟩⟩
    (hnew _ (by simp)) hheader hloop
  have hd1 : Ready ⟨g1, d.graph.addBlock.addBlock.nextId⟩ _ _ := hd0.next hsteps1.steps
  obtain ⟨hsteps2, hspans2⟩ := horelse.falling hd1 ((hsteps1.kept _ (by simp)).trans (hnew _ (by simp)))
    (hsteps1.steps.enterable hbehind) helse
  have hsteps : StepsBeside (d.graph.addBlock.addBlock.addBlock.nextId ::ₘ rest) _ _ _ _ _ := hsteps1.trans hsteps2
  refine ⟨hstart.trans hsteps, fun g zs u hg => ?_⟩
  rw [reads_of_empty (d := ⟨g2, _⟩) ((hsteps.kept _ (by simp)).trans (hnew _ (by simp)))]
  have hfresh : d.graph.nextId ≠ d.current := fun heq => by
    simpa [← heq, core_nextId] using hd.core_current
  have hcur := hd0.shaped.core_finished (hsteps.steps.trans hg) ((hcore _).trans (if_pos rfl)) rfl
  have hhead := hd0.shaped.core_finished (hsteps.steps.trans hg) ((hcore _).trans ((if_neg hfresh).trans (if_pos rfl))) rfl
  have hne : d.graph.nextId ≠ FlowGraph.exit := fun heq => by
    simpa [← heq, core_nextId] using hd.shaped.exit
  have hreads : ∀ n w, g.Reads n d.graph.nextId w ↔ ∃ m v, n = m + 1 ∧ w = head :: v ∧
      (g.Reads m d.graph.addBlock.nextId v ∨ g.Reads m d.graph.addBlock.addBlock.nextId v) := by
    intro n w
    have halong := fun v => reads_along hhead hne (by simp) n v
    constructor
    · intro hw
      obtain ⟨v, rfl⟩ := Reads.elements_prefix hw hhead
      simp_all
    · rintro ⟨m, v, rfl, rfl, hrest | hrest⟩
      · simp_all
      · simp_all
  refine (spans_loop hreads (hspans1 g _ u (hsteps2.steps.trans hg)) (hspans2 g zs u hg)).step_start fun n w => ?_
  show g.Reads n d.current (d.written ++ w) ↔ _
  rw [reads_along hcur hd.ne_exit (by simp)]
  simp

theorem emit_followedBy_emit (xs ys : List Element) (e : Ending) :
    (Behaviour.emit xs .falls).followedBy (.emit ys e) = .emit (xs ++ ys) e := by
  grind [Behaviour.emit, followedBy_emit_iff]

theorem realises_items (items : List WithItem) :
    Realises exits (forIn items PUnit.unit fun item _ => do
        addElement (.withItem item)
        pure (ForInStep.yield PUnit.unit)) (items.map .withItem) (.emit (items.map .withItem) .falls) := by
  induction items with
  | nil => exact realises_pure
  | cons item rest ih =>
    have h := (realises_addElement (.withItem item)).bind ih
    simp_all [emit_followedBy_emit]

end Constructs

theorem Realises.of_leaf {exits : Option LoopExits} {action : FlowM Unit} {s : Stmt} {B : Behaviour} (hs : s.childBlocks = [])
    (h : Realises exits action s.elements B) :
    Realises exits action (s.elements ++ Stmt.elementsAll s.childBlocks.flatten) B := by
  simpa [hs] using h

mutual

theorem realises_addStmt (exits : Option LoopExits) : ∀ s : Stmt,
    Realises exits (addStmt exits s) (s.elements ++ Stmt.elementsAll s.childBlocks.flatten) s.behaviour
  | .returnStmt id value => by
    have h := (@realises_addElement exits (.stmt (.returnStmt id value))).bind (realises_return value)
    rw [emit_followedBy_emit] at h
    exact .of_leaf rfl h
  | .raiseStmt id exception => by
    have h := (@realises_addElement exits (.stmt (.raiseStmt id exception))).bind realises_raise
    rw [emit_followedBy_emit] at h
    exact .of_leaf rfl h
  | .breakStmt id => by
    cases exits with
    | none =>
      intro d d' _ _ h
      simp [addStmt] at h
    | some inner => exact .of_leaf rfl (realises_jump inner.breakTo .breaks (by simp [jumpTargets]) (by simp [Leads]))
  | .continueStmt id => by
    cases exits with
    | none =>
      intro d d' _ _ h
      simp [addStmt] at h
    | some inner => exact .of_leaf rfl (realises_jump inner.continueTo .continues (by simp [jumpTargets]) (by simp [Leads]))
  | .ifStmt _ test body orelse => by
    rw [addStmt, Stmt.behaviour]
    simpa [Stmt.elements, Stmt.childBlocks, Stmt.elementsAll_append] using
      realises_branch test (realises_addBlock exits body) (realises_addBlock exits orelse)
  | .whileStmt _ test body orelse | .forStmt _ target iter body orelse => by
    rw [addStmt, Stmt.behaviour]
    simpa [Stmt.elements, Stmt.childBlocks, Stmt.elementsAll_append] using
      realises_loop _ (fun inner => realises_addBlock (some inner) body) (realises_addBlock exits orelse)
  | .withStmt _ items body => by
    rw [addStmt, Stmt.behaviour]
    simpa [Stmt.elements, Stmt.childBlocks] using (realises_items items).bind (realises_addBlock exits body)
  | .tryStmt .. => by
    intro d d' _ _ h
    have h : (throw .exceptionHandling : FlowM Unit) d = .ok ((), d') := h
    simp at h
  | .assign .. | .annotated .. | .compound .. | .exprStmt .. | .passStmt .. | .globalStmt .. | .functionDef .. | .classDef ..
  | .importStmt .. | .importFrom .. => .of_leaf rfl (realises_addElement _)

theorem realises_addBlock (exits : Option LoopExits) :
    ∀ ss : List Stmt, Realises exits (addBlock exits ss) (Stmt.elementsAll ss) (Stmt.behaviourAll ss)
  | [] => Stmt.elementsAll_nil ▸ realises_pure
  | s :: rest => Stmt.elementsAll_cons s rest ▸ (realises_addStmt exits s).bind (realises_addBlock exits rest)

end

theorem ready_start : FlowDraft.Ready {} 0 (jumpTargets none) := ⟨shaped_start, nofun⟩

end FlowDraft

namespace FlowGraph

variable {body : List Stmt} {g : FlowGraph}

/-- The graph of a body is that of its statements, with a return at the end. -/
theorem ofBody_run (h : ofBody body = .ok g) : ∃ d : FlowDraft, FlowDraft.addBlock none body {} = .ok ((), d) ∧
    d.current ≠ exit ∧ Steps d.graph (d.current ::ₘ 0) [] g 0 ∧ g.core exit = some {} ∧
      g.core d.current = some { elements := d.written, terminator := some (.returned none), successors := [exit] } := by
  rw [ofBody_eq, Except.map.eq_def] at h
  split at h <;> cases h
  rename_i r hrun
  obtain ⟨_, d, hadd, hend⟩ := (FlowDraft.bind_eq_ok _ _ _ _ _).1 hrun
  have hd := FlowDraft.ready_start.next (FlowDraft.realises_addBlock none body {} d 0 FlowDraft.ready_start hadd).1.steps
  rw [FlowDraft.bind_of_ok (FlowDraft.get_apply d), if_pos (isOpen_of_core hd.core_current)] at hend
  rw [← (Prod.mk.inj (Except.ok.inj hend)).2]
  have henterable : ∀ c ∈ (Terminator.returned none).targets, d.graph.Enterable c := by
    simpa [Terminator.targets] using hd.shaped.enterable_exit
  have hfinish := hd.shaped.finish (.returned none) (List.nodup_singleton _) henterable
  exact ⟨d, hadd, hd.ne_exit, hfinish.steps, (hd.shaped.steps hfinish.steps).exit,
    hd.core_of_finished (.returned none) (List.nodup_singleton _) henterable .refl⟩

/-- The graph of a body is built from the empty graph by steps that bring the elements of the body,
and no block is left unfinished. -/
theorem steps_ofBody (h : ofBody body = .ok g) : Steps start {entry} (Stmt.elementsAll body) g 0 := by
  obtain ⟨d, hadd, -, hfinish, -⟩ := ofBody_run h
  rw [← List.append_nil (Stmt.elementsAll body)]
  exact (FlowDraft.realises_addBlock none body {} d 0 FlowDraft.ready_start hadd).1.steps.trans hfinish

/-- The element sequences along the paths of the graph of a body are those of the executions of the
body. -/
theorem pathReads_iff_executes {body : List Stmt} {g : FlowGraph} (h : ofBody body = .ok g)
    (w : List Element) : g.PathReads w ↔ Stmt.Executes body w := by
  obtain ⟨d, hadd, hne, hfinish, hexit, hcur⟩ := ofBody_run h
  have hB := (FlowDraft.realises_addBlock none body {} d 0 FlowDraft.ready_start hadd).2 _ _ _ hfinish
  -- from the last block control returns, and nothing more is read
  have hlast : ∀ n v, d.reads g n v ↔ n = 1 ∧ v = [] := by
    intro n v
    unfold FlowDraft.reads
    rw [reads_along hcur hne (by simp)]
    simp only [List.mem_singleton, exists_eq_left, reads_exit hexit]
    constructor
    · rintro ⟨m, rfl, rfl, rfl⟩
      exact ⟨rfl, rfl⟩
    · rintro ⟨rfl, rfl⟩
      exact ⟨0, rfl, rfl, rfl⟩
  constructor
  · rintro ⟨n, hn⟩
    obtain ⟨u, v, e, m, -, rfl, hu, hlead⟩ := hB.path_run n w hn
    cases e with
    | falls =>
      obtain ⟨-, rfl⟩ := (hlast m v).1 hlead
      rw [List.append_nil]
      exact .inl hu
    | stops =>
      obtain rfl : v = [] := hlead
      rw [List.append_nil]
      exact .inr hu
    | breaks | continues =>
      obtain ⟨x, hx, -⟩ := hlead
      cases hx
  · rintro (hw | hw)
    · obtain ⟨n, hn⟩ := hB.run_path w [] .falls 1 hw ((hlast 1 []).2 ⟨rfl, rfl⟩)
      rw [List.append_nil] at hn
      exact ⟨n, hn⟩
    · obtain ⟨n, hn⟩ := hB.run_path w [] .stops 0 hw rfl
      rw [List.append_nil] at hn
      exact ⟨n, hn⟩

/-- A loop that is left by `break` skips its `else`: of `while a: if b: break` with a `return` in
its `else`, followed by `pass`, the graph has the path that evaluates the two tests and passes. -/
theorem pathReads_broken_loop :
    let a : Expr := .boolean ⟨0⟩ true
    let b : Expr := .boolean ⟨1⟩ true
    ∃ g, ofBody [.whileStmt ⟨4⟩ a [.ifStmt ⟨1⟩ b [.breakStmt ⟨0⟩] []] [.returnStmt ⟨2⟩ none], .passStmt ⟨5⟩] = .ok g ∧
      g.PathReads [.condition a, .condition b, .stmt (.passStmt ⟨5⟩)] := by
  intro a b
  have hok : (ofBody [.whileStmt ⟨4⟩ a [.ifStmt ⟨1⟩ b [.breakStmt ⟨0⟩] []] [.returnStmt ⟨2⟩ none],
      .passStmt ⟨5⟩]).isOk = true := by decide +kernel
  cases h : ofBody [.whileStmt ⟨4⟩ a [.ifStmt ⟨1⟩ b [.breakStmt ⟨0⟩] []] [.returnStmt ⟨2⟩ none], .passStmt ⟨5⟩] with
  | error err => simp [h, Except.isOk, Except.toBool] at hok
  | ok g =>
    refine ⟨g, rfl, (pathReads_iff_executes h _).2 (.inl ?_)⟩
    refine .inr ⟨[.condition a, .condition b], [.stmt (.passStmt ⟨5⟩)], rfl, ?_, ?_⟩
    · have hbreak : Stmt.behaviourAll [.breakStmt ⟨0⟩] [] .breaks := .inl ⟨⟨rfl, rfl⟩, by decide⟩
      exact .broken (.inl ⟨.inr ⟨[.condition b], [], rfl, ⟨rfl, rfl⟩, .inl hbreak⟩, by decide⟩)
    · exact .inr ⟨_, [], rfl, ⟨rfl, rfl⟩, rfl, rfl⟩

end FlowGraph

end PythonTypes
