import Mathlib.Tactic.Tauto
import PythonTypes.Proofs.Flow.Draft
import PythonTypes.Proofs.Tree.Traversal

/-!
# Which bodies have no control flow graph

A body has no control flow graph exactly if it handles exceptions or has a jump that stands in none
of its loops (`FlowGraph.ofBody_eq_error_iff`). While a graph is built, a jump is refused if no loop
is open, which is so in the blocks that are not the body of a loop.
-/

set_option autoImplicit false

namespace PythonTypes

namespace Stmt

variable {xs ys : List Stmt} {s : Stmt}

theorem handlesExceptions_append_iff :
    HandlesExceptions (xs ++ ys) ↔ HandlesExceptions xs ∨ HandlesExceptions ys := by
  grind [HandlesExceptions, within_append_iff]

theorem jumpsAstray_append_iff : JumpsAstray (xs ++ ys) ↔ JumpsAstray xs ∨ JumpsAstray ys := by
  grind [JumpsAstray, within_append_iff]

theorem not_handlesExceptions_nil : ¬ HandlesExceptions [] := fun ⟨_, h, _⟩ => not_within_nil h

theorem not_jumpsAstray_nil : ¬ JumpsAstray [] := fun ⟨_, h, _⟩ => not_within_nil h

theorem handlesExceptions_singleton_iff :
    HandlesExceptions [s] ↔ s.isTry = true ∨ ∃ block ∈ s.childBlocks, HandlesExceptions block := by
  unfold HandlesExceptions
  grind [within_cons_iff, not_within_nil]

theorem jumpsAstray_singleton_iff : JumpsAstray [s] ↔ s.isJump = true ∨ ∃ block ∈ s.openBlocks, JumpsAstray block := by
  unfold JumpsAstray
  grind [within_cons_iff, not_within_nil]

end Stmt

namespace FlowDraft

open Stmt

/-- The action fails exactly on a condition, whatever the draft. -/
def FailsIff {α : Type} (action : FlowM α) (p : Prop) : Prop :=
  ∀ d, (p → ∃ err, action d = .error err) ∧ (¬ p → ∃ r, action d = .ok r)

namespace FailsIff

variable {α β : Type} {p q : Prop} {action : FlowM α} {f : α → FlowM β} {orelse : FlowM Unit}

theorem never (h : ∀ d, ∃ r, action d = .ok r) : FailsIff action False :=
  fun d => ⟨False.elim, fun _ => h d⟩

theorem always (err : Unsupported) : FailsIff (throw err : FlowM α) True :=
  fun _ => ⟨fun _ => ⟨err, rfl⟩, fun h => absurd trivial h⟩

theorem congr (h : FailsIff action p) (hpq : p ↔ q) : FailsIff action q := by
  rwa [← propext hpq]

theorem bind (h : FailsIff action p) (hf : ∀ a, FailsIff (f a) q) : FailsIff (action >>= f) (p ∨ q) := by
  intro d
  by_cases hp : p
  · obtain ⟨err, herr⟩ := (h d).1 hp
    have hbind : (action >>= f) d = .error err := by simp only [Bind.bind, StateT.bind, Except.bind, herr]
    exact ⟨fun _ => ⟨err, hbind⟩, fun hnot => absurd (.inl hp) hnot⟩
  · obtain ⟨⟨a, d'⟩, hok⟩ := (h d).2 hp
    rw [bind_of_ok hok]
    exact ⟨fun hpq => (hf a d').1 (hpq.resolve_left hp), fun hnot => (hf a d').2 fun hq => hnot (.inr hq)⟩

theorem after (h : ∀ d, ∃ r, action d = .ok r) (hf : ∀ a, FailsIff (f a) q) :
    FailsIff (action >>= f) q := ((never h).bind hf).congr (by simp)

theorem fallThrough_ok (target : BlockId) (d : FlowDraft) : ∃ r, fallThrough target d = .ok r := by
  show ∃ r, (if d.graph.isOpen d.current then terminate d.current (.goto target) [target] else pure () : FlowM Unit) d = .ok r
  split <;> exact ⟨_, rfl⟩

theorem closing (target next : BlockId) : FailsIff (do fallThrough target; continueIn next) False :=
  after (fallThrough_ok target) fun _ => never fun _ => ⟨_, rfl⟩

theorem branch (test : Expr) {body : FlowM Unit} (hbody : FailsIff body p)
    (horelse : FailsIff orelse q) : FailsIff (FlowDraft.branch test body orelse) (p ∨ q) := by
  unfold FlowDraft.branch
  refine after (fun _ => ⟨_, rfl⟩) fun thenBlock => after (fun _ => ⟨_, rfl⟩) fun elseBlock =>
    after (fun _ => ⟨_, rfl⟩) fun merge => ?_
  refine after (fun _ => ⟨_, rfl⟩) fun _ => after (fun _ => ⟨_, rfl⟩) fun _ => after (fun _ => ⟨_, rfl⟩) fun _ => ?_
  refine after (fun _ => ⟨_, rfl⟩) fun _ => hbody.bind fun _ => after (fallThrough_ok merge) fun _ => ?_
  exact after (fun _ => ⟨_, rfl⟩) fun _ => (horelse.bind fun _ => closing merge merge).congr (by simp)

theorem loop (head : Element) {body : LoopExits → FlowM Unit} (hbody : ∀ exits, FailsIff (body exits) p)
    (horelse : FailsIff orelse q) : FailsIff (FlowDraft.loop head body orelse) (p ∨ q) := by
  unfold FlowDraft.loop
  refine after (fun _ => ⟨_, rfl⟩) fun header => after (fun _ => ⟨_, rfl⟩) fun bodyBlock =>
      after (fun _ => ⟨_, rfl⟩) fun elseBlock =>
    after (fun _ => ⟨_, rfl⟩) fun behind => ?_
  refine after (fallThrough_ok header) fun _ => after (fun _ => ⟨_, rfl⟩) fun _ => after (fun _ => ⟨_, rfl⟩) fun _ => ?_
  refine after (fun _ => ⟨_, rfl⟩) fun _ => (hbody _).bind fun _ => after (fallThrough_ok header) fun _ => ?_
  exact after (fun _ => ⟨_, rfl⟩) fun _ => (horelse.bind fun _ => closing behind behind).congr (by simp)

theorem addItems (items : List WithItem) : FailsIff (forIn items PUnit.unit fun item _ => do
    FlowDraft.addElement (.withItem item)
    Pure.pure (ForInStep.yield PUnit.unit)) False := by
  induction items with
  | nil => exact never fun _ => ⟨_, rfl⟩
  | cons item rest ih =>
    simp_all [after]

end FailsIff

/-- Whether statements are refused that stand in the given loop, if in any. -/
def Refused (exits : Option LoopExits) (body : List Stmt) : Prop :=
  HandlesExceptions body ∨ exits = none ∧ JumpsAstray body

section Refused

variable {exits : Option LoopExits}

theorem refused_append_iff {xs ys : List Stmt} : Refused exits (xs ++ ys) ↔ Refused exits xs ∨ Refused exits ys := by
  unfold Refused
  rw [handlesExceptions_append_iff, jumpsAstray_append_iff]
  tauto

theorem not_refused_nil : ¬ Refused exits [] := by
  rintro (h | ⟨-, h⟩)
  · exact not_handlesExceptions_nil h
  · exact not_jumpsAstray_nil h

theorem refused_some_iff {inner : LoopExits} {body : List Stmt} : Refused (some inner) body ↔ HandlesExceptions body := by
  simp [Refused]

/-- Whether a statement is refused depends on the blocks in it, those of a loop apart. -/
theorem refused_singleton_iff {s : Stmt} :
    Refused exits [s] ↔ (s.isTry = true ∨ ∃ block ∈ s.childBlocks, HandlesExceptions block) ∨
      exits = none ∧ (s.isJump = true ∨ ∃ block ∈ s.openBlocks, JumpsAstray block) := by
  unfold Refused
  rw [handlesExceptions_singleton_iff, jumpsAstray_singleton_iff]

end Refused

mutual

theorem failsIff_addStmt (exits : Option LoopExits) : ∀ s : Stmt, FailsIff (addStmt exits s) (Refused exits [s])
  | .returnStmt .. | .raiseStmt .. => by
    refine (FailsIff.never fun _ => ⟨_, rfl⟩).congr ?_
    simp [refused_singleton_iff, isTry, isJump, childBlocks, openBlocks]
  | .breakStmt _ | .continueStmt _ => by
    cases exits with
    | none =>
      refine (FailsIff.always _).congr ?_
      simp [refused_singleton_iff, isJump]
    | some exits =>
      refine (FailsIff.never fun _ => ⟨_, rfl⟩).congr ?_
      simp [refused_singleton_iff, isTry, childBlocks]
  | .ifStmt _ test body orelse => by
    rw [addStmt]
    refine (FailsIff.branch test (failsIff_addBlock exits body) (failsIff_addBlock exits orelse)).congr ?_
    rw [refused_singleton_iff]
    simp [Refused, isTry, isJump, childBlocks, openBlocks]
    tauto
  | .whileStmt _ test body orelse | .forStmt _ target iter body orelse => by
    rw [addStmt]
    refine (FailsIff.loop _ (fun inner => (failsIff_addBlock (some inner) body).congr refused_some_iff)
      (failsIff_addBlock exits orelse)).congr ?_
    rw [refused_singleton_iff]
    simp [Refused, isTry, isJump, childBlocks, openBlocks]
    tauto
  | .withStmt _ items body => by
    rw [addStmt]
    refine ((FailsIff.addItems items).bind fun _ => failsIff_addBlock exits body).congr ?_
    rw [refused_singleton_iff]
    simp [Refused, isTry, isJump, childBlocks, openBlocks]
  | .tryStmt .. => by
    refine (FailsIff.always .exceptionHandling).congr ?_
    simp [refused_singleton_iff, isTry]
  | .assign .. | .annotated .. | .compound .. | .exprStmt .. | .passStmt .. | .globalStmt .. | .functionDef .. | .classDef ..
  | .importStmt .. | .importFrom .. => by
    refine (FailsIff.never fun _ => ⟨_, rfl⟩).congr ?_
    simp [refused_singleton_iff, isTry, isJump, childBlocks, openBlocks]

theorem failsIff_addBlock (exits : Option LoopExits) : ∀ ss : List Stmt, FailsIff (addBlock exits ss) (Refused exits ss)
  | [] => (FailsIff.never fun _ => ⟨_, rfl⟩).congr (by simp [not_refused_nil])
  | s :: rest => by
    rw [addBlock]
    refine ((failsIff_addStmt exits s).bind fun _ => failsIff_addBlock exits rest).congr ?_
    exact refused_append_iff.symm

end

end FlowDraft

namespace FlowGraph

/-- A body has no control flow graph if it handles exceptions or has a jump that stands in none of
its loops. -/
theorem ofBody_eq_error_iff (body : List Stmt) :
    (∃ err, ofBody body = .error err) ↔ Stmt.HandlesExceptions body ∨ Stmt.JumpsAstray body := by
  have hclosing : ∀ d : FlowDraft, ∃ r, (do
      let d ← get
      if d.graph.isOpen d.current then FlowDraft.terminate d.current (.returned none) [exit] : FlowM Unit) d = .ok r := by
    intro d
    show ∃ r, (if d.graph.isOpen d.current then _ else pure () : FlowM Unit) d = .ok r
    split <;> exact ⟨_, rfl⟩
  have hbuild := (((FlowDraft.failsIff_addBlock none body).bind fun _ => .never hclosing).congr
    (q := Stmt.HandlesExceptions body ∨ Stmt.JumpsAstray body) (by simp [FlowDraft.Refused])) {}
  rw [ofBody_eq]
  constructor
  · rintro ⟨err, herr⟩
    refine Decidable.of_not_not fun hnot => ?_
    obtain ⟨r, hr⟩ := hbuild.2 hnot
    rw [hr] at herr
    cases herr
  · intro h
    obtain ⟨err, herr⟩ := hbuild.1 h
    exact ⟨err, by rw [herr]; rfl⟩

end FlowGraph

end PythonTypes
