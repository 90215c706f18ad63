import PythonTypes.Inference.File
import PythonTypes.Proofs.Data.Ensures
import PythonTypes.Proofs.Flow.Refusal
import PythonTypes.Tree.Bind

/-!
# How the bodies of a module are inferred

The bodies of a module are its top level and the bodies of its functions at any depth. Each is
inferred once, and in one of three ways that depend on nothing but its statements
(`Inference.Accounts`): by propagation if it handles exceptions, not at all if a jump stands in none
of its loops, and along its control flow otherwise. The statistics of a module count just that
(`stats_inferModule`).
-/

set_option autoImplicit false

namespace PythonTypes

/-- The body of a function definition. -/
def Stmt.functionBody? : Stmt → Option (List Stmt)
  | functionDef _ _ body => some body
  | _ => none

/-- The top level of a module and the bodies of its functions at any depth. -/
def Tree.bodies (t : Tree) : List (List Stmt) := t.body :: t.listing.filterMap Stmt.functionBody?

namespace Inference

open Stmt

/-- What the statistics say once the given bodies are inferred, those of functions among them. -/
structure Accounts (stats : InferenceStats) (functions : Nat) (bodies : List (List Stmt)) : Prop where
  functions : stats.functions = functions
  propagated : stats.propagated = bodies.countP fun b => decide (HandlesExceptions b)
  skipped : stats.skipped = bodies.countP fun b => decide (¬ HandlesExceptions b ∧ JumpsAstray b)
  flowSensitive : stats.flowSensitive = bodies.countP fun b => decide (¬ HandlesExceptions b ∧ ¬ JumpsAstray b)

variable {stats : InferenceStats} {functions : Nat} {bodies : List (List Stmt)}

theorem Accounts.start : Accounts {} 0 [] := ⟨rfl, rfl, rfl, rfl⟩

section

variable (h : Accounts stats functions bodies) (tree : Tree)

include h

theorem Accounts.length_eq : stats.flowSensitive + stats.propagated + stats.skipped = bodies.length := by
  rw [h.flowSensitive, h.propagated, h.skipped]
  clear h
  induction bodies with
  | nil => rfl
  | cons b rest ih =>
    grind

theorem Accounts.inferBody (body : Body) (known : Knowledge) (t : Table) :
    Accounts (Inference.inferBody tree body known stats t).1.2 functions (bodies ++ [body.stmts]) := by
  unfold Inference.inferBody
  show Accounts ((if containsTry body.stmts then _ else _ : TableM (Knowledge × InferenceStats)) t).1.2 _ _
  split
  · rename_i htry
    have hhandles := containsTry_iff.1 htry
    refine ⟨h.functions, ?_, ?_, ?_⟩
    · show stats.propagated + 1 = _
      simp [List.countP_append, hhandles, h.propagated]
    · show stats.skipped = _
      simp [List.countP_append, hhandles, h.skipped]
    · show stats.flowSensitive = _
      simp [List.countP_append, hhandles, h.flowSensitive]
  · rename_i htry
    have hhandles : ¬ HandlesExceptions body.stmts := fun hhandles => htry (containsTry_iff.2 hhandles)
    have hgraph := FlowGraph.ofBody_eq_error_iff body.stmts
    cases hof : FlowGraph.ofBody body.stmts with
    | error err =>
      have hjumps : JumpsAstray body.stmts := (hgraph.1 ⟨err, hof⟩).resolve_left hhandles
      refine ⟨h.functions, ?_, ?_, ?_⟩
      · show stats.propagated = _
        simp [List.countP_append, hhandles, h.propagated]
      · show stats.skipped + 1 = _
        simp [List.countP_append, hhandles, hjumps, h.skipped]
      · show stats.flowSensitive = _
        simp [List.countP_append, hjumps, h.flowSensitive]
    | ok graph =>
      have hjumps : ¬ JumpsAstray body.stmts := by
        intro hjumps
        obtain ⟨err, herr⟩ := hgraph.2 (.inr hjumps)
        rw [hof] at herr
        cases herr
      refine ⟨h.functions, ?_, ?_, ?_⟩
      · show stats.propagated = _
        simp [List.countP_append, hhandles, h.propagated]
      · show stats.skipped = _
        simp [List.countP_append, hjumps, h.skipped]
      · show stats.flowSensitive + 1 = _
        simp [List.countP_append, hhandles, hjumps, h.flowSensitive]

theorem Accounts.inferFunctions (defs : List Stmt) (known : Knowledge)
    (t : Table) : Accounts (Inference.inferFunctions tree defs known stats t).1.2 (functions + defs.countP isFunctionDef)
      (bodies ++ defs.filterMap functionBody?) := by
  induction defs generalizing stats functions bodies known t with
  | nil =>
    rw [List.filterMap_nil, List.append_nil, List.countP_nil, Nat.add_zero]
    exact h
  | cons s rest ih =>
    cases s with
    | functionDef id header body =>
      have hcounted : Accounts { stats with functions := stats.functions + 1 } (functions + 1) bodies :=
        ⟨congrArg (· + 1) h.functions, h.propagated, h.skipped, h.flowSensitive⟩
      have hrest := fun parameters t => ih (hcounted.inferBody tree (tree.functionBody header body parameters) known t)
      rw [List.filterMap_cons_some (f := functionBody?) rfl, List.countP_cons_of_pos rfl,
        Nat.add_comm (rest.countP _), ← Nat.add_assoc, List.append_cons]
      exact hrest _ _ _ _
    | _ =>
      rw [List.filterMap_cons_none (f := functionBody?) rfl, List.countP_cons_of_neg (by simp [isFunctionDef])]
      exact ih h known t

end

end Inference

namespace Tree

variable (t : Tree)

theorem countP_functionDefs : t.functionDefs.countP Stmt.isFunctionDef = t.listing.countP Stmt.isFunctionDef := by
  rw [functionDefs_eq, List.countP_filter]
  simp

theorem filterMap_functionDefs : t.functionDefs.filterMap Stmt.functionBody? = t.listing.filterMap Stmt.functionBody? := by
  rw [functionDefs_eq, List.filterMap_filter]
  refine congrArg (List.filterMap · _) (funext fun s => ?_)
  cases s <;> rfl

theorem length_bodies : t.bodies.length = t.listing.countP Stmt.isFunctionDef + 1 := by
  unfold bodies
  rw [List.length_cons]
  generalize t.listing = ss
  induction ss with
  | nil => rfl
  | cons s rest ih =>
    cases s <;> simpa [List.filterMap_cons, List.countP_cons, Stmt.functionBody?,
      Stmt.isFunctionDef] using ih

end Tree

namespace Table

/-- What follows the declarations of a module: the bodies one after the other, and then everything
that no body evaluates. -/
def inferBodies (tree : Tree) (known : Knowledge) : TableM ModuleTypes := do
  let (known, stats) ← Inference.inferBody tree tree.moduleBody known {}
  let (known, stats) ← Inference.inferFunctions tree tree.functionDefs known stats
  let types ← Inference.withTyping (tree.exprs.toList.mapM (Inference.finalTypes tree known))
  return {
    stats
    exprTypes := types.map Prod.fst
    members := types.map Prod.snd
    symbolTypes := tree.symbolIds.map known.symbolType }

theorem inferModule_of_unnamed {tree : Tree} (hpath : tree.path = "") (t : Table) :
    inferModule tree t = (.error .unnamedModule, t) := by
  unfold inferModule
  rw [if_pos hpath]
  rfl

section Named

variable {tree : Tree} {t t' : Table}

theorem inferModule_of_error (hpath : tree.path ≠ "") {e : InferenceError}
    (h : Inference.declarations tree (t.addModule tree.descriptor) = (.error e, t')) :
    inferModule tree t = (.error e, t') := by
  unfold inferModule
  rw [if_neg hpath, bind_apply_of_eq (modify_apply (m := Id) _ t), bind_apply_of_eq h]
  rfl

theorem inferModule_of_known (hpath : tree.path ≠ "") {known : Knowledge}
    (h : Inference.declarations tree (t.addModule tree.descriptor) = (.ok known, t')) :
    inferModule tree t = (.ok (inferBodies tree known t').1, (inferBodies tree known t').2) := by
  unfold inferModule
  rw [if_neg hpath, bind_apply_of_eq (modify_apply (m := Id) _ t), bind_apply_of_eq h]
  rfl

end Named

/-- The statistics of a module count its function definitions at any depth, and its bodies by how
they are inferred. -/
theorem stats_inferModule (tree : Tree) (t : Table) (types : ModuleTypes) (h : (inferModule tree t).1 = .ok types) :
    types.stats.functions = tree.listing.countP Stmt.isFunctionDef ∧
      types.stats.propagated = tree.bodies.countP (fun b => decide (Stmt.HandlesExceptions b)) ∧
      types.stats.skipped = tree.bodies.countP (fun b => decide (¬ Stmt.HandlesExceptions b ∧ Stmt.JumpsAstray b)) ∧
      types.stats.flowSensitive = tree.bodies.countP (fun b => decide (¬ Stmt.HandlesExceptions b ∧ ¬ Stmt.JumpsAstray b)) ∧
      types.stats.flowSensitive + types.stats.propagated + types.stats.skipped = types.stats.functions + 1 := by
  have hpath : tree.path ≠ "" := by
    intro hpath
    rw [inferModule_of_unnamed hpath] at h
    cases h
  rcases hknown : Inference.declarations tree (t.addModule tree.descriptor) with ⟨_ | known, t'⟩
  · rw [inferModule_of_error hpath hknown] at h
    cases h
  · rw [inferModule_of_known hpath hknown] at h
    cases h
    have hmodule := Inference.Accounts.start.inferBody tree tree.moduleBody known t'
    have haccounts : Inference.Accounts (inferBodies tree known t').1.stats _ _ :=
      hmodule.inferFunctions tree tree.functionDefs _ _
    rw [Nat.zero_add, tree.countP_functionDefs, List.nil_append, tree.filterMap_functionDefs] at haccounts
    have hlength := haccounts.length_eq
    refine ⟨haccounts.functions, haccounts.propagated, haccounts.skipped, haccounts.flowSensitive, hlength.trans ?_⟩
    rw [haccounts.functions]
    exact tree.length_bodies

/-- A function that handles exceptions, and a method that leaves a loop it is not in, next to a
function that leaves its own. -/
def bodiesOfEachKind : Source.Module where
  path := "m"
  body := [
    .functionDef { name := "f" } [.tryStmt [.passStmt] [.mk none none [.breakStmt]] [] []],
    .classDef { name := "C" } [
      .functionDef { name := "g" } [
        .whileStmt (.read "x") [.functionDef { name := "h" } [.whileStmt (.read "x") [.breakStmt] []]] [.breakStmt]]]]

theorem stats_inferModule_bodiesOfEachKind : ∃ types,
    (inferModule bodiesOfEachKind.bind (create {} {} {})).1 = .ok types ∧ types.stats.functions =
    3 ∧ types.stats.propagated = 1 ∧
      types.stats.skipped = 1 ∧ types.stats.flowSensitive = 2 := by
  have hok : (inferModule bodiesOfEachKind.bind (create {} {} {})).1.toBool = true := by decide +kernel
  match h : (inferModule bodiesOfEachKind.bind (create {} {} {})).1, hok with
  | .ok types, _ =>
    obtain ⟨hfunctions, hpropagated, hskipped, hflowSensitive, -⟩ := stats_inferModule _ _ types h
    exact ⟨types, rfl, hfunctions.trans (by decide +kernel), hpropagated.trans (by decide +kernel),
      hskipped.trans (by decide +kernel), hflowSensitive.trans (by decide +kernel)⟩

end Table

end PythonTypes
