import PythonTypes.Inference.Propagation
import PythonTypes.Proofs.Inference.Evaluation
import PythonTypes.Tree.Bind

/-!
# Propagation, step by step

Evaluating a node moves the table on, and keeps every type in use known
(`Consistent.propagate_reaches`). A node depends on the members of the member accesses that it
lists, but the type of such an access is computed from its qualifier, which may have another type by
then. So when the queue is empty, evaluating a node once more may still change its outcome
(`propagate_unsettled_forgottenMember`).
-/

set_option autoImplicit false

namespace PythonTypes.Propagation

open Typing

variable {c : Setting} {s : State} {n : Node}
variable {gated : Bool} {i remaining : Nat} {queue : List Nat} {symbol : SymbolId} {steps : Nat}
variable {rest : List Nat}

/-! ## The value of an assignment -/

/-- The type of an assigned value whose expressions have the given types. -/
def settleValue : AssignedValue → List TypeId → TypingM TypeId
  | .value _, ts => return ts.getD 0 .unknown
  | .compound _ op _, ts => onTable (Table.binaryResult op (ts.getD 0 .unknown) (ts.getD 1 .unknown))
  | .loopElement _, ts => onTable (Table.iterationType (ts.getD 0 .unknown))

theorem evaluate_eq (tree : Tree) (env : Environment) (source : AssignedValue) :
    evaluate tree env source = (do let ts ← typeEach tree env source.roots; settleValue source ts) := by
  cases source <;> simp [evaluate, typeEach, settleValue, AssignedValue.roots]

section Typing

variable {env : Environment} {σ : Typing}

theorem leads_settleValue (hs : Ready env σ) (source : AssignedValue) {ts : List TypeId}
    (hts : ∀ i, σ.table.store.Known (ts.getD i .unknown)) : Leads σ (settleValue source ts) fun x t => t.store.Known x := by
  cases source with
  | value e => exact .pure hs.atRest.toSound (hts 0)
  | compound target op operand => exact .computes (hs.atRest.computes_binaryResult op (hts 0) (hts 1))
  | loopElement iter => exact .computes (hs.atRest.computes_iterationType (hts 0))

theorem leads_evaluate (hs : Ready env σ) (tree : Tree) (source : AssignedValue) :
    Leads σ (evaluate tree env source) fun x t => t.store.Known x := by
  rw [evaluate_eq]
  exact (hs.leads_typeEach tree source.roots).bind hs.atRest.toSound fun ts σ' hreaches hts =>
    leads_settleValue (hs.reaches hreaches) source hts

end Typing

/-! ## One step -/

/-- Every type in use is known, and no lookup is under way. -/
structure Consistent (c : Setting) (s : State) : Prop where
  atRest : s.typing.table.AtRest
  types : ∀ symbol x, s.types.get? symbol = some x → s.typing.table.store.Known x
  members : ∀ e x, s.members.get? e = some x → s.typing.table.store.Known x
  knownTypes : ∀ symbol, s.typing.table.store.Known (c.known.symbolType symbol)
  knownMembers : ∀ e x, c.known.members.get? e = some x → s.typing.table.store.Known x

theorem Consistent.ready (h : Consistent c s) : Ready (environment c s) s.typing := by
  refine ⟨h.atRest, fun symbol => ?_, h.members⟩
  show s.typing.table.store.Known (if _ then _ else _)
  split
  · cases hget : s.types.get? symbol with
    | none => exact h.atRest.store.unknown_plain.1
    | some x => exact h.types symbol x hget
  · exact h.knownTypes symbol

theorem Consistent.withTyping (h : Consistent c s) {typing : Typing}
    (hreaches : s.typing.Reaches typing) : Consistent c { s with typing } := by
  have hknown := fun x => hreaches.moves.known h.atRest.toSound (x := x)
  exact ⟨hreaches.moves.atRest h.atRest, fun symbol x hx => hknown x (h.types symbol x hx),
    fun e x hx => hknown x (h.members e x hx),
    fun symbol => hknown _ (h.knownTypes symbol), fun e x hx => hknown x (h.knownMembers e x hx)⟩

theorem Consistent.withType (h : Consistent c s) {x : TypeId} (hx : s.typing.table.store.Known x) :
    Consistent c { s with types := s.types.insert symbol x } := by
  refine ⟨h.atRest, fun symbol' y hy => ?_, h.members, h.knownTypes, h.knownMembers⟩
  rcases OrderedMap.get?_insert_cases hy with ⟨-, rfl⟩ | hy
  · exact hx
  · exact h.types symbol' y hy

theorem assign_of_none (h : s.types.get? symbol = none) (t : TypeId) :
    assign symbol t s = (true, { s with types := s.types.insert symbol t }) := by
  unfold assign
  rw [get_bind_apply, h]
  rfl

theorem assign_of_some {old : TypeId} (h : s.types.get? symbol = some old) (t : TypeId) :
    assign symbol t s = ((onTable (Table.onStore (TypeStore.union old t)) s.typing).1 != old,
      { s with typing := (onTable (Table.onStore (TypeStore.union old t)) s.typing).2,
               types := s.types.insert symbol (onTable (Table.onStore (TypeStore.union old t)) s.typing).1 }) := by
  unfold assign
  rw [get_bind_apply, h]
  rfl

theorem Consistent.assign_reaches (h : Consistent c s) (symbol : SymbolId) {t : TypeId} (ht : s.typing.table.store.Known t) :
    s.typing.Reaches (assign symbol t s).2.typing ∧ Consistent c (assign symbol t s).2 := by
  cases hget : s.types.get? symbol with
  | none =>
    rw [assign_of_none hget]
    exact ⟨.refl h.atRest.toSound, h.withType ht⟩
  | some old =>
    rw [assign_of_some hget]
    have hleads := Leads.computes (h.atRest.computes_union (h.types symbol old hget) ht)
    exact ⟨hleads.reaches, (h.withTyping hleads.reaches).withType hleads.answer⟩

theorem setMember_apply (e : ExprId) (member : Option TypeId) (s : State) :
    setMember e member s = if s.members.get? e = member then (false, s) else
      (true, { s with members := match member with
        | some t => s.members.insert e t
        | none => s.members.swapErase e }) := by
  show (if s.members.get? e = member then pure false else _ : PropagateM Bool) s = _
  split <;> rfl

theorem Consistent.setMember_reaches (h : Consistent c s) (e : ExprId) {member : Option TypeId}
    (hmember : ∀ x, member = some x → s.typing.table.store.Known x) :
    s.typing.Reaches (setMember e member s).2.typing ∧ Consistent c (setMember e member s).2 := by
  rw [setMember_apply]
  split
  · exact ⟨.refl h.atRest.toSound, h⟩
  refine ⟨.refl h.atRest.toSound, h.atRest, h.types, fun e' x hx => ?_, h.knownTypes, h.knownMembers⟩
  cases member with
  | none =>
    rw [show OrderedMap.get? _ e' = _ from OrderedMap.get?_swapErase _ _ _] at hx
    split at hx
    · cases hx
    · exact h.members e' x hx
  | some t =>
    rcases OrderedMap.get?_insert_cases hx with ⟨-, rfl⟩ | hx
    · exact hmember _ rfl
    · exact h.members e' x hx

theorem propagate_of_assignment {source : AssignedValue} (hkind : n.kind = .assignment symbol source) :
    propagate c n s = assign symbol (evaluate c.tree (environment c s) source s.typing).1
      { s with typing := (evaluate c.tree (environment c s) source s.typing).2 } := by
  simp only [propagate, hkind]
  rfl

theorem propagate_of_memberAccess {e : Expr} (hkind : n.kind = .memberAccess e) :
    propagate c n s = setMember e.id ((findMember c.tree (environment c s) e s.typing).1.or (c.known.members.get? e.id))
      { s with typing := (findMember c.tree (environment c s) e s.typing).2 } := by
  simp only [propagate, hkind]
  rfl

theorem Consistent.propagate_reaches (h : Consistent c s) (n : Node) :
    s.typing.Reaches (propagate c n s).2.typing ∧ Consistent c (propagate c n s).2 := by
  cases hkind : n.kind with
  | assignment symbol source =>
    rw [propagate_of_assignment hkind]
    have hleads := leads_evaluate h.ready c.tree source
    obtain ⟨hreaches, hconsistent⟩ := (h.withTyping hleads.reaches).assign_reaches symbol hleads.answer
    exact ⟨hleads.reaches.trans h.atRest.toSound hreaches, hconsistent⟩
  | memberAccess e =>
    rw [propagate_of_memberAccess hkind]
    have hleads := h.ready.leads_findMember c.tree e
    have hconsistent := h.withTyping hleads.reaches
    have hmember : ∀ x, (findMember c.tree (environment c s) e s.typing).1.or (c.known.members.get? e.id) = some x →
        (findMember c.tree (environment c s) e s.typing).2.table.store.Known x := by
      intro x hx
      rcases Option.or_eq_some_iff.1 hx with hx | ⟨-, hx⟩
      · exact hleads.answer x hx
      · exact hconsistent.knownMembers _ x hx
    obtain ⟨hreaches, hconsistent'⟩ := hconsistent.setMember_reaches e.id hmember
    exact ⟨hleads.reaches.trans h.atRest.toSound hreaches, hconsistent'⟩

/-! ## Whole runs -/

theorem run_nil (h : queue.dropWhile (fun n => !isDue c gated s n) = []) :
    run c gated remaining steps queue s = (steps, s) := by
  unfold run
  rw [get_bind_apply, h]
  rfl

theorem run_zero
    (h : queue.dropWhile (fun n => !isDue c gated s n) = i :: rest) : run c gated 0 steps queue s = (steps + 1, s) := by
  unfold run
  rw [get_bind_apply, h]
  rfl

theorem run_succ (h : queue.dropWhile (fun n => !isDue c gated s n) = i :: rest) :
    run c gated (remaining + 1) steps queue s = run c gated remaining (steps + 1)
      (if (propagateAt c i s).1 then requeue c i rest else rest) (propagateAt c i s).2 := by
  rw [run]
  rw [get_bind_apply, h]
  rfl

theorem Consistent.propagateAt_reaches (h : Consistent c s) (i : Nat) :
    s.typing.Reaches (propagateAt c i s).2.typing ∧ Consistent c (propagateAt c i s).2 := by
  unfold propagateAt
  cases c.graph.nodes[i]? with
  | none => exact ⟨.refl h.atRest.toSound, h⟩
  | some n => exact h.propagate_reaches n

theorem Consistent.run_reaches (h : Consistent c s) (gated : Bool) (remaining steps : Nat) (queue : List Nat) :
    s.typing.Reaches (run c gated remaining steps queue s).2.typing ∧
    Consistent c (run c gated remaining steps queue s).2 := by
  induction remaining generalizing s steps queue with
  | zero =>
    cases hqueue : queue.dropWhile fun n => !isDue c gated s n with
    | nil =>
      rw [run_nil hqueue]
      exact ⟨.refl h.atRest.toSound, h⟩
    | cons i rest =>
      rw [run_zero hqueue]
      exact ⟨.refl h.atRest.toSound, h⟩
  | succ remaining ih =>
    cases hqueue : queue.dropWhile fun n => !isDue c gated s n with
    | nil =>
      rw [run_nil hqueue]
      exact ⟨.refl h.atRest.toSound, h⟩
    | cons i rest =>
      rw [run_succ hqueue]
      grind [propagateAt_reaches, Reaches.trans, Table.AtRest.toSound, atRest]

/-! ## Members that are forgotten -/

/-- The state after the phase that skips nodes that are not ready. -/
def afterReady (c : Setting) (maxIterations : Nat) (typing : Typing) : State :=
  (run c true (limit c maxIterations) 0 c.graph.indices (start c typing)).2

/-- The phase that skips nothing: the number of evaluations, and the state at its end. -/
def secondPhase (c : Setting) (maxIterations : Nat) (typing : Typing) : Nat × State :=
  run c false (limit c maxIterations) 0 c.graph.indices (afterReady c maxIterations typing)

/-- A class with a nested class that has a nested class itself. -/
def nestedClasses : Project :=
  ({} : Project).addModule (ModuleDescriptor.addMember (.ofPath "lib") (.ofClass "C" (some "lib.C") []
    [.ofClass "inner" (some "lib.C.inner") []
      [.ofClass "up" (some "lib.C.inner.up") [] [] false none] false none] false none))

/-- The table in which the class has been looked up. -/
def nestedClassesTable : Table := (Table.create nestedClasses {} {}).performAll [.getType "lib.C"]

theorem atRest_nestedClassesTable : ({ table := nestedClassesTable } : Typing).table.AtRest := by
  dsimp only
  unfold nestedClassesTable
  have hvalid : (Table.create nestedClasses {} {}).ValidAll [.getType "lib.C"] := by decide +kernel
  exact (Table.atRest_create nestedClasses {} {} true).performAll hvalid

/-- A module that reads a member of a variable in a `try`, followed by other statements. -/
def readsMember (rest : List Source.Stmt) : Source.Module where
  path := "m"
  body :=
    [.tryStmt
    ([.assign [.target "x"] (.qualified (.read "C") "inner"), .assign [.target "a"]
    (.qualified (.read "x") "up")] ++ rest) [.mk none none [.passStmt]] [] []]

/-- The setting of the module, where `C` is the class. -/
def readsMemberSetting (rest : List Source.Stmt) : Setting :=
  .ofBody (readsMember rest).bind { symbolTypes := .ofList [(⟨2⟩, ⟨2⟩)] } (readsMember rest).bind.moduleBody

/-- When `x` loses the type whose member was found, nothing changes on record, and `a` keeps the
type of that member. -/
theorem propagate_unsettled_forgottenMember :
    let c := readsMemberSetting [.assign [.target "x"] (.qualified (.read "C") "missing")]
    let last := (phases c 10 (start c { table := nestedClassesTable })).2
    (secondPhase c 10 { table := nestedClassesTable }).1 ≤ limit c 10 ∧ ∃ n ∈ c.graph.nodes.toList,
      ¬ (afterReady c 10 { table := nestedClassesTable }).typing.table.Stirs (propagate c n last).2.typing.table ∧
        (propagate c n last).1 = true ∧ (propagate c n last).2.types.entries ≠ last.types.entries := by
  decide +kernel

end PythonTypes.Propagation
