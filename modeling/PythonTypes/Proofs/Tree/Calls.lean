import PythonTypes.Proofs.Tree.Building
import Mathlib.Order.Defs.Unbundled

/-!
# Sequences of calls

`Calls b created b'` says that operations of building, each with any arguments, lead from one
builder to another, and lists the names that they read. An expression is composed of expressions
that are built already; what a definition holds is built by calls of its own. Every sequence of
calls keeps a builder in order.
-/

set_option autoImplicit false

namespace PythonTypes.Builder

variable {α β : Type} {b b' : Builder} {created : List ExprId}

/-- Binds the name of a definition. -/
def declare (name : String) (kind : SymbolKind) (usage : UsageKind) : BuildM Unit := do
  let symbol ← bind name kind
  use symbol none usage

/-- The builder inside a function with the name. -/
def inFunction (b : Builder) (name : String) : Builder :=
  (declare name .ofFunction .functionDeclaration b).2.enter .ofFunction none

/-- The builder inside a class with the name. -/
def inClass (b : Builder) (name : String) : Builder :=
  (declare name .ofClass .classDeclaration b).2.enter .ofClass
    ((b.scope b.currentScope).path.map fun path => path ++ "." ++ name)

/-- The expression is no name, and its parts are built. -/
def Composes (b : Builder) (make : ExprId → Expr) : Prop :=
  ∀ id, (make id).id = id ∧ (make id).isName = false ∧ ∀ c ∈ (make id).children, c ∈ b.exprs

/-- Operations lead from one builder to another, and read the names `created`. -/
inductive Calls : Builder → List ExprId → Builder → Prop where
  | done (b : Builder) : Calls b [] b
  | trans {b₁ b₂ b₃ : Builder} {xs ys : List ExprId} : Calls b₁ xs b₂ → Calls b₂ ys b₃ → Calls b₁ (xs ++ ys) b₃
  | read (b : Builder) (name : String) : Calls b [(read name b).1.id] (read name b).2
  | target (b : Builder) (name : String) : Calls b [] (target name b).2
  | compose (b : Builder) {make : ExprId → Expr} (h : b.Composes make) : Calls b [] (addExpr make none b).2
  /-- A statement that binds nothing itself. -/
  | simple (b : Builder) {make : StmtId → Stmt} (h : ∀ id, (make id).locals? = none) : Calls b [] (addStmt make b).2
  | assign (b : Builder) (targets : List Expr) (value : Expr) : Calls b [] (assign targets value b).2
  | annotated (b : Builder) (target hint : Expr) (value : Option Expr) : Calls b [] (annotated target hint value b).2
  | compound (b : Builder) (target : Expr) (op : BinaryOp) (value : Expr) : Calls b [] (compound target op value b).2
  | globalStmt (b : Builder) (names : List String) : Calls b [] (globalStmt names b).2
  | forStmt (b : Builder) (target iter : Expr) (body orelse : List Stmt) : Calls b [] (forStmt target iter body orelse b).2
  | handler (b : Builder) (exception : Option Expr) (name : Option String) (body : List Stmt) :
      Calls b [] (handler exception name body b).2
  | withStmt (b : Builder) (items : List (Expr × Option String)) (body : List Stmt) : Calls b [] (withStmt items body b).2
  | importStmt (b : Builder) (path : String) (rename : Option String) : Calls b [] (importStmt path rename b).2
  | importFrom (b : Builder) (source : Option String) (level : Nat)
      (names : List (String × Option String)) : Calls b [] (importFrom source level names b).2
  | parameter (b : Builder) (name : String) (hint default : Option Expr) : Calls b [] (parameter name hint default b).2
  | functionDef (b : Builder) (name : String) (decorators : List Expr) (isAsync : Bool) {content : BuildM FunctionContent}
      {created : List ExprId} : Calls (b.inFunction name) created (content (b.inFunction name)).2 →
      Calls b created (functionDef name decorators isAsync content b).2
  | classDef (b : Builder) (name : String) (bases decorators : List Expr)
      {content : BuildM (List Stmt)} {created : List ExprId} :
      Calls (b.inClass name) created (content (b.inClass name)).2 →
        Calls b created (classDef name bases decorators content b).2

/-! ## Actions that read nothing -/

theorem bindIn_redirect (b : Builder) (k k' : ScopeId) (name : String) (kind : SymbolKind) :
    bindIn k' name kind (b.redirect k name) = ((bindIn k' name kind b).1, (bindIn k' name kind b).2.redirect k name) := by
  have hsame : ((b.redirect k name).scope k').bindings = (b.scope k').bindings ∧
      ((b.redirect k name).scope k').path = (b.scope k').path := by
    rw [redirect, scope_modify]
    split <;> exact ⟨rfl, rfl⟩
  cases hname : (b.scope k').bindings.get? name with
  | some s => rw [bindIn_of_bound hname, bindIn_of_bound (hsame.1 ▸ hname)]
  | none =>
    rw [bindIn_of_absent hname, bindIn_of_absent (hsame.1 ▸ hname), withSymbol, withSymbol, hsame.2]
    have hscopes :
      (b.redirect k name).scopes.modify k'.index
      (fun s => { s with bindings := s.bindings.insert name ⟨b.symbols.size⟩ }) =
        (b.scopes.modify k'.index fun s => { s with bindings := s.bindings.insert name ⟨b.symbols.size⟩ }).modify k.index
          fun s => { s with globals := name :: s.globals } := by
      apply Array.ext_getElem?
      intro i
      simp only [redirect, Array.getElem?_modify]
      split <;> split <;> cases b.scopes[i]? <;> rfl
    exact congrArg (fun scopes => (_, { b.withSymbol k' name kind with scopes := scopes })) hscopes

theorem declareGlobal_apply (name : String) (b : Builder) : (declareGlobal name b).2 =
    (use (bindIn moduleScope name .ofVariable b).1 none .globalDeclaration
      ((bindIn moduleScope name .ofVariable b).2.redirect b.currentScope name)).2 :=
  congrArg (fun p : SymbolId × Builder => (use p.1 none .globalDeclaration p.2).2)
    (b.bindIn_redirect b.currentScope moduleScope name .ofVariable)

theorem recordBinding_of_unbound {target : Expr} (h : b.boundBy? target = none) (kind : UsageKind) :
    recordBinding target kind b = ((), b) := by
  unfold recordBinding
  rw [get_bind_apply, h]
  rfl

theorem recordBinding_of_bound {target : Expr} {symbol : SymbolId} (h : b.boundBy? target = some symbol) (kind : UsageKind) :
    recordBinding target kind b = use symbol (some target.id) kind b := by
  unfold recordBinding
  rw [get_bind_apply, h]

/-- The action leads from each builder to a related one. -/
def Leads (R : Builder → Builder → Prop) (action : BuildM α) : Prop := ∀ b, R b (action b).2

namespace Leads

variable {R : Builder → Builder → Prop} [IsPreorder Builder R] {f : α → BuildM β}

theorem pure (a : α) : Leads R (Pure.pure a) := fun b => refl b

theorem bind {action : BuildM α} (h : Leads R action) (hf : ∀ a, Leads R (f a)) : Leads R (action >>= f) :=
  fun b => IsTrans.trans _ _ _ (h b) (hf _ _)

theorem get : Leads R get := fun b => refl b

theorem mapM (h : ∀ a, Leads R (f a)) (as : List α) : Leads R (as.mapM f) := by
  induction as with
  | nil =>
    rw [List.mapM_nil]
    exact pure []
  | cons a rest ih =>
    grind [bind, pure]

theorem mapOption (h : ∀ a, Leads R (f a)) (o : Option α) : Leads R (o.mapM f) := by
  cases o with
  | none => exact pure none
  | some a => exact (h a).bind fun b => pure (some b)

theorem forIn {f : α → BuildM Unit} (h : ∀ a, Leads R (f a)) (as : List α) :
    Leads R (ForIn.forIn as PUnit.unit fun a _ => do
      f a
      Pure.pure (ForInStep.yield PUnit.unit)) := by
  induction as with
  | nil => exact pure _
  | cons a rest ih =>
    simp_all [bind]

end Leads

/-- The action keeps every builder in order and reads no name. -/
abbrev Quiet (action : BuildM α) : Prop := Leads (fun b b' => b.Building → b.Advances [] b') action

instance : IsPreorder Builder fun b b' => b.Building → b.Advances [] b' where
  refl _ h := .refl h
  trans _ _ _ h h' hb := (h hb).trans (h' (h hb).building)

namespace Quiet

variable (name : String) (kind : SymbolKind)

theorem use (symbol : SymbolId) (kind : UsageKind) : Quiet (Builder.use symbol none kind) := by
  intro b h
  have hnone : ∀ id, (none : Option ExprId) = some id → b.symbolAt id = some symbol := fun _ hid => nomatch hid
  exact .of_eq (h.use hnone kind) rfl rfl rfl

theorem bindName : Quiet (Builder.bind name kind) := fun _ h => (h.bind name kind).1

theorem declare (usage : UsageKind) : Quiet (Builder.declare name kind usage) :=
  (bindName name kind).bind fun symbol => use symbol usage

theorem recordBinding (target : Expr) (kind : UsageKind) : Quiet (Builder.recordBinding target kind) := by
  intro b h
  cases hbound : b.boundBy? target with
  | none =>
    rw [recordBinding_of_unbound hbound]
    exact .refl h
  | some symbol =>
    rw [recordBinding_of_bound hbound]
    refine .of_eq (h.use (fun id hid => ?_) kind) rfl rfl rfl
    cases target with
    | name id' text => exact Option.some.inj hid ▸ hbound
    | _ => cases hbound

theorem target (name : String) : Quiet (Builder.target name) := by
  intro b h
  obtain ⟨hbind, hlt⟩ := h.bind name .ofVariable
  have hname : (Builder.bind name .ofVariable b).2.Advances [] (addExpr (fun id => .name id name)
      (some (Builder.bind name .ofVariable b).1) (Builder.bind name .ofVariable b).2).2 :=
    hbind.building.addExpr (fun _ => rfl) (fun _ _ hc => nomatch hc)
      (fun s hs => ⟨fun _ => rfl, Option.some.inj hs ▸ hlt⟩) fun _ => Option.some_ne_none _
  exact hbind.trans hname

theorem boundTarget (kind : UsageKind) (name : String) : Quiet (Builder.boundTarget kind name) :=
  (target name).bind fun e => (recordBinding e kind).bind fun _ => .pure e

theorem addStmt {make : StmtId → Stmt} (h : ∀ id, (make id).locals? = none) : Quiet (Builder.addStmt make) := fun _ hb =>
  hb.addStmt (h _)

theorem declareGlobal : Quiet (Builder.declareGlobal name) := by
  intro b h
  rw [declareGlobal_apply]
  -- Binding the name first makes no difference, and then it is bound when it is declared global.
  obtain ⟨hbind, -⟩ := h.bindIn h.scopes.module name .ofVariable
  have hredirect :=
    hbind.building.redirect b.currentScope
    (contains_bindIn (h.scopes.opened _ h.scopes.module) name .ofVariable)
  exact (hbind.trans hredirect).trans (use _ .globalDeclaration _ hredirect.building)

theorem modifySymbol {f : Symbol → Symbol} (hf : ∀ s, (f s).usages = s.usages) (symbol : SymbolId) :
    Quiet (modify fun b : Builder => { b with symbols := b.symbols.modify symbol.index f }) := by
  intro b h
  have hsize : b.symbols.size ≤ (b.symbols.modify symbol.index f).size := Nat.le_of_eq Array.size_modify.symm
  refine .of_eq ⟨h.names.grows rfl rfl hsize fun s u hu id _ => .inl ?_,
    h.scopes.grows rfl rfl rfl rfl hsize⟩ rfl rfl rfl
  rcases mem_usages_modify hu with hu | ⟨rfl, hu⟩
  · exact hu
  · rw [hf] at hu
    exact hu

theorem bindImport (name path : String) : Quiet (Builder.bindImport name path) := by
  refine (bindName name .ofImport).bind fun symbol => (modifySymbol (fun s => ?_) symbol).bind fun _ =>
    (use symbol .importBinding).bind fun _ => .pure symbol
  split <;> rfl

theorem importStmt (path : String) (rename : Option String) : Quiet (Builder.importStmt path rename) := by
  unfold Builder.importStmt
  cases rename with
  | none | some name => exact (bindImport _ _).bind fun _ => addStmt fun _ => rfl

end Quiet

/-! ## Definitions -/

theorem functionDef_apply (b : Builder) (name : String) (decorators : List Expr) (isAsync : Bool)
    (content : BuildM FunctionContent) : functionDef name decorators isAsync content b =
      addStmt (fun id => .functionDef id
        { name, symbol := (bind name .ofFunction b).1, decorators, isAsync
          isMethod := (b.scope b.currentScope).kind == .ofClass
          locals :=
            (content (b.inFunction name)).2.symbolsOf
            ⟨(declare name .ofFunction .functionDeclaration b).2.scopes.size⟩
          parameters := (content (b.inFunction name)).1.parameters
          returns := (content (b.inFunction name)).1.returns }
        (content (b.inFunction name)).1.body) (content (b.inFunction name)).2.leave := rfl

theorem classDef_apply (b : Builder) (name : String) (bases decorators : List Expr)
    (content : BuildM (List Stmt)) : classDef name bases decorators content b =
      addStmt
        (fun id => .classDef id { name, symbol := (bind name .ofClass b).1, bases, decorators }
        (content (b.inClass name)).1) (content (b.inClass name)).2.leave := rfl

namespace Building

theorem definition (h : b.Building) {name : String} {kind : SymbolKind} {usage : UsageKind}
    {scope : ScopeKind} {path : Option String}
    {inner : Builder} (hinner : ((declare name kind usage b).2.enter scope path).Building →
      ((declare name kind usage b).2.enter scope path).Advances created inner) {make : StmtId → Stmt}
    (hmake : (make ⟨inner.stmts.size⟩).locals? = none ∨
      (make ⟨inner.stmts.size⟩).locals? = some (inner.symbolsOf ⟨(declare name kind usage b).2.scopes.size⟩)) :
    b.Advances created (Builder.addStmt make inner.leave).2 := by
  have hdeclare := Quiet.declare name kind usage b h
  have hadvances := hinner (hdeclare.building.enter scope path)
  have hactive : inner.active = ⟨(declare name kind usage b).2.scopes.size⟩ :: b.active :=
    hadvances.active_eq.trans (congrArg (_ :: ·) hdeclare.active_eq)
  have hreads : ((declare name kind usage b).2.enter scope path).readIds = b.readIds :=
    hdeclare.readIds_eq.trans (List.append_nil _)
  exact ⟨hadvances.building.close hactive h.scopes.module hmake, congrArg List.tail hactive,
    hadvances.readIds_eq.trans (congrArg (· ++ created) hreads), fun r hr => hadvances.reads r (hdeclare.reads r hr),
    hadvances.builtins_eq.trans hdeclare.builtins_eq⟩

end Building

/-- Calls keep the builder in order. -/
theorem Calls.advances (h : Calls b created b') (hb : b.Building) : b.Advances created b' := by
  -- For a definition the induction hypothesis is about what it holds, from inside its scope.
  induction h with
  | done b => exact .refl hb
  | trans _ _ ih1 ih2 => exact (ih1 hb).trans (ih2 (ih1 hb).building)
  | read b name => exact hb.read name
  | target b name => exact Quiet.target name b hb
  | compose b h =>
    refine hb.addExpr (fun id => (h id).1) (fun id => (h id).2.2) (fun s hs => nomatch hs) fun hname => ?_
    rw [(h _).2.1] at hname
    cases hname
  | simple b h => exact Quiet.addStmt h b hb
  | assign b targets value =>
    exact (Leads.forIn (fun target => Quiet.recordBinding target .assignment) targets).bind
      (fun _ => Quiet.addStmt fun _ => rfl) b hb
  | annotated b target hint value =>
    exact (Quiet.recordBinding target .assignment).bind (fun _ => Quiet.addStmt fun _ => rfl) b hb
  | compound b target op value =>
    exact (Quiet.recordBinding target .compoundAssignment).bind
      (fun _ => (Quiet.recordBinding target .read).bind fun _ => Quiet.addStmt fun _ => rfl) b hb
  | globalStmt b names => exact (Leads.mapM Quiet.declareGlobal names).bind (fun _ => Quiet.addStmt fun _ => rfl) b hb
  | forStmt b target iter body orelse =>
    exact (Quiet.recordBinding target .loopTarget).bind (fun _ => Quiet.addStmt fun _ => rfl) b hb
  | handler b exception name body =>
    exact (Leads.mapOption (Quiet.boundTarget .exceptionName) name).bind (fun _ => .pure _) b hb
  | withStmt b items body =>
    have hitem : ∀ item : Expr × Option String, Quiet (do
        let target ← item.2.mapM (boundTarget .contextTarget)
        return ({ context := item.1, target : WithItem } : WithItem)) := fun item =>
      (Leads.mapOption (Quiet.boundTarget .contextTarget) item.2).bind fun _ => .pure _
    exact (Leads.mapM hitem items).bind (fun _ => Quiet.addStmt fun _ => rfl) b hb
  | importStmt b path rename => exact Quiet.importStmt path rename b hb
  | importFrom b source level names =>
    exact Leads.get.bind (fun _ => (Leads.mapM (fun n => (Quiet.bindImport _ _).bind fun _ => .pure _) names).bind
      fun _ => Quiet.addStmt fun _ => rfl) b hb
  | parameter b name hint default =>
    exact (Quiet.bindName name .ofParameter).bind (fun symbol => (Quiet.use symbol .parameter).bind fun _ => .pure _) b hb
  | functionDef b name decorators isAsync _ ih =>
    rw [functionDef_apply]
    exact hb.definition ih (.inr rfl)
  | classDef b name bases decorators _ ih =>
    rw [classDef_apply]
    exact hb.definition ih (.inl rfl)

end PythonTypes.Builder
