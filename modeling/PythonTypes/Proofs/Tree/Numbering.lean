import PythonTypes.Proofs.Tree.Calls
import PythonTypes.Proofs.Tree.Traversal
import PythonTypes.Tree.Bind

/-!
# Modules from their source

A module is built from its source by calls (`Source.Module.calls_built`), because the parts of an
expression are built before it, and with a new number for each statement
(`Source.Module.numbered_built`).
-/

set_option autoImplicit false

namespace PythonTypes

variable (m : Source.Module)

namespace Stmt

/-- The numbers of statements at any depth. -/
def indices (ss : List Stmt) : List Nat := (listing innerBlocks weightAll_innerBlocks_lt ss).map (·.id.index)

theorem indices_nil : indices [] = [] := by
  rw [indices, listing, List.map_nil]

theorem indices_append (xs ys : List Stmt) : indices (xs ++ ys) = indices xs ++ indices ys := by
  rw [indices, listing_append, List.map_append]
  rfl

theorem indices_singleton (s : Stmt) : indices [s] = s.id.index :: indices s.innerBlocks.flatten := by
  rw [indices, listing, List.append_nil]
  rfl

end Stmt

namespace Builder

variable {α β : Type} {R : Builder → Builder → Prop} (name : String)

/-- Any two builders are related. -/
def Anyhow (_ _ : Builder) : Prop := True

instance : IsPreorder Builder Anyhow where
  refl _ := trivial
  trans _ _ _ _ _ := trivial

/-- Calls lead from one builder to the other. -/
def Reaches (b b' : Builder) : Prop := ∃ created, Calls b created b'

instance : IsPreorder Builder Reaches where
  refl b := ⟨[], .done b⟩
  trans _ _ _ := fun ⟨xs, hxs⟩ ⟨ys, hys⟩ => ⟨xs ++ ys, hxs.trans hys⟩

/-! ## Expressions -/

/-- The related builder has the same statements and all the expressions. -/
def Extends (R : Builder → Builder → Prop) (b b' : Builder) : Prop :=
  R b b' ∧ b'.stmts = b.stmts ∧ ∀ e ∈ b.exprs, e ∈ b'.exprs

instance [IsPreorder Builder R] : IsPreorder Builder (Extends R) where
  refl b := ⟨refl b, rfl, fun _ => id⟩
  trans _ _ _ h h' := ⟨IsTrans.trans _ _ _ h.1 h'.1, h'.2.1.trans h.2.1, fun e he => h'.2.2 e (h.2.2 e he)⟩

/-- The action adds no statement and leads to a related builder. -/
abbrev Keeps (R : Builder → Builder → Prop) (action : BuildM α) : Prop := Leads (Extends R) action

namespace Keeps

variable (name : String) (kind : SymbolKind)

theorem use (symbol : SymbolId) (expr : Option ExprId) (kind : UsageKind) : Keeps Anyhow (Builder.use symbol expr kind) :=
  fun _ => ⟨trivial, rfl, fun _ => id⟩

theorem bindIn (scope : ScopeId) (name : String) (kind : SymbolKind) : Keeps Anyhow (Builder.bindIn scope name kind) := by
  unfold Builder.bindIn
  refine Leads.get.bind fun b => ?_
  dsimp only
  split
  · exact .pure _
  · exact .bind (fun _ => ⟨trivial, rfl, fun _ => id⟩) fun _ => .bind (fun _ => ⟨trivial, rfl, fun _ => id⟩) fun _ => .pure _

theorem bindName : Keeps Anyhow (Builder.bind name kind) := Leads.get.bind fun _ => bindIn _ _ _

theorem declare (usage : UsageKind) : Keeps Anyhow (Builder.declare name kind usage) :=
  (bindName name kind).bind fun _ => use _ _ _

theorem recordBinding (target : Expr) (kind : UsageKind) : Keeps Anyhow (Builder.recordBinding target kind) := by
  unfold Builder.recordBinding
  grind [Leads.bind, Leads.get, use, Leads.pure]

theorem bindImport (name path : String) : Keeps Anyhow (Builder.bindImport name path) :=
  (bindName name .ofImport).bind fun _ => .bind (fun _ => ⟨trivial, rfl, fun _ => id⟩) fun _ =>
    (use _ _ _).bind fun _ => .pure _

theorem declareGlobal : Keeps Anyhow (Builder.declareGlobal name) :=
  .bind (fun _ => ⟨trivial, rfl, fun _ => id⟩) fun _ => (bindIn _ _ _).bind fun _ => (use _ _ _).bind fun _ => .pure _

theorem target (name : String) : Keeps Anyhow (Builder.target name) :=
  (bindName name .ofVariable).bind fun _ _ => ⟨trivial, rfl, fun _ => Array.mem_push_of_mem _⟩

theorem boundTarget (kind : UsageKind) (name : String) : Keeps Anyhow (Builder.boundTarget kind name) :=
  (target name).bind fun e => (recordBinding e kind).bind fun _ => .pure e

theorem call {action : BuildM α} (h : ∀ b, Calls b [] (action b).2) (hkeeps : Keeps Anyhow action) : Keeps Reaches action :=
  fun b => ⟨⟨[], h b⟩, (hkeeps b).2⟩

end Keeps

/-- With the expressions `before` built, calls build the expressions `after`. -/
def Builds (before : List Expr) (action : BuildM α) (after : α → List Expr) : Prop :=
  ∀ b : Builder, (∀ e ∈ before, e ∈ b.exprs) → Extends Reaches b (action b).2 ∧
    ∀ e ∈ after (action b).1, e ∈ (action b).2.exprs

namespace Builds

variable {es : List Expr} {action : BuildM α} {after : α → List Expr} {f : α → BuildM β}
  {after' : β → List Expr} {make : ExprId → Expr}

theorem keeps (h : Builds [] action after) : Keeps Reaches action := fun b => (h b (by simp)).1

theorem pure {a : α} (h : after a ⊆ es := by exact List.Subset.refl _) : Builds es (Pure.pure a) after :=
  fun b hb => ⟨refl b, fun e he => hb e (h he)⟩

theorem bind {before : List Expr} (h : Builds before action after) (hf : ∀ a, Builds (es ++ after a) (f a) after')
    (hbefore : before ⊆ es := by simp) : Builds es (action >>= f) after' := by
  intro b hb
  obtain ⟨hextends, hafter⟩ := h b fun e he => hb e (hbefore he)
  obtain ⟨hextends', hafter'⟩ := hf (action b).1 (action b).2 fun e he =>
    (List.mem_append.1 he).elim (fun he => hextends.2.2 e (hb e he)) (hafter e)
  exact ⟨IsTrans.trans _ _ _ hextends hextends', hafter'⟩

theorem compose (hchildren : ∀ id, (make id).children ⊆ es := by intro; exact List.Subset.refl _)
    (hid : ∀ id, (make id).id = id := by intro; rfl) (hname : ∀ id, (make id).isName = false := by intro; rfl) :
    Builds es (addExpr make) fun e => [e] := by
  refine fun b hb => ⟨⟨⟨[], .compose b fun id => ⟨hid id, hname id, fun c hc => hb c (hchildren id hc)⟩⟩, rfl,
    fun _ => Array.mem_push_of_mem _⟩, fun e he => ?_⟩
  obtain rfl := List.mem_singleton.1 he
  exact Array.mem_push_self

end Builds

theorem builds_read : Builds [] (read name) fun e => [e] := by
  refine fun b _ => ⟨⟨⟨_, .read b name⟩, rfl, fun _ => Array.mem_push_of_mem _⟩, fun e he => ?_⟩
  obtain rfl := List.mem_singleton.1 he
  exact Array.mem_push_self

theorem builds_target : Builds [] (target name) fun e => [e] := by
  refine fun b _ => ⟨Keeps.call (fun b => .target b name) (.target name) b, fun e he => ?_⟩
  obtain rfl := List.mem_singleton.1 he
  exact Array.mem_push_self

mutual

/-- An expression is bound after the expressions inside it. -/
theorem builds_bindExpr : (e : Source.Expr) → Builds [] (bindExpr e) fun e => [e]
  | .read name => builds_read name
  | .target name => builds_target name
  | .qualified qualifier member => (builds_bindExpr qualifier).bind fun q => .compose
  | .call callee arguments => (builds_bindExpr callee).bind fun c => (builds_bindExprs arguments).bind fun as => .compose
  | .methodCall receiver method arguments => by
    unfold bindExpr
    -- The callee is composed after the arguments are built.
    refine (builds_bindExpr receiver).bind fun r => (builds_bindExprs arguments).bind fun as => ?_
    have hcallee : Builds [r] (addExpr fun id => .qualified id r method) fun e => [e] := .compose
    exact hcallee.bind fun c => .compose fun _ => by simp [Expr.children]
  | .string _ => .compose
  | .integer _ => .compose
  | .decimal _ => .compose
  | .boolean _ => .compose
  | .noneLiteral => .compose
  | .binary op left right => (builds_bindExpr left).bind fun l => (builds_bindExpr right).bind fun r => .compose
  | .unary op operand => (builds_bindExpr operand).bind fun o => .compose
  | .conditional test thenValue elseValue =>
    (builds_bindExpr test).bind fun t => (builds_bindExpr thenValue).bind fun a =>
      (builds_bindExpr elseValue).bind fun b => .compose
  | .display kind items => (builds_bindExprs items).bind fun is => .compose
  | .subscript value index => (builds_bindExpr value).bind fun v => (builds_bindExpr index).bind fun i => .compose
  | .await operand => (builds_bindExpr operand).bind fun o => .compose
  | .paren inner => (builds_bindExpr inner).bind fun e => .compose

theorem builds_bindExprs : (es : List Source.Expr) → Builds [] (bindExprs es) fun es => es
  | [] => .pure
  | e :: rest => (builds_bindExpr e).bind fun e => (builds_bindExprs rest).bind fun es => .pure

end

theorem keeps_bindExpr (e : Source.Expr) : Keeps Reaches (bindExpr e) := (builds_bindExpr e).keeps

theorem keeps_bindExprs (es : List Source.Expr) : Keeps Reaches (bindExprs es) := (builds_bindExprs es).keeps

theorem keeps_bindParameters (ps : List Source.Parameter) : Keeps Reaches (bindParameters ps) := by
  refine .mapM (fun p => ?_) ps
  refine (Leads.mapOption keeps_bindExpr p.hint).bind fun hint =>
    (Leads.mapOption keeps_bindExpr p.default).bind fun default => ?_
  exact Keeps.call (fun b => .parameter b p.name hint default)
    ((Keeps.bindName _ _).bind fun _ => (Keeps.use _ _ _).bind fun _ => .pure _)

/-! ## Statements -/

/-- The statements have the numbers from `k` on that have been given out. -/
def Numbered (b : Builder) (k : Nat) (ss : List Stmt) : Prop :=
  ∃ n, b.stmts.size = k + n ∧ (Stmt.indices ss).Perm (List.range' k n)

namespace Numbered

variable {b b' : Builder} {k : Nat} {ss : List Stmt} {make : StmtId → Stmt}

theorem nil (b : Builder) : b.Numbered b.stmts.size [] := ⟨0, rfl, .of_eq Stmt.indices_nil⟩

theorem of_eq (h : b.Numbered k ss) (hstmts : b'.stmts = b.stmts) : b'.Numbered k ss := by
  obtain ⟨n, hsize, hperm⟩ := h
  exact ⟨n, hstmts ▸ hsize, hperm⟩

theorem addStmt (h : b.Numbered k ss) (hid : ∀ id, (make id).id = id) (hblocks : ∀ id, (make id).innerBlocks.flatten = ss) :
    (Builder.addStmt make b).2.Numbered k [(Builder.addStmt make b).1] := by
  obtain ⟨n, hsize, hperm⟩ := h
  refine ⟨n + 1, ?_, ?_⟩
  · show (b.stmts.push _).size = _
    rw [Array.size_push, hsize]
    rfl
  · show (Stmt.indices [make ⟨b.stmts.size⟩]).Perm _
    rw [Stmt.indices_singleton, hid, hblocks, hsize, List.range'_1_concat]
    exact (hperm.cons _).trans (List.perm_append_singleton _ _).symm

end Numbered

/-- From the statements `before`, the action builds the statements `after`, which have the same
numbers and the ones that it gives out, and leads to a related builder. -/
def Numbers (R : Builder → Builder → Prop) (before : List Stmt) (action : BuildM α) (after : α → List Stmt) : Prop :=
  ∀ k b, b.Numbered k before → R b (action b).2 ∧ (action b).2.Numbered k (after (action b).1)

namespace Numbers

variable {before : List Stmt} {action : BuildM α} {f : α → BuildM β} {after : β → List Stmt} {make : StmtId → Stmt}

theorem pure [IsPreorder Builder R] {a : α} {after : α → List Stmt} (h : after a = before := by rfl) :
    Numbers R before (Pure.pure a) after := fun _ b hb => ⟨refl b, h ▸ hb⟩

theorem bind [IsPreorder Builder R] {built : α → List Stmt} (h : Numbers R before action built)
    (hf : ∀ a, Numbers R (built a) (f a) after) : Numbers R before (action >>= f) after := by
  intro k b hb
  obtain ⟨hrel, hbuilt⟩ := h k b hb
  obtain ⟨hrel', hafter⟩ := hf _ k _ hbuilt
  exact ⟨IsTrans.trans _ _ _ hrel hrel', hafter⟩

theorem skip [IsPreorder Builder R] (h : Keeps R action) (hf : ∀ a, Numbers R before (f a) after) :
    Numbers R before (action >>= f) after :=
  .bind (fun _ b hb => ⟨(h b).1, hb.of_eq (h b).2.1⟩) hf

theorem next [IsPreorder Builder R] {built : α → List Stmt} (h : Numbers R [] action built)
    (hf : ∀ a, Numbers R (before ++ built a) (f a) after) : Numbers R before (action >>= f) after := by
  refine .bind (fun k b ⟨n, hsize, hperm⟩ => ?_) hf
  obtain ⟨hrel, n', hsize', hperm'⟩ := h _ b (.nil b)
  refine ⟨hrel, n + n', by omega, ?_⟩
  rw [Stmt.indices_append, ← List.range'_append_1, ← hsize]
  exact hperm.append hperm'

theorem addStmt (hid : ∀ id, (make id).id = id := by intro; rfl)
    (hblocks : ∀ id, (make id).innerBlocks.flatten = before := by intro; simp [Stmt.innerBlocks, Stmt.childBlocks]) :
    Numbers Anyhow before (Builder.addStmt make) fun s => [s] := fun _ _ hb => ⟨trivial, hb.addStmt hid hblocks⟩

theorem call {after : α → List Stmt} (h : ∀ b, Calls b [] (action b).2) (hnumbers : Numbers Anyhow before action after) :
    Numbers Reaches before action after := fun k b hb => ⟨⟨[], h b⟩, (hnumbers k b hb).2⟩

theorem simple (hlocals : ∀ id, (make id).locals? = none := by intro; rfl) (hid : ∀ id, (make id).id = id := by intro; rfl)
    (hblocks : ∀ id, (make id).innerBlocks.flatten = before := by intro; simp [Stmt.innerBlocks, Stmt.childBlocks]) :
    Numbers Reaches before (Builder.addStmt make) fun s => [s] := call (fun b => .simple b hlocals) (addStmt hid hblocks)

end Numbers

theorem numbers_handler (exception : Option Expr) (name : Option String) (body : List Stmt) :
    Numbers Reaches body (handler exception name body) Handler.body :=
  .call (fun b => .handler b exception name body) (.skip (.mapOption (Keeps.boundTarget .exceptionName) name) fun _ => .pure)

mutual

/-- A statement and the statements inside it get the numbers that binding it gives out. -/
theorem numbers_bindStmt : (s : Source.Stmt) → Numbers Reaches [] (bindStmt s) fun s => [s]
  | .assign targets value => .skip (keeps_bindExprs targets) fun targets => .skip (keeps_bindExpr value) fun value =>
    .call (fun b => .assign b targets value)
      (.skip (.forIn (fun target => Keeps.recordBinding target .assignment) targets) fun _ => .addStmt)
  | .annotated target hint value => .skip (keeps_bindExpr target) fun target => .skip (keeps_bindExpr hint) fun hint =>
    .skip (.mapOption keeps_bindExpr value) fun value =>
      .call (fun b => .annotated b target hint value) (.skip (.recordBinding _ _) fun _ => .addStmt)
  | .compound target op value => .skip (keeps_bindExpr target) fun target => .skip (keeps_bindExpr value) fun value =>
    .call (fun b => .compound b target op value)
      (.skip (.recordBinding _ _) fun _ => .skip (.recordBinding _ _) fun _ => .addStmt)
  | .exprStmt e => .skip (keeps_bindExpr e) fun _ => .simple
  | .returnStmt value => .skip (.mapOption keeps_bindExpr value) fun _ => .simple
  | .raiseStmt exception => .skip (.mapOption keeps_bindExpr exception) fun _ => .simple
  | .passStmt | .breakStmt | .continueStmt => .simple
  | .globalStmt names => .call (fun b => .globalStmt b names) (.skip (.mapM Keeps.declareGlobal names) fun _ => .addStmt)
  | .ifStmt test body orelse => .skip (keeps_bindExpr test) fun _ => .next (numbers_bindBlock body) fun _ =>
    .next (numbers_bindBlock orelse) fun _ => .simple
  | .whileStmt test body orelse => .skip (keeps_bindExpr test) fun _ => .next (numbers_bindBlock body) fun _ =>
    .next (numbers_bindBlock orelse) fun _ => .simple
  | .forStmt target iter body orelse => .skip (keeps_bindExpr target) fun target => .skip (keeps_bindExpr iter) fun iter =>
    .next (numbers_bindBlock body) fun body => .next (numbers_bindBlock orelse) fun orelse =>
      .call (fun b => .forStmt b target iter body orelse) (.skip (.recordBinding _ _) fun _ => .addStmt)
  | .tryStmt body clauses orelse final => .next (numbers_bindBlock body) fun _ =>
      .next (numbers_bindHandlers clauses) fun _ =>
    .next (numbers_bindBlock orelse) fun _ => .next (numbers_bindBlock final) fun _ => .simple
  | .withStmt items body => .skip (.mapM (fun item => (keeps_bindExpr item.context).bind fun _ => .pure _) items) fun items =>
    .next (numbers_bindBlock body) fun body => .call (fun b => .withStmt b items body) (.skip (.mapM (fun item =>
      (Leads.mapOption (Keeps.boundTarget .contextTarget) item.2).bind fun _ => .pure _) items) fun _ => .addStmt)
  | .functionDef header body => by
    refine .skip (keeps_bindExprs header.decorators) fun decorators k b hb => ?_
    have hcontent : Numbers Reaches [] (do
        let parameters ← bindParameters header.parameters
        let returns ← header.returns.mapM bindExpr
        let body ← bindBlock body
        return { parameters, returns, body : FunctionContent }) FunctionContent.body :=
      .skip (keeps_bindParameters header.parameters) fun _ => .skip (.mapOption keeps_bindExpr header.returns) fun _ =>
        .next (numbers_bindBlock body) fun _ => .pure
    obtain ⟨⟨created, hcalls⟩, hbody⟩ := hcontent k (b.inFunction header.name)
      (hb.of_eq (Keeps.declare _ _ .functionDeclaration b).2.1)
    refine ⟨⟨created, .functionDef b header.name decorators header.isAsync hcalls⟩, ?_⟩
    rw [functionDef_apply]
    exact Numbered.addStmt hbody (fun _ => rfl) fun _ => List.append_nil _
  | .classDef header body => by
    refine .skip (keeps_bindExprs header.bases) fun bases =>
      .skip (keeps_bindExprs header.decorators) fun decorators k b hb => ?_
    obtain ⟨⟨created, hcalls⟩, hbody⟩ := numbers_bindBlock body k (b.inClass header.name)
      (hb.of_eq (Keeps.declare _ _ .classDeclaration b).2.1)
    refine ⟨⟨created, .classDef b header.name bases decorators hcalls⟩, ?_⟩
    rw [classDef_apply]
    exact Numbered.addStmt hbody (fun _ => rfl) fun _ => List.append_nil _
  | .importStmt path rename => by
    refine .call (fun b => .importStmt b path rename) ?_
    unfold bindStmt importStmt
    cases rename with
    | none | some name => exact .skip (.bindImport _ _) fun _ => .addStmt
  | .importFrom source level names => .call (fun b => .importFrom b source level _)
    (.skip .get fun b => .skip (.mapM (fun n => (Keeps.bindImport _ _).bind fun _ => .pure _) _) fun _ => .addStmt)

theorem numbers_bindBlock : (ss : List Source.Stmt) → Numbers Reaches [] (bindBlock ss) fun ss => ss
  | [] => .pure
  | s :: rest => .next (numbers_bindStmt s) fun _ => .next (numbers_bindBlock rest) fun _ => .pure

theorem numbers_bindHandlers :
    (hs : List Source.Handler) → Numbers Reaches [] (bindHandlers hs) fun hs =>
    (hs.map Handler.body).flatten
  | [] => .pure
  | .mk exception name body :: rest => .skip (.mapOption keeps_bindExpr exception) fun exception =>
    .next (numbers_bindBlock body) fun body => .bind (numbers_handler exception name body) fun _ =>
      .next (numbers_bindHandlers rest) fun _ => .pure

end

end Builder

/-- The statements of a module and the builder that they leave behind. -/
def Source.Module.built (m : Source.Module) : List PythonTypes.Stmt × Builder :=
  Builder.bindBlock m.body (.start m.path m.isPackage)

theorem Source.Module.bind_eq : m.bind = (Builder.finish m.built.1 m.built.2).1 := rfl

theorem Source.Module.numbered_built :
    Builder.Reaches (.start m.path m.isPackage) m.built.2 ∧ m.built.2.Numbered 0 m.built.1 :=
  Builder.numbers_bindBlock m.body 0 (.start m.path m.isPackage) (.nil _)

theorem Source.Module.calls_built : Builder.Calls (.start m.path m.isPackage) m.built.2.readIds m.built.2 := by
  obtain ⟨created, hcalls⟩ := m.numbered_built.1
  have hcreated : m.built.2.readIds = created := (hcalls.advances (Builder.building_start m.path m.isPackage)).readIds_eq
  rw [hcreated]
  exact hcalls

end PythonTypes
