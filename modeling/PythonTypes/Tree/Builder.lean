import PythonTypes.Data.OrderedMap
import PythonTypes.Text.DottedName
import PythonTypes.Tree.Basic

/-!
# Building bound trees

A `Builder` numbers the expressions, statements and symbols of a module as they are created and
keeps its scopes. A name bound anywhere in a scope belongs to that scope; class scopes are not
visible from the scopes inside them; a `global` declaration redirects a name to the module scope; a
name bound nowhere is a builtin. What a read refers to is decided by `finish`, when every binding is
known, so a name may be read before it is bound.
-/

set_option autoImplicit false

namespace PythonTypes

/-- What a scope belongs to. -/
inductive ScopeKind where
  | ofModule
  | ofFunction
  | ofClass
  deriving DecidableEq, Repr, Inhabited

/-- A scope and the names bound in it. -/
structure Scope where
  kind : ScopeKind
  /-- The path below which the names of the scope are known; none inside functions. -/
  path : Option String
  bindings : OrderedMap String SymbolId := ∅
  /-- Names redirected to the module scope. -/
  globals : List String := []
  deriving Inhabited

/-- A scope, by order of creation; the module scope is the first. -/
structure ScopeId where
  index : Nat
  deriving DecidableEq, Repr, Inhabited

/-- A name that is read, with the scopes around it from the innermost outwards. -/
structure PendingRead where
  expr : ExprId
  name : String
  scopes : List ScopeId

/-- A module under construction. -/
structure Builder where
  path : String
  package : String
  exprs : Array Expr := #[]
  stmts : Array Stmt := #[]
  symbols : Array Symbol := #[]
  /-- The symbol of each name, by expression. -/
  bindings : Array (Option SymbolId) := #[]
  scopes : Array Scope
  /-- The scopes around the place under construction, from the innermost outwards. -/
  active : List ScopeId := [⟨0⟩]
  reads : Array PendingRead := #[]
  /-- The symbols of names that are bound nowhere. -/
  builtins : OrderedMap String SymbolId := ∅

abbrev BuildM (α : Type) := StateM Builder α

namespace Builder

/-- The start of a module; the module of a package is its own package. -/
def start (path : String) (isPackage : Bool) : Builder where
  path := path
  package := if isPackage then path else DottedName.parent path
  scopes := #[{ kind := .ofModule, path := some path }]

def moduleScope : ScopeId := ⟨0⟩

def scope (b : Builder) (id : ScopeId) : Scope := b.scopes.getD id.index default

def currentScope (b : Builder) : ScopeId := b.active.headD moduleScope

def newSymbol (name : String) (kind : SymbolKind) (path : Option String) : BuildM SymbolId :=
  modifyGet fun b => (⟨b.symbols.size⟩, { b with symbols := b.symbols.push { name, kind, path } })

def use (symbol : SymbolId) (expr : Option ExprId) (kind : UsageKind) : BuildM Unit := modify fun b =>
  { b with symbols := b.symbols.modify symbol.index fun s => { s with usages := s.usages ++ [⟨expr, kind⟩] } }

/-- The symbol of a name in a scope, a new one if the name is not bound there yet. -/
def bindIn (scope : ScopeId) (name : String) (kind : SymbolKind) : BuildM SymbolId := do
  let data := (← get).scope scope
  match data.bindings.get? name with
  | some symbol => return symbol
  | none =>
    let symbol ← newSymbol name kind (data.path.map fun path => path ++ "." ++ name)
    modify fun b =>
      { b with scopes := b.scopes.modify scope.index fun s => { s with bindings := s.bindings.insert name symbol } }
    return symbol

/-- The symbol of a name that is bound here. -/
def bind (name : String) (kind : SymbolKind) : BuildM SymbolId := do
  let b ← get
  let current := b.currentScope
  bindIn (if (b.scope current).globals.contains name then moduleScope else current) name kind

/-- Adds an expression, made from its id. -/
def addExpr (make : ExprId → Expr) (symbol : Option SymbolId := none) : BuildM Expr := modifyGet fun b =>
  let e := make ⟨b.exprs.size⟩
  (e, { b with exprs := b.exprs.push e, bindings := b.bindings.push symbol })

def read (name : String) : BuildM Expr := do
  let e ← addExpr fun id => .name id name
  modify fun b => { b with reads := b.reads.push ⟨e.id, name, b.active⟩ }
  return e

def target (name : String) : BuildM Expr := do
  let symbol ← bind name .ofVariable
  addExpr (fun id => .name id name) (some symbol)

/-- Adds a statement, made from its id. -/
def addStmt (make : StmtId → Stmt) : BuildM Stmt := modifyGet fun b =>
  let s := make ⟨b.stmts.size⟩
  (s, { b with stmts := b.stmts.push s })

/-- The symbol that an expression binds, if it is a name that was created as a target. -/
def boundBy? (b : Builder) : Expr → Option SymbolId
  | .name id _ => b.bindings.getD id.index none
  | _ => none

def recordBinding (target : Expr) (kind : UsageKind) : BuildM Unit := do
  match (← get).boundBy? target with
  | some symbol => use symbol (some target.id) kind
  | none => return

def boundTarget (kind : UsageKind) (name : String) : BuildM Expr := do
  let e ← target name
  recordBinding e kind
  return e

/-- An assignment, which binds its targets from left to right. -/
def assign (targets : List Expr) (value : Expr) : BuildM Stmt := do
  for target in targets do
    recordBinding target .assignment
  addStmt fun id => .assign id targets value

/-- An assignment with a hint, which binds its target even without a value. -/
def annotated (target hint : Expr) (value : Option Expr) : BuildM Stmt := do
  recordBinding target .assignment
  addStmt fun id => .annotated id target hint value

def compound (target : Expr) (op : BinaryOp) (value : Expr) : BuildM Stmt := do
  recordBinding target .compoundAssignment
  recordBinding target .read
  addStmt fun id => .compound id target op value

def declareGlobal (name : String) : BuildM SymbolId := do
  modify fun b =>
    { b with scopes := b.scopes.modify b.currentScope.index fun s => { s with globals := name :: s.globals } }
  let symbol ← bindIn moduleScope name .ofVariable
  use symbol none .globalDeclaration
  return symbol

def globalStmt (names : List String) : BuildM Stmt := do
  let symbols ← names.mapM declareGlobal
  addStmt fun id => .globalStmt id symbols

/-- A `for` loop, which binds its target. -/
def forStmt (target iter : Expr) (body orelse : List Stmt) : BuildM Stmt := do
  recordBinding target .loopTarget
  addStmt fun id => .forStmt id target iter body orelse

/-- An `except` clause, whose name is bound after its body. -/
def handler (exception : Option Expr) (name : Option String) (body : List Stmt) : BuildM Handler := do
  let name ← name.mapM (boundTarget .exceptionName)
  return .mk exception name body

/-- A `with` statement, whose targets are bound after its body. -/
def withStmt (items : List (Expr × Option String)) (body : List Stmt) : BuildM Stmt := do
  let items ← items.mapM fun (context, name) => do
    let target ← name.mapM (boundTarget .contextTarget)
    return { context, target : WithItem }
  addStmt fun id => .withStmt id items body

/-- Binds an imported name; a symbol that is only imported is known by the path it was imported
from. -/
def bindImport (name path : String) : BuildM SymbolId := do
  let symbol ← bind name .ofImport
  modify fun b =>
    { b with symbols := b.symbols.modify symbol.index fun s =>
        if s.kind = .ofImport then { s with path := some path } else s }
  use symbol none .importBinding
  return symbol

/-- An import of a module; without another name it binds the first segment of the path. -/
def importStmt (path : String) (rename : Option String) : BuildM Stmt := do
  let symbol ← match rename with
    | some name => bindImport name path
    | none => bindImport (DottedName.head path) (DottedName.head path)
  addStmt fun id => .importStmt id [{ name := path, rename, symbol }]

def importFrom (source : Option String) (level : Nat) (names : List (String × Option String)) : BuildM Stmt := do
  let base := DottedName.absolute (← get).package level source
  let names ← names.mapM fun (name, rename) => do
    let symbol ← bindImport (rename.getD name) (DottedName.child base name)
    return { name, rename, symbol : ImportedName }
  addStmt fun id => .importFrom id source level names

/-- Runs an action inside a new scope, which becomes the innermost one. -/
def inScope {α : Type} (kind : ScopeKind) (path : Option String) (action : BuildM α) : BuildM (α × ScopeId) := do
  let scope ← modifyGet fun b =>
    let scope : ScopeId := ⟨b.scopes.size⟩
    (scope, { b with scopes := b.scopes.push { kind, path }, active := scope :: b.active })
  let result ← action
  modify fun b => { b with active := b.active.tail }
  return (result, scope)

/-- A parameter of the function under construction. -/
def parameter (name : String) (hint default : Option Expr) : BuildM Parameter := do
  let symbol ← bind name .ofParameter
  use symbol none .parameter
  return { name, symbol, hint, default }

/-- What is built inside the scope of a function. -/
structure FunctionContent where
  parameters : List Parameter
  returns : Option Expr
  body : List Stmt

def functionDef (name : String) (decorators : List Expr) (isAsync : Bool)
    (content : BuildM FunctionContent) : BuildM Stmt := do
  let b ← get
  let isMethod := (b.scope b.currentScope).kind == .ofClass
  let symbol ← bind name .ofFunction
  use symbol none .functionDeclaration
  let (content, scope) ← inScope .ofFunction none content
  let locals := ((← get).scope scope).bindings.values
  addStmt fun id => .functionDef id
    { name, symbol, decorators, isAsync, isMethod, locals,
      parameters := content.parameters, returns := content.returns }
    content.body

def classDef (name : String) (bases decorators : List Expr) (content : BuildM (List Stmt)) : BuildM Stmt := do
  let b ← get
  let path := (b.scope b.currentScope).path.map fun path => path ++ "." ++ name
  let symbol ← bind name .ofClass
  use symbol none .classDeclaration
  let (body, _) ← inScope .ofClass path content
  addStmt fun id => .classDef id { name, symbol, bases, decorators } body

/-- The symbol that a name refers to in a list of scopes; class scopes count only if they come first
and `innermost` holds. -/
def lookup (b : Builder) (name : String) : Bool → List ScopeId → Option SymbolId
  | _, [] => none
  | innermost, id :: outer =>
    let scope := b.scope id
    if scope.kind = .ofClass ∧ innermost = false then lookup b name false outer
    else if scope.globals.contains name then (b.scope moduleScope).bindings.get? name
    else
      match scope.bindings.get? name with
      | some symbol => some symbol
      | none => lookup b name false outer

/-- The symbol of a name that is bound nowhere. -/
def builtin (name : String) : BuildM SymbolId := do
  match (← get).builtins.get? name with
  | some symbol => return symbol
  | none =>
    let symbol ← newSymbol name .builtin (some name)
    modify fun b => { b with builtins := b.builtins.insert name symbol }
    return symbol

def resolveRead (r : PendingRead) : BuildM Unit := do
  let symbol ← match (← get).lookup r.name true r.scopes with
    | some symbol => pure symbol
    | none => builtin r.name
  modify fun b => { b with bindings := b.bindings.setIfInBounds r.expr.index (some symbol) }
  use symbol (some r.expr) .read

/-- The tree of a module whose statements have all been built. -/
def finish (body : List Stmt) : BuildM Tree := do
  for r in (← get).reads do
    resolveRead r
  let b ← get
  return {
    path := b.path
    package := b.package
    body
    exprs := b.exprs
    stmts := b.stmts
    symbols := b.symbols
    bindings := b.bindings
    moduleSymbols := (b.scope moduleScope).bindings.values }

end Builder

end PythonTypes
