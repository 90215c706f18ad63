import PythonTypes.Tree.Stmt

/-!
# Bound syntax trees

A `Tree` is the syntax of one module together with its symbols: which symbol each name stands for,
and how each symbol is used. Expressions and statements are listed by id, that is in order of
creation.
-/

set_option autoImplicit false

namespace PythonTypes

/-- How a symbol came to be. -/
inductive SymbolKind where
  | ofVariable
  | ofParameter
  | ofFunction
  | ofClass
  | ofImport
  /-- Bound nowhere in the module. -/
  | builtin
  deriving DecidableEq, Repr, Inhabited

def SymbolKind.text : SymbolKind → String
  | ofVariable => "variable"
  | ofParameter => "parameter"
  | ofFunction => "function"
  | ofClass => "class"
  | ofImport => "import"
  | builtin => "builtin"

/-- How a name is used at one place. -/
inductive UsageKind where
  | assignment
  | compoundAssignment
  | loopTarget
  | parameter
  | importBinding
  | functionDeclaration
  | classDeclaration
  | exceptionName
  | contextTarget
  | globalDeclaration
  | read
  deriving DecidableEq, Repr, Inhabited

/-- Whether a use gives the symbol a value or declares it. -/
def UsageKind.isBinding (kind : UsageKind) : Bool := kind != .read

/-- One use of a symbol. -/
structure Usage where
  /-- The name that is used; definitions, imports and parameters have none. -/
  expr : Option ExprId
  kind : UsageKind
  deriving DecidableEq, Repr

/-- What a name stands for in one scope. -/
structure Symbol where
  name : String
  kind : SymbolKind
  /-- The dotted path under which other modules know the symbol. -/
  path : Option String
  usages : List Usage := []
  deriving Inhabited

/-- The uses of a symbol other than reads. -/
def Symbol.bindings (s : Symbol) : List Usage := s.usages.filter (·.kind.isBinding)

/-- A bound module. -/
structure Tree where
  path : String
  /-- The package against which relative imports are resolved. -/
  package : String
  body : List Stmt
  exprs : Array Expr
  stmts : Array Stmt
  symbols : Array Symbol
  /-- The symbol of each name, by expression. -/
  bindings : Array (Option SymbolId)
  /-- The symbols of the module's own scope. -/
  moduleSymbols : List SymbolId
  deriving Inhabited

namespace Tree

def symbol (t : Tree) (id : SymbolId) : Symbol := t.symbols.getD id.index default

def symbolOf? (t : Tree) : Expr → Option SymbolId
  | .name id _ => t.bindings.getD id.index none
  | _ => none

def symbolIds (t : Tree) : List SymbolId := (List.range t.symbols.size).map SymbolId.mk

def moduleSymbol? (t : Tree) (name : String) : Option SymbolId :=
  t.moduleSymbols.find? fun s => (t.symbol s).name == name

/-- The function definitions of a module at any depth, in source order. -/
def functionDefs (t : Tree) : List Stmt := Stmt.functionDefsAll t.body

/-- Every statement of a module in source order, with the class whose body directly holds it. -/
def statements (t : Tree) : List (Stmt × Option SymbolId) := Stmt.withOwners none t.body

/-- The dotted path that an expression spells out. -/
def pathOf? (t : Tree) : Expr → Option String
  | .name id _ => (t.bindings.getD id.index none).bind fun s => (t.symbol s).path
  | .qualified _ qualifier member => (pathOf? t qualifier).map fun path => path ++ "." ++ member
  | .paren _ inner => pathOf? t inner
  | _ => none

end Tree

end PythonTypes
