import PythonTypes.Inference.Body
import PythonTypes.Text.Json.Basic

/-!
# Bound trees as JSON

A bound tree is written as an object that lists its expressions, statements and symbols by id, and
its traversals. One refers to another by id.
-/

set_option autoImplicit false

namespace PythonTypes

namespace ExprId

/-- A reference to an expression, by id. -/
def toJson (id : ExprId) : Json := .ofNat id.index

end ExprId

namespace SymbolId

def toJson (id : SymbolId) : Json := .ofNat id.index

def listToJson (ids : List SymbolId) : Json := .array (ids.map toJson)

end SymbolId

namespace Expr

def tag : Expr → String
  | name .. => "name"
  | qualified .. => "qualified"
  | call .. => "call"
  | string .. => "str"
  | integer .. => "int"
  | decimal .. => "float"
  | boolean .. => "bool"
  | noneLiteral .. => "none"
  | binary .. => "binary"
  | unary .. => "unary"
  | conditional .. => "conditional"
  | display _ kind _ => kind.className
  | subscript .. => "subscript"
  | await .. => "await"
  | paren .. => "paren"

def refToJson (e : Expr) : Json := e.id.toJson

def refsToJson (es : List Expr) : Json := .array (es.map refToJson)

/-- The name, value or operator in an expression. -/
def detail : Expr → Json
  | name _ text => .string text
  | qualified _ _ member => .string member
  | string _ value => .string value
  | integer _ value => .ofInt value
  | boolean _ value => .bool value
  | binary _ op _ _ => .array [.bool op.isComparison, .ofOption .string op.method?]
  | _ => .null

end Expr

namespace Stmt

def tag : Stmt → String
  | assign .. => "assign"
  | annotated .. => "ann"
  | compound .. => "aug"
  | exprStmt .. => "expr"
  | returnStmt .. => "return"
  | raiseStmt .. => "raise"
  | passStmt .. => "pass"
  | breakStmt .. => "break"
  | continueStmt .. => "continue"
  | globalStmt .. => "global"
  | ifStmt .. => "if"
  | whileStmt .. => "while"
  | forStmt .. => "for"
  | tryStmt .. => "try"
  | withStmt .. => "with"
  | functionDef .. => "def"
  | classDef .. => "class"
  | importStmt .. => "import"
  | importFrom .. => "from"

def refToJson (s : Stmt) : Json := .ofNat s.id.index

def refsToJson (ss : List Stmt) : Json := .array (ss.map refToJson)

end Stmt

def UsageKind.text : UsageKind → String
  | assignment => "AssignmentLhs"
  | compoundAssignment => "CompoundAssignmentLhs"
  | loopTarget => "LoopDeclaration"
  | parameter => "Parameter"
  | importBinding => "ImportBinding"
  | functionDeclaration => "FunctionDeclaration"
  | classDeclaration => "ClassDeclaration"
  | exceptionName => "ExceptionInstance"
  | contextTarget => "WithInstance"
  | globalDeclaration => "GlobalDeclaration"
  | read => "Read"

def Symbol.toJson (s : Symbol) : Json :=
  .object [
    ("name", .string s.name),
    ("kind", .string s.kind.text),
    ("fqn", .ofOption .string s.path),
    ("usages", .array (s.usages.map fun u => .array [.ofOption ExprId.toJson u.expr, .string u.kind.text])),
    ("bindings", .ofNat s.bindings.length)]

def ImportedName.listToJson (names : List ImportedName) : Json :=
  .array (names.map fun n => .array [.string n.name, .ofOption .string n.rename, n.symbol.toJson])

namespace Tree

/-- What there is to a statement besides its expressions and blocks. -/
def extra (t : Tree) : Stmt → Json
  | .functionDef _ h body =>
    .object [
      ("name", .string h.name),
      ("symbol", h.symbol.toJson),
      ("is_async", .bool h.isAsync),
      ("is_method", .bool h.isMethod),
      ("parameters", .array (h.parameters.map fun p =>
        .array [.string p.name, p.symbol.toJson, .ofOption Expr.refToJson p.hint, .ofOption Expr.refToJson p.default])),
      ("returns", .ofOption Expr.refToJson h.returns),
      ("decorators", Expr.refsToJson h.decorators),
      ("body", Stmt.refsToJson body),
      ("locals", SymbolId.listToJson h.locals),
      ("contains_try", .bool (Stmt.containsTry body)),
      ("tracked", SymbolId.listToJson (t.trackedSymbols h.locals body))]
  | .classDef _ h body =>
    .object [
      ("name", .string h.name),
      ("symbol", h.symbol.toJson),
      ("bases", Expr.refsToJson h.bases),
      ("decorators", Expr.refsToJson h.decorators),
      ("body", Stmt.refsToJson body)]
  | .globalStmt _ symbols => SymbolId.listToJson symbols
  | .importStmt _ names => ImportedName.listToJson names
  | .importFrom _ source level names =>
    .array [.ofOption .string source, .ofNat level, ImportedName.listToJson names]
  | _ => .null

/-- An expression with its symbol and the path that it spells out. -/
def exprToJson (t : Tree) (e : Expr) : Json :=
  .array [.string e.tag, e.detail, Expr.refsToJson e.children,
    .ofOption SymbolId.toJson (t.symbolOf? e), .ofOption .string (t.pathOf? e)]

def stmtToJson (t : Tree) (s : Stmt) : Json :=
  .array [.string s.tag, Expr.refsToJson s.expressions, .array (s.childBlocks.map Stmt.refsToJson), t.extra s]

/-- A tree, its symbols and its traversals. -/
def toJson (t : Tree) : Json :=
  .object [
    ("module", .string t.path),
    ("package", .string t.package),
    ("body", Stmt.refsToJson t.body),
    ("exprs", .array (t.exprs.toList.map t.exprToJson)),
    ("symbols", .array (t.symbols.toList.map Symbol.toJson)),
    ("stmts", .array (t.stmts.toList.map t.stmtToJson)),
    ("module_symbols", SymbolId.listToJson t.moduleSymbols),
    ("module_symbol_lookup", .array (t.moduleSymbols.map fun s =>
      .ofOption SymbolId.toJson (t.moduleSymbol? (t.symbol s).name))),
    ("function_defs", Stmt.refsToJson t.functionDefs),
    ("flatten", Stmt.refsToJson (Stmt.flatten t.body)),
    ("contains_try", .bool (Stmt.containsTry t.body)),
    ("body_expressions", Expr.refsToJson (Stmt.bodyExpressions t.body)),
    ("tracked", SymbolId.listToJson (t.trackedSymbols t.moduleSymbols t.body))]

end Tree

end PythonTypes
