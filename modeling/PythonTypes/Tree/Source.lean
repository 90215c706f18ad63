import PythonTypes.Tree.Expr

/-!
# Modules before binding

The syntax of a module as it is written, without ids and symbols. A name is marked as a read or as a
target, which binds it in the scope where it stands.
-/

set_option autoImplicit false

namespace PythonTypes.Source

/-- An expression. -/
inductive Expr where
  | read (name : String)
  | target (name : String)
  | qualified (qualifier : Expr) (member : String)
  | call (callee : Expr) (arguments : List Expr)
  /-- A call of a member, where the member access comes after the arguments. -/
  | methodCall (receiver : Expr) (method : String) (arguments : List Expr)
  | string (value : String)
  | integer (value : Int)
  | decimal (literal : String)
  | boolean (value : Bool)
  | noneLiteral
  | binary (op : BinaryOp) (left right : Expr)
  | unary (op : UnaryOp) (operand : Expr)
  | conditional (test thenValue elseValue : Expr)
  /-- A display; a `dict` lists each key before its value. -/
  | display (kind : Display) (items : List Expr)
  | subscript (value index : Expr)
  | await (operand : Expr)
  | paren (inner : Expr)
  deriving Inhabited

/-- A parameter of a function definition. -/
structure Parameter where
  name : String
  hint : Option Expr := none
  default : Option Expr := none

/-- What a function definition says before its body. -/
structure FunctionHeader where
  name : String
  decorators : List Expr := []
  parameters : List Parameter := []
  returns : Option Expr := none
  isAsync : Bool := false

/-- What a class definition says before its body. -/
structure ClassHeader where
  name : String
  bases : List Expr := []
  decorators : List Expr := []

/-- One context manager of a `with` statement and the name bound to it. -/
structure WithItem where
  context : Expr
  target : Option String

/-- A name imported from a module. -/
structure ImportedName where
  name : String
  rename : Option String

mutual

/-- A statement. -/
inductive Stmt where
  | assign (targets : List Expr) (value : Expr)
  | annotated (target hint : Expr) (value : Option Expr)
  | compound (target : Expr) (op : BinaryOp) (value : Expr)
  | exprStmt (expr : Expr)
  | returnStmt (value : Option Expr)
  | raiseStmt (exception : Option Expr)
  | passStmt
  | breakStmt
  | continueStmt
  | globalStmt (names : List String)
  | ifStmt (test : Expr) (body orelse : List Stmt)
  | whileStmt (test : Expr) (body orelse : List Stmt)
  | forStmt (target iter : Expr) (body orelse : List Stmt)
  | tryStmt (body : List Stmt) (handlers : List Handler) (orelse final : List Stmt)
  | withStmt (items : List WithItem) (body : List Stmt)
  | functionDef (header : FunctionHeader) (body : List Stmt)
  | classDef (header : ClassHeader) (body : List Stmt)
  | importStmt (path : String) (rename : Option String)
  | importFrom (source : Option String) (level : Nat) (names : List ImportedName)

/-- An `except` clause. -/
inductive Handler where
  | mk (exception : Option Expr) (name : Option String) (body : List Stmt)

end

instance : Inhabited Stmt := ⟨.passStmt⟩

/-- A module; the module of a package resolves relative imports against itself. -/
structure Module where
  path : String
  isPackage : Bool := false
  body : List Stmt := []
  deriving Inhabited

end PythonTypes.Source
