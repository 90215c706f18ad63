import PythonTypes.Tree.Expr

/-!
# Statements

Statements carry ids in order of creation like expressions, and the statements inside a statement
have smaller ids. `childBlocks` lists the blocks of statements that belong to the body a statement
stands in, which the bodies of definitions do not; `flatten` lists all statements of a body in
source order.
-/

set_option autoImplicit false

namespace PythonTypes

/-- A statement, by order of creation. -/
structure StmtId where
  index : Nat
  deriving DecidableEq, Repr, Inhabited

/-- A symbol, by order of creation. -/
structure SymbolId where
  index : Nat
  deriving DecidableEq, Repr, Inhabited

/-- A parameter of a function definition. -/
structure Parameter where
  name : String
  symbol : SymbolId
  hint : Option Expr := none
  default : Option Expr := none

/-- A function definition without its body. -/
structure FunctionHeader where
  name : String
  symbol : SymbolId
  parameters : List Parameter
  returns : Option Expr
  decorators : List Expr
  isAsync : Bool
  /-- Defined directly in the body of a class. -/
  isMethod : Bool
  /-- The symbols of the function's own scope. -/
  locals : List SymbolId

/-- A class definition without its body. -/
structure ClassHeader where
  name : String
  symbol : SymbolId
  bases : List Expr
  decorators : List Expr

/-- One context manager of a `with` statement. -/
structure WithItem where
  context : Expr
  target : Option Expr

/-- One name bound by an import statement. -/
structure ImportedName where
  /-- The path of a module, or the name of a member of the module that is imported from. -/
  name : String
  rename : Option String
  symbol : SymbolId

mutual

/-- A statement. -/
inductive Stmt where
  | assign (id : StmtId) (targets : List Expr) (value : Expr)
  | annotated (id : StmtId) (target hint : Expr) (value : Option Expr)
  /-- An assignment such as `target += value`. -/
  | compound (id : StmtId) (target : Expr) (op : BinaryOp) (value : Expr)
  | exprStmt (id : StmtId) (expr : Expr)
  | returnStmt (id : StmtId) (value : Option Expr)
  | raiseStmt (id : StmtId) (exception : Option Expr)
  | passStmt (id : StmtId)
  | breakStmt (id : StmtId)
  | continueStmt (id : StmtId)
  | globalStmt (id : StmtId) (symbols : List SymbolId)
  | ifStmt (id : StmtId) (test : Expr) (body orelse : List Stmt)
  | whileStmt (id : StmtId) (test : Expr) (body orelse : List Stmt)
  | forStmt (id : StmtId) (target iter : Expr) (body orelse : List Stmt)
  | tryStmt (id : StmtId) (body : List Stmt) (handlers : List Handler) (orelse final : List Stmt)
  | withStmt (id : StmtId) (items : List WithItem) (body : List Stmt)
  | functionDef (id : StmtId) (header : FunctionHeader) (body : List Stmt)
  | classDef (id : StmtId) (header : ClassHeader) (body : List Stmt)
  | importStmt (id : StmtId) (names : List ImportedName)
  /-- A `from` import; `level` counts the leading dots. -/
  | importFrom (id : StmtId) (source : Option String) (level : Nat) (names : List ImportedName)

/-- An `except` clause. -/
inductive Handler where
  | mk (exception name : Option Expr) (body : List Stmt)

end

namespace Handler

def exception : Handler → Option Expr
  | mk exception _ _ => exception

def name : Handler → Option Expr
  | mk _ name _ => name

/-- The statements that handle the exceptions. -/
def body : Handler → List Stmt
  | mk _ _ body => body

end Handler

namespace Stmt

instance : Inhabited Stmt := ⟨passStmt ⟨0⟩⟩

def id : Stmt → StmtId
  | assign id _ _ => id
  | annotated id _ _ _ => id
  | compound id _ _ _ => id
  | exprStmt id _ => id
  | returnStmt id _ => id
  | raiseStmt id _ => id
  | passStmt id => id
  | breakStmt id => id
  | continueStmt id => id
  | globalStmt id _ => id
  | ifStmt id _ _ _ => id
  | whileStmt id _ _ _ => id
  | forStmt id _ _ _ _ => id
  | tryStmt id _ _ _ _ => id
  | withStmt id _ _ => id
  | functionDef id _ _ => id
  | classDef id _ _ => id
  | importStmt id _ => id
  | importFrom id _ _ _ => id

/-- The blocks of statements inside a statement, apart from the bodies of definitions. -/
def childBlocks : Stmt → List (List Stmt)
  | ifStmt _ _ body orelse => [body, orelse]
  | whileStmt _ _ body orelse => [body, orelse]
  | forStmt _ _ _ body orelse => [body, orelse]
  | tryStmt _ body handlers orelse final => body :: handlers.map Handler.body ++ [orelse, final]
  | withStmt _ _ body => [body]
  | _ => []

/-- The expressions that a statement itself evaluates. -/
def expressions : Stmt → List Expr
  | assign _ targets value => value :: targets
  | annotated _ target hint value => value.toList ++ [hint, target]
  | compound _ target _ value => [value, target]
  | exprStmt _ e => [e]
  | returnStmt _ value => value.toList
  | raiseStmt _ exception => exception.toList
  | ifStmt _ test _ _ => [test]
  | whileStmt _ test _ _ => [test]
  | forStmt _ target iter _ _ => [iter, target]
  | tryStmt _ _ handlers _ _ => handlers.flatMap fun h => h.exception.toList ++ h.name.toList
  | withStmt _ items _ => items.flatMap fun item => item.context :: item.target.toList
  | functionDef _ header _ =>
    header.decorators ++ (header.parameters.flatMap fun p => p.hint.toList ++ p.default.toList)
      ++ header.returns.toList
  | classDef _ header _ => header.decorators ++ header.bases
  | _ => []

/-- Whether a statement handles exceptions. -/
def isTry : Stmt → Bool
  | tryStmt .. => true
  | _ => false

mutual

/-- Number of statements in a statement, itself and the bodies of definitions included. -/
def weight : Stmt → Nat
  | assign _ _ _ => 1
  | annotated _ _ _ _ => 1
  | compound _ _ _ _ => 1
  | exprStmt _ _ => 1
  | returnStmt _ _ => 1
  | raiseStmt _ _ => 1
  | passStmt _ => 1
  | breakStmt _ => 1
  | continueStmt _ => 1
  | globalStmt _ _ => 1
  | ifStmt _ _ body orelse => weightAll body + weightAll orelse + 1
  | whileStmt _ _ body orelse => weightAll body + weightAll orelse + 1
  | forStmt _ _ _ body orelse => weightAll body + weightAll orelse + 1
  | tryStmt _ body handlers orelse final =>
    weightAll body + weightHandlers handlers + weightAll orelse + weightAll final + 1
  | withStmt _ _ body => weightAll body + 1
  | functionDef _ _ body => weightAll body + 1
  | classDef _ _ body => weightAll body + 1
  | importStmt _ _ => 1
  | importFrom _ _ _ _ => 1

/-- Number of statements in statements. -/
def weightAll : List Stmt → Nat
  | [] => 0
  | s :: rest => weight s + weightAll rest

/-- Number of statements in `except` clauses. -/
def weightHandlers : List Handler → Nat
  | [] => 0
  | .mk _ _ body :: rest => weightAll body + weightHandlers rest

end

theorem weightAll_append (xs ys : List Stmt) : weightAll (xs ++ ys) = weightAll xs + weightAll ys := by
  induction xs with
  | nil => simp [weightAll]
  | cons s rest ih => simp [weightAll, ih, Nat.add_assoc]

theorem weightAll_handlers (hs : List Handler) : weightAll (hs.map Handler.body).flatten = weightHandlers hs := by
  induction hs with
  | nil => simp [weightAll, weightHandlers]
  | cons h rest ih =>
    obtain ⟨exception, name, body⟩ := h
    simp [weightHandlers, Handler.body, weightAll_append, ih]

/-- The blocks inside a statement have fewer statements than the statement. -/
theorem weightAll_childBlocks_lt (s : Stmt) : weightAll s.childBlocks.flatten < s.weight := by
  cases s with
  | tryStmt id body handlers orelse final =>
    simp [childBlocks, weight, weightAll_append, weightAll_handlers]
    omega
  | _ => simp [childBlocks, weight, weightAll, weightAll_append]

/-- The statements of a body in source order, apart from the bodies of definitions. -/
def flatten : List Stmt → List Stmt
  | [] => []
  | s :: rest => s :: flatten (s.childBlocks.flatten ++ rest)
termination_by ss => weightAll ss
decreasing_by
  have := weightAll_childBlocks_lt s
  rw [weightAll_append, weightAll]
  omega

theorem weight_le_of_mem_flatten {s : Stmt} {ss : List Stmt} (h : s ∈ flatten ss) : s.weight ≤ weightAll ss := by
  fun_induction flatten ss with
  | case1 => cases h
  | case2 first rest ih =>
    rw [weightAll]
    rcases List.mem_cons.1 h with rfl | h
    · omega
    · have := ih h
      have := weightAll_childBlocks_lt first
      rw [weightAll_append] at *
      omega

/-- The body of a definition, with the class that directly holds the statements in it. -/
def definedBody : Stmt → List Stmt × Option SymbolId
  | functionDef _ _ body => (body, none)
  | classDef _ header body => (body, some header.symbol)
  | _ => ([], none)

theorem weightAll_definedBody_lt (s : Stmt) : weightAll s.definedBody.1 < s.weight := by
  cases s <;> simp [definedBody, weight, weightAll]

/-- Every statement at any depth in source order, the bodies of definitions included, with the class
whose body directly holds it; `owner` is that of the statements given. -/
def withOwners (owner : Option SymbolId) (ss : List Stmt) : List (Stmt × Option SymbolId) :=
  (flatten ss).attach.flatMap fun s => (s.1, owner) :: withOwners s.1.definedBody.2 s.1.definedBody.1
termination_by weightAll ss
decreasing_by
  have := weight_le_of_mem_flatten s.2
  have := weightAll_definedBody_lt s.1
  omega

mutual

/-- The function definitions in a statement at any depth, in source order. -/
def functionDefs : Stmt → List Stmt
  | functionDef id header body => functionDef id header body :: functionDefsAll body
  | classDef _ _ body => functionDefsAll body
  | ifStmt _ _ body orelse => functionDefsAll body ++ functionDefsAll orelse
  | whileStmt _ _ body orelse => functionDefsAll body ++ functionDefsAll orelse
  | forStmt _ _ _ body orelse => functionDefsAll body ++ functionDefsAll orelse
  | tryStmt _ body handlers orelse final =>
    functionDefsAll body ++ functionDefsHandlers handlers ++ functionDefsAll orelse ++ functionDefsAll final
  | withStmt _ _ body => functionDefsAll body
  | _ => []

/-- The function definitions in statements. -/
def functionDefsAll : List Stmt → List Stmt
  | [] => []
  | s :: rest => functionDefs s ++ functionDefsAll rest

/-- The function definitions in `except` clauses. -/
def functionDefsHandlers : List Handler → List Stmt
  | [] => []
  | .mk _ _ body :: rest => functionDefsAll body ++ functionDefsHandlers rest

end

/-- Whether a body handles exceptions, apart from the bodies of definitions. -/
def containsTry (body : List Stmt) : Bool := (flatten body).any isTry

/-- Everything that a body evaluates, apart from the bodies of definitions. -/
def bodyExpressions (body : List Stmt) : List Expr := Expr.subexpressions ((flatten body).flatMap expressions)

end Stmt

end PythonTypes
