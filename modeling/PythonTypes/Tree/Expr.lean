/-!
# Expressions

Every expression of a module has an id; ids are given out in order of creation, so the parts of an
expression have smaller ids than the expression. `children` lists the parts in order of evaluation,
and `subexpressions` everything inside expressions, each expression before its parts.
-/

set_option autoImplicit false

namespace PythonTypes

/-- An expression, by order of creation. -/
structure ExprId where
  index : Nat
  deriving DecidableEq, Repr, Inhabited

/-- A binary operator. -/
inductive BinaryOp where
  | add
  | sub
  | mul
  | div
  | floorDiv
  | mod
  | pow
  | and
  | or
  | eq
  | notEq
  | lt
  | ltEq
  | gt
  | gtEq
  | isIn
  | notIn
  | is
  | isNot
  deriving DecidableEq, Repr, Inhabited

namespace BinaryOp

/-- Whether the operator compares its operands. -/
def isComparison : BinaryOp → Bool
  | eq | notEq | lt | ltEq | gt | gtEq | isIn | notIn | is | isNot => true
  | _ => false

/-- The method of the left operand that an arithmetic operator calls. -/
def method? : BinaryOp → Option String
  | add => some "__add__"
  | sub => some "__sub__"
  | mul => some "__mul__"
  | div => some "__truediv__"
  | floorDiv => some "__floordiv__"
  | mod => some "__mod__"
  | pow => some "__pow__"
  | _ => none

/-- The operators by the way they are written. -/
def spellings : List (String × BinaryOp) :=
  [("+", add), ("-", sub), ("*", mul), ("/", div), ("//", floorDiv), ("%", mod), ("**", pow), ("and", and), ("or", or),
   ("==", eq), ("!=", notEq), ("<", lt), ("<=", ltEq), (">", gt), (">=", gtEq), ("in", isIn), ("not in", notIn),
   ("is", is), ("is not", isNot)]

/-- The operator that is written as `s`. -/
def ofText? (s : String) : Option BinaryOp := spellings.lookup s

end BinaryOp

/-- A unary operator. -/
inductive UnaryOp where
  | not
  | neg
  | pos
  deriving DecidableEq, Repr, Inhabited

/-- The operator that is written as `s`. -/
def UnaryOp.ofText? : String → Option UnaryOp
  | "not" => some not
  | "-" => some neg
  | "+" => some pos
  | _ => none

/-- The kinds of display, which list their items between brackets. -/
inductive Display where
  | list
  | tuple
  | set
  | dict
  deriving DecidableEq, Repr, Inhabited

def Display.className : Display → String
  | list => "list"
  | tuple => "tuple"
  | set => "set"
  | dict => "dict"

/-- An expression. -/
inductive Expr where
  | name (id : ExprId) (text : String)
  /-- A member access `qualifier.member`. -/
  | qualified (id : ExprId) (qualifier : Expr) (member : String)
  | call (id : ExprId) (callee : Expr) (arguments : List Expr)
  | string (id : ExprId) (value : String)
  | integer (id : ExprId) (value : Int)
  /-- A number with a fraction, as it was written. -/
  | decimal (id : ExprId) (literal : String)
  | boolean (id : ExprId) (value : Bool)
  | noneLiteral (id : ExprId)
  | binary (id : ExprId) (op : BinaryOp) (left right : Expr)
  | unary (id : ExprId) (op : UnaryOp) (operand : Expr)
  | conditional (id : ExprId) (test thenValue elseValue : Expr)
  /-- A display; a `dict` lists each key before its value. -/
  | display (id : ExprId) (kind : Display) (items : List Expr)
  | subscript (id : ExprId) (value index : Expr)
  | await (id : ExprId) (operand : Expr)
  | paren (id : ExprId) (inner : Expr)

namespace Expr

instance : Inhabited Expr := ⟨noneLiteral ⟨0⟩⟩

def id : Expr → ExprId
  | name id _ => id
  | qualified id _ _ => id
  | call id _ _ => id
  | string id _ => id
  | integer id _ => id
  | decimal id _ => id
  | boolean id _ => id
  | noneLiteral id => id
  | binary id _ _ _ => id
  | unary id _ _ => id
  | conditional id _ _ _ => id
  | display id _ _ => id
  | subscript id _ _ => id
  | await id _ => id
  | paren id _ => id

/-- The parts of an expression, in order of evaluation. -/
def children : Expr → List Expr
  | qualified _ qualifier _ => [qualifier]
  | call _ callee arguments => callee :: arguments
  | binary _ _ left right => [left, right]
  | unary _ _ operand => [operand]
  | conditional _ test thenValue elseValue => [test, thenValue, elseValue]
  | display _ _ items => items
  | subscript _ value index => [value, index]
  | await _ operand => [operand]
  | paren _ inner => [inner]
  | _ => []

/-- Whether an expression is a member access. -/
def isQualified : Expr → Bool
  | qualified .. => true
  | _ => false

mutual

/-- Number of expressions in an expression, itself included. -/
def weight : Expr → Nat
  | name _ _ => 1
  | qualified _ qualifier _ => weight qualifier + 1
  | call _ callee arguments => weight callee + weightAll arguments + 1
  | string _ _ => 1
  | integer _ _ => 1
  | decimal _ _ => 1
  | boolean _ _ => 1
  | noneLiteral _ => 1
  | binary _ _ left right => weight left + weight right + 1
  | unary _ _ operand => weight operand + 1
  | conditional _ test thenValue elseValue => weight test + weight thenValue + weight elseValue + 1
  | display _ _ items => weightAll items + 1
  | subscript _ value index => weight value + weight index + 1
  | await _ operand => weight operand + 1
  | paren _ inner => weight inner + 1

/-- Number of expressions in expressions. -/
def weightAll : List Expr → Nat
  | [] => 0
  | e :: rest => weight e + weightAll rest

end

theorem weightAll_append (xs ys : List Expr) : weightAll (xs ++ ys) = weightAll xs + weightAll ys := by
  induction xs with
  | nil => simp [weightAll]
  | cons e rest ih => simp [weightAll, ih, Nat.add_assoc]

theorem weight_eq_children (e : Expr) : e.weight = weightAll e.children + 1 := by
  cases e <;> simp [weight, weightAll, children, Nat.add_assoc]

/-- Everything inside expressions, each expression before its parts. -/
def subexpressions : List Expr → List Expr
  | [] => []
  | e :: rest => e :: subexpressions (e.children ++ rest)
termination_by es => weightAll es
decreasing_by
  rw [weightAll_append, weightAll, weight_eq_children]
  omega

end Expr

end PythonTypes
