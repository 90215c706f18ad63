import PythonTypes.Text.Json.Basic
import PythonTypes.Tree.Source

/-!
# Modules as JSON

A module is written as an object with its path and its body. Expressions and statements are arrays
that start with a tag, such as `["call", callee, [arguments]]` or
`["if", test, [body], [orelse]]`; definitions have an object with named parts.
-/

set_option autoImplicit false

namespace PythonTypes.Source

namespace Expr

/-- Reads an expression nested at most `depth` levels deep. -/
def ofJsonWithin? : Nat → Json → Option Expr
  | 0, _ => none
  | depth + 1, j =>
    let expr := ofJsonWithin? depth
    let exprs := Json.optionalListOf expr
    match j with
    | .array [.string "n", .string name] => some (read name)
    | .array [.string "t", .string name] => some (target name)
    | .array [.string ".", e, .string name] => do return qualified (← expr e) name
    | .array [.string "call", callee, arguments] => do return call (← expr callee) (← exprs arguments)
    | .array [.string "mcall", e, .string name, arguments] => do return methodCall (← expr e) name (← exprs arguments)
    | .array [.string "str", .string value] => some (string value)
    | .array [.string "int", value] => value.asInt?.map integer
    | .array [.string "float", .number literal] => some (decimal literal)
    | .array [.string "bool", .bool value] => some (boolean value)
    | .array [.string "none"] => some noneLiteral
    | .array [.string "bin", .string op, left, right] => do
      return binary (← BinaryOp.ofText? op) (← expr left) (← expr right)
    | .array [.string "un", .string op, e] => do return unary (← UnaryOp.ofText? op) (← expr e)
    | .array [.string "cond", test, thenValue, elseValue] => do
      return conditional (← expr test) (← expr thenValue) (← expr elseValue)
    | .array [.string "list", items] => do return display .list (← exprs items)
    | .array [.string "tuple", items] => do return display .tuple (← exprs items)
    | .array [.string "set", items] => do return display .set (← exprs items)
    | .array [.string "dict", entries] => do
      let entries ← entries.optionalListOf (Json.listOf expr)
      return display .dict entries.flatten
    | .array [.string "sub", value, index] => do return subscript (← expr value) (← expr index)
    | .array [.string "await", e] => do return await (← expr e)
    | .array [.string "paren", e] => do return paren (← expr e)
    | _ => none

def ofJson? (j : Json) : Option Expr := ofJsonWithin? j.depth j

end Expr

def exprsOfJson? (j : Json) : Option (List Expr) := j.optionalListOf Expr.ofJson?

/-- Reads a parameter; one with a hint has no default. -/
def Parameter.ofJson? (j : Json) : Option Parameter := do
  let name ← (j.field "name").asString?
  match ← (j.field "ann").nullable Expr.ofJson? with
  | some hint => return { name, hint }
  | none => return { name, default := ← (j.field "default").nullable Expr.ofJson? }

def FunctionHeader.ofJson? (j : Json) : Option FunctionHeader := do
  return {
    name := ← (j.field "name").asString?
    decorators := ← exprsOfJson? (j.field "decorators")
    parameters := ← (j.field "params").optionalListOf Parameter.ofJson?
    returns := ← (j.field "returns").nullable Expr.ofJson?
    isAsync := (← (j.field "async").nullable Json.asBool?).getD false }

def ClassHeader.ofJson? (j : Json) : Option ClassHeader := do
  return {
    name := ← (j.field "name").asString?
    bases := ← exprsOfJson? (j.field "bases")
    decorators := ← exprsOfJson? (j.field "decorators") }

def WithItem.ofJson? : Json → Option WithItem
  | .array [context, name] => do
    return { context := ← Expr.ofJson? context, target := ← name.nullable Json.asString? }
  | _ => none

def ImportedName.ofJson? : Json → Option ImportedName
  | .array [.string name, rename] => do return { name, rename := ← rename.nullable Json.asString? }
  | _ => none

/-- Reads an `except` clause, given how to read its body. -/
def handlerOfJson? (block : Json → Option (List Stmt)) : Json → Option Handler
  | .array [exception, name, body] => do
    return .mk (← exception.nullable Expr.ofJson?) (← name.nullable Json.asString?) (← block body)
  | _ => none

namespace Stmt

/-- Reads a statement nested at most `depth` levels deep. -/
def ofJsonWithin? : Nat → Json → Option Stmt
  | 0, _ => none
  | depth + 1, j =>
    let expr := Expr.ofJson?
    let optional := Json.nullable Expr.ofJson?
    let block := Json.optionalListOf (ofJsonWithin? depth)
    match j with
    | .array [.string "assign", targets, value] => do return assign (← exprsOfJson? targets) (← expr value)
    | .array [.string "ann", target, hint, value] => do
      return annotated (← expr target) (← expr hint) (← optional value)
    | .array [.string "aug", target, .string op, value] => do
      return compound (← expr target) (← BinaryOp.ofText? op) (← expr value)
    | .array [.string "expr", e] => do return exprStmt (← expr e)
    | .array [.string "return", value] => do return returnStmt (← optional value)
    | .array [.string "raise", exception] => do return raiseStmt (← optional exception)
    | .array [.string "pass"] => some passStmt
    | .array [.string "break"] => some breakStmt
    | .array [.string "continue"] => some continueStmt
    | .array [.string "global", names] => do return globalStmt (← names.listOf Json.asString?)
    | .array [.string "if", test, body, orelse] => do return ifStmt (← expr test) (← block body) (← block orelse)
    | .array [.string "while", test, body, orelse] => do return whileStmt (← expr test) (← block body) (← block orelse)
    | .array [.string "for", target, iter, body, orelse] => do
      return forStmt (← expr target) (← expr iter) (← block body) (← block orelse)
    | .array [.string "try", body, handlers, orelse, final] => do
      return tryStmt (← block body) (← handlers.optionalListOf (handlerOfJson? block)) (← block orelse) (← block final)
    | .array [.string "with", items, body] => do
      return withStmt (← items.optionalListOf WithItem.ofJson?) (← block body)
    | .array [.string "import", .string path] => some (importStmt path none)
    | .array [.string "import_as", .string path, .string rename] => some (importStmt path (some rename))
    | .array [.string "from", level, source, names] => do
      return importFrom (← source.nullable Json.asString?) (← level.asNat?)
        (← names.optionalListOf ImportedName.ofJson?)
    | .array [.string "def", d] => do return functionDef (← FunctionHeader.ofJson? d) (← block (d.field "body"))
    | .array [.string "class", d] => do return classDef (← ClassHeader.ofJson? d) (← block (d.field "body"))
    | _ => none

def ofJson? (j : Json) : Option Stmt := ofJsonWithin? j.depth j

end Stmt

def Module.ofJson? (j : Json) : Option Module := do
  return {
    path := ← (j.field "module").asString?
    isPackage := (← (j.field "package").nullable Json.asBool?).getD false
    body := ← (j.field "body").optionalListOf Stmt.ofJson? }

end PythonTypes.Source
