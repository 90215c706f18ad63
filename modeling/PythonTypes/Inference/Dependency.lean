import PythonTypes.Inference.Body

/-!
# Dependencies inside a body

Every assignment to a tracked variable and every member access of a body is a node. The type of a
node is computed from variables and from members of qualified expressions; an edge leads from each
node that these come from to the nodes that need them. Edges are listed in the order in which they
were added, without repetitions.
-/

set_option autoImplicit false

namespace PythonTypes

/-- Where an assigned value comes from. -/
inductive AssignedValue where
  | value (e : Expr)
  /-- The result of a compound assignment. -/
  | compound (target : Expr) (op : BinaryOp) (operand : Expr)
  /-- An element of what a `for` runs over. -/
  | loopElement (iter : Expr)

namespace AssignedValue

/-- The expressions that make up the value. -/
def roots : AssignedValue → List Expr
  | value e => [e]
  | compound target _ operand => [target, operand]
  | loopElement iter => [iter]

end AssignedValue

/-- What a node determines. -/
inductive NodeKind where
  | assignment (symbol : SymbolId) (source : AssignedValue)
  | memberAccess (qualified : Expr)

/-- A node, with what it is computed from. -/
structure Node where
  kind : NodeKind
  symbols : List SymbolId
  members : List ExprId

/-- The nodes of a body and their edges, by index. -/
structure DependencyGraph where
  nodes : Array Node
  /-- Pairs of a node and one that depends on it. -/
  edges : List (Nat × Nat)

/-- The names and qualified expressions from which the type of an expression is computed, from right
to left. -/
def Expr.leaves : Expr → List Expr
  | .name id text => [.name id text]
  | .qualified id qualifier member => [.qualified id qualifier member]
  | .call _ callee _ => leaves callee
  | .binary _ _ left right => leaves right ++ leaves left
  | .conditional _ _ thenValue elseValue => leaves elseValue ++ leaves thenValue
  | .unary _ _ operand => leaves operand
  | .paren _ inner => leaves inner
  | .await _ operand => leaves operand
  | .subscript _ value _ => leaves value
  | _ => []

namespace Tree

/-- Whether an expression calls the builtin `super`. -/
def isSuperCall (t : Tree) : Expr → Bool
  | .call _ (.name id text) _ =>
    text == "super" && (t.symbolOf? (.name id text)).any fun s => (t.symbol s).kind == .builtin
  | _ => false

/-- A node that is computed from the types of `roots`. -/
def node (t : Tree) (tracked : List SymbolId) (kind : NodeKind) (roots : List Expr) : Node :=
  let leaves := roots.reverse.flatMap Expr.leaves
  { kind
    symbols := ((leaves.filterMap t.symbolOf?).filter tracked.contains).eraseDups
    members := ((leaves.filter Expr.isQualified).map Expr.id).eraseDups }

def assignments : Stmt → List (Expr × AssignedValue)
  | .assign _ targets value => targets.map (·, .value value)
  | .annotated _ target _ (some value) => [(target, .value value)]
  | .compound _ target op value => [(target, .compound target op value)]
  | .forStmt _ target iter _ _ => [(target, .loopElement iter)]
  | _ => []

def assignmentNodes (t : Tree) (b : Body) : List Node :=
  ((Stmt.flatten b.stmts).flatMap assignments).filterMap fun (target, source) => do
    let symbol ← (t.symbolOf? target).filter b.tracked.contains
    return t.node b.tracked (.assignment symbol source) source.roots

/-- The node of a member access, except for members of `super()`. -/
def memberNode? (t : Tree) (tracked : List SymbolId) : Expr → Option Node
  | .qualified id qualifier member =>
    if t.isSuperCall qualifier then none
    else some (t.node tracked (.memberAccess (.qualified id qualifier member)) [qualifier])
  | _ => none

/-- The nodes of the member accesses, each before those in its qualifier. -/
def memberNodes (t : Tree) (b : Body) : List Node :=
  (Stmt.bodyExpressions b.stmts).filterMap (t.memberNode? b.tracked)

end Tree

namespace DependencyGraph

def assigns (symbol : SymbolId) (n : Node) : Bool :=
  match n.kind with
  | .assignment s _ => s == symbol
  | .memberAccess _ => false

/-- Whether a node determines the member of a qualified expression. -/
def accesses (e : ExprId) (n : Node) : Bool :=
  match n.kind with
  | .assignment _ _ => false
  | .memberAccess qualified => qualified.id == e

def indicesOf (nodes : List Node) (p : Node → Bool) : List Nat :=
  (nodes.zipIdx.filter fun (n, _) => p n).map Prod.snd

/-- The nodes that a node depends on: those of its variables, then those of its members. -/
def sources (nodes : List Node) (n : Node) : List Nat :=
  n.symbols.flatMap (fun s => indicesOf nodes (assigns s))
    ++ n.members.flatMap (fun e => (indicesOf nodes (accesses e)).getLast?.toList)

/-- Adds an edge unless it is there already. -/
def addEdge (edges : List (Nat × Nat)) (edge : Nat × Nat) : List (Nat × Nat) :=
  if edges.contains edge then edges else edges ++ [edge]

def ofNodes (nodes : List Node) : DependencyGraph where
  nodes := nodes.toArray
  edges := (nodes.zipIdx.flatMap fun (n, i) => (sources nodes n).map (·, i)).foldl addEdge []

/-- The nodes that depend on a node, the newest edge first. -/
def dependents (g : DependencyGraph) (n : Nat) : List Nat :=
  ((g.edges.filter fun edge => edge.1 == n).map Prod.snd).reverse

def size (g : DependencyGraph) : Nat := g.nodes.size

def indices (g : DependencyGraph) : List Nat := List.range g.size

end DependencyGraph

def Tree.dependencies (t : Tree) (b : Body) : DependencyGraph :=
  .ofNodes (t.assignmentNodes b ++ t.memberNodes b)

end PythonTypes
