import PythonTypes.Descriptor.Basic
import PythonTypes.Tree.Basic

/-!
# Summaries of modules

The descriptor of a module, by which the rest of a project knows it, is read off its bound tree. It
lists functions, classes and imported names in source order and then the variables of the module;
other symbols are referred to by their dotted paths.
-/

set_option autoImplicit false

namespace PythonTypes.Tree

/-- The descriptor of a symbol that holds a value. -/
def variableDescriptor (t : Tree) (symbol : SymbolId) (hint : Option String) : Descriptor :=
  let s := t.symbol symbol
  .ofVariable { name := s.name, path := s.path, hint }

/-- The decorators that make a function in a class body something else than a method
of instances. -/
def nonInstanceDecorators : List String := ["staticmethod", "classmethod"]

def functionDescriptor (t : Tree) (header : FunctionHeader) : Descriptor :=
  let decorators := header.decorators.filterMap t.pathOf?
  .ofFunction {
    name := header.name
    path := (t.symbol header.symbol).path
    parameters := header.parameters.map fun p =>
      { name := some p.name, hint := p.hint.bind t.pathOf?, hasDefault := p.default.isSome }
    isAsync := header.isAsync
    isInstanceMethod := header.isMethod && !decorators.any nonInstanceDecorators.contains
    decorators
    returns := header.returns.bind t.pathOf? }

/-- The symbols among `targets` that are not in `seen`, each once and with the hint. -/
def freshTargets (t : Tree) (hint : Option String) : List Expr → List SymbolId → List (SymbolId × Option String)
  | [], _ => []
  | target :: rest, seen =>
    match t.symbolOf? target with
    | none => freshTargets t hint rest seen
    | some symbol =>
      if seen.contains symbol then freshTargets t hint rest seen
      else (symbol, hint) :: freshTargets t hint rest (symbol :: seen)

/-- The symbols that a statement is the first to assign. -/
def freshVariables (t : Tree) (seen : List SymbolId) : Stmt → List (SymbolId × Option String)
  | .assign _ targets _ => t.freshTargets none targets seen
  | .annotated _ target hint _ => t.freshTargets (t.pathOf? hint) [target] seen
  | _ => []

/-- The members that the statements of a class body declare, where the variables in `seen` already
are members. -/
def classMembers (t : Tree) (seen : List SymbolId) : List Stmt → List Descriptor
  | [] => []
  | .functionDef _ header _ :: rest => t.functionDescriptor header :: classMembers t seen rest
  | .classDef _ header body :: rest =>
    .ofClass header.name (t.symbol header.symbol).path (header.bases.filterMap t.pathOf?)
      (classMembers t [] body) (!header.decorators.isEmpty) none :: classMembers t seen rest
  | s :: rest =>
    let fresh := t.freshVariables seen s
    fresh.map (fun (symbol, hint) => t.variableDescriptor symbol hint)
      ++ classMembers t (fresh.map Prod.fst ++ seen) (s.childBlocks.flatten ++ rest)
termination_by ss => Stmt.weightAll ss
decreasing_by
  · simp [Stmt.weightAll, Stmt.weight]
  · simp only [Stmt.weightAll, Stmt.weight]
    omega
  · simp [Stmt.weightAll, Stmt.weight]
  · have := Stmt.weightAll_childBlocks_lt s
    simp only [Stmt.weightAll_append, Stmt.weightAll]
    omega

def classDescriptor (t : Tree) (header : ClassHeader) (body : List Stmt) : Descriptor :=
  .ofClass header.name (t.symbol header.symbol).path (header.bases.filterMap t.pathOf?)
    (t.classMembers [] body) (!header.decorators.isEmpty) none

/-- What a statement of the module body contributes by a definition or an import. -/
def declared (t : Tree) : Stmt → List Descriptor
  | .functionDef _ header _ => [t.functionDescriptor header]
  | .classDef _ header body => [t.classDescriptor header body]
  | .importStmt _ names => names.map fun n => t.variableDescriptor n.symbol none
  | .importFrom _ _ _ names => names.map fun n => t.variableDescriptor n.symbol none
  | _ => []

/-- Whether a use gives a variable its value. -/
def isValueBinding : UsageKind → Bool
  | .assignment | .compoundAssignment | .loopTarget | .exceptionName | .contextTarget => true
  | _ => false

def hintFor? (t : Tree) (symbol : SymbolId) : Stmt → Option String
  | .annotated _ target hint _ => if t.symbolOf? target = some symbol then t.pathOf? hint else none
  | _ => none

def variableDescriptors (t : Tree) : List Descriptor :=
  (t.moduleSymbols.filter fun s => (t.symbol s).usages.any fun u => isValueBinding u.kind).map fun s =>
    t.variableDescriptor s ((Stmt.flatten t.body).findSome? (t.hintFor? s))

def descriptor (t : Tree) : ModuleDescriptor :=
  (ModuleDescriptor.ofPath t.path).addMembers ((Stmt.flatten t.body).flatMap t.declared ++ t.variableDescriptors)

end PythonTypes.Tree
