import PythonTypes.Flow.Build
import PythonTypes.Inference.FlowSensitive
import PythonTypes.Inference.Propagation
import PythonTypes.Table.Import
import PythonTypes.Tree.Summary

/-!
# Inference for a module

`inferModule` registers a module with a table, gives types to the symbols that are only imported
or defined, infers the top level of the module and then each function, and at last types everything
that no body evaluates. A body with exception handling is inferred by propagation, any other along
its control flow; a body that has no control flow graph is skipped.
-/

set_option autoImplicit false

namespace PythonTypes

/-- Why a module cannot be inferred. -/
inductive InferenceError where
  | unnamedModule
  /-- A definition could not be turned into a type. -/
  | conversion (what name : String) (cause : ConversionError)
  deriving Repr

def InferenceError.message : InferenceError → String
  | unnamedModule => "cannot infer a file without a module name"
  | conversion what name cause => "failed to convert " ++ what ++ " `" ++ name ++ "`: " ++ cause.message

/-- How the bodies of a module were inferred. -/
structure InferenceStats where
  functions : Nat := 0
  flowSensitive : Nat := 0
  propagated : Nat := 0
  skipped : Nat := 0
  /-- Number of evaluations in all bodies. -/
  iterations : Nat := 0

/-- The types of a module. -/
structure ModuleTypes where
  stats : InferenceStats
  exprTypes : List TypeId
  /-- The member of each expression, by id; only qualified expressions have one. -/
  members : List (Option TypeId)
  symbolTypes : List TypeId

namespace Inference

/-- The type of a definition: what its path leads to, or else the converted descriptor. -/
def definitionType (tree : Tree) (symbol : SymbolId) (d : Descriptor) : TableM (Except ConversionError TypeId) := do
  let convertHere : TableM (Except ConversionError TypeId) := do
    match ← Table.convert tree.path .project d with
    | .error e => return .error e
    | .ok t => return .ok (← Table.resolved t)
  match (tree.symbol symbol).path with
  | none => convertHere
  | some path =>
    let t ← Table.getType path
    if (← get).store.isUnknown t then convertHere else return .ok t

/-- The type bound by an `import`; without another name it is that of the outermost package. -/
def importedModule (n : ImportedName) : TableM TypeId := do
  let t ← Table.importModule n.name
  match n.rename with
  | some _ => return t
  | none => Table.importModule (DottedName.head n.name)

/-- The type bound by a `from` import. -/
def importedMember (tree : Tree) (source : Option String) (level : Nat) (n : ImportedName) : TableM TypeId :=
  let base := DottedName.absolute tree.package level source
  if level > 0 ∧ source.isNone then Table.importSibling base n.name else Table.importFrom base n.name

/-- The types that imports and definitions bind, in source order. -/
def declaredTypes (tree : Tree) : List Stmt → TableM (Except InferenceError (List (SymbolId × TypeId)))
  | [] => return .ok []
  | s :: rest => do
    let own : Except InferenceError (List (SymbolId × TypeId)) ← match s with
      | .importStmt _ names => do
        let types ← names.mapM importedModule
        pure (.ok ((names.map ImportedName.symbol).zip types))
      | .importFrom _ source level names => do
        let types ← names.mapM (importedMember tree source level)
        pure (.ok ((names.map ImportedName.symbol).zip types))
      | .functionDef _ header _ => do
        match ← definitionType tree header.symbol (tree.functionDescriptor header) with
        | .ok t => pure (.ok [(header.symbol, t)])
        | .error e => pure (.error (.conversion "function" header.name e))
      | .classDef _ header body => do
        match ← definitionType tree header.symbol (tree.classDescriptor header body) with
        | .ok t => pure (.ok [(header.symbol, t)])
        | .error e => pure (.error (.conversion "class" header.name e))
      | _ => pure (.ok [])
    match own with
    | .error e => return .error e
    | .ok own =>
      match ← declaredTypes tree rest with
      | .error e => return .error e
      | .ok rest => return .ok (own ++ rest)

def builtinTypes (tree : Tree) : TableM (List (SymbolId × TypeId)) :=
  (tree.symbolIds.filter fun s => (tree.symbol s).kind == .builtin).mapM fun s => do
    let t ← Table.member (← get).root (tree.symbol s).name
    return (s, t.getD .unknown)

/-- Whether a use is an import or a definition. -/
def isDeclaration : UsageKind → Bool
  | .importBinding | .functionDeclaration | .classDeclaration => true
  | _ => false

/-- Whether a symbol is bound by nothing but imports and definitions. -/
def isDeclared (tree : Tree) (symbol : SymbolId) : Bool :=
  (tree.symbol symbol).bindings.all fun u => isDeclaration u.kind

/-- Unites the declared types of each symbol that is bound by nothing else. -/
def uniteDeclared (tree : Tree) (types : List (SymbolId × TypeId)) : StoreM TypeState :=
  (types.filter fun (symbol, _) => isDeclared tree symbol).foldlM
    (fun state (symbol, t) => state.joinOne symbol t) .bottom

/-- What is known before any body is inferred: imports, definitions and builtins. -/
def declarations (tree : Tree) : TableM (Except InferenceError Knowledge) := do
  match ← declaredTypes tree (tree.statements.map Prod.fst) with
  | .error e => return .error e
  | .ok declared =>
    let builtins ← builtinTypes tree
    let united ← Table.onStore (uniteDeclared tree (declared ++ builtins))
    return .ok { symbolTypes := united.types }

def instanceOfClass (t : TypeId) : TableM TypeId := do
  let t ← Table.resolved t
  if ((← get).form t).isClass then Table.onStore (TypeStore.instanceOf (.direct t)) else return .unknown

/-- The type of an expression outside of any body. -/
def typeOutside (tree : Tree) (known : Knowledge) (e : Expr) : TableM TypeId := fun table =>
  let (t, typing) := Typing.typeOf tree known.environment e { table }
  (t, typing.table)

def decoratorNames (header : FunctionHeader) : List String := header.decorators.filterMap fun
  | .name _ text => some text
  | _ => none

/-- The type of a parameter: an instance of the class in its hint; the first parameter of a method
is an instance of the class that owns it, or that class itself for a class method. -/
def parameterType (tree : Tree) (known : Knowledge) (header : FunctionHeader)
    (owner : Option SymbolId) (index : Nat) (p : Parameter) : TableM TypeId := do
  match p.hint, owner with
  | some hint, _ =>
    let cls ← typeOutside tree known hint
    instanceOfClass cls
  | none, some owner =>
    let names := decoratorNames header
    if index = 0 ∧ header.isMethod ∧ ¬ names.contains "staticmethod" then
      let cls := known.symbolType owner
      if names.contains "classmethod" then return cls else instanceOfClass cls
    else return .unknown
  | none, none => return .unknown

def parameterTypes (tree : Tree) (known : Knowledge) (header : FunctionHeader)
    (owner : Option SymbolId) : TableM (List (SymbolId × TypeId)) :=
  header.parameters.zipIdx.mapM fun (p, index) => do
    let t ← parameterType tree known header owner index p
    return (p.symbol, t)

/-- Runs an inference of a body on a table. -/
def withTyping {α : Type} (action : TypingM α) : TableM α := fun table =>
  let (a, typing) := action { table }
  (a, typing.table)

/-- Infers a body and adds the outcome to what is known. -/
def inferBody (tree : Tree) (body : Body) (known : Knowledge) (stats : InferenceStats) :
    TableM (Knowledge × InferenceStats) := do
  let settings := (← get).settings
  if Stmt.containsTry body.stmts then
    let types ← withTyping (Propagation.infer (.ofBody tree known body) settings.maxIterations)
    return (known.merge types,
      { stats with propagated := stats.propagated + 1, iterations := stats.iterations + types.iterations })
  else
    match FlowGraph.ofBody body.stmts with
    | .error _ => return (known, { stats with skipped := stats.skipped + 1 })
    | .ok graph =>
      let types ← withTyping
        (FlowSensitive.infer { tree, known, body } graph settings.passes settings.maxIterations)
      return (known.merge types,
        { stats with flowSensitive := stats.flowSensitive + 1, iterations := stats.iterations + types.iterations })

/-- The class whose body directly holds a statement; the last statement with the id that is in the
body of a class counts. -/
def ownerOf (statements : List (Stmt × Option SymbolId)) (id : StmtId) : Option SymbolId :=
  (OrderedMap.ofList (statements.filterMap fun (s, owner) => owner.map (s.id, ·))).get? id

def inferFunctions (tree : Tree) :
    List Stmt → Knowledge → InferenceStats → TableM (Knowledge × InferenceStats)
  | [], known, stats => return (known, stats)
  | .functionDef id header body :: rest, known, stats => do
    let parameters ← parameterTypes tree known header (ownerOf tree.statements id)
    let (known, stats) ← inferBody tree (tree.functionBody header body parameters) known
      { stats with functions := stats.functions + 1 }
    inferFunctions tree rest known stats
  | _ :: rest, known, stats => inferFunctions tree rest known stats

/-- The final type and member of an expression. What no body evaluates is typed from what is known
in the end. -/
def finalTypes (tree : Tree) (known : Knowledge) (e : Expr) : TypingM (TypeId × Option TypeId) := do
  let t ← match known.exprTypes.get? e.id with
    | some t => pure t
    | none => Typing.typeOf tree known.environment e
  let member ←
    if e.isQualified then
      match known.members.get? e.id with
      | some member => pure (some member)
      | none => Typing.findMember tree known.environment e
    else pure none
  return (t, member)

end Inference

/-- Infers the types of every expression and symbol of a module. -/
def Table.inferModule (tree : Tree) : TableM (Except InferenceError ModuleTypes) := do
  if tree.path = "" then return .error .unnamedModule
  modify (·.addModule tree.descriptor)
  match ← Inference.declarations tree with
  | .error e => return .error e
  | .ok known =>
    let (known, stats) ← Inference.inferBody tree tree.moduleBody known {}
    let (known, stats) ← Inference.inferFunctions tree tree.functionDefs known stats
    let types ← Inference.withTyping (tree.exprs.toList.mapM (Inference.finalTypes tree known))
    return .ok {
      stats
      exprTypes := types.map Prod.fst
      members := types.map Prod.snd
      symbolTypes := tree.symbolIds.map known.symbolType }

end PythonTypes
