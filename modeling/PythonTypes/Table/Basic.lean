import PythonTypes.Descriptor.Convert
import PythonTypes.Project
import PythonTypes.Settings
import PythonTypes.Stub.Standard

/-!
# The type table of a project

A `Table` holds everything known about a project: its types, the modules that have been turned into
types, and the descriptors from which further modules can be. The root module holds the builtin
names, which are referred to without a module. A module is loaded when it is first needed, from the
project if it has it and from the stubs otherwise; a path that is only the package of other modules
gives a module without members.
-/

set_option autoImplicit false

namespace PythonTypes

/-- The types of a project and where they come from. -/
structure Table where
  space : TypeSpace
  /-- The module of the builtin names. -/
  root : TypeId
  /-- Dotted paths that have been followed, and where they lead. -/
  cache : OrderedMap String TypeId := ∅
  /-- Loaded modules by path. -/
  modules : OrderedMap String TypeId := ∅
  stubs : StubStore
  /-- Whether the stubs tell which paths are packages. -/
  stubPackages : Bool := true
  project : Project
  settings : Settings
  /-- What listeners have been told since the last time somebody asked, in order. -/
  told : List (String × TypeId) := []
  /-- Whether it is logged what lazy types are resolved to. -/
  traced : Bool := false

abbrev TableM (α : Type) := StateM Table α

/-- Queries: actions on a table that give up when they would go too deep. -/
abbrev Query (α : Type) := StateT Table Option α

instance : MonadLift (StateM Table) (StateT Table Option) := ⟨fun action t => some (action t)⟩

namespace Query

def tooDeep {α : Type} : Query α := fun _ => none

/-- An action on the types and lazy types of a table. -/
def onSpace {α : Type} (action : SpaceM α) : Query α := fun t =>
  (action t.space).map fun (a, space) => (a, { t with space })

/-- An action that follows the types of a table, with enough depth. -/
def follow {α : Type} (action : Nat → DeepM α) : Query α := onSpace (TypeSpace.follow action)

/-- The answer to a query; should it give up, the table stays and the answer is `default`. -/
def answer {α : Type} (query : Query α) (default : α) : TableM α := fun t => (query t).getD (default, t)

end Query

namespace Table

def rootPath : String := "builtins"

def store (t : Table) : TypeStore := t.space.store

def form (t : Table) (id : TypeId) : TypeForm := t.store.form id

def onSpace {α : Type} [Inhabited α] (action : SpaceM α) : TableM α := (Query.onSpace action).answer default

def onStore {α : Type} (action : StoreM α) : TableM α := fun t =>
  let (a, store) := action t.store
  (a, { t with space := { t.space with store } })

/-- Resolves a lazy type to `target` and tells its watchers; the error is that of the first watcher
that fails. -/
def resolveWith (lazy target : TypeId) : TableM (Option TypeError) := fun t =>
  let r := t.store.resolveLazy lazy target
  (r.error?, { t with space := { t.space with store := r.store }, told := t.told ++ r.told })

/-- Hands over what listeners have been told. -/
def takeTold : TableM (List (String × TypeId)) := modifyGet fun t => (t.told, { t with told := [] })

def rootMembers (stubs : StubStore) : SpaceM (OrderedMap String TypeRef) :=
  match stubs.lookup rootPath with
  | none => pure ∅
  | some builtins => builtins.convertMembers { modulePath := "", origin := .stub }

/-- The table of a project before anything has been looked up. -/
def create (project : Project) (stubs : StubStore) (settings : Settings) (stubPackages : Bool := true) : Table :=
  let (members, space) := (rootMembers stubs {}).getD (∅, {})
  let (root, store) := TypeStore.alloc (.ofModule { name := rootPath, path := rootPath, members }) space.store
  { space := { space with store }, root, stubs, stubPackages, project, settings }

/-- The stubs that every analysis starts from. -/
def standardStubs (versions : VersionSet) : StubStore :=
  ({ versions } : StubStore).addBundle StubBundle.standard

/-- The table of a project with no stubs but the standard ones. -/
def withStandardStubs (project : Project) (settings : Settings) : Table :=
  create project (standardStubs settings.versions) settings

/-- Registers a module of the project; one that is already loaded stays as it is. -/
def addModule (t : Table) (m : ModuleDescriptor) : Table :=
  if t.modules.contains m.path then t else { t with project := t.project.addModule m }

def convert (modulePath : String) (origin : Origin) (d : Descriptor) : TableM (Except ConversionError TypeId) :=
  onSpace (d.convert { modulePath, origin }).run

def source? (t : Table) (path : String) : Option (ModuleDescriptor × Origin) :=
  match t.project.lookup path with
  | some m => some (m, .project)
  | none =>
    match t.stubs.lookup path with
    | some m => some (m, .stub)
    | none =>
      if t.project.isPackage path || (t.stubPackages && t.stubs.isPackage path) then
        some (ModuleDescriptor.ofPath path, .project)
      else none

/-- The module at a path, loaded if it is not yet. -/
def loadModule (path : String) : Query (Option TypeId) := do
  let t ← get
  match t.modules.get? path with
  | some m => return some m
  | none =>
    match t.source? path with
    | none => return none
    | some (descriptor, origin) =>
      let members ← Query.onSpace (descriptor.convertMembers { modulePath := path, origin })
      let m ← onStore (TypeStore.alloc (.ofModule { name := descriptor.name, path, members }))
      modify fun t => { t with modules := t.modules.insert path m }
      return some m

def setModuleMember (m : TypeId) (name : String) (ref : TypeRef) : TableM Unit := onStore <| modify fun s =>
  match s.form m with
  | .ofModule info => s.setForm m (.ofModule { info with members := info.members.insert name ref })
  | _ => s

def memberRef? (t : Table) (m : TypeId) (name : String) : Option TypeRef :=
  match t.form m with
  | .ofModule info => info.members.get? name
  | _ => none

end Table

mutual

/-- Number of symbols and references in a descriptor. -/
def Descriptor.weight : Descriptor → Nat
  | .ofClass _ _ bases members _ _ => bases.length + weightAll members + 1
  | .ofFunction f => f.parameters.length + f.decorators.length + 2
  | .ofVariable _ => 2
  | .ambiguous _ _ alternatives => weightAll alternatives + 1
  | .unknown _ _ => 1

/-- Number of symbols and references in descriptors. -/
def Descriptor.weightAll : List Descriptor → Nat
  | [] => 0
  | d :: rest => d.weight + weightAll rest

end

namespace Table

/-- Number of types in a table and of symbols and references from which it can make more. -/
def weight (t : Table) : Nat :=
  t.store.size
    + t.project.modules.values.foldr (fun m n => Descriptor.weightAll m.members.values + 1 + n) 0
    + t.stubs.modules.values.foldr
      (fun symbols n => Descriptor.weightAll (symbols.map StubSymbol.descriptor) + 1 + n) 0

/-- A depth that looking things up in a table does not use up: it never looks up a path inside the
look-up of the same path, and in between it passes each class and each lazy type at most once. -/
def depthBound (t : Table) : Nat := 16 * (t.weight + 1) * (t.weight + 1)

end Table

/-- A query with enough depth for the table that it is made to. -/
def Query.enough {α : Type} (query : Nat → Query α) : Query α := fun t => query t.depthBound t

end PythonTypes
