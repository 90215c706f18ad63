import PythonTypes.Types.Union

/-!
# Types and the import paths they wait for

A `TypeSpace` is a store of types with the registry of its lazy types: one lazy type for each import
path, and the paths that are being looked up at the moment, which is how import cycles are noticed.
-/

set_option autoImplicit false

namespace PythonTypes

/-- The lazy types in use, one for each import path, and the paths being looked up. -/
structure LazyRegistry where
  types : OrderedMap String TypeId := ∅
  inProgress : List String := []

namespace LazyRegistry

instance : Inhabited LazyRegistry := ⟨{}⟩

def size (r : LazyRegistry) : Nat := r.types.size

/-- The registry with a path being looked up, or `none` if it already is. -/
def enter? (r : LazyRegistry) (path : String) : Option LazyRegistry :=
  if r.inProgress.contains path then none else some { r with inProgress := path :: r.inProgress }

/-- The registry with a path no longer being looked up. -/
def leave (r : LazyRegistry) (path : String) : LazyRegistry :=
  { r with inProgress := r.inProgress.filter (· != path) }

end LazyRegistry

/-- A store of types and the registry of its lazy types. -/
structure TypeSpace where
  store : TypeStore := {}
  registry : LazyRegistry := {}

/-- Actions on a type space, which give up when they would follow its types too deep. -/
abbrev SpaceM (α : Type) := StateT TypeSpace Option α

namespace TypeSpace

instance : Inhabited TypeSpace := ⟨{}⟩

def onStore {α : Type} (action : StoreM α) : SpaceM α := fun space =>
  let (a, store) := action space.store
  some (a, { space with store })

def follow {α : Type} (action : Nat → DeepM α) : SpaceM α := fun space =>
  (action space.store.depthBound space.store).map fun (a, store) => (a, { space with store })

/-- The lazy type for a path, a new one if there is none yet. -/
def lazyType (path : String) : SpaceM TypeId := do
  match (← get).registry.types.get? path with
  | some t => return t
  | none =>
    let t ← onStore (TypeStore.allocLazy path)
    modify fun space =>
      { space with registry := { space.registry with types := space.registry.types.insert path t } }
    return t

/-- A reference to whatever a path leads to. -/
def lazyRef (path : String) : SpaceM TypeRef := do
  let t ← lazyType path
  onStore (TypeStore.wrap t)

/-- The instances of the class that a path leads to. -/
def lazyInstance (path : String) : SpaceM TypeId := do
  let cls ← lazyRef path
  follow (TypeStore.instanceOfAt · cls)

end TypeSpace

end PythonTypes
