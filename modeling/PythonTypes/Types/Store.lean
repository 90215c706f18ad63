import PythonTypes.Types.Basic

/-!
# The store of types

`TypeStore` holds every type of an analysis, the slots, and the tables through which instances,
unions and unresolved imports are interned. A type that does not exist reads as `unknown`.
Operations that add types are actions of `StoreM`.

A lazy type moves from pending to resolved once. `resolveLazy` tells its watchers the target in
order of registration, and `derefLazy` follows resolved lazy types to something that is not one.
-/

set_option autoImplicit false

namespace PythonTypes

/-- A redirectable reference: it still waits as long as `target` is `lazy`. -/
structure Slot where
  /-- The lazy type that the slot was made for. -/
  lazy : TypeId
  /-- What the slot refers to now. -/
  target : TypeId
  deriving DecidableEq, Repr, Inhabited

/-- Whether a slot has been redirected. -/
def Slot.isResolved (slot : Slot) : Bool := slot.target != slot.lazy

/-- Every type of an analysis. -/
structure TypeStore where
  types : Array TypeForm := #[.unknown]
  slots : Array Slot := #[]
  /-- Unresolved imports by path. -/
  imports : OrderedMap String TypeId := ∅
  /-- Instances by class. -/
  instances : OrderedMap TypeId TypeId := ∅
  /-- Instances of classes that are not looked up yet, by lazy type. -/
  lazyInstances : OrderedMap TypeId TypeId := ∅
  /-- Unions by their candidates in increasing order. -/
  unions : OrderedMap (List TypeId) TypeId := ∅

abbrev StoreM (α : Type) := StateM TypeStore α

namespace TypeStore

instance : Inhabited TypeStore := ⟨{}⟩

def form (s : TypeStore) (t : TypeId) : TypeForm := s.types.getD t.index .unknown

def size (s : TypeStore) : Nat := s.types.size

def isUnknown (s : TypeStore) (t : TypeId) : Bool := (s.form t).isUnknown

/-- Whether a type is lazy and not looked up yet. -/
def isPending (s : TypeStore) (t : TypeId) : Bool :=
  match s.form t with
  | .lazy _ (.pending _) => true
  | _ => false

def lazyTarget? (s : TypeStore) (t : TypeId) : Option TypeId :=
  match s.form t with
  | .lazy _ (.resolved target) => some target
  | _ => none

def lazyPath? (s : TypeStore) (t : TypeId) : Option String :=
  match s.form t with
  | .lazy path _ => some path
  | _ => none

def candidates? (s : TypeStore) (t : TypeId) : Option (List TypeId) :=
  match s.form t with
  | .union candidates => some candidates
  | .lazyUnion candidates => some candidates
  | _ => none

/-- Follows at most `fuel` resolved lazy types. -/
def derefWithin (s : TypeStore) : Nat → TypeId → TypeId
  | 0, t => t
  | fuel + 1, t =>
    match s.lazyTarget? t with
    | none => t
    | some target => if target = t then t else derefWithin s fuel target

/-- Follows resolved lazy types down to a type that is not lazy or still pending. -/
def derefLazy (s : TypeStore) (t : TypeId) : TypeId := s.derefWithin s.size t

def slot (s : TypeStore) (id : SlotId) : Slot := s.slots.getD id.index ⟨.unknown, .unknown⟩

/-- What a reference refers to now: the type, or a lazy type that is still pending. -/
def target (s : TypeStore) : TypeRef → TypeId
  | .direct t => t
  | .slot id => (s.slot id).target

/-- Whether a reference waits for nothing. -/
def isResolved (s : TypeStore) : TypeRef → Bool
  | .direct _ => true
  | .slot id => (s.slot id).isResolved

/-- The import path of the lazy type behind a slot. -/
def refPath? (s : TypeStore) : TypeRef → Option String
  | .direct _ => none
  | .slot id => s.lazyPath? (s.slot id).lazy

/-- The lazy type that a reference waits for. -/
def awaited? (s : TypeStore) : TypeRef → Option TypeId
  | .direct _ => none
  | .slot id => if (s.slot id).isResolved then none else some (s.slot id).lazy

/-- The class of an instance, as far as it is known. -/
def classOf? (s : TypeStore) (t : TypeId) : Option TypeId :=
  match s.form t with
  | .object cls => some (s.derefLazy (s.target cls))
  | _ => none

/-- The store with another form for an existing type. -/
def setForm (s : TypeStore) (t : TypeId) (form : TypeForm) : TypeStore :=
  { s with types := s.types.setIfInBounds t.index form }

/-- Adds a type with an identity of its own. -/
def alloc (form : TypeForm) : StoreM TypeId :=
  modifyGet fun s => (⟨s.types.size⟩, { s with types := s.types.push form })

/-- Adds a lazy type that nobody watches yet. -/
def allocLazy (path : String) : StoreM TypeId := alloc (.lazy path (.pending []))

/-- The unknown type that remembers a failed import. -/
def unresolvedImport (path : String) : StoreM TypeId := do
  match (← get).imports.get? path with
  | some t => return t
  | none =>
    let t ← alloc (.unresolvedImport path)
    modify fun s => { s with imports := s.imports.insert path t }
    return t

/-- The store with one more watcher of a pending lazy type, at the end of its list. -/
def addWatcher (s : TypeStore) (t : TypeId) (w : Watcher) : TypeStore :=
  match s.form t with
  | .lazy path (.pending watchers) => s.setForm t (.lazy path (.pending (watchers ++ [w])))
  | _ => s

/-- A reference to a type. For a type that is still pending it is a new slot that watches it. -/
def wrap (t : TypeId) : StoreM TypeRef := do
  let s ← get
  let t := s.derefLazy t
  if s.isPending t then
    let id : SlotId := ⟨s.slots.size⟩
    set ({ s with slots := s.slots.push ⟨t, t⟩ }.addWatcher t (.slot id))
    return .slot id
  else return .direct t

/-- Redirects a slot, which is possible once. -/
def resolveSlot (s : TypeStore) (id : SlotId) (target : TypeId) : Except TypeError TypeStore :=
  let slot := s.slot id
  if slot.isResolved then .error (.alreadyResolved ((s.lazyPath? slot.lazy).getD ""))
  else .ok { s with slots := s.slots.setIfInBounds id.index { slot with target } }

def watch (s : TypeStore) (t : TypeId) (w : Watcher) : Except TypeError TypeStore :=
  match s.form t with
  | .lazy _ (.pending _) => .ok (s.addWatcher t w)
  | .lazy path (.resolved _) => .error (.watchedTooLate path)
  | _ => .error (.notLazy t)

/-- What resolving a lazy type led to. -/
structure Resolution where
  store : TypeStore
  /-- The listeners told of the target, in order. -/
  told : List (String × TypeId) := []
  /-- The first watcher that could not be served. -/
  error? : Option TypeError := none

/-- Tells watchers the target, up to the first that fails. -/
def notify (target : TypeId) : List Watcher → Resolution → Resolution
  | [], r => r
  | .listener tag :: rest, r => notify target rest { r with told := r.told ++ [(tag, target)] }
  | .slot id :: rest, r =>
    match r.store.resolveSlot id target with
    | .ok store => notify target rest { r with store }
    | .error e => { r with error? := some e }

/-- What a lazy type is resolved to when it is asked to stand for `target`: never itself. -/
def lazyGoal (s : TypeStore) (lazy target : TypeId) : TypeId :=
  let target := s.derefLazy target
  if target = lazy then .unknown else target

def resolveLazy (s : TypeStore) (lazy target : TypeId) : Resolution :=
  match s.form lazy with
  | .lazy path (.pending watchers) =>
    let goal := s.lazyGoal lazy target
    notify goal watchers { store := s.setForm lazy (.lazy path (.resolved goal)) }
  | .lazy path (.resolved _) => { store := s, error? := some (.alreadyResolved path) }
  | _ => { store := s, error? := some (.notLazy lazy) }

end TypeStore

end PythonTypes
