import PythonTypes.Types.Store

/-!
# Instances and unions

`instanceOf` gives the instances of a class, `unionOf` the union of several types and `canonical`
what a type stands for once its lazy parts are resolved. They call each other: an instance of a
union is the union of the instances, and a union is formed from canonical candidates. Unions are
flat, without repetitions, and interned by their set of candidates; unknown absorbs every other
candidate.

The recursion is bounded by its depth. The functions whose names end in `At` take the depth that is
left and give up with `none` when there is none; the others start with a depth,
`TypeStore.depthBound`, that exceeds what any chain of unions and resolved lazy types of the store
can use.
-/

set_option autoImplicit false

namespace PythonTypes

/-- Actions on a store that give up when they would go too deep. -/
abbrev DeepM (α : Type) := StateT TypeStore Option α

instance : MonadLift (StateM TypeStore) (StateT TypeStore Option) := ⟨fun action s => some (action s)⟩

namespace TypeStore

def tooDeep {α : Type} : DeepM α := fun _ => none

def internUnion (candidates : List TypeId) : StoreM TypeId := do
  match candidates with
  | [] => return .unknown
  | [t] => return t
  | _ =>
    let s ← get
    let key := candidates.mergeSort fun a b => a.index ≤ b.index
    match s.unions.get? key with
    | some t => return t
    | none =>
      let t ← alloc (if candidates.any s.isPending then .lazyUnion candidates else .union candidates)
      modify fun s => { s with unions := s.unions.insert key t }
      return t

/-- Interns the instance of a class that is not looked up yet. -/
def internLazyInstance (lazy : TypeId) (cls : TypeRef) : StoreM TypeId := do
  match (← get).lazyInstances.get? lazy with
  | some t => return t
  | none =>
    let t ← alloc (.object cls)
    modify fun s => { s with lazyInstances := s.lazyInstances.insert lazy t }
    return t

def internInstance (cls : TypeId) : StoreM TypeId := do
  match (← get).instances.get? cls with
  | some t => return t
  | none =>
    let t ← alloc (.object (.direct cls))
    modify fun s => { s with instances := s.instances.insert cls t }
    return t

/-- The instances of a class, with the recursive calls given. -/
def instanceStep (instanceOf : TypeRef → DeepM TypeId) (unionOf : List TypeId → DeepM TypeId)
    (cls : TypeRef) : DeepM TypeId := do
  let s ← get
  match s.awaited? cls with
  | some lazy => internLazyInstance lazy cls
  | none =>
    let t := s.derefLazy (s.target cls)
    match s.form t with
    | .unknown => return .unknown
    | .unresolvedImport _ => return .unknown
    | .union candidates => do
      let instances ← candidates.mapM fun c => instanceOf (.direct c)
      unionOf instances
    | .lazy _ _ => do
      let cls ← wrap t
      instanceOf cls
    | _ => internInstance t

/-- What a type stands for, with the recursive calls given. -/
def canonicalStep (instanceOf : TypeRef → DeepM TypeId) (unionOf : List TypeId → DeepM TypeId)
    (t : TypeId) : DeepM TypeId := do
  let s ← get
  let t := s.derefLazy t
  match s.form t with
  | .object (.slot id) =>
    if s.isResolved (.slot id) then instanceOf (.direct (s.target (.slot id))) else return t
  | .lazyUnion candidates =>
    if candidates.any fun c => s.isPending (s.derefLazy c) then return t else unionOf candidates
  | _ => return t

/-- Adds the candidates that types contribute to a union to those in `acc`, with the recursive calls
given; `none` as soon as one of them is unknown. -/
def flattenStep (canonical : TypeId → DeepM TypeId)
    (flatten : List TypeId → List TypeId → DeepM (Option (List TypeId))) :
    List TypeId → List TypeId → DeepM (Option (List TypeId))
  | [], acc => return some acc
  | t :: rest, acc => do
    let t ← canonical t
    match (← get).form t with
    | .unknown => return none
    | .unresolvedImport _ => return none
    | .union candidates => do
      match ← flatten candidates acc with
      | none => return none
      | some acc => flattenStep canonical flatten rest acc
    | .lazyUnion candidates => do
      match ← flatten candidates acc with
      | none => return none
      | some acc => flattenStep canonical flatten rest acc
    | _ => flattenStep canonical flatten rest (if acc.contains t then acc else acc ++ [t])

mutual

def instanceOfAt : Nat → TypeRef → DeepM TypeId
  | 0, _ => tooDeep
  | depth + 1, cls => instanceStep (instanceOfAt depth) (unionOfAt depth) cls

def canonicalAt : Nat → TypeId → DeepM TypeId
  | 0, _ => tooDeep
  | depth + 1, t => canonicalStep (instanceOfAt depth) (unionOfAt depth) t

/-- The candidates that types contribute to a union. -/
def flattenAt : Nat → List TypeId → List TypeId → DeepM (Option (List TypeId))
  | 0, _, _ => tooDeep
  | depth + 1, ts, acc => flattenStep (canonicalAt depth) (flattenAt depth) ts acc

def unionOfAt : Nat → List TypeId → DeepM TypeId
  | 0, _ => tooDeep
  | depth + 1, ts => do
    match ← flattenAt depth ts [] with
    | none => return .unknown
    | some candidates => internUnion candidates

end

/-- A depth that the recursion over the types of a store does not use up. -/
def depthBound (s : TypeStore) : Nat := 8 * (s.size + 1)

/-- Runs an action with enough depth; should it give up, the store stays and the answer is
`default`. -/
def within {α : Type} (default : α) (action : Nat → DeepM α) : StoreM α := fun s =>
  (action s.depthBound s).getD (default, s)

/-- The instances of a class: unknown for an unknown class, a union for a union. -/
def instanceOf (cls : TypeRef) : StoreM TypeId := within .unknown (instanceOfAt · cls)

/-- What a type stands for once the lazy types that it was built from are resolved. -/
def canonical (t : TypeId) : StoreM TypeId := within t (canonicalAt · t)

/-- The union of types: unknown if one of them is unknown or there are none. -/
def unionOf (ts : List TypeId) : StoreM TypeId := within .unknown (unionOfAt · ts)

def union (left right : TypeId) : StoreM TypeId := if left = right then pure left else unionOf [left, right]

/-- Whether `whole` covers `part`: they are equal, or `whole` is a union with every candidate of
`part`. -/
def covers (s : TypeStore) (whole part : TypeId) : Bool :=
  whole == part ||
    match s.candidates? whole with
    | none => false
    | some candidates =>
      match s.candidates? part with
      | some parts => parts.all candidates.contains
      | none => candidates.contains part

end TypeStore

end PythonTypes
