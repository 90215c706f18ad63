import PythonTypes.Tree.Stmt
import PythonTypes.Types.Union

/-!
# Types at a program point

A `TypeState` gives the types of the variables that are bound at a point of the program. States form
a lattice: a variable that is not bound is at the bottom, and an unknown one at the top. `join`
unites the types of each variable.
-/

set_option autoImplicit false

namespace PythonTypes

/-- The types of the variables that are bound. -/
structure TypeState where
  types : OrderedMap SymbolId TypeId := ∅

namespace TypeState

instance : Inhabited TypeState := ⟨{}⟩

/-- The state in which nothing is bound. -/
def bottom : TypeState := {}

def get? (s : TypeState) (symbol : SymbolId) : Option TypeId := s.types.get? symbol

def set (s : TypeState) (symbol : SymbolId) (t : TypeId) : TypeState := { types := s.types.insert symbol t }

/-- Number of variables that are bound. -/
def size (s : TypeState) : Nat := s.types.size

/-- The state that binds each pair in turn. -/
def ofList (pairs : List (SymbolId × TypeId)) : TypeState := { types := .ofList pairs }

/-- Two states are equal when they give the same types, in whatever order. -/
instance : BEq TypeState := ⟨fun s t => s.types.sameBindings t.types⟩

/-- Adds what one variable is elsewhere. -/
def joinOne (s : TypeState) (symbol : SymbolId) (t : TypeId) : StoreM TypeState := do
  match s.get? symbol with
  | some old => return s.set symbol (← TypeStore.union old t)
  | none => return s.set symbol t

def join (s t : TypeState) : StoreM TypeState :=
  t.types.entries.foldlM (fun s (symbol, type) => s.joinOne symbol type) s

/-- The least state above several states. -/
def joinAll (states : List TypeState) : StoreM TypeState := states.foldlM join bottom

/-- Whether a state says at least as much as another: what it binds, the other binds to a type that
covers it. -/
def isBelow (store : TypeStore) (s t : TypeState) : Bool :=
  s.types.entries.all fun (symbol, type) =>
    match t.get? symbol with
    | some whole => whole == .unknown || store.covers whole type
    | none => false

end TypeState

end PythonTypes
