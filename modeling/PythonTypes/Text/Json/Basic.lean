/-!
# JSON values

A `Json` value keeps the fields of an object in the order in which they were written, repeated names
included, so that a decoder can tell an object that names a field twice. A number is kept as it was
written: nothing in this library reads a number other than a small whole one.

A text can hold something that is written like a value but stands for none. It is `invalid`, and
only matters to a decoder that looks at it; a value that holds nothing of this kind is sound.
-/

set_option autoImplicit false

namespace PythonTypes

/-- A JSON value. -/
inductive Json where
  | null
  | bool (value : Bool)
  | number (literal : String)
  | string (value : String)
  | array (items : List Json)
  | object (fields : List (String × Json))
  /-- A number that is too large, a string with half a surrogate pair, or what nests too deep. -/
  | invalid
  deriving Inhabited

namespace Json

def ofNat (n : Nat) : Json := number (toString n)

def ofInt (n : Int) : Json := number (toString n)

/-- The value, or `null` if there is none. -/
def ofOption {α : Type} (f : α → Json) : Option α → Json
  | none => null
  | some a => f a

def asString? : Json → Option String
  | string value => some value
  | _ => none

def asBool? : Json → Option Bool
  | bool value => some value
  | _ => none

def asArray? : Json → Option (List Json)
  | array items => some items
  | _ => none

def asObject? : Json → Option (List (String × Json))
  | object fields => some fields
  | _ => none

/-- The value of a field, the last one if it is repeated, and `null` if there is none. -/
def field (name : String) : Json → Json
  | object fields => ((fields.reverse.find? fun f => f.1 == name).map Prod.snd).getD null
  | _ => null

/-- A whole number written without fraction or exponent. -/
def asInt? : Json → Option Int
  | number literal => literal.toInt?
  | _ => none

/-- A whole number written without sign, fraction or exponent. -/
def asNat? : Json → Option Nat
  | number literal => if literal.all Char.isDigit then literal.toNat? else none
  | _ => none

/-- Reads `null` as nothing and any other value with `decode`. -/
def nullable {α : Type} (decode : Json → Option α) : Json → Option (Option α)
  | null => some none
  | j => (decode j).map some

def listOf {α : Type} (decode : Json → Option α) (j : Json) : Option (List α) :=
  j.asArray?.bind fun items => items.mapM decode

/-- Reads an array item by item, and `null` as an empty one. -/
def optionalListOf {α : Type} (decode : Json → Option α) : Json → Option (List α)
  | null => some []
  | j => j.listOf decode

mutual

/-- How many levels of arrays and objects a value nests, counting the value itself. -/
def depth : Json → Nat
  | null => 1
  | bool _ => 1
  | number _ => 1
  | string _ => 1
  | array items => depthItems items + 1
  | object fields => depthFields fields + 1
  | invalid => 1

def depthItems : List Json → Nat
  | [] => 0
  | j :: rest => max (depth j) (depthItems rest)

def depthFields : List (String × Json) → Nat
  | [] => 0
  | (_, j) :: rest => max (depth j) (depthFields rest)

end

mutual

/-- Whether everything in a value stands for something. -/
def isSound : Json → Bool
  | null => true
  | bool _ => true
  | number _ => true
  | string _ => true
  | array items => areSound items
  | object fields => haveSoundValues fields
  | invalid => false

def areSound : List Json → Bool
  | [] => true
  | j :: rest => isSound j && areSound rest

def haveSoundValues : List (String × Json) → Bool
  | [] => true
  | (_, j) :: rest => isSound j && haveSoundValues rest

end

end Json

end PythonTypes
