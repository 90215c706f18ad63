import PythonTypes.Data.OrderedMap
import PythonTypes.Text.Json.Basic

/-!
# Records in JSON

A record with named fields is written as an object. Fields that the record does not have are
ignored, sound or not, but none of its own may be given twice. It may also be written as an array,
which gives the fields by position and may leave out fields at the end.
-/

set_option autoImplicit false

namespace PythonTypes.Json

/-- The fields of a record that knows the fields `known`, as far as they are given. -/
def record? (known : List String) : Json → Option (List (String × Json))
  | object fields =>
    let own := fields.filter fun f => known.contains f.1
    if (own.map Prod.fst).Nodup then some own else none
  | array items => if items.length ≤ known.length then some (known.zip items) else none
  | _ => none

def required {α : Type} (fields : List (String × Json)) (name : String) (decode : Json → Option α) : Option α :=
  (Entries.find? name fields).bind decode

/-- A field that is `default` unless it is given. -/
def defaulted {α : Type} (fields : List (String × Json)) (name : String) (default : α)
    (decode : Json → Option α) : Option α :=
  match Entries.find? name fields with
  | none => some default
  | some j => decode j

/-- A field that may be absent or `null`. -/
def optional {α : Type} (fields : List (String × Json)) (name : String) (decode : Json → Option α) :
    Option (Option α) :=
  defaulted fields name none (nullable decode)

end PythonTypes.Json
