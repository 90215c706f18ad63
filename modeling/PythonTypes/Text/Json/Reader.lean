import PythonTypes.Text.Json.Scalar

/-!
# Reading JSON text

The reader is strict: one value and nothing after it, no trailing comma and no raw control character
in a string. A caller bounds how deeply arrays and objects may nest; what nests deeper is passed
over and read as `invalid`, like an object whose field names do not all stand for texts.
-/

set_option autoImplicit false

namespace PythonTypes.Json

/-- The brackets around the items of an array and the fields of an object. -/
inductive Bracket where
  | square
  | curly
  deriving DecidableEq, Repr

/-- What has to come next in a text. -/
inductive Awaited where
  | value
  /-- The name of a field. -/
  | name
  /-- A comma or a closing bracket. -/
  | separator
  deriving DecidableEq, Repr

/-- Passes over a value and returns what follows it; `opened` are the brackets that are
still open. -/
def skip : Nat → Awaited → List Bracket → List Char → Option (List Char)
  | 0, _, _, _ => none
  | fuel + 1, .value, opened, cs =>
    match skipBlank cs with
    | '[' :: rest =>
      match skipBlank rest with
      | ']' :: rest => skip fuel .separator opened rest
      | rest => skip fuel .value (.square :: opened) rest
    | '\x7b' :: rest =>
      match skipBlank rest with
      | '\x7d' :: rest => skip fuel .separator opened rest
      | rest => skip fuel .name (.curly :: opened) rest
    | rest =>
      match readScalar rest with
      | none => none
      | some (_, rest) => skip fuel .separator opened rest
  | fuel + 1, .name, opened, cs =>
    match skipBlank cs with
    | '"' :: rest =>
      match readString {} rest with
      | none => none
      | some (_, rest) =>
        match skipBlank rest with
        | ':' :: rest => skip fuel .value opened rest
        | _ => none
    | _ => none
  | _ + 1, .separator, [], cs => some cs
  | fuel + 1, .separator, .square :: outer, cs =>
    match skipBlank cs with
    | ',' :: rest => skip fuel .value (.square :: outer) rest
    | ']' :: rest => skip fuel .separator outer rest
    | _ => none
  | fuel + 1, .separator, .curly :: outer, cs =>
    match skipBlank cs with
    | ',' :: rest => skip fuel .name (.curly :: outer) rest
    | '\x7d' :: rest => skip fuel .separator outer rest
    | _ => none

/-- Passes over a value that nests too deep. -/
def readTooDeep (fuel : Nat) (cs : List Char) : Option (Json × List Char) :=
  (skip fuel .value [] cs).map fun rest => (invalid, rest)

/-- Adds a field to the fields of an object, unless one of the names stands for no text. -/
def addField (name : Option String) (value : Json) (fields : Option (List (String × Json))) :
    Option (List (String × Json)) :=
  match name, fields with
  | some name, some fields => some ((name, value) :: fields)
  | _, _ => none

/-- The object with the given fields, last first. -/
def ofReversed : Option (List (String × Json)) → Json
  | some fields => object fields.reverse
  | none => invalid

mutual

/-- Reads one value, with at most `nesting` levels of arrays and objects inside each other. -/
def readValue : Nat → Nat → List Char → Option (Json × List Char)
  | 0, _, _ => none
  | fuel + 1, nesting, cs =>
    match skipBlank cs with
    | '[' :: rest =>
      if nesting = 0 then readTooDeep fuel ('[' :: rest)
      else match skipBlank rest with
        | ']' :: rest => some (array [], rest)
        | rest => readItems fuel (nesting - 1) [] rest
    | '\x7b' :: rest =>
      if nesting = 0 then readTooDeep fuel ('\x7b' :: rest)
      else match skipBlank rest with
        | '\x7d' :: rest => some (object [], rest)
        | rest => readFields fuel (nesting - 1) (some []) rest
    | rest => readScalar rest

/-- Reads the items of an array and its closing bracket; `acc` are the items read so far, last
first. -/
def readItems : Nat → Nat → List Json → List Char → Option (Json × List Char)
  | 0, _, _, _ => none
  | fuel + 1, nesting, acc, cs =>
    match readValue fuel nesting cs with
    | none => none
    | some (item, rest) =>
      match skipBlank rest with
      | ',' :: rest => readItems fuel nesting (item :: acc) rest
      | ']' :: rest => some (array (item :: acc).reverse, rest)
      | _ => none

/-- Reads the fields of an object and its closing brace; `acc` are the fields read so far, last
first. -/
def readFields : Nat → Nat → Option (List (String × Json)) → List Char → Option (Json × List Char)
  | 0, _, _, _ => none
  | fuel + 1, nesting, acc, cs =>
    match skipBlank cs with
    | '"' :: rest =>
      match readString {} rest with
      | none => none
      | some (name, rest) =>
        match skipBlank rest with
        | ':' :: rest =>
          match readValue fuel nesting rest with
          | none => none
          | some (value, rest) =>
            match skipBlank rest with
            | ',' :: rest => readFields fuel nesting (addField name value acc) rest
            | '\x7d' :: rest => some (ofReversed (addField name value acc), rest)
            | _ => none
        | _ => none
    | _ => none

end

/-- Reads a text that holds one value. What nests deeper than `nesting` levels is `invalid`. -/
def read? (nesting : Nat) (text : String) : Option Json :=
  let cs := text.toList
  match readValue (2 * cs.length + 2) nesting cs with
  | some (value, rest) => if (skipBlank rest).isEmpty then some value else none
  | none => none

/-- How deeply the documents that this library reads may nest. -/
def documentNesting : Nat := 127

def document? (text : String) : Option Json := read? documentNesting text

end PythonTypes.Json
