/-!
# Dotted names

Modules and their members are named by dotted paths such as `os.path.join`. A name is split at every
dot, so a name always has at least one segment and segments may be empty. `absolute` gives the
module meant by a relative import: one dot is the package itself and each further dot climbs to the
parent package.
-/

set_option autoImplicit false

namespace PythonTypes.DottedName

/-- The runs of characters between dots. -/
def splitChars : List Char → List (List Char)
  | [] => [[]]
  | c :: rest =>
    if c = '.' then [] :: splitChars rest
    else match splitChars rest with
      | [] => [[c]]
      | first :: others => (c :: first) :: others

/-- The segments of a name; the empty name has one empty segment. -/
def segments (name : String) : List String := (splitChars name.toList).map String.ofList

def join : List String → String
  | [] => ""
  | [segment] => segment
  | segment :: rest => segment ++ "." ++ join rest

def head (name : String) : String := (segments name).headD name

def last (name : String) : String := (segments name).getLastD name

/-- The part before the last dot, empty if there is no dot. -/
def parent (name : String) : String := join (segments name).dropLast

/-- The path of `name` inside `scope`; the empty scope adds nothing. -/
def child (scope name : String) : String := if scope = "" then name else scope ++ "." ++ name

/-- Whether `name` lies strictly below `scope`. -/
def isBelow (scope name : String) : Bool := (scope ++ ".").toList.isPrefixOf name.toList

/-- The package reached from `package` by a relative import with `level` dots. -/
def climb (package : String) (level : Nat) : String :=
  if level = 0 ∨ package = "" then ""
  else
    let parts := segments package
    join (parts.take (parts.length - (level - 1)))

/-- The absolute name of the module that an import inside `package` with `level` leading dots refers
to. -/
def absolute (package : String) (level : Nat) (target : Option String) : String :=
  let base := climb package level
  match target with
  | none => base
  | some target => child base target

end PythonTypes.DottedName
