/-!
# TOML documents as values

A TOML document is a table. While it is read, a table remembers how it came to be, because that
decides whether later lines may still extend it: tables that only occur on the way to another one
are `implicit`, and tables opened by a dotted key are `dotted`. `descend` follows a path of keys
under these rules.
-/

set_option autoImplicit false

namespace PythonTypes

/-- A TOML value. Numbers with a fraction and dates are kept as written. -/
inductive Toml where
  | string (value : String)
  | integer (value : Int)
  | float (literal : String)
  | boolean (value : Bool)
  | date (literal : String)
  | array (items : List Toml)
  | inlineTable (entries : List (String × Toml))
  | table (implicit dotted : Bool) (entries : List (String × Toml))
  | tables (elements : List Toml)
  deriving Inhabited

namespace Toml

def find? (key : String) : List (String × Toml) → Option Toml
  | [] => none
  | (k, v) :: rest => if k = key then some v else find? key rest

/-- Binds a key, in place if it is bound already. -/
def put (key : String) (value : Toml) : List (String × Toml) → List (String × Toml)
  | [] => [(key, value)]
  | (k, v) :: rest => if k = key then (key, value) :: rest else (k, v) :: put key value rest

def entries? : Toml → Option (List (String × Toml))
  | inlineTable entries => some entries
  | table _ _ entries => some entries
  | _ => none

/-- Applies `f` to the table that stands for a bound value on the way along a path: the value
itself, or the newest element of an array of tables. A path of dotted keys only passes through
implicit tables. -/
def through (dotted : Bool) (f : Toml → Option Toml) : Toml → Option Toml
  | table implicit d entries => if dotted && !implicit then none else f (table implicit d entries)
  | tables elements =>
    match elements.getLast? with
    | none => none
    | some element => (f element).map fun element => tables (elements.dropLast ++ [element])
  | _ => none

/-- Applies `f` to the table at the end of `path` below `node`, making the tables that are
missing. -/
def descend (dotted : Bool) (f : Toml → Option Toml) : List String → Toml → Option Toml
  | [], node => f node
  | key :: path, table implicit d entries =>
    let child := (find? key entries).getD (table true dotted [])
    (through dotted (descend dotted f path) child).map fun child => table implicit d (put key child entries)
  | _ :: _, _ => none

/-- Binds the last key of a dotted path in a table. No key is bound twice, and the keys of a dotted
path only extend tables that were opened by dotted keys. -/
def bindKey (path : List String) (value : Toml) : Toml → Option Toml :=
  descend true
    (fun
      | table implicit dotted entries =>
        match path.getLast? with
        | none => none
        | some key =>
          if dotted == path.dropLast.isEmpty || (find? key entries).isSome then none
          else some (table implicit dotted (entries ++ [(key, value)]))
      | _ => none)
    path.dropLast

/-- Opens the table of a `[path]` header. -/
def openTable (path : List String) : Toml → Option Toml :=
  descend false
    (fun
      | table implicit dotted entries =>
        match path.getLast? with
        | none => none
        | some key =>
          match find? key entries with
          | none => some (table implicit dotted (put key (table false false []) entries))
          | some (table true false inner) => some (table implicit dotted (put key (table false false inner) entries))
          | some _ => none
      | _ => none)
    path.dropLast

/-- Opens a new element of the array of tables of a `[[path]]` header. -/
def openElement (path : List String) : Toml → Option Toml :=
  descend false
    (fun
      | table implicit dotted entries =>
        match path.getLast? with
        | none => none
        | some key =>
          match find? key entries with
          | none => some (table implicit dotted (put key (tables [table false false []]) entries))
          | some (tables elements) =>
            some (table implicit dotted (put key (tables (elements ++ [table false false []])) entries))
          | some _ => none
      | _ => none)
    path.dropLast

end Toml

end PythonTypes
