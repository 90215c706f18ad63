import PythonTypes.Text.Json.Basic

/-!
# Writing JSON text

Values are written without blanks; fields stay in order. Quotes, backslashes and control characters
of a string are escaped and every other character stands for itself. What is `invalid` has no text
of its own and is written as `null`.
-/

set_option autoImplicit false

namespace PythonTypes.Json

/-- The lower-case hexadecimal digit of a number below sixteen. -/
def hexDigit (n : Nat) : Char := if n < 10 then Char.ofNat ('0'.toNat + n) else Char.ofNat ('a'.toNat + (n - 10))

/-- Appends a character as it is written inside a string. -/
def writeChar (out : String) (c : Char) : String :=
  if c = '"' then out ++ "\\\""
  else if c = '\\' then out ++ "\\\\"
  else if c.toNat < 0x20 then
    ((out ++ "\\u00").push (hexDigit (c.toNat / 16))).push (hexDigit (c.toNat % 16))
  else out.push c

def writeString (out s : String) : String := (s.toList.foldl writeChar (out.push '"')).push '"'

mutual

def write (out : String) : Json → String
  | null => out ++ "null"
  | bool true => out ++ "true"
  | bool false => out ++ "false"
  | number literal => out ++ literal
  | string s => writeString out s
  | array items => (writeItems (out.push '[') true items).push ']'
  | object fields => (writeFields (out.push '\x7b') true fields).push '\x7d'
  | invalid => out ++ "null"

/-- Appends items, with a comma before each but the first. -/
def writeItems (out : String) (first : Bool) : List Json → String
  | [] => out
  | item :: rest => writeItems (write (if first then out else out.push ',') item) false rest

/-- Appends fields, with a comma before each but the first. -/
def writeFields (out : String) (first : Bool) : List (String × Json) → String
  | [] => out
  | (name, value) :: rest =>
    writeFields (write ((writeString (if first then out else out.push ',') name).push ':') value) false rest

end

def render (j : Json) : String := write "" j

end PythonTypes.Json
