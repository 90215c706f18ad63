import PythonTypes.Text.Decimal
import PythonTypes.Text.Json.Basic

/-!
# Strings and numbers of JSON

Each reader takes the rest of a text and returns what follows the value. A string may be written
correctly and still stand for no text, if one of its `\u` escapes is half of a surrogate pair
without the other half; a number may be too large. Both are read as `invalid`.
-/

set_option autoImplicit false

namespace PythonTypes.Json

/-- The blanks that may stand between tokens. -/
def isBlank (c : Char) : Bool := c == ' ' || c == '\n' || c == '\t' || c == '\r'

/-- The text from its first character that is no blank. -/
def skipBlank (cs : List Char) : List Char := cs.dropWhile isBlank

def hexDigit? (c : Char) : Option Nat :=
  if '0' ≤ c ∧ c ≤ '9' then some (c.toNat - '0'.toNat)
  else if 'a' ≤ c ∧ c ≤ 'f' then some (c.toNat - 'a'.toNat + 10)
  else if 'A' ≤ c ∧ c ≤ 'F' then some (c.toNat - 'A'.toNat + 10)
  else none

/-- The value of four hexadecimal digits. -/
def hexUnit? (a b c d : Char) : Option Nat := do
  let a ← hexDigit? a
  let b ← hexDigit? b
  let c ← hexDigit? c
  let d ← hexDigit? d
  return ((a * 16 + b) * 16 + c) * 16 + d

/-- Whether a code unit opens a surrogate pair. -/
def isHighSurrogate (u : Nat) : Bool := 0xD800 ≤ u && u < 0xDC00

/-- Whether a code unit closes a surrogate pair. -/
def isLowSurrogate (u : Nat) : Bool := 0xDC00 ≤ u && u < 0xE000

/-- The character written by a backslash and one letter. -/
def unescape? : Char → Option Char
  | '"' => some '"'
  | '\\' => some '\\'
  | '/' => some '/'
  | 'b' => some (Char.ofNat 8)
  | 'f' => some (Char.ofNat 12)
  | 'n' => some '\n'
  | 'r' => some '\r'
  | 't' => some '\t'
  | _ => none

/-- A string that is being read. -/
structure StringDraft where
  /-- The characters so far, last first. -/
  chars : List Char := []
  /-- The first half of a surrogate pair, if it has just been read. -/
  high : Option Nat := none
  /-- Whether every other half of a pair has found its partner. -/
  sound : Bool := true

namespace StringDraft

def addChar (d : StringDraft) (c : Char) : StringDraft :=
  { chars := c :: d.chars, sound := d.sound && d.high.isNone }

/-- Adds a code unit, which may be half of a surrogate pair. -/
def addUnit (d : StringDraft) (u : Nat) : StringDraft :=
  if isHighSurrogate u then { d with high := some u, sound := d.sound && d.high.isNone }
  else if isLowSurrogate u then
    match d.high with
    | some high =>
      let c := Char.ofNat (0x10000 + (high - 0xD800) * 0x400 + (u - 0xDC00))
      { d with chars := c :: d.chars, high := none }
    | none => { d with sound := false }
  else d.addChar (Char.ofNat u)

/-- The text of a string that has been read, if it stands for one. -/
def text? (d : StringDraft) : Option String :=
  if d.sound && d.high.isNone then some (String.ofList d.chars.reverse) else none

end StringDraft

/-- Reads a string after its opening quote, or what is left of it. -/
def readString (d : StringDraft) : List Char → Option (Option String × List Char)
  | [] => none
  | '"' :: rest => some (d.text?, rest)
  | '\\' :: 'u' :: a :: b :: c :: e :: rest =>
    match hexUnit? a b c e with
    | none => none
    | some u => readString (d.addUnit u) rest
  | '\\' :: c :: rest =>
    match unescape? c with
    | none => none
    | some c => readString (d.addChar c) rest
  | c :: rest => if c.toNat < 0x20 then none else readString (d.addChar c) rest

/-- Splits off a non-empty run of decimal digits. -/
def readDigits (cs : List Char) : Option (List Char × List Char) :=
  match cs.takeWhile Char.isDigit with
  | [] => none
  | digits => some (digits, cs.dropWhile Char.isDigit)

/-- Reads the whole part of a number, which has no leading zero unless it is zero. -/
def readWhole : List Char → Option (List Char × List Char)
  | '0' :: rest => some (['0'], rest)
  | cs => readDigits cs

/-- Reads the digits of the fraction of a number, if there is one. -/
def readFraction : List Char → Option (List Char × List Char)
  | '.' :: rest => readDigits rest
  | cs => some ([], cs)

/-- Reads the exponent of a number, as it is written and as a number, which is zero if nothing is
written. -/
def readExponent : List Char → Option ((List Char × Int) × List Char)
  | c :: rest =>
    if c = 'e' ∨ c = 'E' then
      match rest with
      | '-' :: rest =>
        (readDigits rest).map fun (digits, rest) => ((c :: '-' :: digits, -(Decimal.appendDigits 0 digits : Int)), rest)
      | '+' :: rest =>
        (readDigits rest).map fun (digits, rest) => ((c :: '+' :: digits, (Decimal.appendDigits 0 digits : Int)), rest)
      | rest => (readDigits rest).map fun (digits, rest) => ((c :: digits, (Decimal.appendDigits 0 digits : Int)), rest)
    else some (([], 0), c :: rest)
  | [] => some (([], 0), [])

/-- Appends digits to a significand as long as it fits in 64 bits, and counts them on from
`taken`. -/
def appendFitting : Nat → Nat → List Char → Nat × Nat
  | n, taken, [] => (n, taken)
  | n, taken, c :: rest =>
    let next := Decimal.appendDigits n [c]
    if next < Nat.pow 2 64 then appendFitting next (taken + 1) rest else (n, taken)

/-- The decimal that a number is read as: digits that no longer fit in the significand are
dropped. -/
def decimalOf (whole fraction : List Char) (exponent : Int) : Decimal :=
  let (significand, taken) := appendFitting 0 0 whole
  let (significand, taken) := appendFitting significand taken fraction
  { significand, exponent := (whole.length : Int) - taken + exponent }

def readNumber (cs : List Char) : Option (Json × List Char) := do
  let (sign, rest) := match cs with
    | '-' :: rest => (['-'], rest)
    | cs => ([], cs)
  let (whole, rest) ← readWhole rest
  let (fraction, rest) ← readFraction rest
  let ((exponent, power), rest) ← readExponent rest
  if (decimalOf whole fraction power).productExceedsDouble then return (invalid, rest)
  else
    let point := if fraction.isEmpty then [] else ['.']
    return (number (String.ofList (sign ++ whole ++ point ++ fraction ++ exponent)), rest)

/-- Reads a value that is neither an array nor an object. -/
def readScalar : List Char → Option (Json × List Char)
  | 'n' :: 'u' :: 'l' :: 'l' :: rest => some (null, rest)
  | 't' :: 'r' :: 'u' :: 'e' :: rest => some (bool true, rest)
  | 'f' :: 'a' :: 'l' :: 's' :: 'e' :: rest => some (bool false, rest)
  | '"' :: rest =>
    (readString {} rest).map fun
      | (some s, rest) => (string s, rest)
      | (none, rest) => (invalid, rest)
  | cs => readNumber cs

end PythonTypes.Json
