import PythonTypes.Text.Json.Scalar
import PythonTypes.Text.Toml.Basic

/-!
# Strings, numbers and dates of TOML

Numbers and dates are recognised on a whole token, the run of characters up to the next blank or
punctuation. Whole numbers fit in 64 bits with sign, and numbers with a fraction or an exponent are
not so large that double precision rounds them to infinity. Each reader takes the rest of the
document and returns what follows the value.
-/

set_option autoImplicit false

namespace PythonTypes.Toml

def isBlank (c : Char) : Bool := c == ' ' || c == '\t'

/-- The rest of the line from its first character that is no blank. -/
def skipBlank (cs : List Char) : List Char := cs.dropWhile isBlank

/-- Characters that may stand in comments and one-line strings. -/
def isPrintable (c : Char) : Bool := c == '\t' || (0x20 ≤ c.toNat && c.toNat != 0x7f)

/-- The character with the given code, which must not be a surrogate or out of range. -/
def charOfCode? (n : Nat) : Option Char :=
  if h : n.isValidChar then some (Char.ofNatAux n h) else none

/-- The number written by hexadecimal digits. -/
def hexValue? (cs : List Char) : Option Nat :=
  cs.foldlM (fun acc c => (Json.hexDigit? c).map (acc * 16 + ·)) 0

/-- The character written by a backslash and one letter. -/
def unescape? : Char → Option Char
  | 'b' => some (Char.ofNat 8)
  | 't' => some '\t'
  | 'n' => some '\n'
  | 'f' => some (Char.ofNat 12)
  | 'r' => some '\r'
  | '"' => some '"'
  | '\\' => some '\\'
  | _ => none

/-- Reads what follows a backslash: the character it writes and the rest. -/
def readEscape : List Char → Option (Char × List Char)
  | 'u' :: rest =>
    if rest.length < 4 then none
    else ((hexValue? (rest.take 4)).bind charOfCode?).map fun c => (c, rest.drop 4)
  | 'U' :: rest =>
    if rest.length < 8 then none
    else ((hexValue? (rest.take 8)).bind charOfCode?).map fun c => (c, rest.drop 8)
  | c :: rest => (unescape? c).map fun c => (c, rest)
  | [] => none

/-- Reads a one-line string with escapes after its opening quote. -/
def readBasic : Nat → List Char → List Char → Option (String × List Char)
  | 0, _, _ => none
  | _ + 1, _, [] => none
  | fuel + 1, acc, c :: rest =>
    if c = '"' then some (String.ofList acc.reverse, rest)
    else if c = '\\' then
      match readEscape rest with
      | none => none
      | some (c, rest) => readBasic fuel (c :: acc) rest
    else if isPrintable c then readBasic fuel (c :: acc) rest
    else none

/-- Reads a one-line string without escapes after its opening quote. -/
def readLiteral (cs : List Char) : Option (String × List Char) :=
  let body := cs.takeWhile fun c => isPrintable c && c != '\''
  match cs.drop body.length with
  | '\'' :: rest => some (String.ofList body, rest)
  | _ => none

def newline? : List Char → Option (List Char)
  | '\n' :: rest => some rest
  | '\r' :: '\n' :: rest => some rest
  | _ => none

/-- The text after blanks and line breaks. -/
def skipLines : Nat → List Char → List Char
  | 0, cs => cs
  | fuel + 1, cs =>
    match cs with
    | c :: rest =>
      if isBlank c then skipLines fuel rest
      else match newline? cs with
        | some rest => skipLines fuel rest
        | none => cs
    | [] => []

/-- Reads a string of several lines up to its three closing quotes `quote`, one or two of which may
also stand directly before them. `escapes` tells whether a backslash is special. -/
def readLines (quote : Char) (escapes : Bool) : Nat → List Char → List Char → Option (String × List Char)
  | 0, _, _ => none
  | _ + 1, _, [] => none
  | fuel + 1, acc, c :: rest =>
    if c = quote then
      let run := (c :: rest).takeWhile (· == quote)
      if run.length < 3 then readLines quote escapes fuel (c :: acc) rest
      else if run.length ≤ 5 then
        some (String.ofList ((run.drop 3) ++ acc).reverse, (c :: rest).drop run.length)
      else none
    else if escapes && c == '\\' then
      match newline? (skipBlank rest) with
      | some after => readLines quote escapes fuel acc (skipLines after.length after)
      | none =>
        match readEscape rest with
        | none => none
        | some (c, rest) => readLines quote escapes fuel (c :: acc) rest
    else if isPrintable c then readLines quote escapes fuel (c :: acc) rest
    else match newline? (c :: rest) with
      | some after => readLines quote escapes fuel ('\n' :: acc) after
      | none => none

/-- The text of a string of several lines without the line break that may open it. -/
def dropFirstNewline (cs : List Char) : List Char := (newline? cs).getD cs

def readString? (cs : List Char) : Option (String × List Char) :=
  match cs with
  | '"' :: '"' :: '"' :: rest => readLines '"' true (cs.length + 1) [] (dropFirstNewline rest)
  | '\'' :: '\'' :: '\'' :: rest => readLines '\'' false (cs.length + 1) [] (dropFirstNewline rest)
  | '"' :: rest => readBasic (cs.length + 1) [] rest
  | '\'' :: rest => readLiteral rest
  | _ => none

/-- Splits a list at every occurrence of a character. -/
def splitAt (c : Char) : List Char → List (List Char)
  | [] => [[]]
  | d :: rest =>
    if d = c then [] :: splitAt c rest
    else match splitAt c rest with
      | [] => [[d]]
      | first :: others => (d :: first) :: others

/-- Digits with single underscores between them. -/
def isDigitRun (isDigit : Char → Bool) (cs : List Char) : Bool :=
  (splitAt '_' cs).all fun piece => !piece.isEmpty && piece.all isDigit

/-- Decimal digits without a leading zero. -/
def isDecimal (cs : List Char) : Bool :=
  isDigitRun Char.isDigit cs && (cs.length == 1 || cs.head? != some '0')

/-- The number written by digits of a base, ignoring underscores. -/
def digitsValue (base : Nat) (cs : List Char) : Nat :=
  cs.foldl (fun acc c => match Json.hexDigit? c with | some d => acc * base + d | none => acc) 0

/-- The sign of a number and the rest of its token. -/
def splitSign : List Char → Int × Bool × List Char
  | '+' :: rest => (1, true, rest)
  | '-' :: rest => (-1, true, rest)
  | cs => (1, false, cs)

/-- A whole number that fits in 64 bits. -/
def ofSigned? (n : Int) : Option Int :=
  if -9223372036854775808 ≤ n ∧ n ≤ 9223372036854775807 then some n else none

/-- Whether a character is a digit of the base named by a letter after a leading zero. -/
def baseDigit (base : Nat) (c : Char) : Bool :=
  match Json.hexDigit? c with
  | some d => d < base
  | none => false

def integer? (token : List Char) : Option Int :=
  let based (base : Nat) (digits : List Char) :=
    if isDigitRun (baseDigit base) digits then ofSigned? (digitsValue base digits) else none
  match token with
  | '0' :: 'x' :: digits => based 16 digits
  | '0' :: 'o' :: digits => based 8 digits
  | '0' :: 'b' :: digits => based 2 digits
  | _ =>
    let (sign, _, digits) := splitSign token
    if isDecimal digits then ofSigned? (sign * digitsValue 10 digits) else none

/-- Whether a text is an optional sign and digits. -/
def isExponent (cs : List Char) : Bool := isDigitRun Char.isDigit (splitSign cs).2.2

/-- Whether a token is a number with a fraction or an exponent, or one of the special numbers. -/
def isFloat (token : List Char) : Bool :=
  let body := (splitSign token).2.2
  let mantissa := body.takeWhile fun c => c != 'e' && c != 'E'
  let exponent := body.drop mantissa.length
  let isExponentPart := exponent.isEmpty || isExponent exponent.tail
  body == "inf".toList || body == "nan".toList ||
    (isExponentPart &&
      match splitAt '.' mantissa with
      | [whole] => isDecimal whole && !exponent.isEmpty
      | [whole, fraction] => isDecimal whole && isDigitRun Char.isDigit fraction
      | _ => false)

/-- Whether a number with a fraction or an exponent is rounded to infinity in double precision. -/
def isTooLarge (token : List Char) : Bool :=
  match token with
  | '-' :: _ => false
  | _ =>
    let digits := (splitSign token).2.2.filter (· != '_')
    let mantissa := digits.takeWhile fun c => c != 'e' && c != 'E'
    let whole := mantissa.takeWhile (· != '.')
    let fraction := mantissa.drop (whole.length + 1)
    let (sign, _, exponent) := splitSign (digits.drop (mantissa.length + 1))
    let number : Decimal := {
      significand := Decimal.appendDigits 0 (whole ++ fraction)
      exponent := sign * Decimal.appendDigits 0 exponent - fraction.length }
    whole.all Char.isDigit && number.exceedsDouble

/-- The number written by exactly `width` decimal digits. -/
def field? (width : Nat) (cs : List Char) : Option Nat :=
  if cs.length == width && cs.all Char.isDigit then some (digitsValue 10 cs) else none

def daysIn (year month : Nat) : Nat :=
  if month == 2 then
    if year % 4 == 0 && (year % 100 != 0 || year % 400 == 0) then 29 else 28
  else if month == 4 || month == 6 || month == 9 || month == 11 then 30
  else 31

/-- Whether a text is a calendar date. -/
def isDate (cs : List Char) : Bool :=
  match splitAt '-' cs with
  | [y, m, d] =>
    match field? 4 y, field? 2 m, field? 2 d with
    | some y, some m, some d => 1 ≤ m && m ≤ 12 && 1 ≤ d && d ≤ daysIn y m
    | _, _, _ => false
  | _ => false

def isTime (cs : List Char) : Bool :=
  match splitAt ':' cs with
  | [h, m, s] =>
    let whole := s.takeWhile (· != '.')
    let fraction := s.drop whole.length
    (fraction.isEmpty || (fraction.length ≥ 2 && fraction.tail.all Char.isDigit)) &&
      match field? 2 h, field? 2 m, field? 2 whole with
      | some h, some m, some s => h ≤ 23 && m ≤ 59 && s ≤ 60
      | _, _, _ => false
  | _ => false

/-- Whether a text is a distance from universal time. -/
def isOffset : List Char → Bool
  | ['Z'] => true
  | ['z'] => true
  | c :: rest =>
    (c == '+' || c == '-') &&
      match splitAt ':' rest with
      | [h, m] =>
        match field? 2 h, field? 2 m with
        | some h, some m => h ≤ 23 && m ≤ 59
        | _, _ => false
      | _ => false
  | [] => false

/-- Whether a text is a time of day with an optional offset. -/
def isOffsetTime (cs : List Char) : Bool :=
  let time := cs.takeWhile fun c => c.isDigit || c == ':' || c == '.'
  let offset := cs.drop time.length
  isTime time && (offset.isEmpty || isOffset offset)

/-- Whether a text is a date, a time, or both with a mark between them. -/
def isDateTime (cs : List Char) : Bool :=
  isDate cs || isTime cs ||
    (isDate (cs.take 10) &&
      match cs.drop 10 with
      | mark :: time => (mark == 'T' || mark == 't' || mark == ' ') && isOffsetTime time
      | [] => false)

/-- Characters of the token of a number, date or word. -/
def isTokenChar (c : Char) : Bool :=
  c.isAlphanum || c == '+' || c == '-' || c == '_' || c == '.' || c == ':'

/-- Whether a time of day follows a blank, so that it belongs to the date before it. -/
def timeFollows : List Char → Bool
  | ' ' :: a :: b :: ':' :: _ => a.isDigit && b.isDigit
  | _ => false

def readToken? (cs : List Char) : Option (Toml × List Char) :=
  let token := cs.takeWhile isTokenChar
  let rest := cs.drop token.length
  if isDate token && timeFollows rest then
    let time := rest.tail.takeWhile isTokenChar
    let both := token ++ ' ' :: time
    if isDateTime both then some (date (String.ofList both), rest.tail.drop time.length) else none
  else if token == "true".toList then some (boolean true, rest)
  else if token == "false".toList then some (boolean false, rest)
  else if isDateTime token then some (date (String.ofList token), rest)
  else if isFloat token then if isTooLarge token then none else some (float (String.ofList token), rest)
  else (integer? token).map fun n => (integer n, rest)

end PythonTypes.Toml
