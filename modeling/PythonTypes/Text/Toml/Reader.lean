import PythonTypes.Text.Toml.Scalar

/-!
# Reading TOML text

A document is a sequence of lines: a key and its value, a table header, or nothing, each with an
optional comment. `Document` is what has been read so far: the root table and the path of the table
that the last header opened. Keys have less than `depthLimit` parts, and arrays and inline tables
nest less deep than that.
-/

set_option autoImplicit false

namespace PythonTypes.Toml

/-- The text after an optional comment, up to the end of the line. -/
def skipComment : List Char → Option (List Char)
  | '#' :: rest =>
    match rest.dropWhile isPrintable with
    | [] => some []
    | c :: after => if c = '\n' ∨ c = '\r' then some (c :: after) else none
  | cs => some cs

/-- The text after blanks, comments and line breaks. -/
def skipTrivia : Nat → List Char → Option (List Char)
  | 0, _ => none
  | fuel + 1, cs =>
    match skipComment (skipBlank cs) with
    | none => none
    | some after =>
      match newline? after with
      | some rest => skipTrivia fuel rest
      | none => some after

/-- Characters of a key without quotes. -/
def isBareKeyChar (c : Char) : Bool := c.isAlphanum || c == '_' || c == '-'

def readSimpleKey? (cs : List Char) : Option (String × List Char) :=
  match cs with
  | '"' :: rest => readBasic (cs.length + 1) [] rest
  | '\'' :: rest => readLiteral rest
  | _ =>
    match cs.takeWhile isBareKeyChar with
    | [] => none
    | key => some (String.ofList key, cs.drop key.length)

/-- The number of parts of a key and of levels of values that is too large. -/
def depthLimit : Nat := 80

/-- Reads a dotted key of at most `parts` parts and the blanks around them. -/
def readParts : Nat → List Char → Option (List String × List Char)
  | 0, _ => none
  | parts + 1, cs =>
    match readSimpleKey? (skipBlank cs) with
    | none => none
    | some (key, rest) =>
      match skipBlank rest with
      | '.' :: rest => (readParts parts rest).map fun (path, rest) => (key :: path, rest)
      | rest => some ([key], rest)

/-- Reads a dotted key and the blanks around its parts. -/
def readKey (cs : List Char) : Option (List String × List Char) := readParts (depthLimit - 1) cs

mutual

/-- Reads a value with at most `nesting` levels of arrays and inline tables inside each other. -/
def readValue : Nat → Nat → List Char → Option (Toml × List Char)
  | 0, _, _ => none
  | fuel + 1, nesting, cs =>
    match cs with
    | '"' :: _ => (readString? cs).map fun (s, rest) => (string s, rest)
    | '\'' :: _ => (readString? cs).map fun (s, rest) => (string s, rest)
    | '[' :: rest =>
      if nesting = 0 then none
      else (readItems fuel (nesting - 1) [] rest).map fun (items, rest) => (array items, rest)
    | '\x7b' :: rest =>
      if nesting = 0 then none
      else match skipBlank rest with
        | '\x7d' :: rest => some (inlineTable [], rest)
        | rest =>
          (readPairs fuel (nesting - 1) (table false false []) rest).map fun (entries, rest) =>
            (inlineTable entries, rest)
    | _ => readToken? cs

/-- Reads the items of an array and its closing bracket; a comma may follow the last item. -/
def readItems : Nat → Nat → List Toml → List Char → Option (List Toml × List Char)
  | 0, _, _, _ => none
  | fuel + 1, nesting, acc, cs =>
    match skipTrivia (cs.length + 1) cs with
    | none => none
    | some (']' :: rest) => some (acc.reverse, rest)
    | some cs =>
      match readValue fuel nesting cs with
      | none => none
      | some (item, rest) =>
        match skipTrivia (rest.length + 1) rest with
        | some (',' :: rest) => readItems fuel nesting (item :: acc) rest
        | some (']' :: rest) => some ((item :: acc).reverse, rest)
        | _ => none

/-- Reads the pairs of an inline table and its closing brace. -/
def readPairs : Nat → Nat → Toml → List Char → Option (List (String × Toml) × List Char)
  | 0, _, _, _ => none
  | fuel + 1, nesting, acc, cs =>
    match readKey cs with
    | some (path, '=' :: rest) =>
      match readValue fuel nesting (skipBlank rest) with
      | none => none
      | some (value, rest) =>
        match bindKey path value acc with
        | none => none
        | some acc =>
          match skipBlank rest with
          | ',' :: rest => readPairs fuel nesting acc rest
          | '\x7d' :: rest => acc.entries?.map fun entries => (entries, rest)
          | _ => none
    | _ => none

end

/-- What has been read of a document. -/
structure Document where
  /-- The whole document as a table. -/
  root : Toml := table false false []
  /-- The path of the table that the next keys belong to. -/
  current : List String := []

namespace Document

def addPair (doc : Document) (path : List String) (value : Toml) : Option Document :=
  (descend false (bindKey path value) doc.current doc.root).map fun root => { doc with root }

def addTable (doc : Document) (path : List String) : Option Document :=
  (openTable path doc.root).map fun root => ⟨root, path⟩

def addElement (doc : Document) (path : List String) : Option Document :=
  (openElement path doc.root).map fun root => ⟨root, path⟩

def readLine (doc : Document) (cs : List Char) : Option (Document × List Char) :=
  match cs with
  | [] => some (doc, [])
  | '[' :: '[' :: rest =>
    match readKey rest with
    | some (path, ']' :: ']' :: rest) => (doc.addElement path).map fun doc => (doc, rest)
    | _ => none
  | '[' :: rest =>
    match readKey rest with
    | some (path, ']' :: rest) => (doc.addTable path).map fun doc => (doc, rest)
    | _ => none
  | c :: _ =>
    if c = '#' ∨ c = '\n' ∨ c = '\r' then some (doc, cs)
    else
      match readKey cs with
      | some (path, '=' :: rest) =>
        match readValue (2 * rest.length + 2) (depthLimit - 1) (skipBlank rest) with
        | some (value, rest) => (doc.addPair path value).map fun doc => (doc, rest)
        | none => none
      | _ => none

def readLines : Nat → Document → List Char → Option Document
  | 0, _, _ => none
  | fuel + 1, doc, cs =>
    match doc.readLine (skipBlank cs) with
    | none => none
    | some (doc, rest) =>
      match skipComment (skipBlank rest) with
      | none => none
      | some [] => some doc
      | some rest =>
        match newline? rest with
        | some rest => readLines fuel doc rest
        | none => none

end Document

/-- Reads a document; a byte order mark may open it. -/
def read? (text : String) : Option (List (String × Toml)) :=
  let cs := match text.toList with
    | c :: rest => if c.toNat = 0xFEFF then rest else c :: rest
    | [] => []
  (Document.readLines (cs.length + 1) {} cs).bind fun doc => doc.root.entries?

end PythonTypes.Toml
