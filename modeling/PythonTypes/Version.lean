import PythonTypes.Text.Json.Basic

/-!
# Python versions

The language versions that a stub symbol can be restricted to, and sets of them. A set is its
membership test; its members are listed from the oldest version to the newest.
-/

set_option autoImplicit false

namespace PythonTypes

/-- A supported version of the Python language. -/
inductive Version where
  | v38
  | v39
  | v310
  | v311
  | v312
  | v313
  deriving DecidableEq, Repr, Inhabited

namespace Version

/-- Every supported version, oldest first. -/
def all : List Version := [v38, v39, v310, v311, v312, v313]

def text : Version → String
  | v38 => "3.8"
  | v39 => "3.9"
  | v310 => "3.10"
  | v311 => "3.11"
  | v312 => "3.12"
  | v313 => "3.13"

def ofText? (s : String) : Option Version := all.find? fun v => v.text == s

/-- Reads a version, written as its text or as an object that binds its text to `null`. -/
def ofJson? : Json → Option Version
  | .string s => ofText? s
  | .object [(s, .null)] => ofText? s
  | _ => none

end Version

/-- A set of versions. -/
structure VersionSet where
  /-- Whether a version belongs to the set. -/
  contains : Version → Bool

namespace VersionSet

def all : VersionSet := ⟨fun _ => true⟩

def empty : VersionSet := ⟨fun _ => false⟩

instance : Inhabited VersionSet := ⟨empty⟩

def ofList (vs : List Version) : VersionSet := ⟨fun v => vs.contains v⟩

def toList (s : VersionSet) : List Version := Version.all.filter s.contains

def isEmpty (s : VersionSet) : Bool := s.toList.isEmpty

def meets (s t : VersionSet) : Bool := s.toList.any t.contains

/-- The members as texts, oldest first. -/
def toJson (s : VersionSet) : Json := .array (s.toList.map fun v => .string v.text)

/-- Reads a list of versions, in any order and with repetitions. -/
def ofJson? (j : Json) : Option VersionSet := (j.listOf Version.ofJson?).map ofList

end VersionSet

end PythonTypes
