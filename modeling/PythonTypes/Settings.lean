import PythonTypes.Text.Toml.Reader
import PythonTypes.Version

/-!
# Settings of an analysis

The settings are the active Python versions, the number of runs of the flow-sensitive engine over
each body, and the bound on the steps of a solver. They can be read from a TOML document in which
every key is optional; keys with other names are ignored.
-/

set_option autoImplicit false

namespace PythonTypes

/-- Settings of one analysis. -/
structure Settings where
  /-- Active versions; stub symbols that exist in none of them are invisible. -/
  versions : VersionSet := VersionSet.all
  /-- Runs of the flow-sensitive engine over each body. -/
  passes : Nat := 2
  /-- Bound on the block evaluations of one solve. -/
  maxIterations : Nat := 1000

namespace Settings

/-- A whole number that is not negative. -/
def natOfToml? : Toml → Option Nat
  | .integer n => if n < 0 then none else some n.toNat
  | _ => none

/-- Whether a value is an array or a table without entries. -/
def isEmptyCollection : Toml → Bool
  | .array items => items.isEmpty
  | .inlineTable entries => entries.isEmpty
  | .table _ _ entries => entries.isEmpty
  | .tables elements => elements.isEmpty
  | _ => false

/-- A version, written as its text or as a table that binds its text, and nothing else, to an empty
collection. -/
def versionOfToml? : Toml → Option Version
  | .string s => Version.ofText? s
  | .inlineTable [(s, value)] => if isEmptyCollection value then Version.ofText? s else none
  | .table _ _ [(s, value)] => if isEmptyCollection value then Version.ofText? s else none
  | _ => none

/-- A list of versions, in any order and with repetitions. -/
def versionsOfToml? : Toml → Option VersionSet
  | .array items => (items.mapM versionOfToml?).map VersionSet.ofList
  | .tables elements => (elements.mapM versionOfToml?).map VersionSet.ofList
  | _ => none

/-- The value of a key, or `default` if the key is missing. -/
def keyOr {α : Type} (entries : List (String × Toml)) (key : String) (default : α)
    (decode : Toml → Option α) : Option α :=
  match Toml.find? key entries with
  | none => some default
  | some value => decode value

/-- Reads settings; `none` if the text is no TOML document or a key has a value of the wrong
form. -/
def ofToml? (text : String) : Option Settings := do
  let entries ← Toml.read? text
  let defaults : Settings := {}
  let versions ← keyOr entries "python_versions" defaults.versions versionsOfToml?
  let passes ← keyOr entries "flow_sensitive_passes" defaults.passes natOfToml?
  let maxIterations ← keyOr entries "max_solver_iterations" defaults.maxIterations natOfToml?
  return { versions, passes, maxIterations }

end Settings

end PythonTypes
