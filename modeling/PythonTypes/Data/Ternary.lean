/-!
# Three-valued answers

Membership and type-check questions are answered `yes`, `no`, or `unknown` when what is known about
the program does not settle them.
-/

set_option autoImplicit false

namespace PythonTypes

/-- An answer that may be left open. -/
inductive Ternary where
  | yes
  | no
  | unknown
  deriving DecidableEq, Repr, Inhabited

namespace Ternary

/-- The definite answer given by a Boolean. -/
def ofBool (b : Bool) : Ternary := if b then yes else no

def text : Ternary → String
  | yes => "true"
  | no => "false"
  | unknown => "unknown"

/-- Conjunction: `no` if either side is, else `unknown` if either side is, else `yes`. -/
def and : Ternary → Ternary → Ternary
  | no, _ => no
  | _, no => no
  | unknown, _ => unknown
  | _, unknown => unknown
  | yes, yes => yes

/-- Disjunction: `yes` if either side is, else `unknown` if either side is, else `no`. -/
def or : Ternary → Ternary → Ternary
  | yes, _ => yes
  | _, yes => yes
  | unknown, _ => unknown
  | _, unknown => unknown
  | no, no => no

/-- The common answer of several candidates, `unknown` where two differ or there are none. -/
def agreement : List Ternary → Ternary
  | [] => unknown
  | a :: rest => if rest.all (· == a) then a else unknown

end Ternary

end PythonTypes
