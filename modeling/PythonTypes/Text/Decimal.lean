/-!
# Decimal numbers and the range of double precision

A number in a text is a `Decimal`, a whole number times a power of ten. Readers that keep numbers in
double precision refuse a decimal that is too large for it. `exceedsDouble` asks this of the number
itself; `productExceedsDouble` asks it of a reader that rounds the significand, the power of ten and
their product one after the other.
-/

set_option autoImplicit false

namespace PythonTypes

/-- The number `significand * 10 ^ exponent`. -/
structure Decimal where
  significand : Nat
  exponent : Int
  deriving DecidableEq, Repr

namespace Decimal

/-- The number of bits that double precision keeps. -/
def precision : Nat := 53

/-- The multiple of `2 ^ bits` nearest to `n`, with a tie going to the even multiple. -/
def roundTo (bits n : Nat) : Nat :=
  let step := Nat.pow 2 bits
  let quotient := n / step
  let rest := 2 * (n % step)
  if rest < step ∨ (rest = step ∧ quotient % 2 = 0) then quotient * step else (quotient + 1) * step

/-- The double nearest to a natural number, as long as there is no bound on exponents. -/
def roundDouble (n : Nat) : Nat := roundTo (n.log2 + 1 - precision) n

/-- The least natural number that double precision rounds to infinity: half a step above the largest
double. -/
def overflowBound : Nat := Nat.pow 2 1024 - Nat.pow 2 970

/-- The largest power of ten that double precision can hold. -/
def maxPower : Nat := 308

/-- Whether double precision rounds the number to infinity. -/
def exceedsDouble (d : Decimal) : Bool :=
  d.significand != 0 &&
    match d.exponent with
    | .ofNat e => maxPower < e || overflowBound ≤ d.significand * Nat.pow 10 e
    | .negSucc e => 3 * (e + 1) ≤ d.significand.log2 && overflowBound * Nat.pow 10 (e + 1) ≤ d.significand

/-- Whether the product of the rounded significand and the rounded power of ten is rounded to
infinity. -/
def productExceedsDouble (d : Decimal) : Bool :=
  d.significand != 0 &&
    match d.exponent with
    | .ofNat e => maxPower < e || overflowBound ≤ roundDouble d.significand * roundDouble (Nat.pow 10 e)
    | .negSucc _ => false

/-- The number written by decimal digits after those of `n`. -/
def appendDigits (n : Nat) (digits : List Char) : Nat :=
  digits.foldl (fun n c => n * 10 + (c.toNat - '0'.toNat)) n

end Decimal

end PythonTypes
