/-!
# Numbers in double precision

A number with a fraction or an exponent is kept in double precision: a mantissa below `2 ^ 53` times
a power of two, an infinity, or the value that is no number. Reading a decimal rounds its exact
value to the nearest double, a tie to the even mantissa. All arithmetic is on natural numbers.
-/

namespace SuiteView

/-- A number in double precision; a finite one is `mantissa * 2 ^ exponent` with its sign. -/
inductive Double where
  | finite (negative : Bool) (mantissa : Nat) (exponent : Int)
  | infinite (negative : Bool)
  | nan
deriving DecidableEq, Repr

namespace Double

/-- The least exponent; with it a mantissa may have fewer than 53 bits. -/
def minExponent : Int := -1074

def maxExponent : Int := 971

def mantissaLimit : Nat := 9007199254740992

def zero (negative : Bool) : Double := .finite negative 0 minExponent

/-- The quotient rounded to the nearest natural number, a half to the even neighbour. -/
def roundDiv (num den : Nat) : Nat :=
  let q := num / den
  let r := num % den
  if 2 * r < den then q
  else if den < 2 * r then q + 1
  else if q % 2 = 0 then q else q + 1

def scale (base num den : Nat) (exponent : Int) : Nat × Nat :=
  if 0 ≤ exponent then (num, den * Nat.pow base exponent.toNat)
  else (num * Nat.pow base (-exponent).toNat, den)

/-- The exponent at which a positive ratio has 53 bits, or the least exponent. -/
def exponentFor (num den : Nat) : Int :=
  let guess : Int := (num.log2 : Int) - den.log2 - 53
  let (n, d) := scale 2 num den guess
  max minExponent (if mantissaLimit * d ≤ n then guess + 1 else guess)

def ofRatio (negative : Bool) (num den : Nat) : Double :=
  if num = 0 then zero negative
  else
    let e := exponentFor num den
    let (n, d) := scale 2 num den e
    let m := roundDiv n d
    let (m, e) := if m = mantissaLimit then (mantissaLimit / 2, e + 1) else (m, e)
    if maxExponent < e then .infinite negative else .finite negative m e

def digitCount (n : Nat) : Nat := (Nat.toDigits 10 n).length

/-- The double nearest to `digits * 10 ^ exponent`. Beyond 310 places before the point every number
is infinite, and below 330 zeros after it every number is zero. -/
def ofDecimal (negative : Bool) (digits : Nat) (exponent : Int) : Double :=
  let places := (digitCount digits : Int) + exponent
  if digits = 0 ∨ places < -330 then zero negative
  else if 310 < places then .infinite negative
  else
    let (num, den) := scale 10 digits 1 (-exponent)
    ofRatio negative num den

def isNonzero : Double → Bool
  | .finite _ m _ => m != 0
  | _ => true

def ratio (mantissa : Nat) (exponent : Int) : Nat × Nat := scale 2 mantissa 1 (-exponent)

end Double

end SuiteView
