import SuiteView.Decimal.Double

/-!
# The shortest decimal that reads back

A double is written with the fewest digits that read back as the same number; of the decimals with
that many digits the nearest is taken, and of two equally near ones the even one. For each number of
digits only the two neighbours of the value on that decimal grid can be the answer.
-/

namespace SuiteView.Double

/-- The number of places before the decimal point: the least `p` with the value below `10 ^ p`.
The value is scaled by `10 ^ 400` first, so that the smallest double has digits before the point. -/
def pointPosition (num den : Nat) : Int := (digitCount (num * Nat.pow 10 400 / den) : Int) - 400

/-- The neighbour of a positive ratio among the multiples of `10 ^ exponent` that reads back as the
given number. -/
def readingNeighbour? (value : Double) (num den : Nat) (exponent : Int) : Option Nat :=
  let (n, d) := scale 10 num den exponent
  let low := n / d
  let reads := fun c => decide (ofDecimal false c exponent = value)
  match reads low, reads (low + 1) with
  | true, true => some (roundDiv n d)
  | true, false => some low
  | false, true => some (low + 1)
  | false, false => none

/-- The shortest decimal of a positive finite number: digits and exponent of ten. Seventeen digits
always read back. -/
def shortest (mantissa : Nat) (exponent : Int) : Nat × Int :=
  let (num, den) := ratio mantissa exponent
  let point := pointPosition num den
  let value := Double.finite false mantissa exponent
  let attempt := fun (k : Nat) =>
    let e := point - (k + 1 : Nat)
    (readingNeighbour? value num den e).map fun digits => (digits, e)
  ((List.range 17).findSome? attempt).getD (0, 0)

/-! ### Layout -/

/-- How numbers that are no decimals are spelled. -/
structure Spelling where
  nan : String
  infinity : String

def Spelling.plain : Spelling := ⟨"nan", "inf"⟩

def Spelling.json : Spelling := ⟨"NaN", "Infinity"⟩

/-- Decimal exponents from here up to `exponentLimit` are written in positions. -/
def exponentFloor : Int := -4

def exponentLimit : Int := 16

/-- Digits without the zeros at the end; at least one digit stays. -/
def trimZeros (digits : List Char) : List Char :=
  match (digits.reverse.dropWhile (· = '0')).reverse with
  | [] => ['0']
  | trimmed => trimmed

def positional (digits : List Char) (point : Int) : List Char :=
  if point ≤ 0 then '0' :: '.' :: List.replicate (-point).toNat '0' ++ digits
  else
    let p := point.toNat
    if digits.length ≤ p then digits ++ List.replicate (p - digits.length) '0' ++ ['.', '0']
    else digits.take p ++ '.' :: digits.drop p

def exponentMark (e : Int) : List Char :=
  let digits := Nat.toDigits 10 e.natAbs
  'e' :: (if e < 0 then '-' else '+') :: (if digits.length < 2 then '0' :: digits else digits)

def scientific (digits : List Char) (point : Int) : List Char :=
  match digits with
  | [] => []
  | d :: rest => d :: (if rest.isEmpty then [] else '.' :: rest) ++ exponentMark (point - 1)

def magnitude (mantissa : Nat) (exponent : Int) : List Char :=
  if mantissa = 0 then ['0', '.', '0']
  else
    let (n, e) := shortest mantissa exponent
    let digits := Nat.toDigits 10 n
    let point := e + digits.length
    if exponentFloor ≤ point - 1 ∧ point - 1 < exponentLimit then positional (trimZeros digits) point
    else scientific (trimZeros digits) point

def render (spelling : Spelling) : Double → String
  | .finite negative m e => (if negative then "-" else "") ++ String.ofList (magnitude m e)
  | .infinite negative => (if negative then "-" else "") ++ spelling.infinity
  | .nan => spelling.nan

end SuiteView.Double
