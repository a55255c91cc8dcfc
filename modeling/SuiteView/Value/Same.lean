import SuiteView.Value

/-!
# Values that count as the same

Two values count as the same when they stand for the same thing, whatever its form: numbers are
compared by what they count, with the truth values as one and zero, and the fields of objects in any
order. The number that is no number counts as the same as nothing.
-/

namespace SuiteView

def Double.quantity? : Double → Option (Int × Nat)
  | .finite negative mantissa exponent =>
    let (num, den) := ratio mantissa exponent
    some (if negative then -num else num, den)
  | _ => none

namespace Value

def quantity? : Value → Option (Int × Nat)
  | .bool b => some (if b then 1 else 0, 1)
  | .int n => some (n, 1)
  | .number x => x.quantity?
  | _ => none

def sameQuantity : Int × Nat → Int × Nat → Bool
  | (num, den), (num', den') => num * den' = num' * den

/-- Whether two values that are neither lists nor objects count as the same. -/
def sameScalar (a b : Value) : Bool :=
  match a.quantity?, b.quantity? with
  | some x, some y => sameQuantity x y
  | none, none =>
    match a, b with
    | .null, .null => true
    | .string s, .string t => s = t
    | .number (.infinite negative), .number (.infinite negative') => negative = negative'
    | _, _ => false
  | _, _ => false

mutual

def same : Value → Value → Bool
  | .list a, .list b => sameItems a b
  | .object a, .object b => a.length = b.length && sameFields a b
  | .list _, _ | .object _, _ => false
  | a, b => sameScalar a b
termination_by structural a => a

def sameItems : List Value → List Value → Bool
  | [], [] => true
  | a :: as, b :: bs => same a b && sameItems as bs
  | _, _ => false
termination_by structural as => as

def sameFields : List (Text × Value) → List (Text × Value) → Bool
  | [], _ => true
  | field :: rest, b => sameField field b && sameFields rest b
termination_by structural as => as

def sameField : Text × Value → List (Text × Value) → Bool
  | (name, v), b =>
    match Table.get? b name with
    | some w => same v w
    | none => false
termination_by structural field => field

end

end Value

end SuiteView
