/-!
# Time stamps

A report carries the time at which it was made, in UTC, as text in the extended format of ISO 8601:
date and time of day with a `T` between them and the offset behind. A fraction of a second has six
digits and is left out when it is zero.
-/

namespace SuiteView

/-- A point in time in UTC, to the microsecond. -/
structure Timestamp where
  year : Nat
  month : Nat
  day : Nat
  hour : Nat
  minute : Nat
  second : Nat
  microsecond : Nat
deriving DecidableEq, Repr

namespace Timestamp

def fixedDigits : (width n : Nat) → List Char
  | 0, _ => []
  | width + 1, n => fixedDigits width (n / 10) ++ [Char.ofNat (48 + n % 10)]

def fraction (t : Timestamp) : List Char :=
  if t.microsecond = 0 then [] else '.' :: fixedDigits 6 t.microsecond

def iso (t : Timestamp) : String :=
  String.ofList
    (fixedDigits 4 t.year ++ '-' :: fixedDigits 2 t.month ++ '-' :: fixedDigits 2 t.day ++
      'T' :: fixedDigits 2 t.hour ++ ':' :: fixedDigits 2 t.minute ++
      ':' :: fixedDigits 2 t.second ++ t.fraction ++ "+00:00".toList)

theorem length_fixedDigits (width n : Nat) : (fixedDigits width n).length = width := by
  induction width generalizing n with
  | zero => rfl
  | succ width ih => simp [fixedDigits, ih]

end Timestamp

end SuiteView
