/-!
# Hexadecimal numbers of fixed width

Escapes in quoted text, JSON and YAML name a character by a hexadecimal number of fixed width.
Main statement: reading the digits of a number that fits gives the number back.
-/

namespace SuiteView.Text

def hexDigit (n : Nat) : Char :=
  if n < 10 then Char.ofNat (48 + n) else Char.ofNat (87 + n)

/-- The last `width` hexadecimal digits of a number, most significant first. -/
def hex : (width n : Nat) → List Char
  | 0, _ => []
  | width + 1, n => hex width (n / 16) ++ [hexDigit (n % 16)]

def hexCount : (width : Nat) → Nat
  | 0 => 1
  | width + 1 => 16 * hexCount width

def hexValue? (c : Char) : Option Nat :=
  if '0' ≤ c ∧ c ≤ '9' then some (c.toNat - 48)
  else if 'a' ≤ c ∧ c ≤ 'f' then some (c.toNat - 87)
  else if 'A' ≤ c ∧ c ≤ 'F' then some (c.toNat - 55)
  else none

def readHexFrom : Nat → List Char → Option Nat
  | n, [] => some n
  | n, c :: rest => (hexValue? c).bind fun d => readHexFrom (16 * n + d) rest

def readHex (cs : List Char) : Option Nat := readHexFrom 0 cs

theorem length_hex (width n : Nat) : (hex width n).length = width := by
  induction width generalizing n with
  | zero => rfl
  | succ width ih => simp [hex, ih]

theorem hexValue?_hexDigit : ∀ n < 16, hexValue? (hexDigit n) = some n := by decide

theorem readHexFrom_append (n : Nat) (xs ys : List Char) :
    readHexFrom n (xs ++ ys) = (readHexFrom n xs).bind fun m => readHexFrom m ys := by
  induction xs generalizing n with
  | nil => rfl
  | cons x xs ih =>
    simp only [List.cons_append, readHexFrom]
    cases hexValue? x with
    | none => rfl
    | some d => simp [ih]

theorem readHexFrom_hex (width m n : Nat) (h : n < hexCount width) :
    readHexFrom m (hex width n) = some (hexCount width * m + n) := by
  induction width generalizing n with
  | zero =>
    have : n = 0 := by simpa [hexCount] using h
    simp [hex, hexCount, readHexFrom, this]
  | succ width ih =>
    have hdiv : n / 16 < hexCount width := by
      simp only [hexCount] at h
      omega
    have hmod := Nat.div_add_mod n 16
    rw [hex, readHexFrom_append, ih _ hdiv]
    simp only [Option.bind_some, readHexFrom, hexValue?_hexDigit _ (Nat.mod_lt _ (by decide))]
    congr 1
    rw [hexCount, Nat.mul_add, Nat.mul_assoc]
    omega

theorem readHex_hex (width n : Nat) (h : n < hexCount width) : readHex (hex width n) = some n := by
  simpa [readHex] using readHexFrom_hex width 0 n h

end SuiteView.Text
