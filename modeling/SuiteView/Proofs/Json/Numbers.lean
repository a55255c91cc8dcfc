import SuiteView.Json.Cut
import SuiteView.Proofs.Decimal.Shortest

/-!
# Numbers are read as they are written

A number is read from its sign, its whole digits, its fraction and its exponent, up to the first
character that cannot go on. What stands behind a number in a written document is a comma, a newline
or nothing, so integers and doubles are read back.
-/

namespace SuiteView.Json

/-! ### The parts of a number -/

/-- What may stand behind a value in a written document. -/
def Stops (rest : List Char) : Prop := ∀ c ∈ rest.head?, c = ',' ∨ c = '\n'

/-- The digits of an integer part: a single zero, or digits that do not start with one. -/
structure IsWhole (whole : List Char) : Prop where
  digits : ∀ d ∈ whole, isDigit d = true
  nonempty : whole ≠ []
  first : whole.head? = some '0' → whole = ['0']

def signText (negative : Bool) : List Char := if negative then ['-'] else []

variable {whole fraction digits rest : List Char}

/-- What a reader takes ends where the next character does not belong to it. -/
theorem takeWhile_append_stop {belongs : Char → Bool} {front : List Char}
    (hfront : ∀ c ∈ front, belongs c = true) (hrest : ∀ c ∈ rest.head?, belongs c = false) :
    (front ++ rest).takeWhile belongs = front := by
  rw [List.takeWhile_append_of_pos hfront]
  have hnone : rest.takeWhile belongs = [] := by
    cases rest with
    | nil => rfl
    | cons c tail =>
      have hc := hrest c rfl
      simp [hc]
  rw [hnone, List.append_nil]

theorem integerDigits_append (h : IsWhole whole) (hrest : ∀ c ∈ rest.head?, isDigit c = false) :
    integerDigits (whole ++ rest) = whole := by
  by_cases hzero : whole.head? = some '0'
  · rw [h.first hzero]
    rfl
  · have hhead : ∀ tail, whole ++ rest ≠ '0' :: tail := by
      intro tail htail
      cases hwhole : whole with
      | nil => exact h.nonempty hwhole
      | cons d ds =>
        rw [hwhole, List.cons_append, List.cons.injEq] at htail
        rw [hwhole, List.head?_cons, htail.1] at hzero
        exact hzero rfl
    have htake : integerDigits (whole ++ rest) = (whole ++ rest).takeWhile isDigit := by
      unfold integerDigits
      split
      next tail htail => exact absurd htail (hhead tail)
      next => rfl
    rw [htake, takeWhile_append_stop h.digits hrest]

theorem exponentParts_eq_none (h : ∀ c ∈ rest.head?, c ≠ 'e' ∧ c ≠ 'E') :
    exponentParts rest = none := by
  cases rest with
  | nil => rfl
  | cons c tail =>
    obtain ⟨he, hE⟩ := h c rfl
    simp [exponentParts, he, hE]

/-- What follows the fraction. -/
def behindFraction (tail : List Char) : List Char :=
  tail.drop (if (fractionDigits tail).isEmpty then 0 else (fractionDigits tail).length + 1)

/-- The number of its sign, its digits and what follows its fraction. -/
def numberFrom (negative : Bool) (position : Nat) (whole fraction behind : List Char) : Step Value :=
  match exponentParts behind with
  | some (sign, digits) =>
    let n : Int := digitsValue digits
    let length := 1 + sign.length + digits.length
    .ok (.number (Double.ofDecimal negative (digitsValue (whole ++ fraction))
      ((if sign = ['-'] then -n else n) - fraction.length)), ⟨position + length, behind.drop length⟩)
  | none =>
    if !fraction.isEmpty then
      .ok (.number (Double.ofDecimal negative (digitsValue (whole ++ fraction)) (-fraction.length)),
        ⟨position, behind⟩)
    else if maxIntegerDigits < whole.length then .error (.integerTooLong (some whole.length))
    else
      let n : Int := digitsValue whole
      .ok (.int (if negative then -n else n), ⟨position, behind⟩)

theorem head?_ne_minus (hwhole : IsWhole whole) (tail : List Char) :
    (whole ++ tail).head? ≠ some '-' := by
  cases h : whole with
  | nil => exact absurd h hwhole.nonempty
  | cons d ds =>
    have hd := hwhole.digits d (h ▸ List.mem_cons_self ..)
    intro hminus
    simp only [List.cons_append, List.head?_cons, Option.some.injEq] at hminus
    rw [hminus] at hd
    exact absurd hd (by decide)

theorem readNumber?_eq (negative : Bool) (p : Nat) {tail : List Char} (hwhole : IsWhole whole)
    (htail : ∀ c ∈ tail.head?, isDigit c = false) :
    ∃ position, readNumber? ⟨p, signText negative ++ whole ++ tail⟩ =
      some (numberFrom negative position whole (fractionDigits tail) (behindFraction tail)) := by
  unfold readNumber?
  extract_lets negative' body start whole' afterWhole fraction fractionLength behind position value
  have hnegative : negative' ↔ negative = true := by
    unfold negative'
    cases negative with
    | true => simp [signText]
    | false => simpa [signText] using head?_ne_minus hwhole tail
  have hbody : body = whole ++ tail := by
    unfold body
    cases negative with
    | true => simp [hnegative, signText]
    | false => simp [hnegative, signText]
  have hwhole' : whole' = whole := by
    rw [← integerDigits_append hwhole htail, ← hbody]
  have hafter : afterWhole = tail := by
    unfold afterWhole
    rw [hwhole', hbody, List.drop_left]
  have hfraction : fraction = fractionDigits tail := by
    unfold fraction
    rw [hafter]
  have hbehind : behind = behindFraction tail := by
    unfold behind fractionLength
    rw [hfraction, hafter]
    rfl
  have hvalue : value = (digitsValue whole : Int) := by
    unfold value
    rw [hwhole']
  have hsign : decide negative' = negative := by simp [hnegative]
  have hneg (n : Int) : (if negative' then -n else n) = if negative then -n else n := by
    simp [hnegative]
  clear_value body start whole' afterWhole fraction behind position value
  refine ⟨position, ?_⟩
  rw [if_neg (by simpa [hwhole'] using hwhole.nonempty), hwhole', hfraction, hbehind, hvalue]
  unfold numberFrom
  simp only [hsign, hneg]
  cases exponentParts (behindFraction tail) with
  | some parts => rfl
  | none =>
    dsimp only
    split_ifs <;> rfl

/-! ### What may follow -/

theorem Stops.not_isDigit (h : Stops rest) : ∀ c ∈ rest.head?, isDigit c = false := by
  intro c hc
  rcases h c hc with rfl | rfl <;> decide

theorem fractionDigits_eq_nil (h : ∀ c ∈ rest.head?, c ≠ '.') : fractionDigits rest = [] := by
  cases rest with
  | nil => rfl
  | cons c tail =>
    have hc := h c rfl
    simp [fractionDigits, hc]

theorem behindFraction_eq_self (h : ∀ c ∈ rest.head?, c ≠ '.') : behindFraction rest = rest := by
  rw [behindFraction, fractionDigits_eq_nil h]
  rfl

theorem Stops.ne_point (h : Stops rest) : ∀ c ∈ rest.head?, c ≠ '.' := by
  intro c hc
  rcases h c hc with rfl | rfl <;> decide

theorem Stops.exponentParts (h : Stops rest) : exponentParts rest = none := by
  apply exponentParts_eq_none
  intro c hc
  rcases h c hc with rfl | rfl <;> decide

/-! ### Integers -/

theorem readNumber?_digits (negative : Bool) (p : Nat) (hwhole : IsWhole whole) (hrest : Stops rest) :
    ∃ q, readNumber? ⟨p, signText negative ++ whole ++ rest⟩ =
      some (if maxIntegerDigits < whole.length then .error (.integerTooLong (some whole.length))
        else .ok (.int (if negative then -(digitsValue whole : Int) else digitsValue whole),
          ⟨q, rest⟩)) := by
  obtain ⟨q, hq⟩ := readNumber?_eq negative p hwhole hrest.not_isDigit
  refine ⟨q, ?_⟩
  rw [hq, fractionDigits_eq_nil hrest.ne_point, behindFraction_eq_self hrest.ne_point]
  unfold numberFrom
  rw [hrest.exponentParts]
  rfl

theorem isDigit_of_mem_toDigits {n : Nat} {d : Char} (h : d ∈ Nat.toDigits 10 n) :
    isDigit d = true := by
  have hdigit := Nat.isDigit_of_mem_toDigits (by decide) (by decide) h
  simpa [Char.isDigit, isDigit, Char.le_def] using hdigit

theorem head?_toDigits {n : Nat} (hn : 0 < n) : (Nat.toDigits 10 n).head? ≠ some '0' := by
  induction n using Nat.strongRecOn with
  | ind n ih =>
    rcases Nat.lt_or_ge n 10 with hlt | hge
    · rw [Nat.toDigits_of_lt_base hlt]
      have hdigit : ∀ k < 10, 0 < k → [Nat.digitChar k].head? ≠ some '0' := by decide
      exact hdigit n hlt hn
    · rw [Nat.toDigits_of_base_le (by decide) hge]
      have hhead := ih (n / 10) (by omega) (by omega)
      rwa [List.head?_append_of_ne_nil _ Nat.toDigits_ne_nil]

theorem isWhole_toDigits (n : Nat) : IsWhole (Nat.toDigits 10 n) where
  digits _ hd := isDigit_of_mem_toDigits hd
  nonempty := Nat.toDigits_ne_nil
  first h := by
    rcases Nat.eq_zero_or_pos n with rfl | hn
    · rfl
    · exact absurd h (head?_toDigits hn)

theorem digitsValue_toDigits (n : Nat) : digitsValue (Nat.toDigits 10 n) = n :=
  Nat.ofDigitChars_ten_toDigits

theorem toString_int (n : Int) :
    (toString n).toList = signText (n < 0) ++ Nat.toDigits 10 n.natAbs := by
  rw [Int.toString_eq_repr, Int.repr_eq_if]
  by_cases h : 0 ≤ n
  · have hneg : ¬ n < 0 := by omega
    have habs : n.toNat = n.natAbs := by omega
    simp [h, hneg, signText, habs]
  · have hneg : n < 0 := by omega
    have habs : (-n).toNat = n.natAbs := by omega
    simp [h, hneg, signText, habs]

theorem readNumber?_int (n : Int) (p : Nat) (hlength : integerLength n ≤ maxIntegerDigits)
    (hrest : Stops rest) :
    ∃ q, readNumber? ⟨p, (toString n).toList ++ rest⟩ = some (.ok (.int n, ⟨q, rest⟩)) := by
  obtain ⟨q, hq⟩ := readNumber?_digits (n < 0) p (isWhole_toDigits n.natAbs) hrest
  refine ⟨q, ?_⟩
  have hshort : ¬ maxIntegerDigits < (Nat.toDigits 10 n.natAbs).length := by
    rw [integerLength] at hlength
    omega
  have hvalue : (if decide (n < 0) = true then -(n.natAbs : Int) else n.natAbs) = n := by
    simp only [decide_eq_true_eq]
    split <;> omega
  rw [toString_int, hq, if_neg hshort, digitsValue_toDigits, hvalue]

/-- A value that starts like a number is none of the others. -/
theorem readValue_number (fuel : Nat) (negative : Bool) (p : Nat) (hwhole : IsWhole whole)
    (tail : List Char) {step : Step Value}
    (h : readNumber? ⟨p, signText negative ++ whole ++ tail⟩ = some step) :
    readValue (fuel + 1) ⟨p, signText negative ++ whole ++ tail⟩ = step := by
  obtain ⟨d, ds, rfl⟩ := List.exists_cons_of_ne_nil hwhole.nonempty
  have hd := hwhole.digits d (List.mem_cons_self ..)
  have hne (c : Char) (hc : isDigit c = false) : c ≠ d := by
    intro he
    rw [he, hd] at hc
    cases hc
  have hscalar : readScalar ⟨p, signText negative ++ (d :: ds) ++ tail⟩ = step := by
    unfold readScalar
    split
    next r hr =>
      -- no name starts with a digit, and the one with a sign goes on with a letter
      cases negative with
      | true => simp [namedValues, Cursor.after?, signText, hne 'I' rfl] at hr
      | false =>
        simp [namedValues, Cursor.after?, signText, hne 'n' rfl, hne 't' rfl, hne 'f' rfl,
          hne 'N' rfl, hne 'I' rfl, hne '-' rfl] at hr
    · rw [h]
      rfl
  rw [← hscalar]
  unfold readValue
  split
  next rest hrest =>
    cases negative with
    | true => cases hrest
    | false => exact absurd (List.cons.inj hrest).1.symm (hne '\x22' rfl)
  next rest hrest =>
    cases negative with
    | true => cases hrest
    | false => exact absurd (List.cons.inj hrest).1.symm (hne '\x7b' rfl)
  next rest hrest =>
    cases negative with
    | true => cases hrest
    | false => exact absurd (List.cons.inj hrest).1.symm (hne '[' rfl)
  next => rfl

theorem readValue_int (fuel : Nat) (n : Int) (p : Nat) (hlength : integerLength n ≤ maxIntegerDigits)
    (hrest : Stops rest) :
    ∃ q, readValue (fuel + 1) ⟨p, (toString n).toList ++ rest⟩ = .ok (.int n, ⟨q, rest⟩) := by
  obtain ⟨q, hq⟩ := readNumber?_int n p hlength hrest
  rw [toString_int] at hq ⊢
  exact ⟨q, readValue_number fuel _ p (isWhole_toDigits n.natAbs) rest hq⟩

/-! ### Names -/

theorem readValue_named {word : String} {v : Value} (h : (word, v) ∈ namedValues) (fuel p : Nat)
    (rest : List Char) :
    readValue (fuel + 1) ⟨p, word.toList ++ rest⟩ = .ok (v, ⟨p + word.toList.length, rest⟩) := by
  simp only [namedValues, List.mem_cons, Prod.mk.injEq, List.not_mem_nil, or_false] at h
  rcases h with ⟨rfl, rfl⟩ | ⟨rfl, rfl⟩ | ⟨rfl, rfl⟩ | ⟨rfl, rfl⟩ | ⟨rfl, rfl⟩ | ⟨rfl, rfl⟩ <;>
    rfl

end SuiteView.Json
