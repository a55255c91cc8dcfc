import SuiteView.Proofs.Json.Numbers

/-!
# The characters of written documents

A document is written with newlines and the printable characters of ASCII alone. So no line end in
it is changed when it is read as a text file.
-/

namespace SuiteView.Json

/-- A newline or a printable character of ASCII. -/
def isPlain (c : Char) : Bool := c = '\n' || (' ' ≤ c && c ≤ '~')

theorem isPlain_of_isDigit {c : Char} (h : isDigit c = true) : isPlain c = true := by
  simp only [isDigit, isPlain, Bool.and_eq_true, Bool.or_eq_true, decide_eq_true_eq] at h ⊢
  have hlow : ' ' ≤ '0' := by decide
  have hhigh : '9' ≤ '~' := by decide
  exact .inr ⟨Char.le_trans hlow h.1, Char.le_trans h.2 hhigh⟩

theorem all_isPlain_of_digits {digits : List Char} (h : ∀ d ∈ digits, isDigit d = true) :
    digits.all isPlain = true :=
  List.all_eq_true.mpr fun d hd => isPlain_of_isDigit (h d hd)

theorem toDigits_isPlain (n : Nat) : (Nat.toDigits 10 n).all isPlain = true :=
  all_isPlain_of_digits fun _ hd => isDigit_of_mem_toDigits hd

/-! ### Doubles -/

theorem trimZeros_subset {digits : List Char} {d : Char} (h : d ∈ Double.trimZeros digits) :
    d ∈ digits ∨ d = '0' := by
  unfold Double.trimZeros at h
  split at h
  · exact .inr (List.mem_singleton.mp h)
  · rw [List.mem_reverse] at h
    exact .inl (List.mem_reverse.mp ((List.dropWhile_suffix _).subset h))

theorem trimZeros_isPlain (n : Nat) :
    (Double.trimZeros (Nat.toDigits 10 n)).all isPlain = true := by
  refine all_isPlain_of_digits fun d hd => ?_
  rcases trimZeros_subset hd with hd | rfl
  · exact isDigit_of_mem_toDigits hd
  · decide

theorem positional_isPlain {digits : List Char} (h : digits.all isPlain = true) (point : Int) :
    (Double.positional digits point).all isPlain = true := by
  have htake (k : Nat) : (digits.take k).all isPlain = true :=
    List.all_eq_true.mpr fun d hd => List.all_eq_true.mp h d (List.mem_of_mem_take hd)
  have hdrop (k : Nat) : (digits.drop k).all isPlain = true :=
    List.all_eq_true.mpr fun d hd => List.all_eq_true.mp h d (List.mem_of_mem_drop hd)
  have hpoint : isPlain '.' = true ∧ isPlain '0' = true := by decide
  unfold Double.positional
  dsimp only
  split_ifs <;> simp [h, htake, hdrop, hpoint]

theorem scientific_isPlain {digits : List Char} (h : digits.all isPlain = true) (point : Int) :
    (Double.scientific digits point).all isPlain = true := by
  have hmark : isPlain 'e' = true ∧ isPlain '-' = true ∧ isPlain '+' = true ∧ isPlain '0' = true ∧
      isPlain '.' = true := by decide
  have hexponent : (Double.exponentMark (point - 1)).all isPlain = true := by
    unfold Double.exponentMark
    dsimp only
    split_ifs <;> simp only [List.all_cons, hmark, toDigits_isPlain, Bool.and_self]
  cases digits with
  | nil => rfl
  | cons d ds =>
    rw [List.all_cons, Bool.and_eq_true] at h
    have hfraction : (if ds.isEmpty then [] else '.' :: ds).all isPlain = true := by
      split_ifs
      · rfl
      · simp [h, hmark]
    simp only [Double.scientific, List.all_append, List.all_cons, h, hfraction, hexponent,
      Bool.and_self]

theorem magnitude_isPlain (m : Nat) (e : Int) : (Double.magnitude m e).all isPlain = true := by
  unfold Double.magnitude
  split
  · decide
  · generalize Double.shortest m e = r
    obtain ⟨n, k⟩ := r
    dsimp only
    split
    · exact positional_isPlain (trimZeros_isPlain n) _
    · exact scientific_isPlain (trimZeros_isPlain n) _

theorem render_isPlain (x : Double) : (x.render .json).toList.all isPlain = true := by
  cases x with
  | nan => decide
  | infinite negative => cases negative <;> decide
  | finite negative m e =>
    have hm := magnitude_isPlain m e
    have hminus : isPlain '-' = true := by decide
    cases negative <;> simp [Double.render, hm, hminus]

/-! ### Strings -/

theorem hexDigit_isPlain : ∀ n < 16, isPlain (Text.hexDigit n) = true := by decide

theorem hex_isPlain (width n : Nat) : (Text.hex width n).all isPlain = true := by
  induction width generalizing n with
  | zero => rfl
  | succ width ih =>
    have hdigit := hexDigit_isPlain (n % 16) (Nat.mod_lt _ (by decide))
    simp only [Text.hex, List.all_append, ih, List.all_cons, hdigit, List.all_nil, Bool.and_self]

theorem unitEscape_isPlain (n : Nat) : (unitEscape n).all isPlain = true := by
  have hmark : isPlain '\\' = true ∧ isPlain 'u' = true := by decide
  simp only [unitEscape, List.all_cons, hmark, hex_isPlain, Bool.and_self]

theorem escapeChar_isPlain (c : Char) : (escapeChar c).all isPlain = true := by
  unfold escapeChar
  split_ifs with h1 h2 h3 h4 h5 h6 h7 h8 h9
  · decide
  · decide
  · decide
  · decide
  · decide
  · decide
  · decide
  · simpa [isPlain] using .inr h8
  · exact unitEscape_isPlain _
  · dsimp only
    rw [List.all_append, unitEscape_isPlain, unitEscape_isPlain, Bool.and_self]

theorem escapePoint_isPlain (c : CodePoint) : (escapePoint c).all isPlain = true := by
  cases c with
  | char c => exact escapeChar_isPlain c
  | surrogate offset => exact unitEscape_isPlain _

theorem writeString_isPlain (s : Text) : (writeString s).all isPlain = true := by
  have hquote : isPlain '\x22' = true := by decide
  simp [writeString, hquote, List.all_flatMap, escapePoint_isPlain]

/-! ### Values -/

theorem newline_isPlain (level : Nat) : (newline level).all isPlain = true := by
  simp [newline, isPlain]

theorem int_isPlain (n : Int) : (toString n).toList.all isPlain = true := by
  rw [toString_int, List.all_append, toDigits_isPlain]
  unfold signText
  split_ifs <;> decide

mutual

theorem writeAt_isPlain (level : Nat) (v : Value) : (writeAt level v).all isPlain = true := by
  match v with
  | .null => rfl
  | .bool true => rfl
  | .bool false => rfl
  | .int n => exact int_isPlain n
  | .number x => exact render_isPlain x
  | .string s => exact writeString_isPlain s
  | .list [] => rfl
  | .list (v :: rest) =>
    have hmarks : isPlain '[' = true ∧ isPlain ']' = true := by decide
    simp [writeAt, hmarks, newline_isPlain, writeAt_isPlain (level + 1) v,
      writeItems_isPlain (level + 1) rest]
  | .object [] => rfl
  | .object (field :: rest) =>
    have hmarks : isPlain '\x7b' = true ∧ isPlain '\x7d' = true := by decide
    simp [writeAt, hmarks, newline_isPlain, writeField_isPlain (level + 1) field,
      writeFields_isPlain (level + 1) rest]
termination_by structural v

theorem writeItems_isPlain (level : Nat) (items : List Value) :
    (writeItems level items).all isPlain = true := by
  match items with
  | [] => rfl
  | v :: rest =>
    have hcomma : isPlain ',' = true := by decide
    simp [writeItems, hcomma, newline_isPlain, writeAt_isPlain level v,
      writeItems_isPlain level rest]
termination_by structural items

theorem writeField_isPlain (level : Nat) (field : Text × Value) :
    (writeField level field).all isPlain = true := by
  match field with
  | (k, v) =>
    have hmarks : isPlain ':' = true ∧ isPlain ' ' = true := by decide
    simp [writeField, hmarks, writeString_isPlain k, writeAt_isPlain level v]
termination_by structural field

theorem writeFields_isPlain (level : Nat) (fields : List (Text × Value)) :
    (writeFields level fields).all isPlain = true := by
  match fields with
  | [] => rfl
  | field :: rest =>
    have hcomma : isPlain ',' = true := by decide
    simp [writeFields, hcomma, newline_isPlain, writeField_isPlain level field,
      writeFields_isPlain level rest]
termination_by structural fields

end

end SuiteView.Json
