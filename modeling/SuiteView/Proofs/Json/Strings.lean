import SuiteView.Json.Writer
import SuiteView.Proofs.Json.Reads

/-!
# Strings are read as they are written

A code point is written as itself, as a short escape, or as one or two numeric escapes. Each form is
read as the code point again. A numeric escape for the first half of a surrogate pair would take the
second half with it, so the text must not hold the two side by side.
-/

namespace SuiteView.Json

/-! ### The forms of a written code point -/

inductive Written : CodePoint → List Char → Prop
  | plain {c : Char} (hblank : ' ' ≤ c) (hquote : c ≠ '\x22') (hescape : c ≠ '\\') :
      Written (.char c) [c]
  | short {c e : Char} (he : simpleEscape? e = some c) (hunit : e ≠ 'u') :
      Written (.char c) ['\\', e]
  | unit {n : Nat} (hn : n < 0x10000) : Written (.ofNat n) (unitEscape n)
  | pair (high low : Nat) (hhigh : 0xD800 ≤ high ∧ high ≤ 0xDBFF)
      (hlow : 0xDC00 ≤ low ∧ low ≤ 0xDFFF) :
      Written (joinSurrogates high low) (unitEscape high ++ unitEscape low)

theorem ofNat_toNat_char (c : Char) : CodePoint.ofNat c.toNat = .char c := by
  have hvalid := c.valid
  have hsurrogate : ¬ (0xD800 ≤ c.toNat ∧ c.toNat < 0xE000) := by
    rcases hvalid with h | h
    · have : c.toNat < 0xD800 := h
      omega
    · have : 0xDFFF < c.toNat := h.1
      omega
  rw [CodePoint.ofNat, dif_neg hsurrogate, Char.ofNat_toNat]

theorem ofNat_toNat_surrogate (offset : Fin 0x800) :
    CodePoint.ofNat (CodePoint.surrogate offset).toNat = .surrogate offset := by
  have hoffset := offset.isLt
  have hplace : 0xD800 ≤ 0xD800 + offset.val ∧ 0xD800 + offset.val < 0xE000 := by omega
  rw [CodePoint.toNat, CodePoint.ofNat, dif_pos hplace]
  exact congrArg _ (Fin.ext (Nat.add_sub_cancel_left ..))

theorem written_char (c : Char) : Written (.char c) (escapeChar c) := by
  have hvalid : c.toNat < 0x110000 := by
    rcases c.valid with h | h
    · have : c.toNat < 0xD800 := h
      omega
    · exact h.2
  unfold escapeChar
  split_ifs with h1 h2 h3 h4 h5 h6 h7 h8 h9
  · subst h1
    exact .short rfl (by decide)
  · subst h2
    exact .short rfl (by decide)
  · subst h3
    exact .short rfl (by decide)
  · subst h4
    exact .short rfl (by decide)
  · subst h5
    exact .short rfl (by decide)
  · subst h6
    exact .short rfl (by decide)
  · subst h7
    exact .short rfl (by decide)
  · exact .plain h8.1 h1 h2
  · have hwritten := Written.unit h9
    rwa [ofNat_toNat_char] at hwritten
  · -- the two units make up the number of the character again
    have hpair := Written.pair (0xD800 + (c.toNat - 0x10000) / 0x400)
      (0xDC00 + (c.toNat - 0x10000) % 0x400) (by omega) (by omega)
    have hjoin : joinSurrogates (0xD800 + (c.toNat - 0x10000) / 0x400)
        (0xDC00 + (c.toNat - 0x10000) % 0x400) = .char c := by
      rw [joinSurrogates]
      have hnumber : 0x10000 + 0x400 * (0xD800 + (c.toNat - 0x10000) / 0x400 - 0xD800) +
          (0xDC00 + (c.toNat - 0x10000) % 0x400 - 0xDC00) = c.toNat := by omega
      rw [hnumber, ofNat_toNat_char]
    rwa [hjoin] at hpair

theorem written (c : CodePoint) : Written c (escapePoint c) := by
  cases c with
  | char c => exact written_char c
  | surrogate offset =>
    have hoffset := offset.isLt
    have hwritten := Written.unit (n := (CodePoint.surrogate offset).toNat) (by
      rw [CodePoint.toNat]
      omega)
    rwa [ofNat_toNat_surrogate] at hwritten

/-! ### Numeric escapes -/

/-- What stands behind the first half of a pair when it is to be read alone: no numeric escape, or
one that is no second half. -/
def LeavesAlone (tail : List Char) : Prop :=
  ∀ e f g h x rest, tail = '\\' :: 'u' :: e :: f :: g :: h :: x :: rest →
    ∃ n, Text.readHex [e, f, g, h] = some n ∧ isLowSurrogate n = false

theorem hex_four (n : Nat) : ∃ a b c d, Text.hex 4 n = [a, b, c, d] := by
  simp [Text.hex]

theorem readUnit_alone {n p : Nat} {tail : List Char} (hn : n < 0x10000) (hne : tail ≠ [])
    (halone : isHighSurrogate n = true → LeavesAlone tail) :
    readUnit p (Text.hex 4 n ++ tail) = .ok (.ofNat n, 4) := by
  obtain ⟨a, b, c, d, hhex⟩ := hex_four n
  obtain ⟨next, rest, rfl⟩ := List.exists_cons_of_ne_nil hne
  have hread : Text.readHex [a, b, c, d] = some n := by
    rw [← hhex]
    exact Text.readHex_hex 4 n hn
  rw [hhex]
  unfold readUnit
  simp only [List.cons_append, List.nil_append, hread]
  split
  next e f g h x behind hhigh =>
    obtain ⟨low, hlow, hnot⟩ := halone hhigh _ _ _ _ _ _ rfl
    simp only [hlow, hnot]
    rfl
  next => rfl

theorem readUnit_pair {high low p : Nat} {tail : List Char}
    (hhigh : 0xD800 ≤ high ∧ high ≤ 0xDBFF) (hlow : 0xDC00 ≤ low ∧ low ≤ 0xDFFF) (hne : tail ≠ []) :
    readUnit p (Text.hex 4 high ++ unitEscape low ++ tail) =
      .ok (joinSurrogates high low, 10) := by
  obtain ⟨a, b, c, d, hhex⟩ := hex_four high
  obtain ⟨e, f, g, h, hhex'⟩ := hex_four low
  obtain ⟨next, rest, rfl⟩ := List.exists_cons_of_ne_nil hne
  have hread : Text.readHex [a, b, c, d] = some high := by
    rw [← hhex]
    exact Text.readHex_hex 4 high (by simp [Text.hexCount]; omega)
  have hread' : Text.readHex [e, f, g, h] = some low := by
    rw [← hhex']
    exact Text.readHex_hex 4 low (by simp [Text.hexCount]; omega)
  have hfirst : isHighSurrogate high = true := by simpa [isHighSurrogate] using hhigh
  have hsecond : isLowSurrogate low = true := by simpa [isLowSurrogate] using hlow
  rw [unitEscape, hhex, hhex']
  unfold readUnit
  simp only [List.cons_append, List.nil_append, hread, hfirst, hread', hsecond, if_true]

/-! ### Characters of a string -/

variable {p : Nat} {tail : List Char}

theorem readChars_unit (opening : Nat) (rest : List Char) {c : CodePoint} {n : Nat}
    (h : readUnit (p + 1) rest = .ok (c, n)) :
    readChars opening p ('\\' :: 'u' :: rest) =
      consPoint c (readChars opening (p + 2 + n) (rest.drop n)) := by
  rw [readChars, h]

theorem readChars_written {c : CodePoint} {text : List Char} (opening : Nat) (h : Written c text)
    (hne : tail ≠ [])
    (halone : c.IsHigh → LeavesAlone tail) :
    ∃ q, readChars opening p (text ++ tail) = consPoint c (readChars opening q tail) := by
  cases h with
  | @plain c hblank hquote hescape =>
    refine ⟨p + 1, ?_⟩
    have hcontrol : ¬ c < ' ' := Char.not_lt.mpr hblank
    rw [List.singleton_append, readChars]
    · rw [if_neg hcontrol]
    · exact hquote
    · intro hc
      exact absurd hc hescape
    · intro rest hc
      exact absurd hc hescape
    · intro e rest hc
      exact absurd hc hescape
  | @short c e he hunit =>
    refine ⟨p + 2, ?_⟩
    rw [List.cons_append, List.singleton_append, readChars]
    · rw [he]
    · exact hunit
  | @unit n hn =>
    have hunit : readUnit (p + 1) (Text.hex 4 n ++ tail) = .ok (.ofNat n, 4) :=
      readUnit_alone hn hne fun hhigh => halone ((isHigh_ofNat_iff n).mpr hhigh)
    have hdrop : (Text.hex 4 n ++ tail).drop 4 = tail := List.drop_left' (Text.length_hex 4 n)
    refine ⟨p + 2 + 4, ?_⟩
    have hread := readChars_unit opening (Text.hex 4 n ++ tail) hunit
    rwa [hdrop] at hread
  | pair high low hhigh hlow =>
    have hunit := readUnit_pair (p := p + 1) hhigh hlow hne
    have hdrop : (Text.hex 4 high ++ unitEscape low ++ tail).drop 10 = tail := by
      refine List.drop_left' ?_
      simp [unitEscape, Text.length_hex]
    refine ⟨p + 2 + 10, ?_⟩
    have hread := readChars_unit opening _ hunit
    rwa [hdrop] at hread

/-! ### Whole strings -/

theorem leavesAlone_quote (rest : List Char) : LeavesAlone ('\x22' :: rest) := by
  intro e f g h x behind htail
  cases htail

theorem leavesAlone_unit {n : Nat} (hn : n < 0x10000) (hlow : isLowSurrogate n = false)
    (tail : List Char) : LeavesAlone (unitEscape n ++ tail) := by
  intro e f g h x behind htail
  obtain ⟨a, b, c, d, hhex⟩ := hex_four n
  rw [unitEscape, hhex] at htail
  simp only [List.cons_append, List.nil_append, List.cons.injEq, true_and] at htail
  obtain ⟨rfl, rfl, rfl, rfl, -⟩ := htail
  exact ⟨n, hhex ▸ Text.readHex_hex 4 n hn, hlow⟩

theorem leavesAlone_written {c : CodePoint} {text : List Char} (h : Written c text)
    (hlow : ¬ c.IsLow) (tail : List Char) : LeavesAlone (text ++ tail) := by
  cases h with
  | @plain c hblank hquote hescape =>
    intro e f g h x behind htail
    exact absurd (List.cons.inj htail).1 hescape
  | @short c e he hunit =>
    intro e' f g h x behind htail
    exact absurd (List.cons.inj (List.cons.inj htail).2).1 hunit
  | @unit n hn =>
    rw [isLow_ofNat_iff, Bool.not_eq_true] at hlow
    exact leavesAlone_unit hn hlow tail
  | pair high low hhigh hlow' =>
    have hfirst : isLowSurrogate high = false := by
      simp only [isLowSurrogate, Bool.and_eq_false_iff, decide_eq_false_iff_not]
      omega
    rw [List.append_assoc]
    exact leavesAlone_unit (by omega) hfirst _

theorem readChars_string {s : Text} (hs : s.IsJoined) (opening p : Nat) (rest : List Char) :
    ∃ q, readChars opening p (s.flatMap escapePoint ++ '\x22' :: rest) = .ok (s, ⟨q, rest⟩) := by
  induction s generalizing p with
  | nil => exact ⟨p + 1, by rw [List.flatMap_nil, List.nil_append, readChars]⟩
  | cons c s ih =>
    obtain ⟨hnext, hjoined⟩ := List.isChain_cons.mp hs
    have halone : c.IsHigh → LeavesAlone (s.flatMap escapePoint ++ '\x22' :: rest) := by
      intro hhigh
      cases s with
      | nil => exact leavesAlone_quote rest
      | cons d s =>
        have hlow : ¬ d.IsLow := fun hlow => hnext d rfl ⟨hhigh, hlow⟩
        rw [List.flatMap_cons, List.append_assoc]
        exact leavesAlone_written (written d) hlow _
    obtain ⟨q, hq⟩ := readChars_written (p := p) opening (written c) (by simp) halone
    obtain ⟨q', hq'⟩ := ih hjoined q
    refine ⟨q', ?_⟩
    rw [List.flatMap_cons, List.append_assoc, hq, hq']
    rfl

/-- Behind its quote a written string is read to the quote at its end. -/
theorem readString_write {s : Text} (hs : s.IsJoined) (p : Nat) (rest : List Char) :
    ∃ q, readString ⟨p, s.flatMap escapePoint ++ '\x22' :: rest⟩ = .ok (s, ⟨q, rest⟩) :=
  readChars_string hs (p - 1) p rest

end SuiteView.Json
