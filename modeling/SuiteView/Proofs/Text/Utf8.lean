import SuiteView.Text.Utf8

/-!
# Decoding and encoding

The byte sequences that decoding takes for a character are the encodings of the characters, one for
each. So a list of bytes is decoded exactly if it is the encoding of some text, and then that text
comes out.
-/

namespace SuiteView.Text

/-- The byte sequences that decoding takes for a character. -/
inductive Sequence : List UInt8 → Char → Prop
  | one {a : UInt8} (ha : sequenceLength? a = some 1) : Sequence [a] (assemble a.toNat [])
  | two {a b : UInt8} (ha : sequenceLength? a = some 2) (hb : admitsSecond a b = true) :
      Sequence [a, b] (assemble (a.toNat - 0xC0) [b])
  | three {a b c : UInt8} (ha : sequenceLength? a = some 3) (hb : admitsSecond a b = true)
      (hc : isContinuation c = true) : Sequence [a, b, c] (assemble (a.toNat - 0xE0) [b, c])
  | four {a b c d : UInt8} (ha : sequenceLength? a = some 4) (hb : admitsSecond a b = true)
      (hc : isContinuation c = true) (hd : isContinuation d = true) :
      Sequence [a, b, c, d] (assemble (a.toNat - 0xF0) [b, c, d])

/-! ### Bytes as numbers -/

theorem isContinuation_iff (b : UInt8) :
    isContinuation b = true ↔ 0x80 ≤ b.toNat ∧ b.toNat ≤ 0xBF := by
  simp [isContinuation, UInt8.le_iff_toNat_le]

theorem admitsSecond_iff (a b : UInt8) : admitsSecond a b = true ↔
    (0x80 ≤ b.toNat ∧ b.toNat ≤ 0xBF) ∧ (a.toNat = 0xE0 → 0xA0 ≤ b.toNat) ∧
      (a.toNat = 0xED → b.toNat < 0xA0) ∧ (a.toNat = 0xF0 → 0x90 ≤ b.toNat) ∧
      (a.toNat = 0xF4 → b.toNat < 0x90) := by
  simp only [admitsSecond, Bool.and_eq_true, isContinuation_iff, Bool.not_eq_true',
    Bool.or_eq_false_iff, Bool.and_eq_false_imp, beq_iff_eq, decide_eq_false_iff_not,
    UInt8.le_iff_toNat_le, UInt8.lt_iff_toNat_lt, ← UInt8.toNat_inj, UInt8.reduceToNat]
  omega

theorem sequenceLength?_iff (b : UInt8) (n : Nat) : sequenceLength? b = some n ↔
    (n = 1 ∧ b.toNat < 0x80) ∨ (n = 2 ∧ 0xC2 ≤ b.toNat ∧ b.toNat ≤ 0xDF) ∨
      (n = 3 ∧ 0xE0 ≤ b.toNat ∧ b.toNat ≤ 0xEF) ∨ (n = 4 ∧ 0xF0 ≤ b.toNat ∧ b.toNat ≤ 0xF4) := by
  simp only [sequenceLength?, UInt8.le_iff_toNat_le, UInt8.lt_iff_toNat_lt, UInt8.reduceToNat]
  split
  · simp only [Option.some.injEq]
    omega
  · split
    · simp only [Option.some.injEq]
      omega
    · split
      · simp only [Option.some.injEq]
        omega
      · split
        · simp only [Option.some.injEq]
          omega
        · simp only [reduceCtorEq, false_iff]
          omega

theorem toNat_ofNat {n : Nat} (h : n < 0xD800 ∨ 0xDFFF < n ∧ n < 0x110000) :
    (Char.ofNat n).toNat = n := by
  rw [Char.ofNat, dif_pos h]
  rfl

theorem ofNat_eq {n : Nat} {b : UInt8} (h : n = b.toNat) : UInt8.ofNat n = b := by
  rw [h, UInt8.ofNat_toNat]

theorem ofNat_eq_char {n : Nat} {x : Char} (h : n = x.toNat) : Char.ofNat n = x := by
  rw [h, Char.ofNat_toNat]

/-! ### Encodings are the sequences -/

theorem Sequence.encode_eq {bytes : List UInt8} {x : Char} (h : Sequence bytes x) :
    String.utf8EncodeChar x = bytes := by
  cases h with
  | @one a ha =>
    rw [sequenceLength?_iff] at ha
    let v := a.toNat
    have hv : (Char.ofNat v).val.toNat = v := toNat_ofNat (by omega)
    show String.utf8EncodeChar (Char.ofNat v) = [a]
    simp only [String.utf8EncodeChar, hv]
    rw [if_pos (by omega), ofNat_eq rfl]
  | @two a b ha hb =>
    rw [sequenceLength?_iff] at ha
    rw [admitsSecond_iff] at hb
    let v := 64 * (a.toNat - 0xC0) + (b.toNat - 0x80)
    have hv : (Char.ofNat v).val.toNat = v := toNat_ofNat (by omega)
    show String.utf8EncodeChar (Char.ofNat v) = [a, b]
    simp only [String.utf8EncodeChar, hv]
    rw [if_neg (by omega), if_pos (by omega), ofNat_eq (b := a) (by omega),
      ofNat_eq (b := b) (by omega)]
  | @three a b c ha hb hc =>
    rw [sequenceLength?_iff] at ha
    rw [admitsSecond_iff] at hb
    rw [isContinuation_iff] at hc
    let v := 64 * (64 * (a.toNat - 0xE0) + (b.toNat - 0x80)) + (c.toNat - 0x80)
    have hv : (Char.ofNat v).val.toNat = v := toNat_ofNat (by omega)
    show String.utf8EncodeChar (Char.ofNat v) = [a, b, c]
    simp only [String.utf8EncodeChar, hv]
    rw [if_neg (by omega), if_neg (by omega), if_pos (by omega), ofNat_eq (b := a) (by omega),
      ofNat_eq (b := b) (by omega), ofNat_eq (b := c) (by omega)]
  | @four a b c d ha hb hc hd =>
    rw [sequenceLength?_iff] at ha
    rw [admitsSecond_iff] at hb
    rw [isContinuation_iff] at hc hd
    let v := 64 * (64 * (64 * (a.toNat - 0xF0) + (b.toNat - 0x80)) + (c.toNat - 0x80)) +
      (d.toNat - 0x80)
    have hv : (Char.ofNat v).val.toNat = v := toNat_ofNat (by omega)
    show String.utf8EncodeChar (Char.ofNat v) = [a, b, c, d]
    simp only [String.utf8EncodeChar, hv]
    rw [if_neg (by omega), if_neg (by omega), if_neg (by omega), ofNat_eq (b := a) (by omega),
      ofNat_eq (b := b) (by omega), ofNat_eq (b := c) (by omega), ofNat_eq (b := d) (by omega)]

theorem toNat_byte {n : Nat} (h : n < 0x100) : (UInt8.ofNat n).toNat = n := by
  rw [UInt8.toNat_ofNat', Nat.mod_eq_of_lt h]

/- The cases are those of the encoding, by the number of the character. -/
theorem sequence_encode (x : Char) : Sequence (String.utf8EncodeChar x) x := by
  have hvalid : x.toNat < 0xD800 ∨ 0xDFFF < x.toNat ∧ x.toNat < 0x110000 := x.valid
  have hval : x.val.toNat = x.toNat := rfl
  simp only [String.utf8EncodeChar, hval]
  split
  · let a := UInt8.ofNat x.toNat
    have ha : a.toNat = x.toNat := toNat_byte (by omega)
    have hx : Char.ofNat a.toNat = x := ofNat_eq_char ha
    have hone : Sequence [a] (Char.ofNat a.toNat) := .one ((sequenceLength?_iff ..).mpr (by omega))
    rwa [hx] at hone
  · split
    · let a := UInt8.ofNat (x.toNat / 64 % 0x20 + 0xC0)
      let b := UInt8.ofNat (x.toNat % 0x40 + 0x80)
      have ha : a.toNat = x.toNat / 64 % 0x20 + 0xC0 := toNat_byte (by omega)
      have hb : b.toNat = x.toNat % 0x40 + 0x80 := toNat_byte (by omega)
      have hx : Char.ofNat (64 * (a.toNat - 0xC0) + (b.toNat - 0x80)) = x := ofNat_eq_char (by omega)
      have htwo : Sequence [a, b] (Char.ofNat (64 * (a.toNat - 0xC0) + (b.toNat - 0x80))) :=
        .two ((sequenceLength?_iff ..).mpr (by omega)) ((admitsSecond_iff ..).mpr (by omega))
      rwa [hx] at htwo
    · split
      · let a := UInt8.ofNat (x.toNat / 4096 % 0x10 + 0xE0)
        let b := UInt8.ofNat (x.toNat / 64 % 0x40 + 0x80)
        let c := UInt8.ofNat (x.toNat % 0x40 + 0x80)
        have ha : a.toNat = x.toNat / 4096 % 0x10 + 0xE0 := toNat_byte (by omega)
        have hb : b.toNat = x.toNat / 64 % 0x40 + 0x80 := toNat_byte (by omega)
        have hc : c.toNat = x.toNat % 0x40 + 0x80 := toNat_byte (by omega)
        have hx : Char.ofNat (64 * (64 * (a.toNat - 0xE0) + (b.toNat - 0x80)) +
            (c.toNat - 0x80)) = x := ofNat_eq_char (by omega)
        have hthree : Sequence [a, b, c] (Char.ofNat (64 * (64 * (a.toNat - 0xE0) +
            (b.toNat - 0x80)) + (c.toNat - 0x80))) :=
          .three ((sequenceLength?_iff ..).mpr (by omega)) ((admitsSecond_iff ..).mpr (by omega))
            ((isContinuation_iff c).mpr (by omega))
        rwa [hx] at hthree
      · let a := UInt8.ofNat (x.toNat / 262144 % 0x08 + 0xF0)
        let b := UInt8.ofNat (x.toNat / 4096 % 0x40 + 0x80)
        let c := UInt8.ofNat (x.toNat / 64 % 0x40 + 0x80)
        let d := UInt8.ofNat (x.toNat % 0x40 + 0x80)
        have ha : a.toNat = x.toNat / 262144 % 0x08 + 0xF0 := toNat_byte (by omega)
        have hb : b.toNat = x.toNat / 4096 % 0x40 + 0x80 := toNat_byte (by omega)
        have hc : c.toNat = x.toNat / 64 % 0x40 + 0x80 := toNat_byte (by omega)
        have hd : d.toNat = x.toNat % 0x40 + 0x80 := toNat_byte (by omega)
        have hx : Char.ofNat (64 * (64 * (64 * (a.toNat - 0xF0) + (b.toNat - 0x80)) +
            (c.toNat - 0x80)) + (d.toNat - 0x80)) = x := ofNat_eq_char (by omega)
        have hfour : Sequence [a, b, c, d] (Char.ofNat (64 * (64 * (64 * (a.toNat - 0xF0) +
            (b.toNat - 0x80)) + (c.toNat - 0x80)) + (d.toNat - 0x80))) :=
          .four ((sequenceLength?_iff ..).mpr (by omega)) ((admitsSecond_iff ..).mpr (by omega))
            ((isContinuation_iff c).mpr (by omega)) ((isContinuation_iff d).mpr (by omega))
        rwa [hx] at hfour

/-! ### Decoding -/

theorem decodeFrom_sequence {bytes : List UInt8} {x : Char} (h : Sequence bytes x) (offset : Nat)
    (rest : List UInt8) : decodeFrom offset (bytes ++ rest) =
      (decodeFrom (offset + bytes.length) rest).map (x :: ·) := by
  cases h with
  | one ha =>
    show decodeFrom offset (_ :: rest) = _
    rw [decodeFrom.eq_def]
    simp only [ha]
    rfl
  | two ha hb =>
    show decodeFrom offset (_ :: _ :: rest) = _
    rw [decodeFrom.eq_def]
    simp only [ha, hb, Bool.not_true, Bool.false_eq_true, if_false]
    rfl
  | three ha hb hc =>
    show decodeFrom offset (_ :: _ :: _ :: rest) = _
    rw [decodeFrom.eq_def]
    simp only [ha, hb, hc, Bool.not_true, Bool.false_eq_true, if_false]
    rfl
  | four ha hb hc hd =>
    show decodeFrom offset (_ :: _ :: _ :: _ :: rest) = _
    rw [decodeFrom.eq_def]
    simp only [ha, hb, hc, hd, Bool.not_true, Bool.false_eq_true, if_false]
    rfl

theorem decodeFrom_encoding (offset : Nat) (cs : List Char) :
    decodeFrom offset (cs.flatMap String.utf8EncodeChar) = .ok cs := by
  induction cs generalizing offset with
  | nil => rfl
  | cons c cs ih =>
    rw [List.flatMap_cons, decodeFrom_sequence (sequence_encode c), ih]
    rfl

theorem encoding_cons {front rest : List UInt8} {x : Char} {cs : List Char}
    {decoded : Except Utf8Fault (List Char)} (hfront : Sequence front x)
    (hrest : ∀ {xs}, decoded = .ok xs → rest = xs.flatMap String.utf8EncodeChar)
    (h : decoded.map (x :: ·) = .ok cs) : front ++ rest = cs.flatMap String.utf8EncodeChar := by
  cases decoded with
  | error fault => cases h
  | ok xs =>
    obtain rfl := Except.ok.inj h
    rw [List.flatMap_cons, hfront.encode_eq, ← hrest rfl]

/- Only where a whole sequence was taken does decoding go on. -/
theorem encoding_of_decodeFrom {offset : Nat} {bytes : List UInt8} {cs : List Char}
    (h : decodeFrom offset bytes = .ok cs) : bytes = cs.flatMap String.utf8EncodeChar := by
  fun_induction decodeFrom offset bytes generalizing cs with
  | case1 =>
    obtain rfl := Except.ok.inj h
    rfl
  | case2 offset a rest ha ih => exact encoding_cons (.one ha) ih h
  | case5 offset a ha b rest hb ih =>
    exact encoding_cons (.two ha (by simpa using hb)) ih h
  | case10 offset a ha b hb c rest hc ih =>
    exact encoding_cons (.three ha (by simpa using hb) (by simpa using hc)) ih h
  | case17 offset a n hone htwo hthree ha b hb c hc d rest hd ih =>
    have hfour : n = 4 := by
      rcases (sequenceLength?_iff a n).mp ha with h | h | h | h
      · exact absurd h.1 hone
      · exact absurd h.1 htwo
      · exact absurd h.1 hthree
      · exact h.1
    rw [hfour] at ha
    exact encoding_cons (.four ha (by simpa using hb) (by simpa using hc) (by simpa using hd)) ih h
  | _ => cases h

/-! ### Whole texts -/

theorem toList_toByteArray (bytes : List UInt8) : bytes.toByteArray.toList = bytes := by
  have hloop : ∀ (b : ByteArray) (i : Nat) (r : List UInt8),
      ByteArray.toList.loop b i r = r.reverse ++ b.data.toList.drop i := by
    intro b i r
    fun_induction ByteArray.toList.loop b i r with
    | case1 i r hi ih =>
      have hlt : i < b.data.toList.length := hi
      have hget : b.get! i = b.data.toList[i] := by
        show b.data[i]! = _
        rw [getElem!_pos b.data i hi, Array.getElem_toList]
      rw [ih, List.drop_eq_getElem_cons hlt, hget]
      simp
    | case2 i r hi =>
      have hdone : b.data.toList.drop i = [] := List.drop_eq_nil_of_le (Nat.le_of_not_lt hi)
      rw [hdone, List.append_nil]
  rw [ByteArray.toList, hloop, List.toList_data_toByteArray]
  rfl

theorem encode_ofList (cs : List Char) :
    encode (String.ofList cs) = cs.flatMap String.utf8EncodeChar := by
  rw [encode, String.toUTF8_eq_toByteArray, String.toByteArray_ofList, List.utf8Encode,
    toList_toByteArray]

/-- A list of bytes is decoded exactly if it is the encoding of a text, which then comes out. -/
theorem decode_ok_iff (bytes : List UInt8) (cs : List Char) :
    decode bytes = .ok cs ↔ bytes = encode (String.ofList cs) := by
  rw [encode_ofList]
  constructor
  · exact encoding_of_decodeFrom
  · intro h
    rw [h]
    exact decodeFrom_encoding 0 cs

theorem decode_encode (s : String) : decode (encode s) = .ok s.toList :=
  (decode_ok_iff _ _).mpr (by rw [String.ofList_toList])

end SuiteView.Text
