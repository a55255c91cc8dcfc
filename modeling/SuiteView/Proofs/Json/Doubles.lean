import SuiteView.Proofs.Json.Numbers

/-!
# Doubles are read as they are written

A finite double is written with the digits of its shortest decimal, without the zeros at their end,
in positions or with an exponent. Either way the text spells the value of that decimal, and a decimal
is read by its value, so the double comes back with its sign.
-/

namespace SuiteView.Json

open Double

/-! ### Values of digits -/

theorem digitsValue_append (xs ys : List Char) :
    digitsValue (xs ++ ys) = digitsValue xs * 10 ^ ys.length + digitsValue ys := by
  have happend : digitsValue (xs ++ ys) = Nat.ofDigitChars 10 ys (digitsValue xs) :=
    Nat.ofDigitChars_append 0
  rw [happend, Nat.ofDigitChars_eq_ofDigitChars_zero, Nat.mul_comm]
  rfl

theorem digitsValue_zeros (k : Nat) : digitsValue (List.replicate k '0') = 0 := by
  have h : digitsValue (List.replicate k '0') = 10 ^ k * 0 := Nat.ofDigitChars_replicate_zero
  rw [h, Nat.mul_zero]

/-! ### Texts that spell a decimal -/

/-- Behind any sign the text is read as the double nearest to the decimal. -/
def Spells (text : List Char) (digits : Nat) (e : Int) : Prop :=
  ∃ whole tail, text = whole ++ tail ∧ IsWhole whole ∧ ∀ negative p rest, Stops rest →
    ∃ q, readNumber? ⟨p, signText negative ++ whole ++ (tail ++ rest)⟩ =
      some (.ok (.number (ofDecimal negative digits e), ⟨q, rest⟩))

theorem Spells.congr {text : List Char} {digits digits' : Nat} {e e' : Int}
    (h : Spells text digits e) (hvalue : (digits : ℚ) * 10 ^ e = digits' * 10 ^ e') :
    Spells text digits' e' := by
  obtain ⟨whole, tail, htext, hwhole, hread⟩ := h
  refine ⟨whole, tail, htext, hwhole, fun negative p rest hrest => ?_⟩
  obtain ⟨q, hq⟩ := hread negative p rest hrest
  exact ⟨q, by rw [hq, ofDecimal_congr negative hvalue]⟩

variable {whole fraction rest : List Char}

theorem fractionDigits_point (hfraction : ∀ d ∈ fraction, isDigit d = true)
    (hrest : ∀ c ∈ rest.head?, isDigit c = false) :
    fractionDigits ('.' :: (fraction ++ rest)) = fraction :=
  takeWhile_append_stop hfraction hrest

theorem behindFraction_point (hfraction : ∀ d ∈ fraction, isDigit d = true) (hne : fraction ≠ [])
    (hrest : ∀ c ∈ rest.head?, isDigit c = false) :
    behindFraction ('.' :: (fraction ++ rest)) = rest := by
  rw [behindFraction, fractionDigits_point hfraction hrest]
  simp [hne]

theorem spells_point (hwhole : IsWhole whole) (hfraction : ∀ d ∈ fraction, isDigit d = true)
    (hne : fraction ≠ []) :
    Spells (whole ++ '.' :: fraction) (digitsValue (whole ++ fraction)) (-fraction.length) := by
  refine ⟨whole, '.' :: fraction, rfl, hwhole, fun negative p rest hrest => ?_⟩
  have hpoint : ∀ c ∈ ('.' :: fraction ++ rest).head?, isDigit c = false := by
    intro c hc
    obtain rfl := Option.some.inj hc
    decide
  obtain ⟨q, hq⟩ := readNumber?_eq negative p hwhole hpoint
  refine ⟨q, ?_⟩
  rw [hq, List.cons_append, fractionDigits_point hfraction hrest.not_isDigit,
    behindFraction_point hfraction hne hrest.not_isDigit]
  unfold numberFrom
  rw [hrest.exponentParts]
  simp [hne]

/-! ### Exponents -/

theorem exponentMark_eq (e : Int) : ∃ digits, exponentMark e =
      'e' :: (if e < 0 then '-' else '+') :: digits ∧ digits ≠ [] ∧
      (∀ d ∈ digits, isDigit d = true) ∧ digitsValue digits = e.natAbs := by
  refine ⟨_, rfl, ?_, ?_, ?_⟩
  · split <;> simp
  · split
    · intro d hd
      rcases List.mem_cons.mp hd with rfl | hd
      · decide
      · exact isDigit_of_mem_toDigits hd
    · intro d hd
      exact isDigit_of_mem_toDigits hd
  · split
    · have hzero : digitsValue ('0' :: Nat.toDigits 10 e.natAbs) =
          digitsValue (Nat.toDigits 10 e.natAbs) := rfl
      rw [hzero, digitsValue_toDigits]
    · exact digitsValue_toDigits _

theorem exponentParts_mark {sign : Char} {digits : List Char} (hsign : sign = '-' ∨ sign = '+')
    (hdigits : ∀ d ∈ digits, isDigit d = true) (hne : digits ≠ [])
    (hrest : ∀ c ∈ rest.head?, isDigit c = false) :
    exponentParts ('e' :: sign :: (digits ++ rest)) = some ([sign], digits) := by
  have htake := takeWhile_append_stop hdigits hrest
  rcases hsign with rfl | rfl
  · simp [exponentParts, htake, hne]
  · simp [exponentParts, htake, hne]

theorem numberFrom_mark (negative : Bool) (position : Nat) (whole fraction : List Char) (e : Int)
    (hrest : Stops rest) :
    ∃ q, numberFrom negative position whole fraction (exponentMark e ++ rest) =
      .ok (.number (ofDecimal negative (digitsValue (whole ++ fraction)) (e - fraction.length)),
        ⟨q, rest⟩) := by
  obtain ⟨digits, hmark, hne, hdigits, hvalue⟩ := exponentMark_eq e
  have hsign : (if e < 0 then '-' else '+') = '-' ∨ (if e < 0 then '-' else '+') = '+' := by
    split <;> simp
  have hparts : exponentParts (exponentMark e ++ rest) =
      some ([if e < 0 then '-' else '+'], digits) := by
    rw [hmark]
    exact exponentParts_mark hsign hdigits hne hrest.not_isDigit
  have hexponent : (if [if e < 0 then '-' else '+'] = ['-'] then -(digitsValue digits : Int)
      else digitsValue digits) = e := by
    rw [hvalue]
    by_cases he : e < 0
    · simp only [he, if_true]
      omega
    · simp [he]
      omega
  have hdrop : (exponentMark e ++ rest).drop
      (1 + [if e < 0 then '-' else '+'].length + digits.length) = rest := by
    rw [hmark]
    have hlength : 1 + [if e < 0 then '-' else '+'].length + digits.length = digits.length + 2 := by
      simp
      omega
    rw [hlength]
    simp
  unfold numberFrom
  rw [hparts]
  simp only [hexponent, hdrop]
  exact ⟨_, rfl⟩

theorem exponentMark_head (e : Int) (rest : List Char) :
    (exponentMark e ++ rest).head? = some 'e' := rfl

theorem isWhole_digit {d : Char} (hd : isDigit d = true) : IsWhole [d] where
  digits c hc := by
    rw [List.mem_singleton.mp hc]
    exact hd
  nonempty := List.cons_ne_nil _ _
  first h := by rw [Option.some.inj h]

theorem spells_scientific {d : Char} {ds : List Char} (point : Int) (hd : isDigit d = true)
    (hds : ∀ c ∈ ds, isDigit c = true) :
    Spells (scientific (d :: ds) point) (digitsValue (d :: ds)) (point - 1 - ds.length) := by
  refine ⟨[d], (if ds.isEmpty then [] else '.' :: ds) ++ exponentMark (point - 1), rfl,
    isWhole_digit hd, fun negative p rest hrest => ?_⟩
  have hmark : ∀ c ∈ (exponentMark (point - 1) ++ rest).head?, c = 'e' := by
    intro c hc
    rw [exponentMark_head] at hc
    exact (Option.some.inj hc).symm
  have hnodigit : ∀ c ∈ (exponentMark (point - 1) ++ rest).head?, isDigit c = false := by
    intro c hc
    rw [hmark c hc]
    decide
  have hnopoint : ∀ c ∈ (exponentMark (point - 1) ++ rest).head?, c ≠ '.' := by
    intro c hc
    rw [hmark c hc]
    decide
  obtain ⟨position, hnumber⟩ : ∃ position, readNumber? ⟨p, signText negative ++ [d] ++
        ((if ds.isEmpty then [] else '.' :: ds) ++ exponentMark (point - 1) ++ rest)⟩ =
      some (numberFrom negative position [d] ds (exponentMark (point - 1) ++ rest)) := by
    cases ds with
    | nil =>
      obtain ⟨position, hq⟩ := readNumber?_eq negative p (isWhole_digit hd) hnodigit
      rw [fractionDigits_eq_nil hnopoint, behindFraction_eq_self hnopoint] at hq
      exact ⟨position, hq⟩
    | cons c cs =>
      have hpoint : ∀ x ∈ ('.' :: (c :: cs ++ (exponentMark (point - 1) ++ rest))).head?,
          isDigit x = false := by
        intro x hx
        obtain rfl := Option.some.inj hx
        decide
      obtain ⟨position, hq⟩ := readNumber?_eq negative p (isWhole_digit hd) hpoint
      rw [fractionDigits_point hds hnodigit,
        behindFraction_point hds (List.cons_ne_nil _ _) hnodigit] at hq
      refine ⟨position, ?_⟩
      rw [← hq]
      simp
  obtain ⟨q, hq⟩ := numberFrom_mark negative position [d] ds (point - 1) hrest
  exact ⟨q, by rw [hnumber, hq]; rfl⟩

/-! ### Positions -/

/-- Digits that can stand in front: there are some, and the first is no zero. -/
structure Leads (front : List Char) : Prop where
  digits : ∀ d ∈ front, isDigit d = true
  nonempty : front ≠ []
  first : front.head? ≠ some '0'

theorem Leads.append_isWhole {front : List Char} (h : Leads front) {more : List Char}
    (hmore : ∀ d ∈ more, isDigit d = true) : IsWhole (front ++ more) where
  digits d hd := (List.mem_append.mp hd).elim (h.digits d) (hmore d)
  nonempty := List.append_ne_nil_of_left_ne_nil h.nonempty more
  first hzero := by
    rw [List.head?_append_of_ne_nil _ h.nonempty] at hzero
    exact absurd hzero h.first

theorem isDigit_of_mem_zeros {k : Nat} {d : Char} (hd : d ∈ List.replicate k '0') :
    isDigit d = true := by
  rw [(List.mem_replicate.mp hd).2]
  decide

variable {digits : List Char}

theorem spells_behind (k : Nat) (h : Leads digits) :
    Spells ('0' :: '.' :: List.replicate k '0' ++ digits) (digitsValue digits)
      (-(k + digits.length : Nat)) := by
  have hall : ∀ d ∈ List.replicate k '0' ++ digits, isDigit d = true := fun d hd =>
    (List.mem_append.mp hd).elim isDigit_of_mem_zeros (h.digits d)
  have hne : List.replicate k '0' ++ digits ≠ [] :=
    List.append_ne_nil_of_right_ne_nil _ h.nonempty
  have hspells := spells_point (isWhole_digit (by decide : isDigit '0' = true)) hall hne
  have hvalue : digitsValue (['0'] ++ (List.replicate k '0' ++ digits)) = digitsValue digits := by
    rw [digitsValue_append, digitsValue_append, digitsValue_zeros, Nat.zero_mul, Nat.zero_add]
    have hzero : digitsValue ['0'] = 0 := rfl
    rw [hzero, Nat.zero_mul, Nat.zero_add]
  rw [hvalue, List.length_append, List.length_replicate] at hspells
  exact hspells

theorem spells_front (k : Nat) (h : Leads digits) :
    Spells (digits ++ List.replicate k '0' ++ ['.', '0']) (digitsValue digits) k := by
  have hzero : ∀ d ∈ ['0'], isDigit d = true := fun d hd => by
    rw [List.mem_singleton.mp hd]
    decide
  have hspells := spells_point (h.append_isWhole fun d hd => isDigit_of_mem_zeros (k := k) hd) hzero
    (List.cons_ne_nil _ _)
  have hvalue : digitsValue (digits ++ List.replicate k '0' ++ ['0']) =
      digitsValue digits * 10 ^ (k + 1) := by
    have hlast : List.replicate k '0' ++ ['0'] = List.replicate (k + 1) '0' :=
      List.replicate_succ'.symm
    rw [List.append_assoc, hlast, digitsValue_append, digitsValue_zeros, List.length_replicate,
      Nat.add_zero]
  rw [hvalue] at hspells
  refine hspells.congr ?_
  have hpow : (10 : ℚ) ^ (-(['0'].length : Int)) = 10⁻¹ := by norm_num
  rw [hpow, zpow_natCast]
  push_cast
  rw [pow_succ]
  field_simp

theorem spells_inside {k : Nat} (h : Leads digits) (hk : 0 < k) (hlength : k < digits.length) :
    Spells (digits.take k ++ '.' :: digits.drop k) (digitsValue digits) (k - digits.length) := by
  have hfront : Leads (digits.take k) := by
    refine ⟨fun d hd => h.digits d (List.mem_of_mem_take hd), ?_, ?_⟩
    · rw [Ne, List.take_eq_nil_iff]
      intro hnil
      rcases hnil with hzero | hnil
      · omega
      · exact h.nonempty hnil
    · rw [List.head?_take, if_neg (by omega)]
      exact h.first
  have hwhole : IsWhole (digits.take k) := by
    have hwhole := hfront.append_isWhole fun d (hd : d ∈ []) => by cases hd
    rwa [List.append_nil] at hwhole
  have hback : ∀ d ∈ digits.drop k, isDigit d = true := fun d hd =>
    h.digits d (List.mem_of_mem_drop hd)
  have hne : digits.drop k ≠ [] := by
    rw [Ne, List.drop_eq_nil_iff]
    omega
  have hspells := spells_point hwhole hback hne
  rw [List.take_append_drop, List.length_drop] at hspells
  have hexponent : -((digits.length - k : Nat) : Int) = k - digits.length := by omega
  rwa [hexponent] at hspells

theorem spells_positional (point : Int) (h : Leads digits) :
    Spells (positional digits point) (digitsValue digits) (point - digits.length) := by
  unfold positional
  split
  next hpoint =>
    have hspells := spells_behind (-point).toNat h
    have hexponent : (-((-point).toNat + digits.length : Nat) : Int) = point - digits.length := by
      omega
    rwa [hexponent] at hspells
  next hpoint =>
    dsimp only
    split
    next hlength =>
      have hspells := spells_front (point.toNat - digits.length) h
      have hexponent : ((point.toNat - digits.length : Nat) : Int) = point - digits.length := by
        omega
      rwa [hexponent] at hspells
    next hlength =>
      have hspells := spells_inside h (show 0 < point.toNat by omega) (by omega)
      have hexponent : (point.toNat : Int) = point := by omega
      rwa [hexponent] at hspells

/-! ### Zeros at the end -/

theorem trimZeros_append (h : Leads digits) :
    ∃ k, digits = trimZeros digits ++ List.replicate k '0' ∧ Leads (trimZeros digits) := by
  set zeros := digits.reverse.takeWhile (· = '0') with hzeros
  set others := digits.reverse.dropWhile (· = '0') with hothers
  have hsplit : digits = others.reverse ++ zeros.reverse := by
    rw [← List.reverse_append, List.takeWhile_append_dropWhile, List.reverse_reverse]
  have hreplicate : zeros.reverse = List.replicate zeros.length '0' := by
    rw [List.eq_replicate_iff]
    refine ⟨List.length_reverse, fun d hd => ?_⟩
    have hall := List.all_takeWhile (l := digits.reverse) (p := (· = '0'))
    simpa using List.all_eq_true.mp hall d (List.mem_reverse.mp hd)
  have hne : others.reverse ≠ [] := by
    intro hnil
    rw [hnil, List.nil_append, hreplicate] at hsplit
    have hhead := h.first
    rw [hsplit] at hhead
    have hlength : zeros.length ≠ 0 := by
      intro hzero
      rw [hzero] at hsplit
      exact h.nonempty hsplit
    exact hhead (by rw [List.head?_replicate, if_neg hlength])
  have htrim : trimZeros digits = others.reverse := by
    unfold trimZeros
    split
    next hnil => exact absurd hnil hne
    next => rfl
  rw [htrim]
  refine ⟨zeros.length, ?_, fun d hd => h.digits d ?_, hne, ?_⟩
  · rw [← hreplicate]
    exact hsplit
  · rw [hsplit]
    exact List.mem_append_left _ hd
  · have hhead := h.first
    rw [hsplit, List.head?_append_of_ne_nil _ hne] at hhead
    exact hhead

theorem leads_toDigits {n : Nat} (hn : 0 < n) : Leads (Nat.toDigits 10 n) :=
  ⟨fun _ hd => isDigit_of_mem_toDigits hd, Nat.toDigits_ne_nil, head?_toDigits hn⟩

/-! ### Doubles -/

variable {negative : Bool} {m : Nat} {e : Int}

theorem shortest_pos (hm : 0 < m) (hcanonical : (Double.finite negative m e).IsCanonical) :
    0 < (shortest m e).1 := by
  rw [Nat.pos_iff_ne_zero]
  intro hzero
  have hreads := shortest_reads negative hm hcanonical
  rw [hzero, ofDecimal, if_pos (.inl rfl), zero, Double.finite.injEq] at hreads
  omega

theorem spells_magnitude (hm : 0 < m) (hcanonical : (Double.finite negative m e).IsCanonical) :
    Spells (magnitude m e) (shortest m e).1 (shortest m e).2 := by
  have hn := shortest_pos hm hcanonical
  unfold magnitude
  rw [if_neg hm.ne']
  generalize shortest m e = r at hn ⊢
  obtain ⟨n, k⟩ := r
  obtain ⟨zeros, hsplit, hleads⟩ := trimZeros_append (leads_toDigits hn)
  dsimp only
  set trimmed := trimZeros (Nat.toDigits 10 n)
  have hlength : (Nat.toDigits 10 n).length = trimmed.length + zeros := by
    rw [hsplit, List.length_append, List.length_replicate]
  have hvalue : n = digitsValue trimmed * 10 ^ zeros := by
    rw [← digitsValue_toDigits n, hsplit, digitsValue_append, digitsValue_zeros,
      List.length_replicate, Nat.add_zero]
  have hpoint : k + (Nat.toDigits 10 n).length - trimmed.length = k + zeros := by omega
  have hsame : (digitsValue trimmed : ℚ) * 10 ^ (k + zeros : Int) = n * 10 ^ k := by
    rw [hvalue, zpow_add₀ (by norm_num), zpow_natCast]
    push_cast
    ring
  split
  · have hspells := spells_positional (k + (Nat.toDigits 10 n).length) hleads
    rw [hpoint] at hspells
    exact hspells.congr hsame
  · obtain ⟨d, ds, hcons⟩ := List.exists_cons_of_ne_nil hleads.nonempty
    have hd : isDigit d = true := hleads.digits d (hcons ▸ List.mem_cons_self ..)
    have hds : ∀ c ∈ ds, isDigit c = true := fun c hc =>
      hleads.digits c (hcons ▸ List.mem_cons_of_mem _ hc)
    have hspells := spells_scientific (k + (Nat.toDigits 10 n).length) hd hds
    have hexponent : k + (Nat.toDigits 10 n).length - 1 - ds.length = k + zeros := by
      rw [hlength, hcons, List.length_cons]
      push_cast
      omega
    rw [← hcons, hexponent] at hspells
    exact hspells.congr hsame

theorem render_finite (negative : Bool) (m : Nat) (e : Int) :
    ((Double.finite negative m e).render .json).toList = signText negative ++ magnitude m e := by
  cases negative <;> simp [render, signText]

/-- A double is read from the text that it is written as. -/
theorem readValue_double {x : Double} (hcanonical : x.IsCanonical) (fuel p : Nat)
    (hrest : Stops rest) :
    ∃ q, readValue (fuel + 1) ⟨p, (x.render .json).toList ++ rest⟩ =
      .ok (.number x, ⟨q, rest⟩) := by
  cases x with
  | nan =>
    have hnamed : ("NaN", Value.number .nan) ∈ namedValues := by simp [namedValues]
    exact ⟨_, readValue_named hnamed fuel p rest⟩
  | infinite negative =>
    cases negative with
    | false =>
      have hnamed : ("Infinity", Value.number (.infinite false)) ∈ namedValues := by
        simp [namedValues]
      exact ⟨_, readValue_named hnamed fuel p rest⟩
    | true =>
      have hnamed : ("-Infinity", Value.number (.infinite true)) ∈ namedValues := by
        simp [namedValues]
      exact ⟨_, readValue_named hnamed fuel p rest⟩
  | finite negative m e =>
    have hspells : ∃ digits k, Spells (magnitude m e) digits k ∧
        ofDecimal negative digits k = .finite negative m e := by
      rcases Nat.eq_zero_or_pos m with rfl | hm
      · have hleast : e = minExponent := by
          rcases hcanonical.2.2.2 with hbits | hleast
          · exact absurd hbits (by decide)
          · exact hleast
        refine ⟨_, _, spells_point (isWhole_digit (by decide : isDigit '0' = true)) ?_
          (List.cons_ne_nil _ _), ?_⟩
        · intro d hd
          rw [List.mem_singleton.mp hd]
          decide
        · rw [hleast]
          rfl
      · exact ⟨_, _, spells_magnitude hm hcanonical, shortest_reads negative hm hcanonical⟩
    obtain ⟨digits, k, ⟨whole, tail, htext, hwhole, hread⟩, hvalue⟩ := hspells
    obtain ⟨q, hq⟩ := hread negative p rest hrest
    refine ⟨q, ?_⟩
    rw [render_finite, htext, List.append_assoc, List.append_assoc, ← List.append_assoc,
      readValue_number fuel negative p hwhole (tail ++ rest) hq, hvalue]

end SuiteView.Json
