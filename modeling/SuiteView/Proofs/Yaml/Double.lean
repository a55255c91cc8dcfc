import SuiteView.Proofs.Json.Strings
import SuiteView.Proofs.Yaml.Single

/-!
# Double-quoted scalars

Double quotes can carry every text: what is no plain character is escaped, and a line is continued
behind a backslash, with a mark in front of a space that would start the next line. Where the
indentation alone fills a line, the space that was marked is moved to one more line. The mark and the
backslash of that line then read as a backslash, its line end as a space, and the text comes back
longer than it was.
-/

namespace SuiteView.Yaml

/-! ### What double quotes carry -/

/-- What a text in double quotes is read as. In a `deep` place a space behind an escape gets a backslash
and a space in front, unless the escape is the first code point or the space the last. -/
def carryDouble (deep : Bool) : (first escaped : Bool) → Text → Text
  | _, _, [] => []
  | first, escaped, c :: rest =>
    let others := carryDouble deep false (!first && (verbatim? c).isNone) rest
    if deep && escaped && c = .char ' ' && !rest.isEmpty then .char '\\' :: .char ' ' :: c :: others
    else c :: others

theorem carryDouble_false (first escaped : Bool) (t : Text) : carryDouble false first escaped t = t := by
  induction t generalizing first escaped with
  | nil => rfl
  | cons c t ih =>
    rw [carryDouble, ih]
    rfl

theorem pair_infix_dropLast_cons {a b c : CodePoint} {t : Text} :
    [a, b] <:+: (c :: t).dropLast ↔
      (a = c ∧ ∃ d rest, t = b :: d :: rest) ∨ [a, b] <:+: t.dropLast := by
  cases t with
  | nil => simp
  | cons x xs =>
    rw [List.dropLast_cons_of_ne_nil (by simp), List.infix_cons_iff, List.cons_prefix_cons]
    cases xs with
    | nil => simp
    | cons y ys =>
      rw [List.dropLast_cons_of_ne_nil (by simp), List.cons_prefix_cons]
      simp [eq_comm]

theorem carryDouble_inside_eq_self_iff (escaped : Bool) (t : Text) :
    carryDouble true false escaped t = t ↔
      ¬ (escaped = true ∧ ∃ d rest, t = .char ' ' :: d :: rest) ∧
        ∀ c, verbatim? c = none → ¬ [c, .char ' '] <:+: t.dropLast := by
  induction t generalizing escaped with
  | nil => simp [carryDouble]
  | cons c t ih =>
    by_cases hplace : escaped = true ∧ ∃ d rest, c :: t = .char ' ' :: d :: rest
    · obtain ⟨hescaped, d, rest, heq⟩ := hplace
      obtain ⟨rfl, rfl⟩ := List.cons.inj heq
      refine iff_of_false ?_ fun h => h.1 ⟨hescaped, d, rest, rfl⟩
      simp [carryDouble, hescaped]
    · have hkept : carryDouble true false escaped (c :: t) =
          c :: carryDouble true false (verbatim? c).isNone t := by
        rw [carryDouble, if_neg]
        · rfl
        · intro h
          simp only [Bool.and_eq_true, decide_eq_true_eq, Bool.not_eq_true', List.isEmpty_eq_false_iff]
            at h
          obtain ⟨⟨⟨-, hescaped⟩, rfl⟩, hne⟩ := h
          obtain ⟨d, rest, rfl⟩ := List.exists_cons_of_ne_nil hne
          exact hplace ⟨hescaped, d, rest, rfl⟩
      rw [hkept, List.cons.injEq, and_iff_right rfl, ih, and_iff_right hplace]
      simp only [pair_infix_dropLast_cons, Option.isNone_iff_eq_none]
      constructor
      · rintro ⟨hhead, htail⟩ d hd (⟨rfl, hspace⟩ | hinside)
        · exact hhead ⟨hd, hspace⟩
        · exact htail d hd hinside
      · exact fun h => ⟨fun hhead => h c hhead.1 (.inl ⟨rfl, hhead.2⟩), fun d hd hinside =>
          h d hd (.inr hinside)⟩

/-- A text comes back as it was unless a space inside it follows an escape that is inside it too. -/
theorem carryDouble_eq_self_iff (deep : Bool) (t : Text) :
    carryDouble deep true false t = t ↔
      (deep = true → ∀ c, verbatim? c = none → ¬ [c, .char ' '] <:+: t.tail.dropLast) := by
  cases deep with
  | false => simp [carryDouble_false]
  | true =>
    cases t with
    | nil => simp [carryDouble]
    | cons c t =>
      have hfirst : carryDouble true true false (c :: t) = c :: carryDouble true false false t := rfl
      rw [hfirst, List.cons.injEq, and_iff_right rfl, carryDouble_inside_eq_self_iff]
      simp

/-! ### Escapes -/

theorem prepend_prepend {α : Type} (front inner : List α) (r : Option (List α × List Char)) :
    prepend front (prepend inner r) = prepend (front ++ inner) r := by
  cases r with
  | none => rfl
  | some r => simp [prepend]

theorem prepend_nil {α : Type} (r : Option (List α × List Char)) : prepend [] r = r := by
  cases r <;> rfl

theorem hexValue?_upper : ∀ n < 16, Text.hexValue? (Text.hexDigit n).toUpper = some n := by decide

theorem readHexFrom_upper (width m n : Nat) :
    Text.readHexFrom m ((Text.hex width n).map Char.toUpper) = Text.readHexFrom m (Text.hex width n) := by
  induction width generalizing n with
  | zero => rfl
  | succ width ih =>
    have hmod : n % 16 < 16 := Nat.mod_lt _ (by decide)
    rw [Text.hex, List.map_append, Text.readHexFrom_append, Text.readHexFrom_append, ih]
    simp [Text.readHexFrom, hexValue?_upper _ hmod, Text.hexValue?_hexDigit _ hmod]

theorem readDouble_digits {left value n : Nat} {ds : List Char} (hleft : ds.length = left)
    (hne : ds ≠ []) (hvalue : Text.readHexFrom value ds = some n) (hn : n ≤ 0x10FFFF)
    (rest : List Char) :
    readDouble (.digits left value) (ds ++ rest) =
      prepend [CodePoint.ofNat n] (readDouble (.between .nothing) rest) := by
  induction ds generalizing left value with
  | nil => exact absurd rfl hne
  | cons d ds ih =>
    rw [Text.readHexFrom, Option.bind_eq_some_iff] at hvalue
    obtain ⟨v, hv, hvalue⟩ := hvalue
    rw [List.cons_append, readDouble, hv]
    dsimp only
    cases ds with
    | nil =>
      have hone : left = 1 := hleft.symm
      have hlast : 16 * value + v = n := Option.some.inj hvalue
      rw [if_neg (by omega), hlast, if_pos hn]
      rfl
    | cons e ds =>
      rw [List.length_cons, List.length_cons] at hleft
      rw [if_pos (by omega)]
      exact ih (by rw [List.length_cons]; omega) (by simp) hvalue

theorem toNat_le (c : CodePoint) : c.toNat ≤ 0x10FFFF := by
  cases c with
  | char c => exact Nat.le_of_lt_succ (by
      rcases c.valid with h | h
      · have hlow : c.toNat < 0xD800 := h
        show c.toNat < _
        omega
      · exact h.2)
  | surrogate offset =>
    have hoffset := offset.isLt
    show 0xD800 + offset.val ≤ _
    omega

theorem ofNat_toNat (c : CodePoint) : CodePoint.ofNat c.toNat = c := by
  cases c with
  | char c => exact Json.ofNat_toNat_char c
  | surrogate offset => exact Json.ofNat_toNat_surrogate offset

/-- The number of a code point in as many digits as it needs reads back as the code point. -/
theorem readDouble_number {width : Nat} {c : CodePoint} (hwidth : 0 < width)
    (hc : c.toNat < Text.hexCount width) (rest : List Char) :
    readDouble (.digits width 0) ((Text.hex width c.toNat).map Char.toUpper ++ rest) =
      prepend [c] (readDouble (.between .nothing) rest) := by
  have hlength : ((Text.hex width c.toNat).map Char.toUpper).length = width := by
    rw [List.length_map, Text.length_hex]
  have hne : (Text.hex width c.toNat).map Char.toUpper ≠ [] :=
    List.ne_nil_of_length_pos (by omega)
  have hread : Text.readHexFrom 0 ((Text.hex width c.toNat).map Char.toUpper) = some c.toNat := by
    rw [readHexFrom_upper, Text.readHexFrom_hex width 0 _ hc, Nat.mul_zero, Nat.zero_add]
  rw [readDouble_digits hlength hne hread (toNat_le c), ofNat_toNat]

theorem unescape?_shortEscape {c letter : Char} (h : shortEscape? c = some letter) :
    unescape? letter = some c ∧ escapeWidth? letter = none ∧ isBreak letter = false := by
  unfold shortEscape? at h
  split at h <;> cases h <;> exact ⟨rfl, rfl, rfl⟩

theorem readDouble_escape (gap : Gap) (cs : List Char) :
    readDouble (.between gap) ('\\' :: cs) = prepend (asText gap.shown) (readDouble .escape cs) := by
  rw [readDouble, if_neg (by decide), if_pos rfl]

theorem readDouble_escapeSequence (gap : Gap) (c : CodePoint) (rest : List Char) :
    readDouble (.between gap) (escapeSequence c ++ rest) =
      prepend (asText gap.shown ++ [c]) (readDouble (.between .nothing) rest) := by
  rw [← prepend_prepend]
  unfold escapeSequence
  split
  · rename_i letter hletter
    obtain ⟨d, hd, hshort⟩ := Option.bind_eq_some_iff.mp hletter
    have hc : c = .char d := by
      cases c with
      | char d' => exact congrArg CodePoint.char (Option.some.inj hd)
      | surrogate offset => cases hd
    obtain ⟨hunescape, hwidth, hbreak⟩ := unescape?_shortEscape hshort
    have hread : readDouble .escape (letter :: rest) =
        prepend [c] (readDouble (.between .nothing) rest) := by
      simp [readDouble, hbreak, hwidth, hunescape, hc]
    exact (readDouble_escape gap _).trans (congrArg _ hread)
  · dsimp only
    split
    · rename_i hsmall
      exact (readDouble_escape gap _).trans
        (congrArg _ (readDouble_number (by decide) (Nat.lt_succ_of_le hsmall) rest))
    · split
      · rename_i hsmall
        exact (readDouble_escape gap _).trans
          (congrArg _ (readDouble_number (by decide) (Nat.lt_succ_of_le hsmall) rest))
      · have hlarge : c.toNat < Text.hexCount 8 :=
          Nat.lt_of_le_of_lt (toNat_le c) (by decide)
        exact (readDouble_escape gap _).trans
          (congrArg _ (readDouble_number (by decide) hlarge rest))

theorem two_le_length_escapeSequence (c : CodePoint) : 2 ≤ (escapeSequence c).length := by
  unfold escapeSequence
  split
  · exact Nat.le_refl 2
  · dsimp only
    split_ifs <;> simp [Text.length_hex]

/-! ### Folds -/

theorem readDouble_padding {gap : Gap} (h : gap.hasLine = true) (n : Nat) (cs : List Char) :
    readDouble (.between gap) (padding n ++ cs) = readDouble (.between gap) cs := by
  induction n with
  | zero => rfl
  | succ n ih =>
    have hpadding : padding (n + 1) ++ cs = ' ' :: (padding n ++ cs) := rfl
    have hblank : isBlank ' ' = true := rfl
    rw [hpadding, readDouble, if_neg (by decide), if_neg (by decide), if_pos hblank,
      passBlank_of_hasLine h, ih]

/-- Behind a continued line the reader stands in front of the next character, or behind the mark that
was put in front of a space. -/
theorem readDouble_continueLine {indent : Nat} (hindent : 0 < indent) (gap : Gap)
    (beforeSpace : Bool) (cs : List Char) :
    readDouble (.between gap) (continueLine indent beforeSpace ++ cs) =
      prepend (asText gap.shown)
        (readDouble (if beforeSpace then .escape else .between (.continued [])) cs) := by
  have hline (cs : List Char) : readDouble .escape ('\n' :: (padding indent ++ cs)) =
      readDouble (.between (.continued [])) cs := by
    rw [readDouble, if_pos (by decide), if_neg (by simp [not_startsDocument_padding hindent]),
      readDouble_padding rfl]
  cases beforeSpace with
  | false =>
    have hwrite : continueLine indent false ++ cs = '\\' :: '\n' :: (padding indent ++ cs) := by
      simp [continueLine, foldBreak, padding]
    rw [hwrite, readDouble_escape, hline]
    rfl
  | true =>
    have hwrite : continueLine indent true ++ cs = '\\' :: '\n' :: (padding indent ++ '\\' :: cs) := by
      simp [continueLine, foldBreak, padding]
    rw [hwrite, readDouble_escape, hline, readDouble_escape]
    exact congrArg _ (prepend_nil _)

theorem readDouble_escape_space (cs : List Char) :
    readDouble .escape (' ' :: cs) = prepend [.char ' '] (readDouble (.between .nothing) cs) := rfl

/-- A mark with a continued line behind it reads as a backslash, and the line end as a space. -/
theorem readDouble_escape_continueLine {indent : Nat} (hindent : 0 < indent) (cs : List Char) :
    readDouble .escape (continueLine indent true ++ ' ' :: cs) =
      prepend [.char '\\', .char ' ', .char ' '] (readDouble (.between .nothing) cs) := by
  have hwrite : continueLine indent true ++ ' ' :: cs =
      '\\' :: '\n' :: (padding indent ++ '\\' :: ' ' :: cs) := by
    simp [continueLine, foldBreak, padding]
  have hmark (cs : List Char) : readDouble .escape ('\\' :: cs) =
      prepend [.char '\\'] (readDouble (.between .nothing) cs) := rfl
  have hline : readDouble (.between .nothing) ('\n' :: (padding indent ++ '\\' :: ' ' :: cs)) =
      readDouble (.between (.lines '\n' [])) ('\\' :: ' ' :: cs) := by
    rw [readDouble, if_neg (by decide), if_neg (by decide), if_neg (by decide), if_pos (by decide),
      if_neg (by simp [not_startsDocument_padding hindent])]
    exact readDouble_padding rfl indent _
  rw [hwrite, hmark, hline, readDouble_escape, readDouble_escape_space, prepend_prepend,
    prepend_prepend]
  rfl

/-! ### Writing and reading -/

theorem isVerbatim_facts {c : Char} (h : isVerbatim c = true) :
    c ≠ '\x22' ∧ c ≠ '\\' ∧ c ≠ '\t' ∧ isBreak c = false := by
  have hnot : ∀ d, isVerbatim d = false → c ≠ d := by
    rintro d hd rfl
    rw [hd] at h
    cases h
  refine ⟨hnot _ (by decide), hnot _ (by decide), hnot _ (by decide), ?_⟩
  simp [isBreak, hnot '\n' (by decide), hnot '\x85' (by decide), hnot '\u2028' (by decide),
    hnot '\u2029' (by decide)]

theorem verbatim?_eq_some {c : CodePoint} {d : Char} (h : verbatim? c = some d) :
    c = .char d ∧ isVerbatim d = true := by
  cases c with
  | char c =>
    rw [verbatim?, Option.ite_none_right_eq_some] at h
    obtain ⟨hc, he⟩ := h
    obtain rfl := Option.some.inj he
    exact ⟨rfl, hc⟩
  | surrogate offset => cases h

theorem readDouble_verbatim {c : Char} (h : isVerbatim c = true) (hspace : c ≠ ' ') (gap : Gap)
    (cs : List Char) : readDouble (.between gap) (c :: cs) =
      prepend (asText (gap.shown ++ [c])) (readDouble (.between .nothing) cs) := by
  obtain ⟨hquote, hbackslash, htab, hbreak⟩ := isVerbatim_facts h
  rw [readDouble]
  simp [hquote, hbackslash, isBlank, hspace, htab, hbreak]

theorem readDouble_space (ws cs : List Char) :
    readDouble (.between (.blanks ws)) (' ' :: cs) =
      readDouble (.between (.blanks (ws ++ [' ']))) cs := by
  rw [readDouble]
  rfl

/-- Where the reader is when the writer goes on with a text. -/
inductive Resumed (indent : Nat) (t : Text) :
    (column : Nat) → (first afterEscape escaped : Bool) → Place → Prop
  | blanks {column : Nat} {first afterEscape escaped : Bool} (ws : List Char)
      (h : escaped = true → indent < width ∨ t = []) :
      Resumed indent t column first afterEscape escaped (.between (.blanks ws))
  | continued {column : Nat} {first afterEscape escaped : Bool} (h : t.head? ≠ some (.char ' ')) :
      Resumed indent t column first afterEscape escaped (.between (.continued []))
  | marked (h : t.head? = some (.char ' ')) : Resumed indent t (indent + 1) false true true .escape

theorem Resumed.place_cases {indent column : Nat} {t : Text} {first afterEscape escaped : Bool}
    {place : Place} (h : Resumed indent t column first afterEscape escaped place) :
    (∃ gap, place = .between gap) ∨ (place = .escape ∧ column = indent + 1 ∧ first = false ∧
      afterEscape = true ∧ escaped = true ∧ t.head? = some (.char ' ')) := by
  cases h with
  | blanks ws => exact .inl ⟨_, rfl⟩
  | continued => exact .inl ⟨_, rfl⟩
  | marked hhead => exact .inr ⟨rfl, rfl, rfl, rfl, rfl, hhead⟩

/-- What a place has passed of the text. -/
def Place.shown : Place → Text
  | .between gap => asText gap.shown
  | _ => []

theorem readDouble_close (gap : Gap) (rest : List Char) :
    readDouble (.between gap) ('\x22' :: rest) = some (asText gap.shown, rest) := by
  rw [readDouble, if_pos rfl]

/-- Only behind a fold can a place be marked, and only in a deep place can the marked space be moved. -/
theorem carryDouble_resumed {indent column : Nat} {first afterEscape escaped : Bool} {gap : Gap}
    {c : CodePoint} {t : Text}
    (h : Resumed indent (c :: t) column first afterEscape escaped (.between gap)) :
    carryDouble (width ≤ indent) first escaped (c :: t) =
      c :: carryDouble (width ≤ indent) false (!first && (verbatim? c).isNone) t := by
  rw [carryDouble, if_neg]
  simp only [Bool.and_eq_true, decide_eq_true_eq]
  rintro ⟨⟨⟨hdeep, hescaped⟩, hspace⟩, -⟩
  cases h with
  | blanks ws hinside =>
    rcases hinside hescaped with hshallow | hnil
    · omega
    · cases hnil
  | continued hhead => exact hhead (by rw [hspace]; rfl)

section Step

variable {indent column : Nat} {first afterEscape escaped : Bool} {gap : Gap} {t : Text}
  {tail : List Char} {r : Option (Text × List Char)}

/-- A character that stands for itself, with the blanks and the fold in front of it. -/
theorem readDouble_writeDouble_verbatim {d : Char} (hindent : 0 < indent) (hcolumn : indent ≤ column)
    (hd : isVerbatim d = true)
    (hresumed : Resumed indent (.char d :: t) column first afterEscape escaped (.between gap))
    (hnext : ∀ column ws, indent ≤ column →
      readDouble (.between (.blanks ws)) (writeDouble indent column false false t ++ tail) =
        prepend (asText ws) r) :
    readDouble (.between gap) (writeDouble indent column first afterEscape (.char d :: t) ++ tail) =
      prepend (asText gap.shown ++ [.char d]) r := by
  have hverbatim : verbatim? (.char d) = some d := if_pos hd
  rw [writeDouble, hverbatim]
  dsimp only
  by_cases hspace : d = ' '
  · subst hspace
    split
    · rw [List.append_assoc, readDouble_continueLine hindent]
      show prepend _ (readDouble .escape (' ' :: (writeDouble indent _ false false t ++ tail))) = _
      rw [readDouble_escape_space, Gap.nothing, hnext _ [] (by simp [continuedColumn, isSpace]; omega),
        prepend_prepend, prepend_prepend]
      simp [asText]
    · cases hresumed with
      | continued hhead => exact absurd rfl hhead
      | blanks ws =>
        rw [List.cons_append, readDouble_space, hnext _ _ (by omega)]
        simp [asText, Gap.shown]
  · have hfalse : isSpace d = false := by simp [isSpace, hspace]
    rw [hfalse]
    split
    · rw [List.append_assoc, readDouble_continueLine hindent]
      show prepend _ (readDouble (.between (.continued []))
        (d :: (writeDouble indent _ false false t ++ tail))) = _
      rw [readDouble_verbatim hd hspace, Gap.nothing, hnext _ [] (by simp [continuedColumn]),
        prepend_prepend, prepend_prepend]
      simp [asText, Gap.shown]
    · rw [List.cons_append, readDouble_verbatim hd hspace, Gap.nothing, hnext _ [] (by omega),
        prepend_prepend]
      simp [asText]

/-- A space that was marked. In a deep place it is moved to one more line unless it is the last. -/
theorem readDouble_writeDouble_marked (hindent : 0 < indent)
    (hnext : ∀ column ws, indent ≤ column →
      readDouble (.between (.blanks ws)) (writeDouble indent column false false t ++ tail) =
        prepend (asText ws) r) :
    readDouble .escape (writeDouble indent (indent + 1) false true (.char ' ' :: t) ++ tail) =
      prepend ((if width ≤ indent ∧ t ≠ [] then [.char '\\', .char ' '] else []) ++ [.char ' ']) r := by
  have hverbatim : verbatim? (.char ' ') = some ' ' := rfl
  rw [writeDouble, hverbatim]
  dsimp only
  by_cases hmoved : width ≤ indent ∧ t ≠ []
  · have hfold : (!false && !t.isEmpty) = true ∧ (' ' = ' ' ∨ true = true) ∧ width < indent + 1 :=
      ⟨by simpa using hmoved.2, .inl rfl, Nat.lt_succ_of_le hmoved.1⟩
    rw [if_pos hmoved, if_pos hfold, List.append_assoc]
    show readDouble .escape (continueLine indent true ++
      ' ' :: (writeDouble indent _ false false t ++ tail)) = _
    rw [readDouble_escape_continueLine hindent, Gap.nothing,
      hnext _ [] (by simp [continuedColumn, isSpace]; omega), prepend_prepend]
    rfl
  · have hfold : ¬ ((!false && !t.isEmpty) = true ∧ (' ' = ' ' ∨ true = true) ∧
        width < indent + 1) := fun h => hmoved ⟨Nat.le_of_lt_succ h.2.2, by simpa using h.1⟩
    rw [if_neg hmoved, if_neg hfold, List.cons_append, readDouble_escape_space, Gap.nothing,
      hnext _ [] (by omega), prepend_prepend]
    rfl

/-- An escaped code point, with the fold behind it. -/
theorem readDouble_writeDouble_escape {c : CodePoint} (hindent : 0 < indent)
    (hcolumn : indent ≤ column) (hc : verbatim? c = none)
    (hnext : ∀ column place, indent ≤ column → Resumed indent t column false true (!first) place →
      readDouble place (writeDouble indent column false true t ++ tail) = prepend place.shown r) :
    readDouble (.between gap) (writeDouble indent column first afterEscape (c :: t) ++ tail) =
      prepend (asText gap.shown ++ [c]) r := by
  have hlength := two_le_length_escapeSequence c
  rw [writeDouble, hc]
  dsimp only
  split
  · rename_i hfold
    obtain rfl : first = false := by
      simp only [Bool.and_eq_true, Bool.not_eq_true'] at hfold
      exact hfold.1.1
    rw [List.append_assoc, List.append_assoc, readDouble_escapeSequence,
      readDouble_continueLine hindent]
    by_cases hspace : t.head? = some (.char ' ')
    · have hmarked : Resumed indent t (indent + 1) false true (!false) .escape := .marked hspace
      have hread := hnext _ _ (Nat.le_succ _) hmarked
      simp only [hspace, decide_true, if_true, continuedColumn]
      rw [hread, prepend_prepend, prepend_prepend]
      simp [asText, Gap.shown, Gap.nothing, Place.shown]
    · have hcontinued : Resumed indent t indent false true (!false) (.between (.continued [])) :=
        .continued hspace
      have hread := hnext _ _ (Nat.le_refl _) hcontinued
      simp only [hspace, decide_false, Bool.false_eq_true, if_false, continuedColumn]
      rw [hread, prepend_prepend, prepend_prepend]
      simp [asText, Gap.shown, Gap.nothing, Place.shown]
  · -- in a deep place every escape inside the text is followed by a fold
    rename_i hfold
    have hblanks : Resumed indent t (column + (escapeSequence c).length) false true (!first)
        (.between .nothing) := by
      refine .blanks [] fun hinside => or_iff_not_imp_right.mpr fun hne => ?_
      by_contra hdeep
      exact hfold ⟨by simpa [hne] using hinside, by omega⟩
    rw [List.append_assoc, readDouble_escapeSequence, hnext _ _ (by omega) hblanks, prepend_prepend]
    simp [asText, Gap.shown, Gap.nothing, Place.shown]

end Step

/-- What double quotes carry is what is read, up to the closing quote. -/
theorem readDouble_writeDouble {indent : Nat} (hindent : 0 < indent) (rest : List Char) {t : Text}
    {column : Nat} {first afterEscape escaped : Bool} {place : Place} (hcolumn : indent ≤ column)
    (hresumed : Resumed indent t column first afterEscape escaped place) :
    readDouble place (writeDouble indent column first afterEscape t ++ '\x22' :: rest) =
      prepend place.shown (some (carryDouble (width ≤ indent) first escaped t, rest)) := by
  -- for every place at once: a fold behind an escape changes the place that the rest is read from
  induction t generalizing column first afterEscape escaped place with
  | nil =>
    cases hresumed with
    | blanks ws => simp [writeDouble, readDouble_close, carryDouble, Place.shown, prepend]
    | continued => simp [writeDouble, readDouble_close, carryDouble, Place.shown, prepend]
    | marked h => cases h
  | cons c t ih =>
    have hverbatim (column : Nat) (ws : List Char) (hcolumn : indent ≤ column) :
        readDouble (.between (.blanks ws)) (writeDouble indent column false false t ++ '\x22' :: rest) =
          prepend (asText ws) (some (carryDouble (width ≤ indent) false false t, rest)) := by
      have hblanks : Resumed indent t column false false false (.between (.blanks ws)) :=
        .blanks ws (by simp)
      exact ih hcolumn hblanks
    obtain ⟨gap, rfl⟩ | ⟨rfl, rfl, rfl, rfl, rfl, hhead⟩ := hresumed.place_cases
    · cases hc : verbatim? c with
      | some d =>
        obtain ⟨rfl, hd⟩ := verbatim?_eq_some hc
        rw [readDouble_writeDouble_verbatim hindent hcolumn hd hresumed hverbatim,
          carryDouble_resumed hresumed, hc]
        simp [prepend, Place.shown]
      | none =>
        rw [readDouble_writeDouble_escape hindent hcolumn hc fun _ _ => ih,
          carryDouble_resumed hresumed, hc]
        simp [prepend, Place.shown]
    · obtain rfl : c = .char ' ' := by simpa using hhead
      have hspace : verbatim? (.char ' ') = some ' ' := rfl
      rw [readDouble_writeDouble_marked hindent hverbatim, carryDouble, hspace]
      by_cases hmoved : width ≤ indent ∧ t ≠ []
      · simp [prepend, Place.shown, hmoved]
      · have hkept : (decide (width ≤ indent) && true && decide (CodePoint.char ' ' = .char ' ') &&
            !t.isEmpty) = false := by
          simpa using hmoved
        rw [if_neg hmoved, hkept]
        rfl

end SuiteView.Yaml
