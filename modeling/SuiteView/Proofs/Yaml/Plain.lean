import SuiteView.Proofs.Json.Numbers
import SuiteView.Proofs.Text.Shape
import SuiteView.Proofs.Yaml.Reader

/-!
# Plain scalars read back

A plain scalar is read to the end of its last line and then taken for what it looks like. A string is
written plain only if it looks like none of the implicit types and has no mark in it that ends the
scalar, so it is read as itself, whether or not it was folded.
-/

namespace SuiteView.Yaml

open Text Text.Shape

theorem ascii_forall {P : Char → Prop} (h : ∀ n < 128, P (Char.ofNat n)) {c : Char}
    (hc : c.toNat < 128) : P c := by
  have hchar := h c.toNat hc
  rwa [Char.ofNat_toNat] at hchar

/-! ### Implicit types -/

theorem isDigit_lt {c : Char} (h : Json.isDigit c = true) : c.toNat < 128 := by
  simp only [Json.isDigit, Bool.and_eq_true, decide_eq_true_eq, Char.le_def] at h
  exact Nat.lt_of_le_of_lt h.2 (by decide)

theorem digitOrGap_of_isDigit {c : Char} (h : Json.isDigit c = true) :
    "0123456789_".toList.contains c = true :=
  ascii_forall (P := fun c => Json.isDigit c = true → "0123456789_".toList.contains c = true)
    (by decide) (isDigit_lt h) h

theorem first_of_isDigit {c : Char} (h : Json.isDigit c = true) (hc : c ≠ '0') :
    "123456789".toList.contains c = true :=
  ascii_forall (P := fun c => Json.isDigit c = true → c ≠ '0' → "123456789".toList.contains c = true)
    (by decide) (isDigit_lt h) h hc

/-- What reads as a number in decimal digits is of the implicit type for integers. -/
theorem spells_integer {cs : List Char} {n : Nat} (h : decimal? cs = some n) :
    Spells integer cs := by
  unfold decimal? at h
  split at h
  · rename_i hdigits
    simp only [Bool.and_eq_true, Bool.not_eq_true', List.all_eq_true, Bool.or_eq_true,
      decide_eq_true_eq] at hdigits
    obtain ⟨⟨hne, hall⟩, hzero | hfirst⟩ := hdigits
    · subst hzero
      exact (holds_iff integer ['0']).mp (by decide)
    · cases cs with
      | nil => cases hne
      | cons c rest =>
        have hc : "123456789".toList.contains c = true :=
          first_of_isDigit (hall c (List.mem_cons_self ..)) fun he => hfirst (by rw [he]; rfl)
        have hrest : Spells (.many digitOrGap) rest := spells_many_char fun d hd =>
          digitOrGap_of_isDigit (hall d (List.mem_cons_of_mem _ hd))
        have hnumber : Spells (inOrder [oneOf "123456789", .many digitOrGap]) ([c] ++ (rest ++ [])) :=
          .sequence (.char hc) (.sequence hrest .blank)
        rw [List.append_nil] at hnumber
        exact Spells.sequence (.left .blank) (spells_anyOf (by simp) hnumber)
  · cases h

theorem readsAsString_eq_false {cs : List Char} {s : Shape}
    (hs : s ∈ [truthWord, nullWord, integer, pointNumber, timestamp, reserved])
    (h : Spells s cs) : readsAsString cs = false := by
  rw [readsAsString, Bool.not_eq_false', implicitTypes, holds_iff]
  exact spells_anyOf hs h

/-- What looks like none of the implicit types is a string. -/
theorem resolve_string {cs : List Char} (h : readsAsString cs = true) :
    resolve cs = some (.text (asText cs)) := by
  have hnot : ∀ s ∈ [truthWord, nullWord, integer, pointNumber, timestamp, reserved],
      ¬ Spells s cs := by
    intro s hs hspells
    rw [readsAsString_eq_false hs hspells] at h
    cases h
  unfold resolve
  split
  · rename_i n hn
    exact absurd (spells_integer hn) (hnot integer (by simp))
  · rw [if_neg, if_neg, if_pos h]
    · rw [holds_iff]
      exact hnot truthWord (by simp)
    · rw [holds_iff]
      exact hnot nullWord (by simp)

theorem decimal?_toDigits (n : Nat) : decimal? (Nat.toDigits 10 n) = some n := by
  have hwhole := Json.isWhole_toDigits n
  have hall : (Nat.toDigits 10 n).all Json.isDigit = true := List.all_eq_true.mpr hwhole.digits
  have hfirst : Nat.toDigits 10 n = ['0'] ∨ (Nat.toDigits 10 n).head? ≠ some '0' :=
    or_iff_not_imp_right.mpr fun h => hwhole.first (not_not.mp h)
  have hnonempty := hwhole.nonempty
  rw [decimal?, if_pos, Json.digitsValue_toDigits]
  simp [hall, hfirst, hnonempty]

theorem resolve_count (n : Nat) : resolve (Nat.toDigits 10 n) = some (.count n) := by
  rw [resolve, decimal?_toDigits]

/-! ### Bare words -/

/-- Characters of names stand in no way of a scalar. -/
theorem isNameChar_facts {c : Char} (h : isNameChar c = true) :
    isOrdinary c = true ∧ isBreak c = false ∧ isSpacing c = false ∧ isLeadingIndicator c = false ∧
      c ∉ [' ', '\t', ':', '#', '?', '-', '.', '\n', '\r'] := by
  have hlt : c.toNat < 128 := by
    rw [isNameChar, Bool.or_eq_true, decide_eq_true_eq] at h
    rcases h with halnum | rfl
    · have hranges : (decide ('A'.val ≤ c.val ∧ c.val ≤ 'Z'.val) ||
          (decide ('a'.val ≤ c.val) && decide (c.val ≤ 'z'.val)) ||
          (decide ('0'.val ≤ c.val) && decide (c.val ≤ '9'.val))) = true := halnum
      simp only [Bool.or_eq_true, Bool.and_eq_true, decide_eq_true_eq, UInt32.le_iff_toNat_le]
        at hranges
      have hval : c.toNat = c.val.toNat := rfl
      rcases hranges with (⟨-, h⟩ | ⟨-, h⟩) | ⟨-, h⟩ <;> exact hval ▸ Nat.lt_of_le_of_lt h (by decide)
    · decide
  exact ascii_forall (P := fun c => isNameChar c = true → isOrdinary c = true ∧ isBreak c = false ∧
    isSpacing c = false ∧ isLeadingIndicator c = false ∧
      c ∉ [' ', '\t', ':', '#', '?', '-', '.', '\n', '\r']) (by decide) hlt h

theorem ne_space_of_isNameChar {c : Char} (h : isNameChar c = true) : c ≠ ' ' := by
  rintro rfl
  cases h

theorem isNameChar_of_isDigit {c : Char} (h : Json.isDigit c = true) : isNameChar c = true :=
  ascii_forall (P := fun c => Json.isDigit c = true → isNameChar c = true) (by decide)
    (isDigit_lt h) h

/-- The line behind a node: there is none, or it starts with a key or a dash that stands further left
than `limit`. -/
def EndsBefore (limit : Nat) (rest : List Char) : Prop :=
  rest = [] ∨ ∃ column c more, rest = padding column ++ c :: more ∧ column < limit ∧
    (isNameChar c = true ∨ c = '-' ∧ startsSpaced more = true)

theorem not_startsDocument_padding {n : Nat} (hn : 0 < n) (cs : List Char) :
    startsDocument (padding n ++ cs) = false := by
  obtain ⟨n, rfl⟩ : ∃ k, n = k + 1 := ⟨n - 1, by omega⟩
  simp [startsDocument, padding, List.replicate_succ]

theorem EndsBefore.not_startsDocument {limit : Nat} {rest : List Char} (h : EndsBefore limit rest) :
    startsDocument rest = false := by
  rcases h with rfl | ⟨column, c, more, rfl, -, hhead⟩
  · rfl
  · rcases Nat.eq_zero_or_pos column with rfl | hpos
    · rcases hhead with hname | ⟨rfl, hspaced⟩
      · have hfacts := (isNameChar_facts hname).2.2.2.2
        simp only [List.mem_cons, not_or] at hfacts
        simp [startsDocument, padding, Ne.symm hfacts.2.2.2.2.2.1, Ne.symm hfacts.2.2.2.2.2.2.1]
      · -- the dash of an item is followed by a blank or a line end, not by another dash
        cases more with
        | nil => rfl
        | cons d more =>
          have hd : '-' ≠ d := by
            rintro rfl
            cases hspaced
          simp [startsDocument, padding, hd]
    · exact not_startsDocument_padding hpos _

/-! ### Reading -/

theorem passBlank_of_hasLine {gap : Gap} (h : gap.hasLine = true) (c : Char) :
    gap.passBlank c = gap := by
  cases gap with
  | blanks cs => cases h
  | lines first more => rfl
  | continued more => rfl

theorem hasLine_passBreak (gap : Gap) (c : Char) : (gap.passBreak c).hasLine = true := by
  cases gap <;> rfl

theorem readPlain_padding {limit : Nat} {gap : Gap} (h : gap.hasLine = true) (column n : Nat)
    (cs : List Char) :
    readPlain limit gap column (padding n ++ cs) = readPlain limit gap (column + n) cs := by
  induction n generalizing column with
  | zero => rfl
  | succ n ih =>
    have hpadding : padding (n + 1) ++ cs = ' ' :: (padding n ++ cs) := rfl
    rw [hpadding, readPlain, if_pos rfl, passBlank_of_hasLine h, ih, Nat.add_right_comm, Nat.add_assoc]

theorem readPlain_newline {limit : Nat} {rest : List Char} (h : startsDocument rest = false)
    (gap : Gap) (column : Nat) :
    readPlain limit gap column ('\n' :: rest) = readPlain limit (gap.passBreak '\n') 0 rest := by
  rw [readPlain, if_neg (by decide), if_pos (by decide), if_neg (by simp [h])]

/-- A plain scalar ends with a line whose follower stands further left. -/
theorem readPlain_end {limit : Nat} {rest : List Char} (h : EndsBefore limit rest) (gap : Gap)
    (column : Nat) : readPlain limit gap column ('\n' :: rest) = some ([], rest) := by
  have hline := hasLine_passBreak gap '\n'
  rw [readPlain_newline h.not_startsDocument]
  rcases h with rfl | ⟨indent, c, more, rfl, hlt, hhead⟩
  · rfl
  · have hc : c ≠ ' ' ∧ isBreak c = false := by
      rcases hhead with hname | ⟨rfl, -⟩
      · exact ⟨ne_space_of_isNameChar hname, (isNameChar_facts hname).2.1⟩
      · decide
    rw [readPlain_padding hline, Nat.zero_add, readPlain, if_neg hc.1, hc.2, hline]
    simp [hlt]

theorem readPlain_char {limit column : Nat} {gap : Gap} {c : Char} {rest : List Char}
    (hord : isOrdinary c = true) (hbreak : isBreak c = false) (hspace : c ≠ ' ')
    (hcolumn : gap.hasLine = true → limit ≤ column) (hhash : c = '#' → gap.shown = [])
    (hcolon : c = ':' → startsSpaced rest = false) :
    readPlain limit gap column (c :: rest) =
      prepend (gap.shown ++ [c]) (readPlain limit .nothing (column + 1) rest) := by
  have htab : c ≠ '\t' := by
    rintro rfl
    cases hord
  rw [readPlain, if_neg hspace, hbreak, if_neg Bool.false_ne_true, if_neg, if_neg]
  · simp only [Bool.or_eq_true, Bool.and_eq_true, decide_eq_true_eq, Bool.not_eq_true', htab, false_or,
      not_or, not_and, Bool.not_eq_true, Bool.not_eq_false, List.isEmpty_iff]
    exact ⟨hhash, hcolon⟩
  · simp only [Bool.and_eq_true, decide_eq_true_eq, not_and, Nat.not_lt]
    exact hcolumn

/-! ### Writing and reading -/

theorem isSpacing_of_ordinary {c : Char} (hord : isOrdinary c = true) (hbreak : isBreak c = false)
    (hspace : c ≠ ' ') : isSpacing c = false := by
  have hothers : c ≠ '\x00' ∧ c ≠ '\t' ∧ c ≠ '\r' := by
    refine ⟨?_, ?_, ?_⟩ <;>
    · rintro rfl
      cases hord
  simp [isSpacing, hothers, hspace, hbreak]

/-- A fold stands in the place of a space, so what a word is followed by stays the same in kind. -/
theorem startsSpaced_writePlain (indent column : Nat) (afterSpace : Bool) (cs rest : List Char) :
    startsSpaced (writePlain indent column afterSpace cs ++ '\n' :: rest) = startsSpaced cs := by
  cases cs with
  | nil => rfl
  | cons c cs =>
    rw [writePlain]
    split
    · rename_i hfold
      rw [hfold.1]
      rfl
    · rfl

/-- What the reader has passed when the writer goes on behind a character: some spaces, or a fold in
the place of a single one. -/
inductive Passed (limit column : Nat) (afterSpace : Bool) (cs : List Char) : Gap → Prop
  | spaces {ws : List Char} (h : afterSpace = !ws.isEmpty) :
      Passed limit column afterSpace cs (.blanks ws)
  | fold (hcolumn : limit ≤ column) (hhead : cs.head? ≠ some ' ') :
      Passed limit column afterSpace cs (.lines '\n' [])

/-- A space. A single one may be folded, and the line end then stands for it. -/
theorem readPlain_writePlain_space {limit indent column at' : Nat} {afterSpace : Bool} {gap : Gap}
    {cs rest : List Char} (hlimit : limit ≤ indent) (hindent : 0 < indent)
    (hpassed : Passed limit at' afterSpace (' ' :: cs) gap)
    (hnext : ∀ column at' afterSpace gap, Passed limit at' afterSpace cs gap → gap.shown ≠ [] →
      readPlain limit gap at' (writePlain indent column afterSpace cs ++ '\n' :: rest) =
        some (gap.shown ++ cs, rest)) :
    readPlain limit gap at' (writePlain indent column afterSpace (' ' :: cs) ++ '\n' :: rest) =
      some (gap.shown ++ ' ' :: cs, rest) := by
  cases hpassed with
  | fold hcolumn hhead => exact absurd rfl hhead
  | spaces hws =>
    rename_i ws
    rw [writePlain]
    split
    · rename_i hfold
      obtain ⟨-, hbefore, hhead, -⟩ := hfold
      obtain rfl : ws = [] := by simpa [hws] using hbefore
      have hline : foldBreak indent ++ writePlain indent indent false cs ++ '\n' :: rest =
          '\n' :: (padding indent ++ (writePlain indent indent false cs ++ '\n' :: rest)) := by
        simp [foldBreak, padding]
      rw [hline, readPlain_newline (not_startsDocument_padding hindent _), readPlain_padding rfl,
        Nat.zero_add]
      exact hnext indent indent false (.lines '\n' []) (.fold hlimit hhead) (by simp [Gap.shown])
    · have hspaces : Passed limit (at' + 1) true cs (.blanks (ws ++ [' '])) := .spaces (by simp)
      have hread := hnext (column + 1) (at' + 1) true _ hspaces (by simp [Gap.shown])
      rw [List.cons_append, readPlain, if_pos rfl]
      simpa [Gap.passBlank, Gap.shown, isSpace] using hread

theorem readPlain_writePlain {limit indent : Nat} {rest : List Char} (hlimit : limit ≤ indent)
    (hindent : 0 < indent) (hend : EndsBefore limit rest) {cs : List Char} (column : Nat) {at' : Nat}
    {afterSpace : Bool} {gap : Gap} (hpassed : Passed limit at' afterSpace cs gap)
    (hchars : ∀ c ∈ cs, isOrdinary c = true ∧ isBreak c = false)
    (hlast : cs.getLast? ≠ some ' ') (hnil : cs = [] → gap.shown = [])
    (hinner : hasInnerIndicator (!gap.shown.isEmpty) cs = false) :
    readPlain limit gap at' (writePlain indent column afterSpace cs ++ '\n' :: rest) =
      some (gap.shown ++ cs, rest) := by
  induction cs generalizing column at' afterSpace gap with
  | nil => rw [writePlain, List.nil_append, readPlain_end hend, hnil rfl, List.append_nil]
  | cons c cs ih =>
    obtain ⟨hord, hbreak⟩ := hchars c (List.mem_cons_self ..)
    have hchars' := fun d hd => hchars d (List.mem_cons_of_mem _ hd)
    simp only [hasInnerIndicator, Bool.or_eq_false_iff, Bool.and_eq_false_imp, decide_eq_true_eq]
      at hinner
    obtain ⟨⟨hcolon, hhash⟩, hinner'⟩ := hinner
    have hlast' : cs.getLast? ≠ some ' ' := by
      cases cs with
      | nil => simp
      | cons d cs => simpa using hlast
    by_cases hspace : c = ' '
    · subst hspace
      have hne : cs ≠ [] := by
        rintro rfl
        exact hlast rfl
      refine readPlain_writePlain_space hlimit hindent hpassed fun column' _ _ gap' hgap hshown => ?_
      have hsome : (!gap'.shown.isEmpty) = true := by simpa using hshown
      exact ih column' hgap hchars' hlast' (fun he => absurd he hne) (hsome ▸ hinner')
    · have hwrite : writePlain indent column afterSpace (c :: cs) =
          c :: writePlain indent (column + 1) false cs := by
        simp [writePlain, hspace, isSpace]
      have hcolumn : gap.hasLine = true → limit ≤ at' := by
        cases hpassed with
        | spaces _ => simp [Gap.hasLine]
        | fold hcolumn _ => exact fun _ => hcolumn
      have hnext : Passed limit (at' + 1) false cs .nothing := .spaces rfl
      rw [isSpacing_of_ordinary hord hbreak hspace] at hinner'
      have hread := ih (column + 1) hnext hchars' hlast' (fun _ => rfl) hinner'
      rw [hwrite, List.cons_append, readPlain_char hord hbreak hspace hcolumn, hread]
      · simp [prepend, Gap.shown, Gap.nothing]
      · intro he
        simpa using hhash he
      · intro he
        rw [startsSpaced_writePlain]
        exact hcolon he

/-! ### Plain scalars as documents -/

theorem readScalar_of_startsPlain {limit : Nat} {cs : List Char} (h : startsPlain cs = true) :
    readScalar limit cs = (readPlain limit .nothing 0 cs).bind fun (t, rest) =>
      (resolve t).map fun d => (d, rest) := by
  unfold readScalar
  split
  · cases h
  · cases h
  · cases h
  · cases h
  · rw [if_pos h]

theorem allowsPlain_facts {cs : List Char} (h : allowsPlain cs = true) :
    (∀ c ∈ cs, isOrdinary c = true ∧ isBreak c = false) ∧ hasIndicators cs = false ∧
      cs.head? ≠ some ' ' ∧ cs.getLast? ≠ some ' ' := by
  simp only [allowsPlain, allowsSingle, Bool.and_eq_true, List.all_eq_true, Bool.not_eq_true',
    List.any_eq_false, decide_eq_true_eq] at h
  obtain ⟨⟨⟨⟨⟨⟨hord, -⟩, -⟩, hbreak⟩, hindicators⟩, hhead⟩, hlast⟩ := h
  exact ⟨fun c hc => ⟨hord c hc, by simpa using hbreak c hc⟩, hindicators, hhead, hlast⟩

theorem startsPlain_writePlain {cs : List Char} (hne : cs ≠ []) (h : allowsPlain cs = true)
    (indent column : Nat) (rest : List Char) :
    startsPlain (writePlain indent column false cs ++ '\n' :: rest) = true := by
  obtain ⟨hchars, hindicators, hhead, -⟩ := allowsPlain_facts h
  cases cs with
  | nil => exact absurd rfl hne
  | cons c cs =>
    obtain ⟨hord, hbreak⟩ := hchars c (List.mem_cons_self ..)
    have hspace : c ≠ ' ' := by simpa using hhead
    have hwrite : writePlain indent column false (c :: cs) =
        c :: writePlain indent (column + 1) false cs := by
      simp [writePlain, hspace, isSpace]
    simp only [hasIndicators, Bool.or_eq_false_iff] at hindicators
    rw [hwrite, List.cons_append, startsPlain, startsSpaced_writePlain,
      isSpacing_of_ordinary hord hbreak hspace, hindicators.2.1.1, hindicators.2.1.2]
    rfl

/-- A scalar that may be written plain is read whole and taken for what it looks like. -/
theorem readScalar_writePlain {limit indent : Nat} {rest cs : List Char} (hlimit : limit ≤ indent)
    (hindent : 0 < indent) (hend : EndsBefore limit rest) (hne : cs ≠ [])
    (hplain : allowsPlain cs = true) (column : Nat) :
    readScalar limit (writePlain indent column false cs ++ '\n' :: rest) =
      (resolve cs).map fun d => (d, rest) := by
  obtain ⟨hchars, hindicators, -, hlast⟩ := allowsPlain_facts hplain
  have hinner : hasInnerIndicator false cs = false := by
    cases cs with
    | nil => rfl
    | cons c cs =>
      simp only [hasIndicators, Bool.or_eq_false_iff] at hindicators
      obtain ⟨-, ⟨-, hfirst⟩, hrest⟩ := hindicators
      rw [hasInnerIndicator, hrest, Bool.or_false, Bool.and_false, Bool.or_false]
      by_cases hcolon : c = ':'
      · simpa [hcolon] using hfirst
      · simp [hcolon]
  have hpassed : Passed limit 0 false cs .nothing := .spaces rfl
  rw [readScalar_of_startsPlain (startsPlain_writePlain hne hplain indent column rest),
    readPlain_writePlain hlimit hindent hend column hpassed hchars hlast (fun _ => rfl) hinner]
  rfl

theorem writePlain_of_noSpace {cs : List Char} (h : ' ' ∉ cs) (indent column : Nat)
    (afterSpace : Bool) : writePlain indent column afterSpace cs = cs := by
  induction cs generalizing column afterSpace with
  | nil => rfl
  | cons c cs ih =>
    rw [List.mem_cons, not_or] at h
    rw [writePlain, if_neg fun hfold => h.1 hfold.1.symm, ih h.2]

theorem hasNeighbours_of_first {p q : Char → Bool} {cs : List Char} (h : ∀ c ∈ cs, p c = false) :
    hasNeighbours p q cs = false := by
  induction cs with
  | nil => rfl
  | cons a cs ih =>
    cases cs with
    | nil => rfl
    | cons b cs =>
      rw [hasNeighbours, h a (List.mem_cons_self ..), ih fun d hd => h d (List.mem_cons_of_mem _ hd)]
      rfl

theorem hasNeighbours_of_second {p q : Char → Bool} {cs : List Char} (h : ∀ c ∈ cs, q c = false) :
    hasNeighbours p q cs = false := by
  induction cs with
  | nil => rfl
  | cons a cs ih =>
    cases cs with
    | nil => rfl
    | cons b cs =>
      rw [hasNeighbours, h b (List.mem_cons_of_mem _ (List.mem_cons_self ..)),
        ih fun d hd => h d (List.mem_cons_of_mem _ hd), Bool.and_false]
      rfl

theorem hasInnerIndicator_word {cs : List Char} (h : ∀ c ∈ cs, isNameChar c = true)
    (afterSpacing : Bool) : hasInnerIndicator afterSpacing cs = false := by
  induction cs generalizing afterSpacing with
  | nil => rfl
  | cons c cs ih =>
    have hfacts := (isNameChar_facts (h c (List.mem_cons_self ..))).2.2.2.2
    simp only [List.mem_cons, not_or] at hfacts
    rw [hasInnerIndicator, ih fun d hd => h d (List.mem_cons_of_mem _ hd)]
    simp [hfacts.2.2.1, hfacts.2.2.2.1]

theorem hasIndicators_word {cs : List Char} (h : ∀ c ∈ cs, isNameChar c = true) :
    hasIndicators cs = false := by
  cases cs with
  | nil => rfl
  | cons c cs =>
    have hfacts := isNameChar_facts (h c (List.mem_cons_self ..))
    have hinner := hasInnerIndicator_word (fun d hd => h d (List.mem_cons_of_mem _ hd)) (isSpacing c)
    obtain ⟨-, -, -, hleading, hothers⟩ := hfacts
    simp only [List.mem_cons, not_or] at hothers
    obtain ⟨-, -, hcolon, -, hquestion, hdash, hdot, -⟩ := hothers
    have hmarks : "---".toList.isPrefixOf (c :: cs) = false ∧
        "...".toList.isPrefixOf (c :: cs) = false := by
      simp [List.isPrefixOf, Ne.symm hdash, Ne.symm hdot]
    rw [hasIndicators, hmarks.1, hmarks.2, hleading, hinner]
    simp [hcolon, hquestion, hdash]

theorem allowsPlain_word {cs : List Char} (h : ∀ c ∈ cs, isNameChar c = true) :
    allowsPlain cs = true := by
  have hord : cs.all isOrdinary = true :=
    List.all_eq_true.mpr fun c hc => (isNameChar_facts (h c hc)).1
  have hbreak : ∀ c ∈ cs, isBreak c = false := fun c hc => (isNameChar_facts (h c hc)).2.1
  have hspace : ∀ o : Option Char, (∀ c ∈ o, c ∈ cs) → o ≠ some ' ' := by
    rintro o ho rfl
    exact nomatch h ' ' (ho ' ' rfl)
  have hany : cs.any isBreak = false := by simpa using hbreak
  have hhead := hspace cs.head? fun c hc => List.mem_of_mem_head? hc
  have hlast := hspace cs.getLast? fun c hc => List.mem_of_mem_getLast? hc
  simp [allowsPlain, allowsSingle, hord, hasNeighbours_of_first hbreak,
    hasNeighbours_of_second hbreak, hany, hasIndicators_word h, hhead, hlast]

/-- A word is read up to its line end. -/
theorem readScalar_word {limit : Nat} {cs rest : List Char} (hend : EndsBefore limit rest)
    (hne : cs ≠ []) (h : ∀ c ∈ cs, isNameChar c = true) :
    readScalar limit (cs ++ '\n' :: rest) = (resolve cs).map fun d => (d, rest) := by
  have hspace : ' ' ∉ cs := fun hmem => nomatch h ' ' hmem
  have hread := readScalar_writePlain (Nat.le_succ limit) (Nat.succ_pos limit) hend hne
    (allowsPlain_word h) 0
  rwa [writePlain_of_noSpace hspace] at hread

end SuiteView.Yaml
