import SuiteView.Proofs.Yaml.Plain

/-!
# Single-quoted scalars

In single quotes every line end of the string is written as it is, and a newline that starts a run is
doubled, because the reader drops it. For the next-line character nothing is doubled, and it is read
as a newline, so a string that holds one comes back changed; every other string comes back as it was.
-/

namespace SuiteView.Yaml

/-! ### What single quotes carry -/

/-- What a string in single quotes is read as. A next-line character becomes a newline; where it starts
a run of line ends it is lost, and alone it becomes a space. -/
def carrySingle : (afterBreak : Bool) → List Char → List Char
  | _, [] => []
  | afterBreak, c :: cs =>
    let others := carrySingle (isBreak c) cs
    if c = '\x85' then
      if afterBreak then '\n' :: others
      else if cs.head?.any isBreak then others
      else ' ' :: others
    else c :: others

theorem length_carrySingle_le (afterBreak : Bool) (cs : List Char) :
    (carrySingle afterBreak cs).length ≤ cs.length := by
  induction cs generalizing afterBreak with
  | nil => exact Nat.le_refl 0
  | cons c cs ih =>
    have hcs := ih (isBreak c)
    rw [carrySingle]
    split
    · split
      · simpa using hcs
      · split
        · exact Nat.le_succ_of_le hcs
        · simpa using hcs
    · simpa using hcs

theorem carrySingle_eq_self_iff (afterBreak : Bool) (cs : List Char) :
    carrySingle afterBreak cs = cs ↔ '\x85' ∉ cs := by
  induction cs generalizing afterBreak with
  | nil => simp [carrySingle]
  | cons c cs ih =>
    have hlength := length_carrySingle_le (isBreak c) cs
    by_cases hc : c = '\x85'
    · -- a lost character makes the result shorter, any other replacement is a different character
      have hne : carrySingle afterBreak (c :: cs) ≠ c :: cs := by
        intro h
        rw [carrySingle, if_pos hc] at h
        split at h
        · exact absurd (List.cons.inj h).1 (by rw [hc]; decide)
        · split at h
          · rw [h, List.length_cons] at hlength
            omega
          · exact absurd (List.cons.inj h).1 (by rw [hc]; decide)
      exact iff_of_false hne fun h => h (hc ▸ List.mem_cons_self ..)
    · rw [carrySingle, if_neg hc, List.cons.injEq, ih, List.mem_cons, not_or]
      simp [Ne.symm hc]

/-! ### Reading -/

/-- What is pending in a gap, with the string that is still to come: a single newline stands for a
space unless another line end follows. -/
def pending (gap : Gap) (cs : List Char) : List Char :=
  if gap = .lines '\n' [] ∧ cs.head?.any isBreak then [] else gap.shown

/-- What the reader has passed when the writer goes on. -/
inductive PassedQuoted (cs : List Char) : Before → Gap → Prop
  | start : PassedQuoted cs .start .nothing
  | word : PassedQuoted cs .word .nothing
  | spaces (ws : List Char) : PassedQuoted cs .space (.blanks ws)
  | fold (hhead : cs.head? ≠ some ' ') : PassedQuoted cs .space (.lines '\n' [])
  | lines (first : Char) (more : List Char) : PassedQuoted cs .lineBreak (.lines first more)

theorem readSingle_padding {gap : Gap} (h : gap.hasLine = true) (n : Nat) (cs : List Char) :
    readSingle gap (padding n ++ cs) = readSingle gap cs := by
  induction n with
  | zero => rfl
  | succ n ih =>
    have hpadding : padding (n + 1) ++ cs = ' ' :: (padding n ++ cs) := rfl
    rw [hpadding, readSingle.eq_def]
    simp only [show ¬ ' ' = '\x27' by decide, show isBlank ' ' = true by decide, if_false, if_true]
    rw [passBlank_of_hasLine h, ih]

theorem readSingle_break {c : Char} (hc : isBreak c = true) {cs : List Char}
    (h : startsDocument cs = false) (gap : Gap) :
    readSingle gap (c :: cs) = readSingle (gap.passBreak c) cs := by
  have hquote : c ≠ '\x27' := by
    rintro rfl
    cases hc
  have hblank : isBlank c = false := by
    rw [isBlank, Bool.or_eq_false_iff, decide_eq_false_iff_not, decide_eq_false_iff_not]
    constructor <;>
    · rintro rfl
      cases hc
  rw [readSingle.eq_def]
  simp [hquote, hblank, hc, h]

theorem readSingle_char {c : Char} (hord : isOrdinary c = true) (hbreak : isBreak c = false)
    (hspace : c ≠ ' ') (hquote : c ≠ '\x27') (gap : Gap) (cs : List Char) :
    readSingle gap (c :: cs) = prepend (gap.shown ++ [c]) (readSingle .nothing cs) := by
  have htab : c ≠ '\t' := by
    rintro rfl
    cases hord
  have hblank : isBlank c = false := by simp [isBlank, hspace, htab]
  rw [readSingle.eq_def]
  simp [hquote, hblank, hbreak]

/-- A character as it stands in single quotes. -/
def singleChar (c : Char) : List Char := if c = '\x27' then ['\x27', '\x27'] else [c]

theorem readSingle_singleChar {c : Char} (hord : isOrdinary c = true) (hbreak : isBreak c = false)
    (hspace : c ≠ ' ') (gap : Gap) (cs : List Char) :
    readSingle gap (singleChar c ++ cs) = prepend (gap.shown ++ [c]) (readSingle .nothing cs) := by
  unfold singleChar
  split
  · rename_i hc
    rw [hc, readSingle.eq_def]
    rfl
  · rename_i hc
    exact readSingle_char hord hbreak hspace hc gap cs

theorem readSingle_close {rest : List Char} (hrest : rest.head? ≠ some '\x27') (gap : Gap) :
    readSingle gap ('\x27' :: rest) = some (gap.shown, rest) := by
  rw [readSingle.eq_def]
  cases rest with
  | nil => rfl
  | cons c rest =>
    have hc : c ≠ '\x27' := by simpa using hrest
    simp only [if_true]
    split
    · rename_i heq
      exact absurd (List.cons.inj heq).1 hc
    · rfl

theorem readSingle_space (ws cs : List Char) :
    readSingle (.blanks ws) (' ' :: cs) = readSingle (.blanks (ws ++ [' '])) cs := by
  rw [readSingle.eq_def]
  rfl

/-! ### Writing and reading -/

theorem hasNeighbours_cons {p q : Char → Bool} {a : Char} {cs : List Char}
    (h : hasNeighbours p q (a :: cs) = false) :
    hasNeighbours p q cs = false ∧ (p a = true → cs.head?.any q = false) := by
  cases cs with
  | nil => exact ⟨rfl, fun _ => rfl⟩
  | cons b cs =>
    rw [hasNeighbours, Bool.or_eq_false_iff] at h
    refine ⟨h.2, fun ha => ?_⟩
    simpa [ha] using h.1

/-- Behind line ends the next character is indented, and else written as at the start. -/
theorem writeSingle_lineBreak {cs : List Char} (hhead : cs.head?.any isBreak = false)
    (indent column : Nat) : writeSingle indent column .lineBreak cs =
      padding indent ++ writeSingle indent indent .start cs := by
  cases cs with
  | nil => simp [writeSingle, padding]
  | cons c cs =>
    have hc : isBreak c = false := by simpa using hhead
    simp only [writeSingle, hc, Bool.false_eq_true, if_false, if_true, padding, reduceCtorEq,
      false_and, List.nil_append]
    split
    · rfl
    · split <;> rfl

theorem writeSingle_char {c : Char} (hc : isBreak c = false) (hspace : c ≠ ' ') {before : Before}
    (hbefore : before ≠ .lineBreak) (indent column : Nat) (cs : List Char) :
    ∃ column', writeSingle indent column before (c :: cs) =
      singleChar c ++ writeSingle indent column' .word cs := by
  unfold singleChar
  by_cases hquote : c = '\x27'
  · subst hquote
    exact ⟨column + 2, by simp [writeSingle, hc, hbefore]⟩
  · exact ⟨column + 1, by simp [writeSingle, hc, hspace, hbefore, hquote]⟩

/-- Behind a line end no mark between documents can stand. -/
theorem not_startsDocument_writeSingle {indent : Nat} (hindent : 0 < indent) (column : Nat)
    (cs rest : List Char) :
    startsDocument (writeSingle indent column .lineBreak cs ++ rest) = false := by
  by_cases hhead : cs.head?.any isBreak = true
  · cases cs with
    | nil => cases hhead
    | cons c cs =>
      have hc : isBreak c = true := by simpa using hhead
      have hmarks : c ≠ '-' ∧ c ≠ '.' := by
        constructor <;>
        · rintro rfl
          cases hc
      simp [writeSingle, hc, startsDocument, Ne.symm hmarks.1, Ne.symm hmarks.2]
  · rw [writeSingle_lineBreak (by simpa using hhead), List.append_assoc]
    exact not_startsDocument_padding hindent _

theorem readBreak_eq {c : Char} (hc : isBreak c = true) :
    readBreak c = if c = '\x85' then '\n' else c := by
  simp only [isBreak, Bool.or_eq_true, decide_eq_true_eq] at hc
  rcases hc with ((rfl | rfl) | rfl) | rfl <;> rfl

/-- A line end in a run that has begun is added to the run. -/
theorem pending_passBreak {c : Char} (hc : isBreak c = true) (first : Char) (more cs : List Char) :
    pending (.lines first (more ++ [readBreak c])) cs ++ carrySingle true cs =
      pending (.lines first more) (c :: cs) ++ carrySingle true (c :: cs) := by
  have hrun : pending (.lines first (more ++ [readBreak c])) cs =
      pending (.lines first more) (c :: cs) ++ [readBreak c] := by
    by_cases hfirst : first = '\n'
    · cases more <;> simp [pending, Gap.shown, hfirst, hc]
    · simp [pending, Gap.shown, hfirst]
  have hcarry : carrySingle true (c :: cs) = readBreak c :: carrySingle true cs := by
    rw [carrySingle, hc, readBreak_eq hc]
    split <;> simp
  rw [hrun, hcarry, List.append_assoc]
  rfl

/-- A run that starts with another line end than a newline loses none of it but a next-line
character. -/
theorem pending_firstBreak {c : Char} (hc : isBreak c = true) (hne : c ≠ '\n') (cs : List Char) :
    pending (.lines (readBreak c) []) cs ++ carrySingle true cs = carrySingle false (c :: cs) := by
  rw [carrySingle, hc, readBreak_eq hc]
  by_cases hnext : c = '\x85'
  · by_cases hhead : cs.head?.any isBreak = true <;> simp [pending, Gap.shown, hnext, hhead]
  · simp [pending, Gap.shown, hnext, hne]

section Step

variable {indent column : Nat} {before : Before} {gap : Gap} {cs rest : List Char}

/-- A line end, which starts a run behind the start or a word, or goes on with one. -/
theorem readSingle_writeSingle_break {c : Char} (hindent : 0 < indent) (hc : isBreak c = true)
    (hpassed : PassedQuoted (c :: cs) before gap) (hspace : before ≠ .space)
    (hrun : ∀ first more, readSingle (.lines first more)
      (writeSingle indent 0 .lineBreak cs ++ '\x27' :: rest) =
        some (pending (.lines first more) cs ++ carrySingle true cs, rest)) :
    readSingle gap (writeSingle indent column before (c :: cs) ++ '\x27' :: rest) =
      some (pending gap (c :: cs) ++ carrySingle (before = .lineBreak) (c :: cs), rest) := by
  have hdocument := not_startsDocument_writeSingle hindent 0 cs ('\x27' :: rest)
  have hnew : before ≠ .lineBreak → gap = .nothing →
      readSingle gap (writeSingle indent column before (c :: cs) ++ '\x27' :: rest) =
        some (carrySingle false (c :: cs), rest) := by
    rintro hbefore rfl
    rw [writeSingle, if_pos hc]
    by_cases hn : c = '\n'
    · subst hn
      have htwo : startsDocument ('\n' :: (writeSingle indent 0 .lineBreak cs ++ '\x27' :: rest)) =
          false := rfl
      rw [if_pos ⟨rfl, hbefore⟩]
      show readSingle .nothing ('\n' :: '\n' :: (writeSingle indent 0 .lineBreak cs ++ _)) = _
      rw [readSingle_break hc htwo, readSingle_break hc hdocument]
      exact hrun '\n' ['\n']
    · rw [if_neg fun h => hn h.1]
      show readSingle .nothing (c :: (writeSingle indent 0 .lineBreak cs ++ _)) = _
      rw [readSingle_break hc hdocument, ← pending_firstBreak hc hn cs]
      exact hrun (readBreak c) []
  cases hpassed with
  | start => exact hnew (by decide) rfl
  | word => exact hnew (by decide) rfl
  | spaces | fold => exact absurd rfl hspace
  | lines first more =>
    have hwrite : writeSingle indent column .lineBreak (c :: cs) =
        c :: writeSingle indent 0 .lineBreak cs := by
      simp [writeSingle, hc]
    rw [hwrite, List.cons_append, readSingle_break hc hdocument]
    exact (hrun first (more ++ [readBreak c])).trans
      (congrArg (fun t => some (t, rest)) (pending_passBreak hc first more cs))

/-- A space. A single one behind a word may be folded, and the line end then stands for it. -/
theorem readSingle_writeSingle_space (hindent : 0 < indent)
    (hpassed : PassedQuoted (' ' :: cs) before gap) (hline : before ≠ .lineBreak)
    (hnext : ∀ column gap, PassedQuoted cs .space gap →
      readSingle gap (writeSingle indent column .space cs ++ '\x27' :: rest) =
        some (gap.shown ++ carrySingle false cs, rest)) :
    readSingle gap (writeSingle indent column before (' ' :: cs) ++ '\x27' :: rest) =
      some (gap.shown ++ ' ' :: carrySingle false cs, rest) := by
  have hspaces : ∀ ws column', readSingle (.blanks ws)
      (' ' :: writeSingle indent column' .space cs ++ '\x27' :: rest) =
        some (ws ++ ' ' :: carrySingle false cs, rest) := by
    intro ws column'
    rw [List.cons_append, readSingle_space, hnext column' _ (.spaces (ws ++ [' ']))]
    simp [Gap.shown]
  cases hpassed with
  | fold hhead => exact absurd rfl hhead
  | lines first more => exact absurd rfl hline
  | start => exact hspaces [] (column + 1)
  | spaces ws => exact hspaces ws (column + 1)
  | word =>
    by_cases hfold : ¬ cs.isEmpty = true ∧ cs.head? ≠ some ' ' ∧ width < column
    · have hwrite : writeSingle indent column .word (' ' :: cs) ++ '\x27' :: rest =
          '\n' :: (padding indent ++ (writeSingle indent indent .space cs ++ '\x27' :: rest)) := by
        simp [writeSingle, isBreak, hfold, foldBreak, padding]
      rw [hwrite, readSingle_break rfl (not_startsDocument_padding hindent _)]
      show readSingle (.lines '\n' []) _ = _
      rw [readSingle_padding rfl, hnext indent _ (.fold hfold.2.1)]
      simp [Gap.shown, Gap.nothing]
    · have hwrite : writeSingle indent column .word (' ' :: cs) =
          ' ' :: writeSingle indent (column + 1) .space cs := by
        rw [writeSingle, if_neg (by decide)]
        simp only [if_true, reduceCtorEq, if_false, List.nil_append]
        exact if_neg fun h => hfold (by simpa using h)
      rw [hwrite]
      exact hspaces [] (column + 1)

/-- Any other character. Behind line ends it is indented. -/
theorem readSingle_writeSingle_char {c : Char} (hord : isOrdinary c = true)
    (hbreak : isBreak c = false) (hspace : c ≠ ' ') (hpassed : PassedQuoted (c :: cs) before gap)
    (hnext : ∀ column, readSingle .nothing (writeSingle indent column .word cs ++ '\x27' :: rest) =
      some (carrySingle false cs, rest)) :
    readSingle gap (writeSingle indent column before (c :: cs) ++ '\x27' :: rest) =
      some (gap.shown ++ c :: carrySingle false cs, rest) := by
  have hchar : ∀ column' before', before' ≠ .lineBreak →
      readSingle gap (writeSingle indent column' before' (c :: cs) ++ '\x27' :: rest) =
        some (gap.shown ++ c :: carrySingle false cs, rest) := by
    intro column' before' hbefore
    obtain ⟨column'', hwrite⟩ := writeSingle_char hbreak hspace hbefore indent column' cs
    rw [hwrite, List.append_assoc, readSingle_singleChar hord hbreak hspace, hnext]
    simp [prepend]
  by_cases hbefore : before = .lineBreak
  · subst hbefore
    have hgap : gap.hasLine = true := by
      cases hpassed
      rfl
    rw [writeSingle_lineBreak (by simpa using hbreak), List.append_assoc, readSingle_padding hgap]
    exact hchar indent .start (by decide)
  · exact hchar column before hbefore

end Step

/-- What single quotes carry is what is read, up to the closing quote. -/
theorem readSingle_writeSingle {indent : Nat} (hindent : 0 < indent) {rest : List Char}
    (hrest : rest.head? ≠ some '\x27') {cs : List Char} (column : Nat) {before : Before} {gap : Gap}
    (hpassed : PassedQuoted cs before gap) (hord : ∀ c ∈ cs, isOrdinary c = true)
    (hspaced : hasNeighbours isBreak isSpace cs = false)
    (hbroken : hasNeighbours isSpace isBreak cs = false)
    (hline : before = .lineBreak → cs.head?.any isSpace = false)
    (hspace : before = .space → cs.head?.any isBreak = false) :
    readSingle gap (writeSingle indent column before cs ++ '\x27' :: rest) =
      some (pending gap cs ++ carrySingle (before = .lineBreak) cs, rest) := by
  -- what a line end stands for is known only at the end of its run, so the gap goes along
  induction cs generalizing column before gap with
  | nil =>
    have hclose := readSingle_close hrest gap
    cases hpassed with
    | lines first more =>
      have hempty : writeSingle indent indent .start [] = [] := rfl
      rw [writeSingle_lineBreak rfl, hempty, List.append_nil, readSingle_padding rfl, hclose]
      simp [pending, carrySingle]
    | start | word | spaces | fold => simpa [writeSingle, pending, carrySingle] using hclose
  | cons c cs ih =>
    have hc := hord c (List.mem_cons_self ..)
    have hord' := fun d hd => hord d (List.mem_cons_of_mem _ hd)
    obtain ⟨hspaced', hafterBreak⟩ := hasNeighbours_cons hspaced
    obtain ⟨hbroken', hafterSpace⟩ := hasNeighbours_cons hbroken
    by_cases hbreak : isBreak c = true
    · refine readSingle_writeSingle_break hindent hbreak hpassed (fun h => ?_) fun first more => ?_
      · have hnone := hspace h
        simp [hbreak] at hnone
      · exact ih 0 (.lines first more) hord' hspaced' hbroken' (fun _ => hafterBreak hbreak) (by simp)
    · have hbreak' : isBreak c = false := by simpa using hbreak
      have hnext : c ≠ '\x85' := by
        rintro rfl
        cases hbreak'
      have hcarry : carrySingle (before = .lineBreak) (c :: cs) = c :: carrySingle false cs := by
        rw [carrySingle, if_neg hnext, hbreak']
      have hpending : pending gap (c :: cs) = gap.shown := by simp [pending, hbreak']
      rw [hpending, hcarry]
      by_cases hspc : c = ' '
      · subst hspc
        refine readSingle_writeSingle_space hindent hpassed (fun h => ?_) fun column' gap' hgap => ?_
        · have hnone := hline h
          simp [isSpace] at hnone
        · have hnone : pending gap' cs = gap'.shown := by simp [pending, hafterSpace rfl]
          rw [← hnone]
          exact ih column' hgap hord' hspaced' hbroken' (by simp) fun _ => hafterSpace rfl
      · exact readSingle_writeSingle_char hc hbreak' hspc hpassed fun column' =>
          ih column' .word hord' hspaced' hbroken' (by simp) (by simp)

end SuiteView.Yaml
