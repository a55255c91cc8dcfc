import Mathlib.Data.List.Forall2
import SuiteView.Filter.Basic

/-!
# Cutting a text along a pattern

A pattern accepts a text if the text can be cut into pieces, one for each part of the pattern, so that
every part takes its piece. The matcher tries no cuts: it goes through the parts from the last to the
first and notes for every end of the text whether the parts behind match it. Main statement: it accepts
a text exactly if there is a cut, and without brackets the parts are the characters of the pattern.
-/

namespace SuiteView

namespace Pattern

/-! ### Rows -/

theorem head?_anyAfter (row : List Bool) :
    (anyAfter row).head? = if row = [] then none else some (row.any id) := by
  induction row with
  | nil => rfl
  | cons first rest ih =>
    rw [anyAfter]
    cases hrest : anyAfter rest with
    | nil =>
      cases rest with
      | nil => simp
      | cons second rest => simp [hrest] at ih
    | cons later others =>
      rw [hrest] at ih
      cases rest with
      | nil => simp at ih
      | cons second rest =>
        have hlater : later = (second :: rest).any id := by simpa using ih
        simp [hlater]

theorem anyAfter_ne_nil {row : List Bool} (h : row ≠ []) : anyAfter row ≠ [] := by
  intro hnil
  have hhead := head?_anyAfter row
  rw [hnil, if_neg h] at hhead
  cases hhead

theorem anyAfter_cons (b : Bool) {row : List Bool} (h : row ≠ []) :
    anyAfter (b :: row) = (b || row.any id) :: anyAfter row := by
  have hhead := head?_anyAfter row
  rw [if_neg h] at hhead
  rw [anyAfter]
  cases hrow : anyAfter row with
  | nil => exact absurd hrow (anyAfter_ne_nil h)
  | cons later others =>
    rw [hrow] at hhead
    obtain rfl := Option.some.inj hhead
    rfl

theorem matchRow_single {t : Token} (ht : t ≠ .anyText) (rest : List Token) (cs : Text) :
    matchRow (t :: rest) cs =
      List.zipWith (fun c b => t.accepts c && b) cs (matchRow rest cs).tail ++ [false] := by
  cases t with
  | anyText => exact absurd rfl ht
  | anyChar | literal | oneOf => rfl

theorem matchRow_ne_nil (tokens : List Token) (cs : Text) : matchRow tokens cs ≠ [] := by
  induction tokens with
  | nil => simp [matchRow]
  | cons t rest ih =>
    by_cases ht : t = .anyText
    · rw [ht, matchRow]
      exact anyAfter_ne_nil ih
    · simp [matchRow_single ht]

theorem matchRow_eq_cons (tokens : List Token) (cs : Text) :
    matchRow tokens cs = matchTokens tokens cs :: (matchRow tokens cs).tail := by
  rw [matchTokens]
  cases hrow : matchRow tokens cs with
  | nil => exact absurd hrow (matchRow_ne_nil tokens cs)
  | cons first others => rfl

theorem tail_matchRow_nil (tokens : List Token) : (matchRow tokens []).tail = [] := by
  induction tokens with
  | nil => rfl
  | cons t rest ih =>
    by_cases ht : t = .anyText
    · rw [ht, matchRow, matchRow_eq_cons, ih]
      rfl
    · simp [matchRow_single ht]

/-- Behind the first place the row of a text is the row of what follows its first character. -/
theorem tail_matchRow_cons (tokens : List Token) (c : CodePoint) (cs : Text) :
    (matchRow tokens (c :: cs)).tail = matchRow tokens cs := by
  induction tokens with
  | nil => rfl
  | cons t rest ih =>
    have hrow : matchRow rest (c :: cs) = matchTokens rest (c :: cs) :: matchRow rest cs := by
      rw [matchRow_eq_cons, ih]
    by_cases ht : t = .anyText
    · rw [ht, matchRow, matchRow, hrow, anyAfter_cons _ (matchRow_ne_nil rest cs), List.tail_cons]
    · rw [matchRow_single ht, matchRow_single ht, ih, matchRow_eq_cons rest cs,
        List.zipWith_cons_cons, List.cons_append, List.tail_cons, List.tail_cons]

/-! ### One part after the other -/

theorem matchTokens_nil_iff (cs : Text) : matchTokens [] cs = true ↔ cs = [] := by
  cases cs <;> simp [matchTokens, matchRow]

/-- A part for a single character takes the first one. -/
theorem matchTokens_single_iff {t : Token} (ht : t ≠ .anyText) (rest : List Token) (cs : Text) :
    matchTokens (t :: rest) cs = true ↔
      ∃ c back, cs = c :: back ∧ t.accepts c = true ∧ matchTokens rest back = true := by
  cases cs with
  | nil => simp [matchTokens, matchRow_single ht]
  | cons c cs =>
    rw [matchTokens, matchRow_single ht, tail_matchRow_cons, matchRow_eq_cons rest cs]
    simp

theorem any_matchRow_iff (tokens : List Token) (cs : Text) : (matchRow tokens cs).any id = true ↔
    ∃ front back, cs = front ++ back ∧ matchTokens tokens back = true := by
  induction cs with
  | nil =>
    rw [matchRow_eq_cons, tail_matchRow_nil]
    simp
  | cons c cs ih =>
    rw [matchRow_eq_cons, tail_matchRow_cons, List.any_cons, Bool.or_eq_true, ih]
    constructor
    · intro h
      rcases h with hall | ⟨front, back, rfl, hback⟩
      · exact ⟨[], c :: cs, rfl, hall⟩
      · exact ⟨c :: front, back, rfl, hback⟩
    · intro h
      obtain ⟨front, back, hcs, hback⟩ := h
      cases front with
      | nil =>
        obtain rfl : c :: cs = back := hcs
        exact .inl hback
      | cons d front =>
        obtain ⟨rfl, rfl⟩ := List.cons.inj hcs
        exact .inr ⟨front, back, rfl, hback⟩

/-- A part for any text takes some front of the text, which may be empty. -/
theorem matchTokens_anyText_iff (rest : List Token) (cs : Text) :
    matchTokens (.anyText :: rest) cs = true ↔
      ∃ front back, cs = front ++ back ∧ matchTokens rest back = true := by
  rw [matchTokens, matchRow, head?_anyAfter, if_neg (matchRow_ne_nil rest cs), Option.getD_some,
    any_matchRow_iff]

/-! ### Cuts -/

/-- The pieces that a part of a pattern takes. -/
inductive Token.Takes : Token → Text → Prop
  | any (piece : Text) : Takes .anyText piece
  | single {t : Token} {c : CodePoint} (h : t.accepts c = true) : Takes t [c]

/-- The matcher accepts the texts that can be cut into one piece for each part. -/
theorem matchTokens_iff_cut (tokens : List Token) (cs : Text) : matchTokens tokens cs = true ↔
    ∃ pieces : List Text, cs = pieces.flatten ∧ List.Forall₂ Token.Takes tokens pieces := by
  induction tokens generalizing cs with
  | nil => simp [matchTokens_nil_iff]
  | cons t rest ih =>
    constructor
    · intro h
      by_cases ht : t = .anyText
      · rw [ht, matchTokens_anyText_iff] at h
        obtain ⟨front, back, rfl, hback⟩ := h
        obtain ⟨pieces, rfl, hpieces⟩ := (ih back).mp hback
        exact ⟨front :: pieces, rfl, .cons (ht ▸ .any front) hpieces⟩
      · obtain ⟨c, back, rfl, hc, hback⟩ := (matchTokens_single_iff ht rest cs).mp h
        obtain ⟨pieces, rfl, hpieces⟩ := (ih back).mp hback
        exact ⟨[c] :: pieces, rfl, .cons (.single hc) hpieces⟩
    · intro h
      obtain ⟨pieces, rfl, hpieces⟩ := h
      obtain ⟨piece, pieces, htakes, hrest, rfl⟩ := List.forall₂_cons_left_iff.mp hpieces
      have hback := (ih pieces.flatten).mpr ⟨pieces, rfl, hrest⟩
      cases htakes with
      | any => exact (matchTokens_anyText_iff rest _).mpr ⟨piece, _, rfl, hback⟩
      | single hc =>
        have ht : t ≠ .anyText := by
          rintro rfl
          cases hc
        exact (matchTokens_single_iff ht rest _).mpr ⟨_, _, rfl, hc, hback⟩

/-! ### Patterns without brackets -/

/-- The part that a character stands for where no bracket is in the pattern. -/
def tokenOf (c : CodePoint) : Token :=
  if c = .char '*' then .anyText else if c = .char '?' then .anyChar else .literal c

/-- The pieces that a character of a pattern takes: a star any text, a question mark any one character,
and every other character itself. -/
inductive Takes : CodePoint → Text → Prop
  | star (piece : Text) : Takes (.char '*') piece
  | mark (c : CodePoint) : Takes (.char '?') [c]
  | literal {c : CodePoint} (star : c ≠ .char '*') (mark : c ≠ .char '?') : Takes c [c]

/-- The text can be cut into consecutive pieces, one for each character of the pattern. -/
def Cuts (pattern text : Text) : Prop :=
  ∃ pieces : List Text, text = pieces.flatten ∧ List.Forall₂ Takes pattern pieces

theorem takes_tokenOf_iff (c : CodePoint) (piece : Text) :
    (tokenOf c).Takes piece ↔ Takes c piece := by
  unfold tokenOf
  by_cases hstar : c = .char '*'
  · rw [if_pos hstar, hstar]
    exact iff_of_true (.any piece) (.star piece)
  · rw [if_neg hstar]
    by_cases hmark : c = .char '?'
    · rw [if_pos hmark, hmark]
      constructor
      · intro h
        cases h with
        | single => exact .mark _
      · intro h
        cases h with
        | mark => exact .single rfl
        | literal => exact .single rfl
    · rw [if_neg hmark]
      constructor
      · intro h
        cases h with
        | single hc =>
          obtain rfl := of_decide_eq_true hc
          exact .literal hstar hmark
      · intro h
        cases h with
        | star => exact absurd rfl hstar
        | mark => exact absurd rfl hmark
        | literal => exact .single (decide_eq_true rfl)

theorem parse_of_noBracket {pattern : Text} (h : ∀ c ∈ pattern, c ≠ .char '[') :
    parse pattern = pattern.map tokenOf := by
  have hupTo : ∀ fuel, pattern.length ≤ fuel → parseUpTo fuel pattern = pattern.map tokenOf := by
    induction pattern with
    | nil =>
      intro fuel _
      cases fuel <;> rfl
    | cons c pattern ih =>
      intro fuel hfuel
      obtain ⟨fuel, rfl⟩ : ∃ less, fuel = less + 1 := ⟨fuel - 1, by simp at hfuel; omega⟩
      have hrest := ih (fun d hd => h d (List.mem_cons_of_mem _ hd)) fuel (by simpa using hfuel)
      have hc := h c (List.mem_cons_self ..)
      rw [List.map_cons, ← hrest, tokenOf]
      split_ifs with hstar hmark
      · rw [hstar, parseUpTo]
      · rw [hmark, parseUpTo]
      · rw [parseUpTo] <;> simp [hstar, hmark, hc]
  exact hupTo pattern.length (Nat.le_refl _)

theorem accepts_iff_cuts {pattern : Text} (h : ∀ c ∈ pattern, c ≠ .char '[') (text : Text) :
    accepts pattern text = true ↔ Cuts pattern text := by
  rw [accepts, matchTokens_iff_cut, parse_of_noBracket h]
  simp only [List.forall₂_map_left_iff, takes_tokenOf_iff, Cuts]

/-- Without wildcards there is one cut, into single characters. -/
theorem cuts_iff_eq {pattern : Text} (h : ∀ c ∈ pattern, c ≠ .char '*' ∧ c ≠ .char '?') (text : Text) :
    Cuts pattern text ↔ text = pattern := by
  induction pattern generalizing text with
  | nil => simp [Cuts]
  | cons c pattern ih =>
    obtain ⟨hstar, hmark⟩ := h c (List.mem_cons_self ..)
    have ih := ih fun d hd => h d (List.mem_cons_of_mem _ hd)
    constructor
    · intro h
      obtain ⟨pieces, rfl, hpieces⟩ := h
      obtain ⟨piece, pieces, htakes, hrest, rfl⟩ := List.forall₂_cons_left_iff.mp hpieces
      have hsame := (ih _).mp ⟨pieces, rfl, hrest⟩
      cases htakes with
      | star => exact absurd rfl hstar
      | mark => exact absurd rfl hmark
      | literal => rw [List.flatten_cons, hsame, List.singleton_append]
    · rintro rfl
      obtain ⟨pieces, hpieces, hrest⟩ := (ih pattern).mpr rfl
      exact ⟨[c] :: pieces, by rw [List.flatten_cons, ← hpieces]; rfl,
        .cons (.literal hstar hmark) hrest⟩

theorem accepts_star (text : Text) : accepts "*" text = true := by
  refine (accepts_iff_cuts (by decide) text).mpr ⟨[text], ?_, .cons (.star text) .nil⟩
  exact (List.append_nil text).symm

end Pattern

namespace Filter

open Pattern (Cuts)

variable {s : NodeStore} {n : NodeId} {node : Node}

theorem group_holds_iff (hnode : s.get? n = some node) (pattern : Text) :
    (Filter.group pattern).holds s n = true ↔ Pattern.accepts pattern node.label.group = true := by
  rw [holds, hnode]
  rfl

theorem caseName_holds_iff (hnode : s.get? n = some node) (pattern : Text) :
    (Filter.caseName pattern).holds s n = true ↔
      ∃ group caseName, node.label = .test group caseName ∧
        Pattern.accepts pattern caseName = true := by
  rw [holds, hnode, Option.bind_some]
  cases node.label with
  | suite name => simp [Label.case?]
  | test group caseName => simp [Label.case?]

/-- A pattern without brackets selects the nodes whose group can be cut along it, or the tests whose
case can be. Without wildcards this is the name itself. Patterns for the case select no suite. -/
theorem pattern_holds_iff (s : NodeStore) (n : NodeId) (node : Node) (hnode : s.get? n = some node)
    (pattern : Text) :
    ((∀ c ∈ pattern, c ≠ .char '[') →
      ((Filter.group pattern).holds s n = true ↔ Cuts pattern node.label.group) ∧
      ((Filter.caseName pattern).holds s n = true ↔
        ∃ group caseName, node.label = .test group caseName ∧ Cuts pattern caseName)) ∧
    ((∀ c ∈ pattern, c ≠ .char '*' ∧ c ≠ .char '?' ∧ c ≠ .char '[') →
      ((Filter.group pattern).holds s n = true ↔ node.label.group = pattern) ∧
      ((Filter.caseName pattern).holds s n = true ↔ ∃ group, node.label = .test group pattern)) ∧
    ((∃ name, node.label = .suite name) → (Filter.caseName pattern).holds s n = false) := by
  have hcuts (h : ∀ c ∈ pattern, c ≠ .char '[') :
      ((Filter.group pattern).holds s n = true ↔ Cuts pattern node.label.group) ∧
      ((Filter.caseName pattern).holds s n = true ↔
        ∃ group caseName, node.label = .test group caseName ∧ Cuts pattern caseName) := by
    simp only [group_holds_iff hnode, caseName_holds_iff hnode, Pattern.accepts_iff_cuts h,
      and_self]
  refine ⟨hcuts, ?_, ?_⟩
  · intro h
    have hplain : ∀ c ∈ pattern, c ≠ .char '*' ∧ c ≠ .char '?' := fun c hc =>
      ⟨(h c hc).1, (h c hc).2.1⟩
    obtain ⟨hgroup, hcase⟩ := hcuts fun c hc => (h c hc).2.2
    simp only [Pattern.cuts_iff_eq hplain] at hgroup hcase
    refine ⟨hgroup, hcase.trans ⟨?_, ?_⟩⟩
    · rintro ⟨group, caseName, hlabel, rfl⟩
      exact ⟨group, hlabel⟩
    · rintro ⟨group, hlabel⟩
      exact ⟨group, pattern, hlabel, rfl⟩
  · rintro ⟨name, hname⟩
    rw [← Bool.not_eq_true, caseName_holds_iff hnode]
    rintro ⟨group, caseName, hlabel, -⟩
    rw [hname] at hlabel
    cases hlabel

/-- A test, and a suite that is named like its group. -/
def twoNodes : NodeStore :=
  ⟨#[⟨.test "a.T1.T2" "run(\n)", some "t", none, []⟩, ⟨.suite "a.T1.T2", some "s", none, []⟩]⟩

/- Of the two places where the part behind the star fits, only the second leaves nothing over. -/
theorem twoNodes_holds :
    (Filter.group "*.T?").holds twoNodes 0 = true ∧ Cuts "*.T?" "a.T1.T2" ∧
    ¬ Cuts "a?t*" "a.T1.T2" ∧ (Filter.caseName "run(?)").holds twoNodes 0 = true ∧
    (Filter.caseName "Run(\n)").holds twoNodes 0 = false ∧
    (Filter.caseName "*").holds twoNodes 1 = false := by
  obtain ⟨hgroup, -⟩ := (pattern_holds_iff twoNodes 0 _ rfl "*.T?").1 (by decide)
  obtain ⟨hgroup', -⟩ := (pattern_holds_iff twoNodes 0 _ rfl "a?t*").1 (by decide)
  obtain ⟨-, hplain⟩ := (pattern_holds_iff twoNodes 0 _ rfl "Run(\n)").2.1 (by decide)
  have hholds : (Filter.group "*.T?").holds twoNodes 0 = true := by decide
  refine ⟨hholds, hgroup.mp hholds, ?_, by decide, ?_,
    (pattern_holds_iff twoNodes 1 _ rfl "*").2.2 ⟨_, rfl⟩⟩
  · exact fun hcut => absurd (hgroup'.mpr hcut) (by decide)
  · rw [← Bool.not_eq_true, hplain]
    rintro ⟨group, hlabel⟩
    exact absurd (Label.test.inj hlabel).2 (by decide)

end Filter

end SuiteView
