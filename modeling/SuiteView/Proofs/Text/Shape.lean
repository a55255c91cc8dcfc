import SuiteView.Text.Shape

/-!
# Matching shapes

A shape describes the texts that its parts spell. The matcher goes by what may follow a character;
main statement: it accepts exactly the texts that the shape spells.
-/

namespace SuiteView.Text

/-- The texts that a shape describes. -/
inductive Shape.Spells : Shape → List Char → Prop
  | blank : Spells .blank []
  | char {p : Char → Bool} {c : Char} (h : p c = true) : Spells (.char p) [c]
  | sequence {a b : Shape} {xs ys : List Char} (ha : Spells a xs) (hb : Spells b ys) :
      Spells (.sequence a b) (xs ++ ys)
  | left {a b : Shape} {cs : List Char} (h : Spells a cs) : Spells (.choice a b) cs
  | right {a b : Shape} {cs : List Char} (h : Spells b cs) : Spells (.choice a b) cs
  | none {a : Shape} : Spells (.many a) []
  | more {a : Shape} {xs ys : List Char} (ha : Spells a xs) (h : Spells (.many a) ys) :
      Spells (.many a) (xs ++ ys)

namespace Shape

/-! ### Inversion -/

theorem spells_nothing (cs : List Char) : ¬ Spells .nothing cs := nofun

theorem spells_blank_iff {cs : List Char} : Spells .blank cs ↔ cs = [] := by
  constructor
  · intro h
    cases h
    rfl
  · rintro rfl
    exact .blank

theorem spells_char_iff {p : Char → Bool} {cs : List Char} :
    Spells (.char p) cs ↔ ∃ c, p c = true ∧ cs = [c] := by
  constructor
  · intro h
    cases h with
    | char h => exact ⟨_, h, rfl⟩
  · rintro ⟨c, hc, rfl⟩
    exact .char hc

theorem spells_sequence_iff {a b : Shape} {cs : List Char} :
    Spells (.sequence a b) cs ↔ ∃ xs ys, cs = xs ++ ys ∧ Spells a xs ∧ Spells b ys := by
  constructor
  · intro h
    cases h with
    | sequence ha hb => exact ⟨_, _, rfl, ha, hb⟩
  · rintro ⟨xs, ys, rfl, ha, hb⟩
    exact .sequence ha hb

theorem spells_choice_iff {a b : Shape} {cs : List Char} :
    Spells (.choice a b) cs ↔ Spells a cs ∨ Spells b cs := by
  constructor
  · intro h
    cases h with
    | left h => exact .inl h
    | right h => exact .inr h
  · rintro (h | h)
    · exact .left h
    · exact .right h

/- Items may be empty, so the first character may stand in any of them. -/
theorem spells_many_cons_iff {a : Shape} {c : Char} {cs : List Char} :
    Spells (.many a) (c :: cs) ↔
      ∃ xs ys, cs = xs ++ ys ∧ Spells a (c :: xs) ∧ Spells (.many a) ys := by
  constructor
  · intro h
    generalize hs : Shape.many a = s at h
    generalize ht : c :: cs = t at h
    induction h generalizing c cs with
    | blank | char | sequence | left | right => cases hs
    | none => cases ht
    | more ha hmany iha ih =>
      rename_i xs ys
      obtain rfl := Shape.many.inj hs
      cases xs with
      | nil => exact ih rfl ht
      | cons x xs =>
        obtain ⟨rfl, rfl⟩ := List.cons.inj ht
        exact ⟨xs, ys, rfl, ha, hmany⟩
  · rintro ⟨xs, ys, rfl, ha, hmany⟩
    exact .more ha hmany

/-! ### The matcher -/

theorem holdsEmpty_iff (s : Shape) : s.holdsEmpty = true ↔ Spells s [] := by
  induction s with
  | nothing => simp [holdsEmpty, spells_nothing]
  | blank => simp [holdsEmpty, spells_blank_iff]
  | char p => simp [holdsEmpty, spells_char_iff]
  | sequence a b iha ihb =>
    rw [holdsEmpty, Bool.and_eq_true, iha, ihb, spells_sequence_iff]
    constructor
    · rintro ⟨ha, hb⟩
      exact ⟨[], [], rfl, ha, hb⟩
    · rintro ⟨xs, ys, hnil, ha, hb⟩
      obtain ⟨rfl, rfl⟩ := List.append_eq_nil_iff.mp hnil.symm
      exact ⟨ha, hb⟩
  | choice a b iha ihb => simp [holdsEmpty, spells_choice_iff, iha, ihb]
  | many a => simp [holdsEmpty, Spells.none]

theorem spells_orElse_iff {a b : Shape} {cs : List Char} :
    Spells (a.orElse b) cs ↔ Spells a cs ∨ Spells b cs := by
  unfold orElse
  split
  · simp [spells_nothing]
  · simp [spells_nothing]
  · exact spells_choice_iff

theorem spells_followedBy_iff {a b : Shape} {cs : List Char} :
    Spells (a.followedBy b) cs ↔ ∃ xs ys, cs = xs ++ ys ∧ Spells a xs ∧ Spells b ys := by
  unfold followedBy
  split
  · simp [spells_nothing]
  · constructor
    · intro hb
      exact ⟨[], cs, rfl, .blank, hb⟩
    · rintro ⟨xs, ys, rfl, ha, hb⟩
      obtain rfl := spells_blank_iff.mp ha
      exact hb
  · exact spells_sequence_iff

/- The first character stands in the first part, or that one is empty. -/
theorem spells_sequence_cons_iff {a b : Shape} {c : Char} {cs : List Char} :
    Spells (.sequence a b) (c :: cs) ↔
      (∃ xs ys, cs = xs ++ ys ∧ Spells a (c :: xs) ∧ Spells b ys) ∨
        Spells a [] ∧ Spells b (c :: cs) := by
  rw [spells_sequence_iff]
  constructor
  · rintro ⟨xs, ys, hcs, ha, hb⟩
    cases xs with
    | nil =>
      obtain rfl : c :: cs = ys := hcs
      exact .inr ⟨ha, hb⟩
    | cons x xs =>
      obtain ⟨rfl, rfl⟩ := List.cons.inj hcs
      exact .inl ⟨xs, ys, rfl, ha, hb⟩
  · rintro (⟨xs, ys, rfl, ha, hb⟩ | ⟨ha, hb⟩)
    · exact ⟨c :: xs, ys, rfl, ha, hb⟩
    · exact ⟨[], c :: cs, rfl, ha, hb⟩

theorem spells_after_iff (s : Shape) (c : Char) (cs : List Char) :
    Spells (s.after c) cs ↔ Spells s (c :: cs) := by
  induction s generalizing cs with
  | nothing => simp [after, spells_nothing]
  | blank => simp [after, spells_nothing, spells_blank_iff]
  | char p =>
    rw [after, spells_char_iff]
    by_cases hp : p c = true
    · rw [if_pos hp, spells_blank_iff]
      constructor
      · rintro rfl
        exact ⟨c, hp, rfl⟩
      · rintro ⟨d, -, hd⟩
        exact (List.cons.inj hd).2
    · rw [if_neg hp]
      constructor
      · intro h
        exact absurd h (spells_nothing cs)
      · rintro ⟨d, hd, hcs⟩
        obtain ⟨rfl, -⟩ := List.cons.inj hcs
        exact absurd hd hp
  | sequence a b iha ihb =>
    rw [after, spells_sequence_cons_iff, ← holdsEmpty_iff]
    by_cases hempty : a.holdsEmpty = true
    · rw [if_pos hempty, spells_orElse_iff, spells_followedBy_iff]
      simp only [iha, ihb, hempty, true_and]
    · rw [if_neg hempty, spells_followedBy_iff]
      simp only [iha, hempty, Bool.false_eq_true, false_and, or_false]
  | choice a b iha ihb => rw [after, spells_orElse_iff, spells_choice_iff, iha, ihb]
  | many a ih =>
    rw [after, spells_followedBy_iff, spells_many_cons_iff]
    simp only [ih]

/-- The matcher accepts the texts that the shape spells. -/
theorem holds_iff (s : Shape) (cs : List Char) : s.holds cs = true ↔ Spells s cs := by
  induction cs generalizing s with
  | nil => exact s.holdsEmpty_iff
  | cons c cs ih => rw [holds, ih, spells_after_iff]

/-! ### Built shapes -/

theorem spells_anyOf {shapes : List Shape} {s : Shape} (hs : s ∈ shapes) {cs : List Char}
    (h : Spells s cs) : Spells (anyOf shapes) cs := by
  induction shapes with
  | nil => cases hs
  | cons first shapes ih =>
    rcases List.mem_cons.mp hs with rfl | hmem
    · exact .left h
    · exact .right (ih hmem)

theorem spells_many_char {p : Char → Bool} {cs : List Char} (h : ∀ c ∈ cs, p c = true) :
    Spells (.many (.char p)) cs := by
  induction cs with
  | nil => exact .none
  | cons c cs ih =>
    exact .more (.char (h c (List.mem_cons_self ..)))
      (ih fun d hd => h d (List.mem_cons_of_mem _ hd))

end Shape

end SuiteView.Text
