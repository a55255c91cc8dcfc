/-!
# Line ends and positions

Text files are read with every line end turned into a single newline character. A position in a
text is a count of characters; for people it is given as a line and a column, both from one.
-/

namespace SuiteView.Text

def normalizeNewlines : List Char → List Char
  | '\r' :: '\n' :: rest => '\n' :: normalizeNewlines rest
  | '\r' :: rest => '\n' :: normalizeNewlines rest
  | c :: rest => c :: normalizeNewlines rest
  | [] => []

def lineAt (cs : List Char) (position : Nat) : Nat := (cs.take position).count '\n' + 1

/-- The column of a position: one more than the characters between the last newline and it. -/
def columnAt (cs : List Char) (position : Nat) : Nat :=
  ((cs.take position).reverse.takeWhile (· ≠ '\n')).length + 1

/-- After normalisation no carriage return is left. -/
theorem not_mem_normalizeNewlines (cs : List Char) : '\r' ∉ normalizeNewlines cs := by
  fun_induction normalizeNewlines cs with
  | case1 rest ih => simp [ih]
  | case2 rest _ ih => simp [ih]
  | case3 c rest _ hc ih => simp [ih, Ne.symm hc]
  | case4 => simp

/-- A text without carriage returns is left as it is. -/
theorem normalizeNewlines_eq_self {cs : List Char} (h : '\r' ∉ cs) : normalizeNewlines cs = cs := by
  fun_induction normalizeNewlines cs with
  | case1 rest ih => simp at h
  | case2 rest _ ih => simp at h
  | case3 c rest _ _ ih => simp_all
  | case4 => rfl

end SuiteView.Text
