import SuiteView.Filter.Basic

/-!
# What filters look at

All filters but those for a node decide by label and stable id alone, so they cannot tell two nodes
apart that agree in both, in whatever store these live. Filters for a node go by the key of a node
besides, which is its number where it has no stable id.
-/

namespace SuiteView

/-- Two nodes that show the same. -/
def NodeStore.SameFace (s t : NodeStore) (n m : NodeId) : Prop :=
  ∃ x y, s.get? n = some x ∧ t.get? m = some y ∧ x.label = y.label ∧ x.stableId = y.stableId

theorem NodeStore.SameFace.keyOf_eq {s t : NodeStore} {n : NodeId} (h : s.SameFace t n n) :
    s.keyOf n = t.keyOf n := by
  obtain ⟨x, y, hx, hy, -, hid⟩ := h
  unfold keyOf stableIdOf?
  rw [hx, hy, Option.bind_some, Option.bind_some, hid]

namespace Filter

mutual

/-- No part of the filter is a filter for a node. -/
def nodeFree : Filter → Bool
  | .node _ _ => false
  | .all filters => allNodeFree filters
  | .any filters => allNodeFree filters
  | .negation filter => nodeFree filter
  | .group _ | .caseName _ | .ids _ | .constant _ _ => true
termination_by structural filter => filter

def allNodeFree : List Filter → Bool
  | [] => true
  | filter :: rest => nodeFree filter && allNodeFree rest
termination_by structural filters => filters

end

theorem allNodeFree_iff (fs : List Filter) :
    allNodeFree fs = true ↔ ∀ f ∈ fs, f.nodeFree = true := by
  induction fs with
  | nil => simp [allNodeFree]
  | cons f rest ih => rw [allNodeFree, Bool.and_eq_true, ih, List.forall_mem_cons]

variable {s t : NodeStore} {n m : NodeId}

/- The lists inside a filter are filters of their own, so the three statements go by one induction. -/
mutual

theorem holds_congr (h : s.SameFace t n m) :
    (f : Filter) → f.nodeFree = true ∨ s.keyOf n = t.keyOf m → f.holds s n = f.holds t m
  | .group pattern, _ => by
    obtain ⟨x, y, hx, hy, hlabel, -⟩ := h
    simp only [holds, hx, hy, hlabel, Option.map_some]
  | .caseName pattern, _ => by
    obtain ⟨x, y, hx, hy, hlabel, -⟩ := h
    simp only [holds, hx, hy, hlabel, Option.bind_some]
  | .ids wanted, _ => by
    obtain ⟨x, y, hx, hy, -, hid⟩ := h
    simp only [holds, NodeStore.stableIdOf?, hx, hy, hid, Option.bind_some]
  | .node _ _, hblind => by
    rcases hblind with hfree | hkey
    · cases hfree
    · simp only [holds, hkey]
  | .constant _ _, _ => rfl
  | .all filters, hblind => holdAll_congr h filters hblind
  | .any filters, hblind => holdAny_congr h filters hblind
  | .negation filter, hblind => by
    simp only [holds]
    rw [holds_congr h filter hblind]

theorem holdAll_congr (h : s.SameFace t n m) :
    (fs : List Filter) → allNodeFree fs = true ∨ s.keyOf n = t.keyOf m →
      holdAll s n fs = holdAll t m fs
  | [], _ => rfl
  | filter :: rest, hblind => by
    simp only [allNodeFree, Bool.and_eq_true, and_or_right] at hblind
    simp only [holdAll]
    rw [holds_congr h filter hblind.1, holdAll_congr h rest hblind.2]

theorem holdAny_congr (h : s.SameFace t n m) :
    (fs : List Filter) → allNodeFree fs = true ∨ s.keyOf n = t.keyOf m →
      holdAny s n fs = holdAny t m fs
  | [], _ => rfl
  | filter :: rest, hblind => by
    simp only [allNodeFree, Bool.and_eq_true, and_or_right] at hblind
    simp only [holdAny]
    rw [holds_congr h filter hblind.1, holdAny_congr h rest hblind.2]

end

theorem holds_of_sameFace (h : s.SameFace t n m) (f : Filter) (hfree : f.nodeFree = true) :
    f.holds s n = f.holds t m :=
  holds_congr h f (.inl hfree)

/-- A node that keeps label and stable id keeps the answers of all filters. -/
theorem holds_of_sameNode (h : s.SameFace t n n) (f : Filter) : f.holds s n = f.holds t n :=
  holds_congr h f (.inr h.keyOf_eq)

end Filter

end SuiteView
