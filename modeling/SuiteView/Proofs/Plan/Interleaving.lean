import SuiteView.Proofs.Plan.Descendants

/-!
# Interleaved additions

Additions under different parents do not get in each other's way. Of the order in which members came a
plan keeps, apart from the list of all members, only the order among siblings; every query goes by the
siblings alone. So two lists that hold the same identifiers, those of one parent in the same order, make
plans that give the same answers.
-/

namespace SuiteView.Plan

/-- The lists hold the same identifiers, and those that share a parent in the same order. -/
structure Interleaves (is js : List Identifier) : Prop where
  perm : is.Perm js
  siblings : ∀ i ∈ is, (is.filter fun j => j.parent = i.parent) = js.filter fun j => j.parent = i.parent

/-- Two forests with the same members and the same siblings in the same order, whatever the order of
all members. -/
structure SameForest (p q : Plan) : Prop where
  left : p.IsForest
  right : q.IsForest
  size_eq : q.size = p.size
  get?_eq : ∀ id, q.get? id = p.get? id
  under_eq : ∀ parent, q.idsUnder parent = p.idsUnder parent

theorem Interleaves.filter_eq {is js : List Identifier} (h : Interleaves is js) (parent : Value) :
    (is.filter fun j => j.parent = parent) = js.filter fun j => j.parent = parent := by
  by_cases hused : ∃ i ∈ is, i.parent = parent
  · obtain ⟨i, hi, rfl⟩ := hused
    exact h.siblings i hi
  · have hnone : ∀ i ∈ is, ¬ decide (i.parent = parent) = true := fun i hi hparent =>
      hused ⟨i, hi, of_decide_eq_true hparent⟩
    have hnone' : ∀ i ∈ js, ¬ decide (i.parent = parent) = true := fun i hi =>
      hnone i (h.perm.mem_iff.mpr hi)
    rw [List.filter_eq_nil_iff.mpr hnone, List.filter_eq_nil_iff.mpr hnone']

theorem Interleaves.sameForest {is js : List Identifier} (h : Interleaves is js) {p q : Plan}
    (hp : ofList is = .ok p) (hq : ofList js = .ok q) : p.SameForest q := by
  have hf := isForest_ofList hp
  have hf' := isForest_ofList hq
  have hlist := toList_ofList hp
  have hlist' := toList_ofList hq
  refine ⟨hf, hf', ?_, ?_, ?_⟩
  · have hlen := h.perm.length_eq
    rw [← hlist, ← hlist', toList, toList, List.length_map, List.length_map] at hlen
    exact hlen.symm
  · intro id
    refine Option.ext fun i => ?_
    rw [hf'.get?_eq_some_iff, hf.get?_eq_some_iff, hlist, hlist', h.perm.mem_iff]
  · intro parent
    rw [idsUnder, idsUnder, hlist, hlist', h.filter_eq]

namespace SameForest

variable {p q : Plan}

theorem refl (h : p.IsForest) : p.SameForest p := ⟨h, h, rfl, fun _ => rfl, fun _ => rfl⟩

/-! ### The same answers -/

theorem lookup_eq (h : p.SameForest q) (ids : List Text) : q.lookup ids = p.lookup ids :=
  List.filterMap_congr fun id _ => h.get?_eq id

theorem childIdsOf_eq (h : p.SameForest q) (id : Text) : q.childIdsOf id = p.childIdsOf id := by
  rw [h.right.childIdsOf_eq, h.left.childIdsOf_eq, h.under_eq]

theorem roots_eq (h : p.SameForest q) : q.roots = p.roots := by
  rw [roots, roots, h.right.rootIds_eq, h.left.rootIds_eq, h.under_eq, h.lookup_eq]

theorem children_eq (h : p.SameForest q) (id : Text) : q.children id = p.children id := by
  rw [children, children, h.childIdsOf_eq, h.lookup_eq]

theorem parent?_eq (h : p.SameForest q) (id : Text) : q.parent? id = p.parent? id := by
  unfold parent?
  simp only [h.get?_eq]

/-- The loop takes the same ids off the same stack, turn by turn. -/
theorem walk_eq (h : p.SameForest q) (fuel : Nat) (stack : List Text) :
    q.walk fuel stack = p.walk fuel stack := by
  induction fuel generalizing stack with
  | zero => rfl
  | succ fuel ih =>
    cases stack with
    | nil => rfl
    | cons id stack => rw [walk, walk, h.get?_eq, h.childIdsOf_eq, ih]

theorem descendants_eq (h : p.SameForest q) (id : Text) : q.descendants id = p.descendants id := by
  rw [descendants, descendants, h.size_eq, h.childIdsOf_eq, h.walk_eq]

theorem descendantIds_eq (h : p.SameForest q) (id : Text) :
    q.descendantIds id = p.descendantIds id := by
  rw [descendantIds, descendantIds, h.descendants_eq]

theorem preorderIds_eq (h : p.SameForest q) : q.preorderIds = p.preorderIds := by
  have hchildren : q.childIdsOf = p.childIdsOf := funext h.childIdsOf_eq
  rw [preorderIds, preorderIds, h.size_eq, h.under_eq, hchildren]

end SameForest

/-- Both plans hold the same members and give the same answers; the order of the members alone may be
another. -/
structure AnswersAlike (p q : Plan) : Prop where
  roots : q.roots = p.roots
  children : ∀ id, q.children id = p.children id
  parent : ∀ id, q.parent? id = p.parent? id
  descendants : ∀ id, q.descendants id = p.descendants id
  members : q.toList.Perm p.toList

end SuiteView.Plan
