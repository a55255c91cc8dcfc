import SuiteView.Proofs.Plan.Branch
import SuiteView.Proofs.Plan.Turns

/-!
# Where a new member arrives

A child that is added to a plan becomes the last child of its parent. The walk below the parent lists
it last, and the walk below any member further up lists it right behind the last one that lay below the
parent so far; all other walks, all other lists of children and all older parents stay as they are.
-/

namespace SuiteView.Plan

variable {p p' : Plan} {i : Identifier}

theorem kept_add (ha : p.add i = .ok p') : ∀ id j, p.get? id = some j → p'.get? id = some j :=
  fun _ _ => get?_add_of_mem ha

theorem get?_added (ha : p.add i = .ok p') : p'.get? i.uniqueId = some i := by
  rw [get?_add ha, if_pos rfl]

theorem lookup_append (p : Plan) (xs ys : List Text) :
    p.lookup (xs ++ ys) = p.lookup xs ++ p.lookup ys :=
  List.filterMap_append

theorem lookup_add (ha : p.add i = .ok p') {ids : List Text} (hids : ids ⊆ p.ids) :
    p'.lookup ids = p.lookup ids := by
  refine List.filterMap_congr fun id hid => ?_
  have hne : id ≠ i.uniqueId := fun he => (add_cases ha).1 (he ▸ hids hid)
  rw [get?_add ha, if_neg hne]

theorem lookup_added (ha : p.add i = .ok p') : p'.lookup [i.uniqueId] = [i] :=
  List.filterMap_cons_some (get?_added ha)

theorem parent?_added (ha : p.add i = .ok p') {q : Text} (hq : q ∈ p.ids)
    (hparent : i.parent = .string q) : p'.parent? i.uniqueId = p.get? q := by
  have hne : q ≠ i.uniqueId := fun he => (add_cases ha).1 (he ▸ hq)
  simp only [parent?, get?_added ha, hparent, Option.bind_some]
  rw [get?_add ha, if_neg hne]

namespace IsForest

/-! ### Parents in a larger plan -/

theorem parentOf_kept_iff (h : p.IsForest)
    (hkept : ∀ id j, p.get? id = some j → p'.get? id = some j) {x y : Text} (hy : y ∈ p.ids) :
    p'.ParentOf x y ↔ p.ParentOf x y := by
  obtain ⟨j, hj⟩ := (h.mem_ids_iff y).mp hy
  unfold ParentOf
  rw [hj, hkept y j hj]

/-- Whatever else a plan holds, the members above one that stays are the same. -/
theorem reach_kept_iff (h : p.IsForest)
    (hkept : ∀ id j, p.get? id = some j → p'.get? id = some j) {x y : Text} (hy : y ∈ p.ids) :
    Relation.ReflTransGen p'.ParentOf x y ↔ Relation.ReflTransGen p.ParentOf x y := by
  constructor
  · intro hreach
    induction hreach with
    | refl => exact .refl
    | tail _ hstep ih =>
      have hold := (h.parentOf_kept_iff hkept hy).mp hstep
      exact (ih (h.parentOf_mem hold).1).tail hold
  · intro hreach
    induction hreach with
    | refl => exact .refl
    | tail _ hstep ih =>
      exact (ih (h.parentOf_mem hstep).1).tail ((h.parentOf_kept_iff hkept hy).mpr hstep)

theorem below_kept_iff (h : p.IsForest)
    (hkept : ∀ id j, p.get? id = some j → p'.get? id = some j) {x y : Text} (hy : y ∈ p.ids) :
    p'.Below x y ↔ p.Below x y := by
  unfold Below
  rw [Relation.TransGen.tail'_iff, Relation.TransGen.tail'_iff]
  refine exists_congr fun z => ?_
  rw [h.parentOf_kept_iff hkept hy]
  exact and_congr_left fun hstep => h.reach_kept_iff hkept (h.parentOf_mem hstep).1

/-! ### The place of the new member -/

/-- The new member lies below its parent and below whatever is above that. -/
theorem below_added_iff (h : p.IsForest) (ha : p.add i = .ok p') {q : Text} (hq : q ∈ p.ids)
    (hparent : i.parent = .string q) (x : Text) :
    p'.Below x i.uniqueId ↔ Relation.ReflTransGen p.ParentOf x q := by
  have hnew := get?_added ha
  unfold Below
  rw [Relation.TransGen.tail'_iff, ← h.reach_kept_iff (kept_add ha) hq]
  constructor
  · rintro ⟨z, hreach, j, hj, hjz⟩
    obtain rfl : i = j := Option.some.inj (hnew.symm.trans hj)
    obtain rfl : q = z := Value.string.inj (hparent.symm.trans hjz)
    exact hreach
  · intro hreach
    exact ⟨q, hreach, i, hnew, hparent⟩

theorem not_below_added (h : p.IsForest) (ha : p.add i = .ok p') (x : Text) :
    ¬ p'.Below i.uniqueId x := by
  intro hbelow
  obtain ⟨y, hy, -⟩ := Relation.TransGen.head'_iff.mp hbelow
  rw [← (h.add ha).mem_childIdsOf_iff, h.childIdsOf_added ha] at hy
  cases hy

/-! ### Walks -/

theorem erase_descendantIds_add (h : p.IsForest) (ha : p.add i = .ok p') (x : Text) :
    (p'.descendantIds x).erase i.uniqueId = p.descendantIds x := by
  rw [(h.add ha).descendantIds_eq, h.descendantIds_eq]
  exact h.erase_under_add ha _

theorem descendantIds_parent (h : p.IsForest) (ha : p.add i = .ok p') {q : Text}
    (hparent : i.parent = .string q) :
    p'.descendantIds q = p.descendantIds q ++ [i.uniqueId] := by
  have hf := h.add ha
  obtain ⟨front, hfront⟩ : ∃ front, p'.descendantIds q = front ++ [i.uniqueId] := by
    rw [hf.descendantIds_eq, idsUnder_add ha, if_pos hparent, List.flatMap_append,
      List.flatMap_singleton, h.upTo_added ha]
    exact ⟨_, rfl⟩
  have hnodup := hf.descendantIds_nodup q
  have hold := h.erase_descendantIds_add ha q
  rw [hfront, ← List.concat_eq_append, List.nodup_concat] at hnodup
  rw [hfront, List.erase_append_right _ hnodup.1, List.erase_cons_head, List.append_nil] at hold
  rw [hfront, hold]

theorem descendantIds_ancestor (h : p.IsForest) (ha : p.add i = .ok p') {q a : Text}
    (hparent : i.parent = .string q) (haq : p.Below a q) : ∃ front back,
      p.descendantIds a = front ++ (q :: p.descendantIds q) ++ back ∧
      p'.descendantIds a = front ++ (q :: p.descendantIds q) ++ i.uniqueId :: back := by
  have hbranch : Preorder.upTo p.childIdsOf p.size q = q :: p.descendantIds q := by
    rw [Preorder.upTo_unfold (h.within_size (h.below_mem haq).2.1), h.childIdsOf_eq,
      ← h.descendantIds_eq]
  rw [← h.mem_descendantIds_iff, h.descendantIds_eq] at haq
  rw [h.descendantIds_eq a, (h.add ha).descendantIds_eq a, ← hbranch]
  exact h.under_addChild ha hparent haq

theorem descendantIds_elsewhere (h : p.IsForest) (ha : p.add i = .ok p') {q x : Text} (hq : q ∈ p.ids)
    (hparent : i.parent = .string q) (hx : ¬ Relation.ReflTransGen p.ParentOf x q) :
    p'.descendantIds x = p.descendantIds x := by
  rw [← h.below_added_iff ha hq hparent, ← (h.add ha).mem_descendantIds_iff] at hx
  rw [← h.erase_descendantIds_add ha x, List.erase_of_not_mem hx]

/-! ### Members in place of ids -/

theorem descendantIds_subset (h : p.IsForest) (x : Text) : p.descendantIds x ⊆ p.ids := fun _ hz =>
  (h.below_mem ((h.mem_descendantIds_iff x _).mp hz)).2.1

/-- The walk below the parent lists the new member last. -/
theorem descendants_parent (h : p.IsForest) (ha : p.add i = .ok p') {q : Text}
    (hparent : i.parent = .string q) : p'.descendants q = p.descendants q ++ [i] := by
  rw [← (h.add ha).lookup_descendantIds, h.descendantIds_parent ha hparent, lookup_append,
    lookup_added ha, lookup_add ha (h.descendantIds_subset q), h.lookup_descendantIds]

/-- The walk below a member above the parent lists the new member right behind the branch of the
parent. -/
theorem descendants_ancestor (h : p.IsForest) (ha : p.add i = .ok p') {q a : Text}
    (hparent : i.parent = .string q) (haq : p.Below a q) : ∃ front j back, p.get? q = some j ∧
      p.descendants a = front ++ (j :: p.descendants q) ++ back ∧
      p'.descendants a = front ++ (j :: p.descendants q) ++ i :: back := by
  obtain ⟨front, back, hold, hnew⟩ := h.descendantIds_ancestor ha hparent haq
  have hsub := h.descendantIds_subset a
  rw [hold, List.append_subset, List.append_subset] at hsub
  obtain ⟨⟨hfront, hbranch⟩, hback⟩ := hsub
  obtain ⟨j, hj⟩ := (h.mem_ids_iff q).mp (h.below_mem haq).2.1
  have hlookup : p.lookup (q :: p.descendantIds q) = j :: p.descendants q := by
    rw [lookup, List.filterMap_cons_some hj]
    exact congrArg (j :: ·) (h.lookup_descendantIds q)
  refine ⟨p.lookup front, j, p.lookup back, hj, ?_, ?_⟩
  · rw [← h.lookup_descendantIds, hold, lookup_append, lookup_append, hlookup]
  · have hlater : p'.lookup (i.uniqueId :: back) = i :: p.lookup back := by
      rw [← List.singleton_append, lookup_append, lookup_added ha, lookup_add ha hback,
        List.singleton_append]
    rw [← (h.add ha).lookup_descendantIds, hnew, lookup_append, lookup_append, hlater,
      lookup_add ha hfront, lookup_add ha hbranch, hlookup]

theorem descendants_elsewhere (h : p.IsForest) (ha : p.add i = .ok p') {q x : Text} (hq : q ∈ p.ids)
    (hparent : i.parent = .string q) (hx : ¬ Relation.ReflTransGen p.ParentOf x q) :
    p'.descendants x = p.descendants x := by
  rw [← (h.add ha).lookup_descendantIds, h.descendantIds_elsewhere ha hq hparent hx,
    lookup_add ha (h.descendantIds_subset x), h.lookup_descendantIds]

theorem descendants_added (h : p.IsForest) (ha : p.add i = .ok p') :
    p'.descendants i.uniqueId = [] := by
  rw [← List.map_eq_nil_iff (f := (·.uniqueId)), List.eq_nil_iff_forall_not_mem]
  intro x hx
  exact h.not_below_added ha x (((h.add ha).mem_descendantIds_iff _ x).mp hx)

/-! ### Siblings -/

theorem children_add (h : p.IsForest) (ha : p.add i = .ok p') (x : Text) :
    p'.children x = p.children x ++ if i.parent = .string x then [i] else [] := by
  rw [(h.add ha).children_eq, h.children_eq, toList_add ha, List.filter_append]
  by_cases hx : i.parent = .string x <;> simp [hx]

theorem roots_addChild (h : p.IsForest) (ha : p.add i = .ok p') {q : Text}
    (hparent : i.parent = .string q) : p'.roots = p.roots := by
  rw [(h.add ha).roots_eq, h.roots_eq, toList_add ha, List.filter_append]
  simp [hparent]

end IsForest

end SuiteView.Plan
