import Mathlib.Data.Set.Card
import SuiteView.Proofs.Plan.Tables

/-!
# The turns of the walk

The walk below a member keeps a stack whose last id comes next, and pushes the children of a member in
reverse, so that the first of them comes next. Here the loop is spelled out with its turns counted. In
a forest it takes one turn for each member below and ends, and what it has listed is the solution of
the recursive equation: every child, each followed by what lies below it.
-/

namespace SuiteView.Plan

/-! ### The loop -/

/-- From this stack and with these members listed, the loop ends after exactly so many turns, having
found these members. A turn takes the last id off the stack, lists its member and pushes the ids of its
children in reverse; with an id that has no member or no list of children no loop ends. -/
inductive EndsAfter (p : Plan) :
    (turns : Nat) → (stack : List Text) → (listed found : List Identifier) → Prop where
  | empty (listed : List Identifier) : EndsAfter p 0 [] listed listed
  | turn {turns : Nat} {stack : List Text} {id : Text} {i : Identifier} {below : List Text}
      {listed found : List Identifier} (member : p.get? id = some i)
      (children : p.childIds.get? id = some below)
      (rest : EndsAfter p turns (stack ++ below.reverse) (listed ++ [i]) found) :
      EndsAfter p (turns + 1) (stack ++ [id]) listed found

/-- The parent of the first id is the second. -/
def ClimbsTo (p : Plan) (id parent : Text) : Prop := (p.parent? id).map (·.uniqueId) = some parent

theorem walk_nil (p : Plan) (fuel : Nat) : p.walk fuel [] = [] := by
  cases fuel with
  | zero => rfl
  | succ fuel => rfl

namespace EndsAfter

variable {p : Plan} {turns turns' : Nat} {stack : List Text} {listed found found' : List Identifier}

theorem of_nil (h : p.EndsAfter turns [] listed found) : turns = 0 ∧ found = listed := by
  generalize hstack : ([] : List Text) = stack at h
  cases h with
  | empty => exact ⟨rfl, rfl⟩
  | turn => simp at hstack

theorem of_concat {id : Text} (h : p.EndsAfter turns (stack ++ [id]) listed found) :
    ∃ n i below, turns = n + 1 ∧ p.get? id = some i ∧ p.childIds.get? id = some below ∧
      p.EndsAfter n (stack ++ below.reverse) (listed ++ [i]) found := by
  generalize hstack : stack ++ [id] = whole at h
  cases h with
  | empty => simp at hstack
  | turn member children rest =>
    obtain ⟨rfl, rfl⟩ := List.append_singleton_inj.mp hstack
    exact ⟨_, _, _, rfl, member, children, rest⟩

/-- The stack decides how long the loop takes and what it finds. -/
theorem unique (h : p.EndsAfter turns stack listed found)
    (h' : p.EndsAfter turns' stack listed found') : turns' = turns ∧ found' = found := by
  induction h generalizing turns' with
  | empty listed => exact of_nil h'
  | turn member children _ ih =>
    obtain ⟨n, i, below, rfl, hi, hbelow, hrest⟩ := of_concat h'
    obtain rfl := Option.some.inj (member.symm.trans hi)
    obtain rfl := Option.some.inj (children.symm.trans hbelow)
    obtain ⟨hn, hfound⟩ := ih hrest
    exact ⟨congrArg (· + 1) hn, hfound⟩

end EndsAfter

namespace IsForest

variable {p : Plan}

/-! ### One turn for each member -/

/-- Read from its end, the stack is what the walk takes from the front. -/
theorem endsAfter_walk (h : p.IsForest) (fuel : Nat) (stack : List Text) (hs : stack ⊆ p.ids)
    (hf : (stack.flatMap (Preorder.upTo p.childIdsOf p.size)).length ≤ fuel)
    (listed : List Identifier) :
    p.EndsAfter (p.walk fuel stack).length stack.reverse listed (listed ++ p.walk fuel stack) := by
  have hw : ∀ x ∈ stack, Preorder.Within p.childIdsOf p.size x := fun x hx => h.within_size (hs hx)
  induction fuel generalizing stack listed with
  | zero =>
    cases stack with
    | nil =>
      rw [walk_nil, List.append_nil]
      exact .empty listed
    | cons id stack =>
      rw [Preorder.flatMap_upTo_cons (hw id (List.mem_cons_self ..)), List.length_cons] at hf
      omega
  | succ fuel ih =>
    cases stack with
    | nil =>
      rw [walk_nil, List.append_nil]
      exact .empty listed
    | cons id stack =>
      have hid : id ∈ p.ids := hs (List.mem_cons_self ..)
      obtain ⟨i, hi⟩ := (h.mem_ids_iff id).mp hid
      have hnext : p.childIdsOf id ++ stack ⊆ p.ids :=
        List.append_subset.mpr ⟨h.childIdsOf_subset id, List.subset_of_cons_subset hs⟩
      rw [Preorder.flatMap_upTo_cons (hw id (List.mem_cons_self ..)), List.length_cons] at hf
      have hrest := ih (p.childIdsOf id ++ stack) hnext (by omega) (listed ++ [i])
        (Preorder.within_stack hw)
      have hwalk : p.walk (fuel + 1) (id :: stack) = i :: p.walk fuel (p.childIdsOf id ++ stack) := by
        rw [walk, hi]
        rfl
      rw [List.reverse_append, List.append_assoc, List.singleton_append] at hrest
      rw [hwalk, List.length_cons, List.reverse_cons]
      exact .turn hi (h.childIds_get? hid) hrest

theorem endsAfter_descendants (h : p.IsForest) (id : Text) :
    p.EndsAfter (p.descendants id).length (p.childIdsOf id).reverse [] (p.descendants id) := by
  have hlen := h.length_under_le (.string id)
  rw [← h.childIdsOf_eq] at hlen
  exact h.endsAfter_walk p.size (p.childIdsOf id) (h.childIdsOf_subset id) hlen []

/-! ### Following parents -/

theorem climbsTo_iff (h : p.IsForest) (id parent : Text) :
    p.ClimbsTo id parent ↔ p.ParentOf parent id := by
  constructor
  · intro hclimb
    obtain ⟨i, hi, hid⟩ := Option.map_eq_some_iff.mp hclimb
    exact hid ▸ h.parentOf_of_parent? hi
  · intro hparent
    obtain ⟨j, hj⟩ := (h.mem_ids_iff parent).mp (h.parentOf_mem hparent).1
    obtain ⟨i, hi, hip⟩ := hparent
    have hup : p.parent? id = some j := by simp [parent?, hi, hip, hj]
    rw [ClimbsTo, hup, Option.map_some, h.uniqueId_of_get? hj]

theorem climbs_iff_below (h : p.IsForest) (id above : Text) :
    Relation.TransGen p.ClimbsTo id above ↔ p.Below above id := by
  have hstep : p.ClimbsTo = Function.swap p.ParentOf := by
    funext x y
    exact propext (h.climbsTo_iff x y)
  rw [hstep, Relation.transGen_swap]
  rfl

theorem ncard_climbs (h : p.IsForest) (id : Text) :
    {x | Relation.TransGen p.ClimbsTo x id}.ncard = (p.descendants id).length := by
  have hset : {x | Relation.TransGen p.ClimbsTo x id} = ↑(p.descendantIds id).toFinset := by
    ext x
    rw [Set.mem_ofPred_eq, h.climbs_iff_below, List.coe_toFinset, Set.mem_ofPred_eq,
      h.mem_descendantIds_iff]
  rw [hset, Set.ncard_coe_finset, List.toFinset_card_of_nodup (h.descendantIds_nodup id),
    descendantIds, List.length_map]

/-! ### The recursive equation -/

theorem lookup_descendantIds (h : p.IsForest) (id : Text) :
    p.lookup (p.descendantIds id) = p.descendants id :=
  h.lookup_members fun _ hi => h.get?_of_mem_descendants hi

theorem descendantIds_eq_flatMap (h : p.IsForest) (id : Text) :
    p.descendantIds id =
      (p.children id).flatMap fun i => i.uniqueId :: p.descendantIds i.uniqueId := by
  have hchildren : p.idsUnder (.string id) = (p.children id).map (·.uniqueId) :=
    (h.children_ids id).symm
  rw [h.descendantIds_eq, hchildren, List.flatMap_map]
  refine List.flatMap_congr fun i hi => ?_
  have hmem : i.uniqueId ∈ p.ids := h.idsUnder_subset (.string id) (by
    rw [hchildren]
    exact List.mem_map_of_mem hi)
  rw [Preorder.upTo_unfold (h.within_size hmem), h.childIdsOf_eq, ← h.descendantIds_eq]

/-- What lies below an id: its children, each followed by what lies below it. -/
theorem descendants_eq_flatMap (h : p.IsForest) (id : Text) :
    p.descendants id = (p.children id).flatMap fun i => i :: p.descendants i.uniqueId := by
  rw [← h.lookup_descendantIds, h.descendantIds_eq_flatMap, lookup, List.filterMap_flatMap]
  refine List.flatMap_congr fun i hi => ?_
  rw [h.children_eq] at hi
  rw [List.filterMap_cons_some (h.get?_uniqueId (List.mem_filter.mp hi).1)]
  exact congrArg (i :: ·) (h.lookup_descendantIds i.uniqueId)

/-- The equation has no other solution: below an id every path ends. -/
theorem eq_descendants (h : p.IsForest) {f : Text → List Identifier}
    (hf : ∀ x, f x = (p.children x).flatMap fun i => i :: f i.uniqueId) (id : Text) :
    f id = p.descendants id := by
  have hdepth : Preorder.Within p.childIdsOf (p.size + 1) id := fun x hx =>
    h.within_size (h.childIdsOf_subset id hx)
  generalize p.size + 1 = depth at hdepth
  induction depth generalizing id with
  | zero => exact False.elim hdepth
  | succ depth ih =>
    rw [hf, h.descendants_eq_flatMap]
    refine List.flatMap_congr fun i hi => ?_
    have hchild : i.uniqueId ∈ p.childIdsOf id := by
      rw [h.childIdsOf_eq, ← h.children_ids]
      exact List.mem_map_of_mem hi
    rw [ih i.uniqueId (hdepth _ hchild)]

end IsForest

/-! ### What holds of every plan -/

/-- The loop that walks below an id ends after as many turns as there are ids that lead to it by their
parents, and after no other number; what it finds solves the recursive equation as nothing else does,
and has each of those ids once, and never the id itself. -/
structure WalksExactly (p : Plan) (id : Text) : Prop where
  ends : p.EndsAfter {x | Relation.TransGen p.ClimbsTo x id}.ncard (p.childIdsOf id).reverse []
    (p.descendants id)
  ends_once : ∀ turns found, p.EndsAfter turns (p.childIdsOf id).reverse [] found →
    turns = {x | Relation.TransGen p.ClimbsTo x id}.ncard ∧ found = p.descendants id
  equation : p.descendants id = (p.children id).flatMap fun i => i :: p.descendants i.uniqueId
  only_solution : ∀ f : Text → List Identifier,
    (∀ x, f x = (p.children x).flatMap fun i => i :: f i.uniqueId) → f id = p.descendants id
  mem_iff : ∀ x, x ∈ (p.descendants id).map (·.uniqueId) ↔ Relation.TransGen p.ClimbsTo x id
  nodup : ((p.descendants id).map (·.uniqueId)).Nodup
  not_self : id ∉ (p.descendants id).map (·.uniqueId)

theorem IsForest.walksExactly {p : Plan} (h : p.IsForest) (id : Text) : p.WalksExactly id where
  ends := by
    rw [h.ncard_climbs]
    exact h.endsAfter_descendants id
  ends_once turns found hends := by
    rw [h.ncard_climbs]
    exact (h.endsAfter_descendants id).unique hends
  equation := h.descendants_eq_flatMap id
  only_solution _ hf := h.eq_descendants hf id
  mem_iff x := (h.mem_descendantIds_iff id x).trans (h.climbs_iff_below x id).symm
  nodup := h.descendantIds_nodup id
  not_self hself := h.not_below_self id ((h.mem_descendantIds_iff id id).mp hself)

/-- Whatever was added, taken or refused, the walk below any id, known or not, is exact. -/
theorem afterAdding_walksExactly (is : List Identifier) (id : Text) :
    (empty.afterAdding is).WalksExactly id :=
  (isForest_afterAdding is).walksExactly id

end SuiteView.Plan
