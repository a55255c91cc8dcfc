import SuiteView.Proofs.Plan.Forest
import SuiteView.Proofs.Preorder

/-!
# What lies below a member

Below a member lies whatever leads to it by following parents. In a forest the walk over the stack
lists exactly that, once each: the members are distinct, so its turns suffice.
-/

namespace SuiteView.Plan

/-- The first id is the parent of the second. -/
def ParentOf (p : Plan) (parent id : Text) : Prop :=
  ∃ i, p.get? id = some i ∧ i.parent = .string parent

/-- The second id lies below the first: following parents leads from it to the first. -/
def Below (p : Plan) : Text → Text → Prop := Relation.TransGen p.ParentOf

/-- The ids of the whole forest in pre-order. -/
def preorderIds (p : Plan) : List Text :=
  (p.idsUnder .null).flatMap (Preorder.upTo p.childIdsOf p.size)

theorem reach_iff {p : Plan} {x : Text} {i : Identifier} (hi : p.get? x = some i) (y : Text) :
    Relation.ReflTransGen p.ParentOf y x ↔
      y = x ∨ ∃ q, i.parent = .string q ∧ Relation.ReflTransGen p.ParentOf y q := by
  rw [Relation.ReflTransGen.cases_tail_iff]
  refine or_congr eq_comm (exists_congr fun q => ?_)
  rw [and_comm]
  refine and_congr_left fun _ => ?_
  constructor
  · rintro ⟨j, hj, hq⟩
    obtain rfl : i = j := Option.some.inj (hi.symm.trans hj)
    exact hq
  · intro hq
    exact ⟨i, hi, hq⟩

namespace IsForest

variable {p : Plan}

/-! ### Parents -/

theorem mem_childIdsOf_iff (h : p.IsForest) (id x : Text) : x ∈ p.childIdsOf id ↔ p.ParentOf id x := by
  rw [h.childIdsOf_eq, h.mem_idsUnder_iff]
  rfl

theorem child_eq (h : p.IsForest) : Preorder.Child p.childIdsOf = p.ParentOf := by
  funext id x
  exact propext (h.mem_childIdsOf_iff id x)

theorem parent_unique (h : p.IsForest) (x x' y : Text) (hx : y ∈ p.childIdsOf x)
    (hx' : y ∈ p.childIdsOf x') : x = x' := by
  obtain ⟨i, hi, hp⟩ := (h.mem_childIdsOf_iff x y).mp hx
  obtain ⟨j, hj, hq⟩ := (h.mem_childIdsOf_iff x' y).mp hx'
  obtain rfl : i = j := Option.some.inj (hi.symm.trans hj)
  exact Value.string.inj (hp.symm.trans hq)

theorem childIdsOf_nodup (h : p.IsForest) (id : Text) : (p.childIdsOf id).Nodup := by
  rw [h.childIdsOf_eq]
  exact h.idsUnder_nodup _

theorem parentOf_mem (h : p.IsForest) {x y : Text} (hxy : p.ParentOf x y) :
    x ∈ p.ids ∧ y ∈ p.ids ∧ p.ids.idxOf x < p.ids.idxOf y := by
  obtain ⟨i, hi, hp⟩ := hxy
  have hy := h.uniqueId_of_get? hi
  rcases h.parent_before i (h.mem_of_get? hi) with hnull | ⟨parent, hparent, hin, hlt⟩
  · rw [hp] at hnull
    cases hnull
  · obtain rfl : parent = x := Value.string.inj (hparent.symm.trans hp)
    rw [hy] at hlt
    exact ⟨hin, (h.mem_ids_iff y).mpr ⟨i, hi⟩, hlt⟩

theorem parentOf_of_parent? (h : p.IsForest) {id : Text} {i : Identifier}
    (hi : p.parent? id = some i) : p.ParentOf i.uniqueId id := by
  unfold Plan.parent? at hi
  obtain ⟨j, hj, hup⟩ := Option.bind_eq_some_iff.mp hi
  split at hup
  · rename_i parent hparent
    exact ⟨j, hj, h.uniqueId_of_get? hup ▸ hparent⟩
  · cases hup

theorem below_mem (h : p.IsForest) {x y : Text} (hxy : p.Below x y) :
    x ∈ p.ids ∧ y ∈ p.ids ∧ p.ids.idxOf x < p.ids.idxOf y := by
  induction hxy with
  | single hstep => exact h.parentOf_mem hstep
  | tail _ hstep ih =>
    have hlast := h.parentOf_mem hstep
    exact ⟨ih.1, hlast.2.1, by omega⟩

theorem not_below_self (h : p.IsForest) (x : Text) : ¬ p.Below x x := fun hx =>
  Nat.lt_irrefl _ (h.below_mem hx).2.2

theorem reach_antisymm (h : p.IsForest) {x y : Text} (hxy : Relation.ReflTransGen p.ParentOf x y)
    (hyx : Relation.ReflTransGen p.ParentOf y x) : x = y := by
  rcases Relation.reflTransGen_iff_eq_or_transGen.mp hxy with he | hbelow
  · exact he.symm
  · exact absurd (Relation.TransGen.trans_left hbelow hyx) (h.not_below_self x)

/-- Of two members at or above a third, one lies at or above the other. -/
theorem reach_total (h : p.IsForest) {x y z : Text} (hx : Relation.ReflTransGen p.ParentOf x z)
    (hy : Relation.ReflTransGen p.ParentOf y z) : x = y ∨ p.Below x y ∨ p.Below y x := by
  rw [← h.child_eq] at hx hy
  have htotal := Preorder.above_total h.parent_unique hx hy
  rw [h.child_eq, Relation.reflTransGen_iff_eq_or_transGen,
    Relation.reflTransGen_iff_eq_or_transGen] at htotal
  rcases htotal with (he | hxy) | (he | hyx)
  · exact .inl he.symm
  · exact .inr (.inl hxy)
  · exact .inl he
  · exact .inr (.inr hyx)

/-! ### Depth -/

/- Going down, the place in the order of insertion grows, so the members behind an id bound the
   length of every path that starts there. -/
theorem within_of_size_le (h : p.IsForest) (d : Nat) {x : Text} (hx : x ∈ p.ids)
    (hd : p.size ≤ d + p.ids.idxOf x) : Preorder.Within p.childIdsOf d x := by
  induction d generalizing x with
  | zero =>
    have hlt := List.idxOf_lt_length_of_mem hx
    have hsize : p.ids.length = p.size := List.length_map ..
    omega
  | succ d ih =>
    intro y hy
    obtain ⟨-, hmem, hlt⟩ := h.parentOf_mem ((h.mem_childIdsOf_iff x y).mp hy)
    exact ih hmem (by omega)

theorem within_size (h : p.IsForest) {x : Text} (hx : x ∈ p.ids) :
    Preorder.Within p.childIdsOf p.size x :=
  h.within_of_size_le p.size hx (Nat.le_add_right _ _)

theorem upTo_subset (h : p.IsForest) (d : Nat) {x : Text} (hx : x ∈ p.ids) :
    Preorder.upTo p.childIdsOf d x ⊆ p.ids := by
  intro z hz
  have hreach := Preorder.reach_of_mem_upTo hz
  rw [h.child_eq] at hreach
  rcases Relation.reflTransGen_iff_eq_or_transGen.mp hreach with rfl | hbelow
  · exact hx
  · exact (h.below_mem hbelow).2.1

theorem sibling_not_reach (h : p.IsForest) {parent : Value} {a b : Text}
    (ha : a ∈ p.idsUnder parent) (hb : b ∈ p.idsUnder parent) (hne : a ≠ b) :
    ¬ Relation.ReflTransGen p.ParentOf a b := by
  intro hreach
  obtain ⟨i, hi, hip⟩ := (h.mem_idsUnder_iff _ _).mp ha
  obtain ⟨j, hj, hjp⟩ := (h.mem_idsUnder_iff _ _).mp hb
  rcases Relation.ReflTransGen.cases_tail hreach with he | ⟨w, haw, k, hk, hkp⟩
  · exact hne he.symm
  · obtain rfl : j = k := Option.some.inj (hj.symm.trans hk)
    have hwa : p.ParentOf w a := ⟨i, hi, by rw [hip, ← hjp, hkp]⟩
    exact h.not_below_self w (Relation.TransGen.head' hwa haw)

theorem sibling_not_mem_upTo (h : p.IsForest) {d : Nat} {parent : Value} {a b : Text}
    (ha : a ∈ p.idsUnder parent) (hb : b ∈ p.idsUnder parent) (hne : a ≠ b) :
    b ∉ Preorder.upTo p.childIdsOf d a := by
  intro hmem
  have hreach := Preorder.reach_of_mem_upTo hmem
  rw [h.child_eq] at hreach
  exact h.sibling_not_reach ha hb hne hreach

theorem idsUnder_subset (h : p.IsForest) (parent : Value) : p.idsUnder parent ⊆ p.ids :=
  (h.idsUnder_sublist parent).subset

theorem childIdsOf_subset (h : p.IsForest) (id : Text) : p.childIdsOf id ⊆ p.ids := by
  rw [h.childIdsOf_eq]
  exact h.idsUnder_subset _

theorem upTo_under_nodup (h : p.IsForest) (parent : Value) :
    ((p.idsUnder parent).flatMap (Preorder.upTo p.childIdsOf p.size)).Nodup := by
  rw [List.nodup_flatMap]
  constructor
  · intro id hid
    exact Preorder.upTo_nodup h.parent_unique h.childIdsOf_nodup
      (h.within_size (h.idsUnder_subset parent hid))
  · refine (h.idsUnder_nodup parent).pairwise_of_forall_ne ?_
    intro a ha b hb hne
    apply Preorder.disjoint_of_not_reach h.parent_unique
    · rw [h.child_eq]
      exact h.sibling_not_reach ha hb hne
    · rw [h.child_eq]
      exact h.sibling_not_reach hb ha hne.symm

/-! ### The whole forest -/

theorem mem_preorderIds (h : p.IsForest) {id : Text} (hid : id ∈ p.ids) : id ∈ p.preorderIds := by
  -- climbing to the root, the place in the order of insertion shrinks
  induction hn : p.ids.idxOf id using Nat.strongRecOn generalizing id with
  | ind n ih =>
    obtain ⟨i, hi⟩ := (h.mem_ids_iff id).mp hid
    rcases h.parent_before i (h.mem_of_get? hi) with hnull | ⟨parent, hparent, hin, hlt⟩
    · refine List.mem_flatMap.mpr ⟨id, (h.mem_idsUnder_iff _ _).mpr ⟨i, hi, hnull⟩, ?_⟩
      exact Preorder.mem_upTo_self (h.within_size hid)
    · rw [h.uniqueId_of_get? hi] at hlt
      obtain ⟨root, hroot, hmem⟩ := List.mem_flatMap.mp (ih _ (by omega) hin rfl)
      have hw := h.within_size (h.idsUnder_subset _ hroot)
      have hchild : Preorder.Child p.childIdsOf parent id :=
        (h.mem_childIdsOf_iff parent id).mpr ⟨i, hi, hparent⟩
      exact List.mem_flatMap.mpr ⟨root, hroot,
        Preorder.mem_upTo_of_reach hw ((Preorder.reach_of_mem_upTo hmem).tail hchild)⟩

theorem preorderIds_subset (h : p.IsForest) : p.preorderIds ⊆ p.ids := by
  intro z hz
  obtain ⟨root, hroot, hmem⟩ := List.mem_flatMap.mp hz
  exact h.upTo_subset p.size (h.idsUnder_subset _ hroot) hmem

theorem preorderIds_nodup (h : p.IsForest) : p.preorderIds.Nodup := h.upTo_under_nodup .null

theorem mem_preorderIds_iff (h : p.IsForest) (id : Text) : id ∈ p.preorderIds ↔ id ∈ p.ids :=
  ⟨fun hz => h.preorderIds_subset hz, h.mem_preorderIds⟩

theorem preorderIds_perm (h : p.IsForest) : p.preorderIds.Perm p.ids :=
  (List.perm_ext_iff_of_nodup h.preorderIds_nodup h.ids_nodup).mpr h.mem_preorderIds_iff

/-! ### The walk -/

theorem walk_ids (h : p.IsForest) (fuel : Nat) (stack : List Text) (hs : stack ⊆ p.ids) :
    (p.walk fuel stack).map (·.uniqueId) = Preorder.loop p.childIdsOf fuel stack := by
  induction fuel generalizing stack with
  | zero => rfl
  | succ fuel ih =>
    cases stack with
    | nil => rfl
    | cons id stack =>
      obtain ⟨i, hi⟩ := (h.mem_ids_iff id).mp (hs (List.mem_cons_self ..))
      have hs' : p.childIdsOf id ++ stack ⊆ p.ids := by
        intro x hx
        rcases List.mem_append.mp hx with hc | hr
        · exact (h.parentOf_mem ((h.mem_childIdsOf_iff id x).mp hc)).2.1
        · exact hs (List.mem_cons_of_mem _ hr)
      rw [walk, Preorder.loop, List.map_append, ih _ hs', hi]
      simp [h.uniqueId_of_get? hi]

theorem get?_of_mem_walk (h : p.IsForest) {fuel : Nat} {stack : List Text} {i : Identifier}
    (hi : i ∈ p.walk fuel stack) : p.get? i.uniqueId = some i := by
  induction fuel generalizing stack with
  | zero => simp [walk] at hi
  | succ fuel ih =>
    cases stack with
    | nil => simp [walk] at hi
    | cons id stack =>
      rw [walk, List.mem_append, Option.mem_toList] at hi
      rcases hi with hid | hrest
      · have hsame := h.uniqueId_of_get? hid
        rw [hsame]
        exact hid
      · exact ih hrest

theorem get?_of_mem_descendants (h : p.IsForest) {id : Text} {i : Identifier}
    (hi : i ∈ p.descendants id) : p.get? i.uniqueId = some i :=
  h.get?_of_mem_walk hi

/-- What lies below a parent is distinct members, so the plan is at least as large. -/
theorem length_under_le (h : p.IsForest) (parent : Value) :
    ((p.idsUnder parent).flatMap (Preorder.upTo p.childIdsOf p.size)).length ≤ p.size := by
  have hbelow : (p.idsUnder parent).flatMap (Preorder.upTo p.childIdsOf p.size) ⊆ p.ids := by
    intro z hz
    obtain ⟨x, hx, hzx⟩ := List.mem_flatMap.mp hz
    exact h.upTo_subset p.size (h.idsUnder_subset parent hx) hzx
  have hlen := (h.upTo_under_nodup parent).length_le_of_subset hbelow
  rwa [ids, Table.keys, List.length_map] at hlen

theorem descendantIds_eq (h : p.IsForest) (id : Text) :
    p.descendantIds id = (p.idsUnder (.string id)).flatMap (Preorder.upTo p.childIdsOf p.size) := by
  have hsub := h.idsUnder_subset (.string id)
  rw [descendantIds, descendants, h.childIdsOf_eq, h.walk_ids p.size _ hsub]
  exact Preorder.loop_eq_flatMap p.size _ (fun x hx => h.within_size (hsub hx))
    (h.length_under_le (.string id))

theorem descendantIds_nodup (h : p.IsForest) (id : Text) : (p.descendantIds id).Nodup := by
  rw [h.descendantIds_eq]
  exact h.upTo_under_nodup _

theorem mem_descendantIds_iff (h : p.IsForest) (id x : Text) :
    x ∈ p.descendantIds id ↔ p.Below id x := by
  rw [h.descendantIds_eq, ← h.childIdsOf_eq]
  by_cases hid : id ∈ p.ids
  · rw [Preorder.mem_flatMap_upTo_iff (h.within_size hid), h.child_eq]
    rfl
  · rw [h.childIdsOf_eq, h.idsUnder_eq_nil hid]
    exact iff_of_false List.not_mem_nil fun hb => hid (h.below_mem hb).1

end IsForest

end SuiteView.Plan
