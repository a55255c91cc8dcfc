import Mathlib.Data.List.Induction
import Mathlib.Data.List.Nodup
import SuiteView.Plan.Walk
import SuiteView.Proofs.Table

/-!
# Plans are forests

The three tables of a plan are determined by the list of its members: the roots are the members
whose parent is null, the children of a member those that name it as their parent, in the order of
insertion, and a parent is inserted before its children. Adding a member keeps this.
-/

namespace SuiteView.Plan

/-- The ids of the members that declare a parent, in the order of insertion. Under null stand the
roots. -/
def idsUnder (p : Plan) (parent : Value) : List Text :=
  (p.toList.filter fun i => i.parent = parent).map (·.uniqueId)

/-- The tables agree with the list of members, and every parent comes before its children. -/
structure IsForest (p : Plan) : Prop where
  members_eq : p.members = p.toList.map fun i => (i.uniqueId, i)
  ids_nodup : p.ids.Nodup
  rootIds_eq : p.rootIds = p.idsUnder .null
  childIds_eq : p.childIds = p.ids.map fun id => (id, p.idsUnder (.string id))
  parent_before : ∀ i ∈ p.toList, i.parent = .null ∨ ∃ parent, i.parent = .string parent ∧
    parent ∈ p.ids ∧ p.ids.idxOf parent < p.ids.idxOf i.uniqueId

/-- The plan after a list of additions, each of which may be refused. -/
def afterAdding (p : Plan) (is : List Identifier) : Plan :=
  is.foldl (fun p i => match p.add i with | .ok p => p | .error _ => p) p

theorem isForest_empty : empty.IsForest where
  members_eq := rfl
  ids_nodup := List.nodup_nil
  rootIds_eq := rfl
  childIds_eq := rfl
  parent_before i hi := by simp [toList, empty] at hi

/-! ### What adding does -/

theorem mem_ids_iff_contains (p : Plan) (id : Text) : p.contains id = true ↔ id ∈ p.ids :=
  p.members.contains_iff id

/-- An accepted member has a free id, and it is either a root or the child of a member. -/
theorem add_cases {p p' : Plan} {i : Identifier} (h : p.add i = .ok p') :
    i.uniqueId ∉ p.ids ∧
      ((i.parent = .null ∧ p' = p.addRoot i) ∨
        ∃ parent, i.parent = .string parent ∧ parent ∈ p.ids ∧ p' = p.addChild parent i) := by
  unfold add at h
  split at h
  · cases h
  · rename_i hfree
    rw [mem_ids_iff_contains] at hfree
    refine ⟨hfree, ?_⟩
    split at h
    · rename_i hnull
      exact .inl ⟨hnull, (Except.ok.inj h).symm⟩
    · rename_i parent hparent
      split at h
      · rename_i hin
        exact .inr ⟨parent, hparent, (p.mem_ids_iff_contains parent).mp hin,
          (Except.ok.inj h).symm⟩
      · cases h
    · cases h
    · cases h
    · cases h

theorem add_of_taken {p : Plan} {i : Identifier} (h : i.uniqueId ∈ p.ids) :
    p.add i = .error (.duplicateId i.uniqueId) := by
  unfold add
  rw [if_pos ((p.mem_ids_iff_contains _).mpr h)]

theorem add_of_free {p : Plan} {i : Identifier} {parent : Text} (hfree : i.uniqueId ∉ p.ids)
    (hparent : i.parent = .string parent) (hin : parent ∈ p.ids) :
    p.add i = .ok (p.addChild parent i) := by
  have hcontains := (p.mem_ids_iff_contains parent).mpr hin
  unfold add
  rw [if_neg (mt (p.mem_ids_iff_contains _).mp hfree), hparent]
  simp only [hcontains, if_true]

/-- A member is accepted if its id is free and its parent null or a member. -/
theorem add_ok_iff (p : Plan) (i : Identifier) : (∃ p', p.add i = .ok p') ↔
    i.uniqueId ∉ p.ids ∧ (i.parent = .null ∨ ∃ q ∈ p.ids, i.parent = .string q) := by
  constructor
  · rintro ⟨p', ha⟩
    obtain ⟨hfree, ⟨hnull, -⟩ | ⟨q, hparent, hin, -⟩⟩ := add_cases ha
    · exact ⟨hfree, .inl hnull⟩
    · exact ⟨hfree, .inr ⟨q, hin, hparent⟩⟩
  · rintro ⟨hfree, hnull | ⟨q, hin, hparent⟩⟩
    · refine ⟨p.addRoot i, ?_⟩
      unfold add
      rw [if_neg (mt (p.mem_ids_iff_contains _).mp hfree), hnull]
    · exact ⟨_, add_of_free hfree hparent hin⟩

theorem members_add {p p' : Plan} {i : Identifier} (h : p.add i = .ok p') :
    p'.members = p.members ++ [(i.uniqueId, i)] := by
  obtain ⟨-, ⟨-, rfl⟩ | ⟨parent, -, -, rfl⟩⟩ := add_cases h
  · rfl
  · rfl

theorem toList_add {p p' : Plan} {i : Identifier} (h : p.add i = .ok p') :
    p'.toList = p.toList ++ [i] := by
  simp [toList, members_add h]

theorem ids_add {p p' : Plan} {i : Identifier} (h : p.add i = .ok p') :
    p'.ids = p.ids ++ [i.uniqueId] := by
  simp [ids, Table.keys, members_add h]

theorem get?_add {p p' : Plan} {i : Identifier} (h : p.add i = .ok p') (id : Text) :
    p'.get? id = if id = i.uniqueId then some i else p.get? id := by
  simp only [get?, members_add h]
  exact Table.get?_concat i (add_cases h).1 id

theorem get?_add_of_mem {p p' : Plan} {i j : Identifier} (h : p.add i = .ok p') {id : Text}
    (hj : p.get? id = some j) : p'.get? id = some j := by
  have hne : id ≠ i.uniqueId := by
    rintro rfl
    exact (add_cases h).1 ((p.members.mem_keys_iff _).mpr ⟨j, hj⟩)
  rw [get?_add h, if_neg hne, hj]

theorem idsUnder_add {p p' : Plan} {i : Identifier} (h : p.add i = .ok p') (parent : Value) :
    p'.idsUnder parent = p.idsUnder parent ++ if i.parent = parent then [i.uniqueId] else [] := by
  rw [idsUnder, toList_add h, List.filter_append, List.map_append, idsUnder]
  by_cases hp : i.parent = parent <;> simp [hp]

/-! ### Forests -/

namespace IsForest

variable {p : Plan}

theorem ids_eq (h : p.IsForest) : p.ids = p.toList.map (·.uniqueId) := by
  rw [ids, Table.keys, h.members_eq, List.map_map]
  rfl

theorem get?_eq_some_iff (h : p.IsForest) (id : Text) (i : Identifier) :
    p.get? id = some i ↔ i ∈ p.toList ∧ i.uniqueId = id := by
  rw [get?, Table.get?_eq_some_iff h.ids_nodup, h.members_eq, List.mem_map]
  constructor
  · rintro ⟨j, hj, he⟩
    obtain ⟨rfl, rfl⟩ := Prod.mk.inj he
    exact ⟨hj, rfl⟩
  · rintro ⟨hi, rfl⟩
    exact ⟨i, hi, rfl⟩

theorem get?_uniqueId (h : p.IsForest) {i : Identifier} (hi : i ∈ p.toList) :
    p.get? i.uniqueId = some i :=
  (h.get?_eq_some_iff _ _).mpr ⟨hi, rfl⟩

theorem uniqueId_of_get? (h : p.IsForest) {id : Text} {i : Identifier} (hi : p.get? id = some i) :
    i.uniqueId = id :=
  ((h.get?_eq_some_iff id i).mp hi).2

theorem mem_of_get? (h : p.IsForest) {id : Text} {i : Identifier} (hi : p.get? id = some i) :
    i ∈ p.toList :=
  ((h.get?_eq_some_iff id i).mp hi).1

theorem mem_ids_iff (_ : p.IsForest) (id : Text) : id ∈ p.ids ↔ ∃ i, p.get? id = some i :=
  p.members.mem_keys_iff id

theorem mem_idsUnder_iff (h : p.IsForest) (parent : Value) (id : Text) :
    id ∈ p.idsUnder parent ↔ ∃ i, p.get? id = some i ∧ i.parent = parent := by
  simp only [idsUnder, List.mem_map, List.mem_filter, decide_eq_true_eq, h.get?_eq_some_iff]
  constructor
  · rintro ⟨i, ⟨hi, hp⟩, hid⟩
    exact ⟨i, ⟨hi, hid⟩, hp⟩
  · rintro ⟨i, ⟨hi, hid⟩, hp⟩
    exact ⟨i, ⟨hi, hp⟩, hid⟩

theorem idsUnder_sublist (h : p.IsForest) (parent : Value) :
    (p.idsUnder parent).Sublist p.ids := by
  rw [h.ids_eq]
  exact List.filter_sublist.map _

theorem idsUnder_nodup (h : p.IsForest) (parent : Value) : (p.idsUnder parent).Nodup :=
  (h.idsUnder_sublist parent).nodup h.ids_nodup

theorem idsUnder_eq_nil (h : p.IsForest) {id : Text} (hid : id ∉ p.ids) :
    p.idsUnder (.string id) = [] := by
  rw [List.eq_nil_iff_forall_not_mem]
  intro x hx
  obtain ⟨i, hi, hp⟩ := (h.mem_idsUnder_iff _ _).mp hx
  rcases h.parent_before i (h.mem_of_get? hi) with hnull | ⟨parent, hparent, hin, -⟩
  · rw [hp] at hnull
    cases hnull
  · rw [hp] at hparent
    exact hid (Value.string.inj hparent ▸ hin)

theorem childIdsOf_eq (h : p.IsForest) (id : Text) : p.childIdsOf id = p.idsUnder (.string id) := by
  rw [childIdsOf, h.childIds_eq, Table.get?_map]
  by_cases hid : id ∈ p.ids
  · simp [hid]
  · simp [hid, h.idsUnder_eq_nil hid]

/-- Looking up the ids of members gives the members back. -/
theorem lookup_members (_ : p.IsForest) {is : List Identifier}
    (his : ∀ i ∈ is, p.get? i.uniqueId = some i) : p.lookup (is.map (·.uniqueId)) = is := by
  rw [lookup, List.filterMap_map]
  induction is with
  | nil => rfl
  | cons i is ih =>
    have hi : (p.get? ∘ fun j : Identifier => j.uniqueId) i = some i :=
      his i (List.mem_cons_self ..)
    rw [List.filterMap_cons_some hi, ih fun j hj => his j (List.mem_cons_of_mem _ hj)]

theorem lookup_idsUnder (h : p.IsForest) (parent : Value) :
    p.lookup (p.idsUnder parent) = p.toList.filter fun i => i.parent = parent :=
  h.lookup_members fun _ hi => h.get?_uniqueId (List.mem_filter.mp hi).1

theorem lookup_ids_eq (h : p.IsForest) : p.lookup p.ids = p.toList := by
  rw [h.ids_eq]
  exact h.lookup_members fun _ hi => h.get?_uniqueId hi

theorem lookup_cons (h : p.IsForest) {id : Text} (hid : id ∈ p.ids) (rest : List Text) :
    ∃ i, p.get? id = some i ∧ i.uniqueId = id ∧ p.lookup (id :: rest) = i :: p.lookup rest := by
  obtain ⟨i, hi⟩ := (h.mem_ids_iff id).mp hid
  exact ⟨i, hi, h.uniqueId_of_get? hi, List.filterMap_cons_some hi⟩

/-- Looking up ids of the plan loses none. -/
theorem map_some_lookup (h : p.IsForest) {ids : List Text} (hids : ids ⊆ p.ids) :
    (p.lookup ids).map some = ids.map p.get? := by
  induction ids with
  | nil => rfl
  | cons id rest ih =>
    obtain ⟨i, hi, -, hlookup⟩ := h.lookup_cons (hids (List.mem_cons_self ..)) rest
    rw [hlookup, List.map_cons, List.map_cons, hi, ih (List.subset_of_cons_subset hids)]

theorem lookup_ids (h : p.IsForest) {ids : List Text} (hids : ids ⊆ p.ids) :
    (p.lookup ids).map (·.uniqueId) = ids := by
  induction ids with
  | nil => rfl
  | cons id rest ih =>
    obtain ⟨i, -, hid, hlookup⟩ := h.lookup_cons (hids (List.mem_cons_self ..)) rest
    rw [hlookup, List.map_cons, hid, ih (List.subset_of_cons_subset hids)]

theorem lookup_filter (h : p.IsForest) (ids : List Text) (keep : Text → Bool) :
    p.lookup (ids.filter keep) = (p.lookup ids).filter fun i => keep i.uniqueId := by
  rw [lookup, lookup, List.filterMap_filter, List.filter_filterMap]
  refine List.filterMap_congr fun id _ => ?_
  cases hi : p.get? id with
  | none => simp
  | some i =>
    rw [← h.uniqueId_of_get? hi]
    by_cases hkeep : keep i.uniqueId = true <;> simp [Option.filter, hkeep]

theorem children_eq (h : p.IsForest) (id : Text) :
    p.children id = p.toList.filter fun i => i.parent = .string id := by
  rw [children, h.childIdsOf_eq, h.lookup_idsUnder]

theorem roots_eq (h : p.IsForest) : p.roots = p.toList.filter fun i => i.parent = .null := by
  rw [roots, h.rootIds_eq, h.lookup_idsUnder]

theorem roots_ids (h : p.IsForest) : p.roots.map (·.uniqueId) = p.idsUnder .null := by
  rw [h.roots_eq, idsUnder]

theorem children_ids (h : p.IsForest) (id : Text) :
    (p.children id).map (·.uniqueId) = p.idsUnder (.string id) := by
  rw [h.children_eq, idsUnder]

/-! ### Adding keeps a forest -/

theorem childIds_register (h : p.IsForest) {i : Identifier} (hfree : i.uniqueId ∉ p.ids) :
    (p.register i).childIds =
      (p.ids ++ [i.uniqueId]).map fun id => (id, p.idsUnder (.string id)) := by
  simp [register, h.childIds_eq, h.idsUnder_eq_nil hfree]

theorem childIds_add (h : p.IsForest) {p' : Plan} {i : Identifier} (ha : p.add i = .ok p') :
    p'.childIds = p'.ids.map fun id => (id, p'.idsUnder (.string id)) := by
  have hunder := idsUnder_add ha
  have hids := ids_add ha
  have hnodup : (p.ids ++ [i.uniqueId]).Nodup :=
    List.nodup_append.mpr ⟨h.ids_nodup, List.nodup_singleton _, fun x hx y hy he =>
      (add_cases ha).1 (by rwa [← List.mem_singleton.mp hy, ← he])⟩
  obtain ⟨hfree, ⟨hnull, rfl⟩ | ⟨parent, hparent, -, rfl⟩⟩ := add_cases ha
  · have hsame : ∀ id, (p.addRoot i).idsUnder (.string id) = p.idsUnder (.string id) := by
      intro id
      rw [hunder, hnull]
      simp
    rw [hids]
    simp only [hsame]
    exact h.childIds_register hfree
  · have hupdate : (p.addChild parent i).childIds =
        Table.update ((p.ids ++ [i.uniqueId]).map fun id => (id, p.idsUnder (.string id))) parent
          (· ++ [i.uniqueId]) := by
      rw [← h.childIds_register hfree]
      rfl
    rw [hids, hupdate, Table.update_map _ hnodup]
    refine List.map_congr_left fun id _ => ?_
    rw [hunder, hparent]
    by_cases he : id = parent
    · simp [he]
    · have he' : ¬ parent = id := fun hc => he hc.symm
      simp [he, he']

theorem rootIds_add (h : p.IsForest) {p' : Plan} {i : Identifier} (ha : p.add i = .ok p') :
    p'.rootIds = p'.idsUnder .null := by
  rw [idsUnder_add ha, ← h.rootIds_eq]
  obtain ⟨-, ⟨hnull, rfl⟩ | ⟨parent, hparent, -, rfl⟩⟩ := add_cases ha
  · simp [addRoot, register, hnull]
  · simp [addChild, register, hparent]

theorem parent_before_add (h : p.IsForest) {p' : Plan} {i : Identifier} (ha : p.add i = .ok p') :
    ∀ j ∈ p'.toList, j.parent = .null ∨ ∃ parent, j.parent = .string parent ∧
      parent ∈ p'.ids ∧ p'.ids.idxOf parent < p'.ids.idxOf j.uniqueId := by
  intro j hj
  rw [ids_add ha]
  rw [toList_add ha] at hj
  rcases List.mem_append.mp hj with hold | hnew
  · rcases h.parent_before j hold with hnull | ⟨parent, hparent, hin, hlt⟩
    · exact .inl hnull
    · have hid : j.uniqueId ∈ p.ids := (h.mem_ids_iff _).mpr ⟨j, h.get?_uniqueId hold⟩
      refine .inr ⟨parent, hparent, List.mem_append_left _ hin, ?_⟩
      rwa [List.idxOf_append_of_mem hin, List.idxOf_append_of_mem hid]
  · obtain rfl := List.mem_singleton.mp hnew
    obtain ⟨hfree, ⟨hnull, -⟩ | ⟨parent, hparent, hin, -⟩⟩ := add_cases ha
    · exact .inl hnull
    · refine .inr ⟨parent, hparent, List.mem_append_left _ hin, ?_⟩
      have hlt := List.idxOf_lt_length_of_mem hin
      rw [List.idxOf_append_of_mem hin, List.idxOf_append_of_notMem hfree]
      omega

theorem add (h : p.IsForest) {p' : Plan} {i : Identifier} (ha : p.add i = .ok p') :
    p'.IsForest where
  members_eq := by
    rw [toList_add ha, members_add ha, List.map_append, ← h.members_eq]
    rfl
  ids_nodup := by
    rw [ids_add ha]
    exact List.nodup_append.mpr ⟨h.ids_nodup, List.nodup_singleton _, fun x hx y hy he =>
      (add_cases ha).1 (by rwa [← List.mem_singleton.mp hy, ← he])⟩
  rootIds_eq := h.rootIds_add ha
  childIds_eq := h.childIds_add ha
  parent_before := h.parent_before_add ha

theorem afterAdding (h : p.IsForest) (is : List Identifier) : (p.afterAdding is).IsForest := by
  induction is generalizing p with
  | nil => exact h
  | cons i is ih =>
    rw [Plan.afterAdding, List.foldl_cons]
    cases ha : p.add i with
    | ok p' => exact ih (h.add ha)
    | error cause => exact ih h

end IsForest

theorem isForest_afterAdding (is : List Identifier) : (empty.afterAdding is).IsForest :=
  isForest_empty.afterAdding is

/-! ### Plans of lists -/

theorem ofList_concat_ok_iff (is : List Identifier) (i : Identifier) (p' : Plan) :
    ofList (is ++ [i]) = .ok p' ↔ ∃ p, ofList is = .ok p ∧ p.add i = .ok p' := by
  rw [ofList, List.foldlM_append, ← ofList]
  cases ofList is with
  | error cause => simp [bind, Except.bind]
  | ok p => cases ha : p.add i <;> simp [bind, Except.bind, pure, Except.pure, ha]

theorem toList_ofList {is : List Identifier} {p : Plan} (h : ofList is = .ok p) :
    p.toList = is := by
  induction is using List.reverseRecOn generalizing p with
  | nil =>
    obtain rfl : empty = p := Except.ok.inj h
    rfl
  | append_singleton is i ih =>
    obtain ⟨q, hq, ha⟩ := (ofList_concat_ok_iff is i p).mp h
    rw [toList_add ha, ih hq]

theorem isForest_ofList {is : List Identifier} {p : Plan} (h : ofList is = .ok p) :
    p.IsForest := by
  induction is using List.reverseRecOn generalizing p with
  | nil =>
    obtain rfl : empty = p := Except.ok.inj h
    exact isForest_empty
  | append_singleton is i ih =>
    obtain ⟨q, hq, ha⟩ := (ofList_concat_ok_iff is i p).mp h
    exact (ih hq).add ha

theorem ids_ofList {is : List Identifier} {p : Plan} (h : ofList is = .ok p) :
    p.ids = is.map (·.uniqueId) := by
  rw [(isForest_ofList h).ids_eq, toList_ofList h]

/-- A list makes a plan if its ids are distinct and every parent stands before its children. -/
theorem exists_ofList_iff (is : List Identifier) : (∃ p, ofList is = .ok p) ↔
    (is.map (·.uniqueId)).Nodup ∧ ∀ before i, before ++ [i] <+: is →
      i.parent = .null ∨ ∃ q ∈ before.map (·.uniqueId), i.parent = .string q := by
  induction is using List.reverseRecOn with
  | nil =>
    have hsplit : ∀ before (i : Identifier), ¬ before ++ [i] <+: [] := by simp
    exact ⟨fun _ => ⟨List.nodup_nil, fun before i h => absurd h (hsplit before i)⟩,
      fun _ => ⟨empty, rfl⟩⟩
  | append_singleton is i ih =>
    constructor
    · rintro ⟨p', hp'⟩
      obtain ⟨p, hp, ha⟩ := (ofList_concat_ok_iff is i p').mp hp'
      obtain ⟨hnodup, hparents⟩ := ih.mp ⟨p, hp⟩
      have hnew := (p.add_ok_iff i).mp ⟨p', ha⟩
      rw [ids_ofList hp] at hnew
      refine ⟨?_, ?_⟩
      · rw [List.map_append, List.map_singleton, ← List.concat_eq_append]
        exact hnodup.concat hnew.1
      · intro before j hsplit
        rcases List.prefix_concat_iff.mp hsplit with heq | hsplit
        · obtain ⟨rfl, rfl⟩ := List.append_singleton_inj.mp heq
          exact hnew.2
        · exact hparents before j hsplit
    · rintro ⟨hnodup, hparents⟩
      rw [List.map_append, List.map_singleton, ← List.concat_eq_append, List.nodup_concat] at hnodup
      obtain ⟨p, hp⟩ := ih.mpr ⟨hnodup.2, fun before j hsplit =>
        hparents before j (hsplit.trans (List.prefix_append is [i]))⟩
      have hparent := hparents is i (List.prefix_refl _)
      rw [← ids_ofList hp] at hnodup hparent
      obtain ⟨p', ha⟩ := (p.add_ok_iff i).mpr ⟨hnodup.1, hparent⟩
      exact ⟨p', (ofList_concat_ok_iff is i p').mpr ⟨p, hp, ha⟩⟩

end SuiteView.Plan
