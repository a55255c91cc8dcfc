import SuiteView.Proofs.Plan.Descendants

/-!
# The tables of a plan hold together

A look-up may miss its key, and a write of several steps may stop between them. Here the queries of a
plan and the addition of a member are spelled out with such failures. In a plan that came about by
additions none of them occurs: every id stands once in one list, every listed id is a member with a
list of its own, and an addition either writes all tables or none.
-/

namespace SuiteView.Plan

/-! ### Look-ups that may miss -/

/-- The parent of a member; there is no answer when the parent is not there. -/
def parentLookup (p : Plan) (id : Text) : Option (Option Identifier) :=
  match p.get? id with
  | none => some none
  | some i =>
    match i.parent with
    | .null => some none
    | .string parent => (p.get? parent).map some
    | _ => none

/-- The members met from a stack of ids. There is no answer when an id has no member or no list of
children, or when the turns do not suffice to empty the stack. -/
def walkLookup (p : Plan) : (fuel : Nat) → (stack : List Text) → Option (List Identifier)
  | _, [] => some []
  | 0, _ :: _ => none
  | fuel + 1, id :: stack =>
    match p.get? id, p.childIds.get? id with
    | some i, some below => (walkLookup p fuel (below ++ stack)).map (i :: ·)
    | _, _ => none

/-! ### Writes one after the other -/

/-- What stops an addition: a refusal, or a parent without a list of children. -/
inductive WriteFault where
  | refused (cause : PlanError)
  | noChildList (parent : Value)
deriving DecidableEq, Repr

/-- Whether a member may be added, decided before anything is written. -/
def approve (p : Plan) (i : Identifier) : Except PlanError Unit :=
  if p.contains i.uniqueId then .error (.duplicateId i.uniqueId)
  else if i.parent = .null then .ok ()
  else
    match p.containsValue i.parent with
    | .ok true => .ok ()
    | .ok false => .error (.missingParent i.parent i.uniqueId)
    | .error got => .error (.unusableParent got i.uniqueId)

/-- Lists an id under its parent, the last of three writes. -/
def enlist (p : Plan) (parent : Value) (id : Text) : Plan × Except WriteFault Unit :=
  match parent with
  | .null => ({ p with rootIds := p.rootIds ++ [id] }, .ok ())
  | .string q =>
    match p.childIds.get? q with
    | some ids => ({ p with childIds := p.childIds.put q (ids ++ [id]) }, .ok ())
    | none => (p, .error (.noChildList parent))
  | _ => (p, .error (.noChildList parent))

/-- Adds a member by three writes: the member, its empty list of children, and its place among its
siblings. What was written before a fault stays. -/
def addStepwise (p : Plan) (i : Identifier) : Plan × Except WriteFault Unit :=
  match p.approve i with
  | .error cause => (p, .error (.refused cause))
  | .ok () =>
    let p := { p with members := p.members.put i.uniqueId i }
    let p := { p with childIds := p.childIds.put i.uniqueId [] }
    p.enlist i.parent i.uniqueId

def afterAddingStepwise (p : Plan) (is : List Identifier) : Plan :=
  is.foldl (fun p i => (p.addStepwise i).1) p

/-- The members of a list that are taken when they are added one after the other. -/
def taken (p : Plan) : List Identifier → List Identifier
  | [] => []
  | i :: is =>
    match p.add i with
    | .ok p' => i :: taken p' is
    | .error _ => taken p is

theorem toList_afterAdding (p : Plan) (is : List Identifier) :
    (p.afterAdding is).toList = p.toList ++ p.taken is := by
  induction is generalizing p with
  | nil => exact (List.append_nil _).symm
  | cons i is ih =>
    rw [afterAdding, List.foldl_cons, taken]
    cases ha : p.add i with
    | ok p' =>
      have hrest := ih p'
      rw [toList_add ha, List.append_assoc] at hrest
      exact hrest
    | error cause => exact ih p

theorem approve_eq (p : Plan) (i : Identifier) : p.approve i = (p.add i).map fun _ => () := by
  unfold approve add containsValue
  by_cases hid : p.contains i.uniqueId = true
  · simp [hid, Except.map]
  · simp only [hid, Bool.false_eq_true, if_false]
    cases hparent : i.parent with
    | null => simp [Except.map]
    | string parent =>
      by_cases hin : p.contains parent = true
      · simp [Value.key, hin, Except.map]
      · simp [Value.key, hin, Except.map]
    | bool | int | number | list | object => simp [Value.key, Except.map]

namespace IsForest

variable {p : Plan}

/-! ### Queries -/

theorem childIds_get? (h : p.IsForest) {id : Text} (hid : id ∈ p.ids) :
    p.childIds.get? id = some (p.childIdsOf id) := by
  rw [h.childIdsOf_eq, h.childIds_eq, Table.get?_map, if_pos hid]

theorem mapM_get? (h : p.IsForest) {ids : List Text} (hids : ids ⊆ p.ids) :
    ids.mapM p.get? = some (p.lookup ids) := by
  induction ids with
  | nil => rfl
  | cons id rest ih =>
    obtain ⟨i, hi, -, hlookup⟩ := h.lookup_cons (hids (List.mem_cons_self ..)) rest
    have hrest := ih (List.subset_of_cons_subset hids)
    rw [List.mapM_cons, hi, hrest, hlookup]
    rfl

theorem parentLookup_eq (h : p.IsForest) (id : Text) : p.parentLookup id = some (p.parent? id) := by
  unfold parentLookup parent?
  cases hi : p.get? id with
  | none => rfl
  | some i =>
    rcases h.parent_before i (h.mem_of_get? hi) with hnull | ⟨parent, hparent, hin, -⟩
    · simp [hnull]
    · obtain ⟨j, hj⟩ := (h.mem_ids_iff parent).mp hin
      simp [hparent, hj]

theorem walkLookup_eq (h : p.IsForest) (fuel : Nat) (stack : List Text) (hs : stack ⊆ p.ids)
    (hf : (stack.flatMap (Preorder.upTo p.childIdsOf p.size)).length ≤ fuel) :
    p.walkLookup fuel stack = some (p.walk fuel stack) := by
  have hw : ∀ x ∈ stack, Preorder.Within p.childIdsOf p.size x := fun x hx => h.within_size (hs hx)
  induction fuel generalizing stack with
  | zero =>
    cases stack with
    | nil => rfl
    | cons id stack =>
      rw [Preorder.flatMap_upTo_cons (hw id (List.mem_cons_self ..)), List.length_cons] at hf
      omega
  | succ fuel ih =>
    cases stack with
    | nil => rfl
    | cons id stack =>
      have hid : id ∈ p.ids := hs (List.mem_cons_self ..)
      obtain ⟨i, hi⟩ := (h.mem_ids_iff id).mp hid
      have hnext : p.childIdsOf id ++ stack ⊆ p.ids := by
        rw [h.childIdsOf_eq]
        exact List.append_subset.mpr ⟨h.idsUnder_subset _, List.subset_of_cons_subset hs⟩
      rw [Preorder.flatMap_upTo_cons (hw id (List.mem_cons_self ..)), List.length_cons] at hf
      have hrest := ih (p.childIdsOf id ++ stack) hnext (by omega) (Preorder.within_stack hw)
      simp only [walkLookup, walk, hi, h.childIds_get? hid, hrest, Option.map_some,
        Option.toList_some, List.singleton_append]

/-! ### Additions -/

theorem addStepwise_eq (h : p.IsForest) (i : Identifier) :
    p.addStepwise i =
      match p.add i with
      | .ok p' => (p', .ok ())
      | .error cause => (p, .error (.refused cause)) := by
  unfold addStepwise
  rw [approve_eq]
  cases ha : p.add i with
  | error cause => rfl
  | ok p' =>
    obtain ⟨hfree, hcases⟩ := add_cases ha
    have hmembers : p.members.put i.uniqueId i = p.members ++ [(i.uniqueId, i)] :=
      Table.put_of_not_mem _ _ hfree
    have hkeys : p.childIds.keys = p.ids := by
      rw [h.childIds_eq, Table.keys, List.map_map]
      exact List.map_id _
    have hlists : p.childIds.put i.uniqueId [] = p.childIds ++ [(i.uniqueId, [])] :=
      Table.put_of_not_mem _ _ (hkeys ▸ hfree)
    simp only [Except.map, hmembers, hlists]
    rcases hcases with ⟨hnull, rfl⟩ | ⟨parent, hparent, hin, rfl⟩
    · rw [hnull]
      rfl
    · have hlist : Table.get? (p.childIds ++ [(i.uniqueId, [])]) parent =
          some (p.childIdsOf parent) := Table.get?_append_of_some _ (h.childIds_get? hin)
      rw [hparent]
      simp only [enlist, hlist]
      rw [Table.put_eq_update hlist (· ++ [i.uniqueId])]
      rfl

theorem afterAddingStepwise_eq (h : p.IsForest) (is : List Identifier) :
    p.afterAddingStepwise is = p.afterAdding is := by
  induction is generalizing p with
  | nil => rfl
  | cons i is ih =>
    rw [afterAddingStepwise, Plan.afterAdding, List.foldl_cons, List.foldl_cons, h.addStepwise_eq]
    cases ha : p.add i with
    | ok p' => exact ih (h.add ha)
    | error cause => exact ih h

/-! ### Places -/

theorem mem_under_flatMap_iff (h : p.IsForest) (ids : List Text) (id : Text) :
    id ∈ ids.flatMap (fun q => p.idsUnder (.string q)) ↔
      ∃ q ∈ ids, ∃ i, p.get? id = some i ∧ i.parent = .string q := by
  simp only [List.mem_flatMap, h.mem_idsUnder_iff]

theorem under_flatMap_nodup (h : p.IsForest) {ids : List Text} (hids : ids.Nodup) :
    (ids.flatMap fun q => p.idsUnder (.string q)).Nodup := by
  rw [List.nodup_flatMap]
  refine ⟨fun q _ => h.idsUnder_nodup _, hids.pairwise_of_forall_ne ?_⟩
  intro q _ q' _ hne x hx hx'
  obtain ⟨i, hi, hp⟩ := (h.mem_idsUnder_iff _ x).mp hx
  obtain ⟨j, hj, hp'⟩ := (h.mem_idsUnder_iff _ x).mp hx'
  obtain rfl : i = j := Option.some.inj (hi.symm.trans hj)
  exact hne (Value.string.inj (hp.symm.trans hp'))

/-- The roots and the lists of children together hold every id once. -/
theorem placed_perm (h : p.IsForest) :
    (p.rootIds ++ p.childIds.flatMap Prod.snd).Perm p.ids := by
  have hlists : p.childIds.flatMap Prod.snd = p.ids.flatMap fun q => p.idsUnder (.string q) := by
    rw [h.childIds_eq, List.flatMap_map]
  have hunder := h.under_flatMap_nodup h.ids_nodup
  have hmem := h.mem_under_flatMap_iff p.ids
  rw [hlists, h.rootIds_eq]
  refine (List.perm_ext_iff_of_nodup ?_ h.ids_nodup).mpr ?_
  · refine List.nodup_append.mpr ⟨h.idsUnder_nodup _, hunder, ?_⟩
    rintro x hroot y hchild rfl
    obtain ⟨i, hi, hnull⟩ := (h.mem_idsUnder_iff _ x).mp hroot
    obtain ⟨q, -, j, hj, hp⟩ := (hmem x).mp hchild
    obtain rfl : i = j := Option.some.inj (hi.symm.trans hj)
    rw [hnull] at hp
    cases hp
  · intro x
    rw [List.mem_append, hmem]
    constructor
    · rintro (hroot | ⟨q, -, i, hi, -⟩)
      · exact h.idsUnder_subset _ hroot
      · exact (h.mem_ids_iff x).mpr ⟨i, hi⟩
    · intro hx
      obtain ⟨i, hi⟩ := (h.mem_ids_iff x).mp hx
      rcases h.parent_before i (h.mem_of_get? hi) with hnull | ⟨q, hp, hin, -⟩
      · exact .inl ((h.mem_idsUnder_iff _ x).mpr ⟨i, hi, hnull⟩)
      · exact .inr ⟨q, hin, i, hi, hp⟩

theorem exists_root (h : p.IsForest) {id : Text} (hid : id ∈ p.ids) :
    ∃ root ∈ p.rootIds, root = id ∨ p.Below root id := by
  obtain ⟨root, hroot, hmem⟩ := List.mem_flatMap.mp (h.mem_preorderIds hid)
  have hreach := Preorder.reach_of_mem_upTo hmem
  rw [h.child_eq] at hreach
  rcases Relation.reflTransGen_iff_eq_or_transGen.mp hreach with rfl | hbelow
  · exact ⟨id, h.rootIds_eq ▸ hroot, .inl rfl⟩
  · exact ⟨root, h.rootIds_eq ▸ hroot, .inr hbelow⟩

end IsForest

/-! ### What holds of every plan -/

/-- Every member stands in one place: among the roots without a parent, else in the list of its
parent, which is an older member. -/
structure Placed (p : Plan) : Prop where
  ids_eq : p.ids = p.toList.map (·.uniqueId)
  ids_nodup : p.ids.Nodup
  once : (p.rootIds ++ p.childIds.flatMap Prod.snd).Perm p.ids
  mem_roots_iff : ∀ i ∈ p.toList, i ∈ p.roots ↔ i.parent = .null
  mem_children_iff : ∀ i ∈ p.toList, ∀ q, i ∈ p.children q ↔ i.parent = .string q
  parent_before : ∀ i ∈ p.toList, i.parent = .null ∨ ∃ q, i.parent = .string q ∧ q ∈ p.ids ∧
    p.ids.idxOf q < p.ids.idxOf i.uniqueId
  roots_in_order : p.roots.Sublist p.toList
  children_in_order : ∀ q, (p.children q).Sublist p.toList
  acyclic : ∀ id, ¬ p.Below id id
  rooted : ∀ id ∈ p.ids, ∃ root ∈ p.rootIds, root = id ∨ p.Below root id

/-- No query misses a key, whatever id it is asked about. -/
structure Answers (p : Plan) : Prop where
  roots : p.rootIds.mapM p.get? = some p.roots
  children : ∀ id, (p.childIdsOf id).mapM p.get? = some (p.children id)
  parent : ∀ id, p.parentLookup id = some (p.parent? id)
  descendants : ∀ id, p.walkLookup p.size (p.childIdsOf id) = some (p.descendants id)

/-- An addition writes everything or nothing. It is refused exactly for an id that is taken, for a
parent that is no member, and for one that cannot be looked up. -/
structure AddsAtomically (p : Plan) : Prop where
  refused : ∀ i fault, (p.addStepwise i).2 = .error fault → (p.addStepwise i).1 = p
  stepwise : ∀ i, p.addStepwise i =
    match p.add i with
    | .ok p' => (p', .ok ())
    | .error cause => (p, .error (.refused cause))
  accepts_iff : ∀ i, (∃ p', p.add i = .ok p') ↔
    i.uniqueId ∉ p.ids ∧ (i.parent = .null ∨ ∃ q ∈ p.ids, i.parent = .string q)

namespace IsForest

variable {p : Plan}

theorem placed (h : p.IsForest) : p.Placed where
  ids_eq := h.ids_eq
  ids_nodup := h.ids_nodup
  once := h.placed_perm
  mem_roots_iff i hi := by simp [h.roots_eq, hi]
  mem_children_iff i hi q := by simp [h.children_eq, hi]
  parent_before := h.parent_before
  roots_in_order := h.roots_eq ▸ List.filter_sublist
  children_in_order q := h.children_eq q ▸ List.filter_sublist
  acyclic := h.not_below_self
  rooted _ hid := h.exists_root hid

theorem answers (h : p.IsForest) : p.Answers where
  roots := h.mapM_get? (h.rootIds_eq ▸ h.idsUnder_subset _)
  children id := h.mapM_get? (h.childIdsOf_eq id ▸ h.idsUnder_subset _)
  parent := h.parentLookup_eq
  descendants id := by
    have hsub := h.idsUnder_subset (.string id)
    have hlen := h.length_under_le (.string id)
    rw [← h.childIdsOf_eq] at hsub hlen
    exact h.walkLookup_eq p.size _ hsub hlen

theorem addsAtomically (h : p.IsForest) : p.AddsAtomically where
  refused i fault hfault := by
    rw [h.addStepwise_eq] at hfault ⊢
    cases ha : p.add i with
    | ok p' =>
      rw [ha] at hfault
      cases hfault
    | error cause => rfl
  stepwise := h.addStepwise_eq
  accepts_iff := p.add_ok_iff

end IsForest

/-- Whatever is added to the empty plan, write by write and with whatever refusals between, the plan
holds what was taken in the order in which it was taken, its tables agree, its queries miss nothing,
and the next addition writes everything or nothing. -/
theorem afterAdding_coherent (is : List Identifier) :
    empty.afterAddingStepwise is = empty.afterAdding is ∧
      (empty.afterAdding is).toList = empty.taken is ∧
      (empty.afterAdding is).Placed ∧ (empty.afterAdding is).Answers ∧
      (empty.afterAdding is).AddsAtomically := by
  have hf := isForest_afterAdding is
  refine ⟨isForest_empty.afterAddingStepwise_eq is, ?_, hf.placed, hf.answers, hf.addsAtomically⟩
  rw [toList_afterAdding]
  rfl

end SuiteView.Plan
