import SuiteView.Proofs.View.Mirror

/-!
# Subtrees of a view

Walking the tree of a view and walking the plan come to the same: the nodes at and below the node of
a member are the nodes of the mapped ids at and below the member, in the same order. From the root,
every node of the view comes up once.
-/

namespace SuiteView.View

namespace Mirrors

variable {v : View} {name : Text} {p : Plan} {s : NodeStore}

/- Children are younger than their parents, so the nodes made after a node bound the length of every
   path downwards from it. -/
theorem within_of_size_le (h : v.Mirrors name p s) (hf : p.IsForest) (d : Nat) {u : Value}
    {n : NodeId} (hn : v.nodeAt? u = some n) (hd : s.size ≤ d + n) :
    Preorder.Within s.childrenOf d n := by
  induction d generalizing u n with
  | zero =>
    rw [Nat.zero_add] at hd
    exact Nat.lt_irrefl _ (Nat.lt_of_lt_of_le (h.lt_size hn) hd)
  | succ d ih =>
    intro m hm
    rw [h.childrenOf_eq hn] at hm
    obtain ⟨id, hid, hidm⟩ := List.mem_filterMap.mp hm
    obtain ⟨i, -, parent, hi, -, hparent, hlt, -⟩ := h.node id m hidm
    obtain ⟨j, hj, hju⟩ := (hf.mem_idsUnder_iff u id).mp hid
    obtain rfl : i = j := Option.some.inj (hi.symm.trans hj)
    rw [hju, hn] at hparent
    obtain rfl := Option.some.inj hparent
    rw [Nat.add_right_comm, Nat.add_assoc] at hd
    exact ih (u := .string id) hidm (Nat.le_trans hd (Nat.add_le_add_left hlt d))

/- What is not mapped has nothing mapped below it, so dropping it drops no node. -/
theorem flatMap_nodes (h : v.Mirrors name p s) (hf : p.IsForest) {d : Nat}
    (hd : ∀ {id : Text} {n : NodeId}, v.nodeFor? id = some n →
      Preorder.upTo s.childrenOf d n = (Preorder.upTo p.childIdsOf d id).filterMap v.nodeFor?)
    (ids : List Text) :
    (ids.filterMap v.nodeFor?).flatMap (Preorder.upTo s.childrenOf d) =
      (ids.flatMap (Preorder.upTo p.childIdsOf d)).filterMap v.nodeFor? := by
  induction ids with
  | nil => rfl
  | cons id rest ih =>
    rw [List.flatMap_cons, List.filterMap_append, ← ih]
    cases hid : v.nodeFor? id with
    | some n => rw [List.filterMap_cons_some hid, List.flatMap_cons, hd hid]
    | none =>
      have hdrop : (Preorder.upTo p.childIdsOf d id).filterMap v.nodeFor? = [] := by
        rw [List.filterMap_eq_nil_iff]
        intro x hx
        have hreach := Preorder.reach_of_mem_upTo hx
        rw [hf.child_eq] at hreach
        rw [v.nodeFor?_eq_none_iff] at hid ⊢
        exact h.not_mapped_of_reach hid hreach
      rw [List.filterMap_cons_none hid, hdrop, List.nil_append]

theorem upTo_nodes (h : v.Mirrors name p s) (hf : p.IsForest) (d : Nat) {id : Text} {n : NodeId}
    (hn : v.nodeFor? id = some n) :
    Preorder.upTo s.childrenOf d n = (Preorder.upTo p.childIdsOf d id).filterMap v.nodeFor? := by
  induction d generalizing id n with
  | zero => rfl
  | succ d ih =>
    have hchildren : s.childrenOf n = (p.childIdsOf id).filterMap v.nodeFor? := by
      rw [h.childrenOf_eq (u := .string id) hn, hf.childIdsOf_eq]
      rfl
    rw [Preorder.upTo, Preorder.upTo, List.filterMap_cons_some hn, hchildren,
      h.flatMap_nodes hf ih]

theorem subtree_at (h : v.Mirrors name p s) (hf : p.IsForest) {u : Value} {n : NodeId}
    (hn : v.nodeAt? u = some n) :
    s.subtree n = n :: ((p.idsUnder u).flatMap
      (Preorder.upTo p.childIdsOf p.size)).filterMap v.nodeFor? := by
  have hw : Preorder.Within s.childrenOf s.size n :=
    h.within_of_size_le hf s.size hn (Nat.le_add_right _ _)
  -- a depth that suffices in the store as well as in the plan
  have hdeep : Preorder.upTo s.childrenOf s.size n =
      Preorder.upTo s.childrenOf (s.size + p.size + 1) n :=
    (Preorder.upTo_eq_of_within (by omega) hw).symm
  have hplan : (p.idsUnder u).flatMap (Preorder.upTo p.childIdsOf (s.size + p.size)) =
      (p.idsUnder u).flatMap (Preorder.upTo p.childIdsOf p.size) :=
    List.flatMap_congr fun id hid =>
      Preorder.upTo_eq_of_within (by omega) (hf.within_size (hf.idsUnder_subset u hid))
  rw [s.subtree_eq hw, hdeep, Preorder.upTo, h.childrenOf_eq hn, View.nodesUnder,
    h.flatMap_nodes hf (h.upTo_nodes hf _), hplan]

theorem subtree_node (h : v.Mirrors name p s) (hf : p.IsForest) {id : Text} {n : NodeId}
    (hn : v.nodeFor? id = some n) :
    s.subtree n = n :: (p.descendantIds id).filterMap v.nodeFor? := by
  rw [h.subtree_at hf (u := .string id) hn, hf.descendantIds_eq]

theorem subtree_root (h : v.Mirrors name p s) (hf : p.IsForest) :
    s.subtree v.root = v.root :: p.preorderIds.filterMap v.nodeFor? :=
  h.subtree_at hf (u := .null) rfl

theorem mapped_nodes_perm (h : v.Mirrors name p s) (hf : p.IsForest) :
    (p.preorderIds.filterMap v.nodeFor?).Perm (v.mapped.map Prod.snd) := by
  have hnodup : (p.preorderIds.filterMap v.nodeFor?).Nodup :=
    hf.preorderIds_nodup.filterMap fun x y n hx hy => h.nodeFor?_injective hx hy
  rw [List.perm_ext_iff_of_nodup hnodup h.owned_nodup.of_cons]
  intro n
  rw [List.mem_filterMap]
  constructor
  · rintro ⟨id, -, hid⟩
    exact h.mem_mapped hid
  · intro hn
    obtain ⟨id, hid⟩ := h.nodeFor?_of_mem hn
    exact ⟨id, hf.mem_preorderIds (h.mem_ids ((v.mem_keys_iff id).mpr ⟨n, hid⟩)), hid⟩

/-- From the root, every node of the view is met exactly once. -/
theorem subtree_perm (h : v.Mirrors name p s) (hf : p.IsForest) :
    (s.subtree v.root).Perm v.owned := by
  rw [h.subtree_root hf]
  exact (h.mapped_nodes_perm hf).cons v.root

end Mirrors

/-! ### What a view shows -/

/-- The tree below the root is the forest of the plan restricted to the mapped members, which are
closed under parents, and every node carries the id and the names of its member. -/
structure Shows (v : View) (p : Plan) (s : NodeStore) : Prop where
  member : ∀ id ∈ v.mapped.keys, id ∈ p.ids
  parent_mapped : ∀ id ∈ v.mapped.keys, ∀ i, p.parent? id = some i → i.uniqueId ∈ v.mapped.keys
  roots_shown : s.childrenOf v.root = (p.roots.map (·.uniqueId)).filterMap v.nodeFor?
  children_shown : ∀ id n, v.nodeFor? id = some n →
    s.childrenOf n = ((p.children id).map (·.uniqueId)).filterMap v.nodeFor?
  once : (s.subtree v.root).Nodup
  complete : ∀ n, n ∈ s.subtree v.root ↔ n = v.root ∨ ∃ id, v.nodeFor? id = some n
  node_shown : ∀ id n, v.nodeFor? id = some n → ∃ i node, p.get? id = some i ∧
    s.get? n = some node ∧ node.stableId = some id ∧ node.parent = v.nodeAt? i.parent ∧
    (i.kind = .container → node.label = .suite i.displayName) ∧
    (i.kind = .test → ∃ group caseName, i.resolve p = .ok (group, caseName) ∧
      node.label = .test group caseName)

theorem Mirrors.shows {v : View} {name : Text} {p : Plan} {s : NodeStore}
    (h : v.Mirrors name p s) (hf : p.IsForest) : v.Shows p s where
  member _ hid := h.mem_ids hid
  parent_mapped _ hid _ hi := h.parent_mapped hid (hf.parentOf_of_parent? hi)
  roots_shown := by
    rw [hf.roots_ids]
    exact h.childrenOf_eq (u := .null) rfl
  children_shown id n hn := by
    rw [hf.children_ids]
    exact h.childrenOf_eq (u := .string id) hn
  once := (h.subtree_perm hf).nodup_iff.mpr h.owned_nodup
  complete n := by
    rw [(h.subtree_perm hf).mem_iff, View.owned, List.mem_cons]
    refine or_congr_right ⟨h.nodeFor?_of_mem, ?_⟩
    rintro ⟨id, hid⟩
    exact h.mem_mapped hid
  node_shown id n hn := by
    obtain ⟨i, label, parent, hi, hlabel, hparent, -, hget⟩ := h.node id n hn
    refine ⟨i, _, hi, hget, rfl, hparent.symm, ?_, ?_⟩
    · intro hkind
      exact i.label_container hkind hlabel
    · intro hkind
      exact i.label_test hkind hlabel

end SuiteView.View
