import SuiteView.Node.Subtree
import SuiteView.Proofs.Preorder

/-!
# Growing a node store

A node store only grows. Hanging a fresh node below another changes no node but these two, and the
subtree of a node whose paths have a bounded length is its pre-order over the children.
-/

namespace SuiteView.NodeStore

/-- The store with a fresh node as the last child of another; the number of the new node is the old
size. -/
def withChild (s : NodeStore) (parent : NodeId) (label : Label) (stableId : Option Text) :
    NodeStore :=
  (s.push (.detached label stableId)).addChild parent s.size

theorem get?_push (s : NodeStore) (node : Node) (n : NodeId) :
    (s.push node).get? n = if n = s.size then some node else s.get? n := by
  unfold push get? size
  exact Array.getElem?_push

theorem size_push (s : NodeStore) (node : Node) : (s.push node).size = s.size + 1 :=
  Array.size_push ..

theorem lt_size_of_get? {s : NodeStore} {n : NodeId} {node : Node} (h : s.get? n = some node) :
    n < s.size := (Array.getElem?_eq_some_iff.mp h).1

theorem get?_addChild (s : NodeStore) {parent child : NodeId} (hne : parent ≠ child) (n : NodeId) :
    (s.addChild parent child).get? n = (s.get? n).map fun node =>
      { node with
        parent := if n = child then some parent else node.parent
        children := node.children ++ if n = parent then [child] else [] } := by
  unfold addChild get?
  rw [Array.getElem?_modify, Array.getElem?_modify]
  by_cases hp : n = parent
  · subst hp
    have hc : ¬ child = n := fun he => hne he.symm
    simp [hne, hc]
  · have hp' : ¬ parent = n := fun he => hp he.symm
    by_cases hc : n = child
    · subst hc
      simp [hp, hp']
    · have hc' : ¬ child = n := fun he => hc he.symm
      simp [hp, hp', hc, hc']

theorem size_addChild (s : NodeStore) (parent child : NodeId) :
    (s.addChild parent child).size = s.size := by
  rw [addChild, size, Array.size_modify, Array.size_modify]
  rfl

theorem size_withChild (s : NodeStore) (parent : NodeId) (label : Label)
    (stableId : Option Text) : (s.withChild parent label stableId).size = s.size + 1 := by
  rw [withChild, size_addChild]
  exact s.size_push _

theorem get?_withChild_new (s : NodeStore) {parent : NodeId} (hp : parent < s.size) (label : Label)
    (stableId : Option Text) :
    (s.withChild parent label stableId).get? s.size = some ⟨label, stableId, some parent, []⟩ := by
  have hne : parent ≠ s.size := Nat.ne_of_lt hp
  have hne' : ¬ s.size = parent := fun he => hne he.symm
  rw [withChild, get?_addChild _ hne, get?_push]
  simp [Node.detached, hne']

/-- Among the old nodes, only the parent changes, and only in its children. -/
theorem get?_withChild_old (s : NodeStore) {parent n : NodeId} (hp : parent < s.size)
    (hn : n < s.size) (label : Label) (stableId : Option Text) :
    (s.withChild parent label stableId).get? n = (s.get? n).map fun node =>
      { node with children := node.children ++ if n = parent then [s.size] else [] } := by
  have hne : parent ≠ s.size := Nat.ne_of_lt hp
  have hne' : n ≠ s.size := Nat.ne_of_lt hn
  rw [withChild, get?_addChild _ hne, get?_push, if_neg hne']
  simp [hne']

theorem get?_withChild_of_ne (s : NodeStore) {parent n : NodeId} (hp : parent < s.size)
    (hn : n < s.size) (hne : n ≠ parent) (label : Label) (stableId : Option Text) :
    (s.withChild parent label stableId).get? n = s.get? n := by
  rw [get?_withChild_old s hp hn]
  simp [hne]

/-! ### Subtrees -/

theorem pathCount_eq (s : NodeStore) (depth : Nat) (n : NodeId) :
    s.pathCount depth n = (Preorder.upTo s.childrenOf depth n).length := by
  induction depth generalizing n with
  | zero => rfl
  | succ depth ih =>
    have hcount : s.pathCount depth =
        fun m => (Preorder.upTo s.childrenOf depth m).length := funext ih
    show 1 + ((s.childrenOf n).map (s.pathCount depth)).sum = _
    rw [Preorder.upTo, List.length_cons, List.length_flatMap, hcount, Nat.add_comm]

theorem walk_eq (s : NodeStore) (fuel : Nat) (stack : List NodeId) :
    s.walk fuel stack = Preorder.loop s.childrenOf fuel stack := by
  induction fuel generalizing stack with
  | zero => rfl
  | succ fuel ih =>
    cases stack with
    | nil => rfl
    | cons n stack => rw [walk, Preorder.loop, ih]

theorem subtree_eq (s : NodeStore) {n : NodeId} (hw : Preorder.Within s.childrenOf s.size n) :
    s.subtree n = Preorder.upTo s.childrenOf s.size n := by
  have hstack : [n].flatMap (Preorder.upTo s.childrenOf s.size) =
      Preorder.upTo s.childrenOf s.size n := List.flatMap_singleton ..
  rw [subtree, walk_eq, pathCount_eq, ← hstack]
  refine Preorder.loop_eq_flatMap _ _ ?_ (Nat.le_refl _)
  intro x hx
  rwa [List.mem_singleton.mp hx]

end SuiteView.NodeStore
