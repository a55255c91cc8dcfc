import SuiteView.Proofs.Node.Store
import SuiteView.Proofs.Preorder.Paths

/-!
# Shared nodes

Nodes that are made and hung by hand need not form a tree: one node may hang below several others, and
several times below the same. Main statement: as long as no node comes to lie below itself, the loop
that walks a subtree ends, and it yields each node at and below the first once for each path to it.
-/

namespace SuiteView.NodeStore

/-- The store is made by hand: nodes are made without a parent and hung as last children below others.
The list has the parent and the child of each time that a node was hung. -/
inductive BuiltBy : NodeStore → (calls : List (NodeId × NodeId)) → Prop where
  | empty : BuiltBy .empty []
  | make {s : NodeStore} {calls : List (NodeId × NodeId)} (before : BuiltBy s calls) (label : Label)
      (stableId : Option Text) : BuiltBy (s.push (.detached label stableId)) calls
  | hang {s : NodeStore} {calls : List (NodeId × NodeId)} (before : BuiltBy s calls)
      (parent child : NodeId) (parent_lt : parent < s.size) (child_lt : child < s.size) :
      BuiltBy (s.addChild parent child) (calls ++ [(parent, child)])

/-- No node lies below itself. -/
def Acyclic (s : NodeStore) : Prop :=
  ∀ n, ¬ Relation.TransGen (Preorder.Child s.childrenOf) n n

/-! ### Hanging nodes by hand -/

theorem childrenOf_push (s : NodeStore) (label : Label) (stableId : Option Text) (n : NodeId) :
    (s.push (.detached label stableId)).childrenOf n = s.childrenOf n := by
  unfold childrenOf
  rw [get?_push]
  split
  · -- the new node has no children, and no node stood there before
    rename_i hn
    have hnone : s.get? s.size = none := Array.getElem?_eq_none (Nat.le_refl _)
    rw [hn, hnone]
    rfl
  · rfl

/-- Nothing else changes, not even when a node is hung below itself. -/
theorem childrenOf_addChild (s : NodeStore) {parent : NodeId} (hp : parent < s.size)
    (child n : NodeId) : (s.addChild parent child).childrenOf n =
      s.childrenOf n ++ if n = parent then [child] else [] := by
  -- the parent that is written into the child is none of its children
  have hwritten : ((s.nodes.modify child fun node => { node with parent := some parent })[n]?).map
      (·.children) = s.nodes[n]?.map (·.children) := by
    rw [Array.getElem?_modify]
    split
    · rw [Option.map_map]
      rfl
    · rfl
  unfold childrenOf addChild get?
  rw [Array.getElem?_modify]
  by_cases hn : n = parent
  · subst hn
    have hnode : s.nodes[n]? = some s.nodes[n] := Array.getElem?_eq_getElem hp
    rw [hnode, Option.map_some] at hwritten
    obtain ⟨node, hmodified, hchildren⟩ := Option.map_eq_some_iff.mp hwritten
    simp [hmodified, hnode, hchildren]
  · have hn' : ¬ parent = n := fun he => hn he.symm
    rw [if_neg hn', if_neg hn, hwritten, List.append_nil]

namespace BuiltBy

variable {s : NodeStore} {calls : List (NodeId × NodeId)}

/-- The children of a node are those that were hung below it, in that order, each as often. -/
theorem childrenOf_eq (h : s.BuiltBy calls) (n : NodeId) :
    s.childrenOf n = (calls.filter fun call => call.1 = n).map Prod.snd := by
  induction h with
  | empty => rfl
  | make _ label stableId ih => rw [childrenOf_push, ih]
  | hang _ parent child hp _ ih =>
    rw [childrenOf_addChild _ hp, ih, List.filter_append, List.map_append]
    by_cases hn : n = parent
    · simp [hn]
    · have hn' : ¬ parent = n := fun he => hn he.symm
      simp [hn, hn']

theorem child_lt (h : s.BuiltBy calls) {n m : NodeId} (hm : m ∈ s.childrenOf n) : m < s.size := by
  induction h with
  | empty => cases hm
  | make _ label stableId ih =>
    rw [childrenOf_push] at hm
    rw [size_push]
    exact Nat.lt_succ_of_lt (ih hm)
  | hang _ parent child hp hc ih =>
    rw [childrenOf_addChild _ hp] at hm
    rw [size_addChild]
    rcases List.mem_append.mp hm with hold | hnew
    · exact ih hold
    · split at hnew
      · exact List.mem_singleton.mp hnew ▸ hc
      · cases hnew

theorem reach_lt (h : s.BuiltBy calls) {n m : NodeId} (hn : n < s.size)
    (hm : Relation.ReflTransGen (Preorder.Child s.childrenOf) n m) : m < s.size := by
  cases hm with
  | refl => exact hn
  | tail _ hchild => exact h.child_lt hchild

theorem acyclic_of_lt (h : s.BuiltBy calls) (hlater : ∀ call ∈ calls, call.1 < call.2) :
    s.Acyclic := by
  have hchild : ∀ n m, Preorder.Child s.childrenOf n m → n < m := by
    intro n m hm
    rw [Preorder.Child, h.childrenOf_eq] at hm
    obtain ⟨call, hcall, rfl⟩ := List.mem_map.mp hm
    obtain ⟨hmem, hn⟩ := List.mem_filter.mp hcall
    exact of_decide_eq_true hn ▸ hlater call hmem
  intro n hn
  exact Nat.lt_irrefl n (Relation.transGen_minimal hchild n n hn)

/-! ### Recursion -/

/- Without cycles no path has more nodes than the store, so the turns that the store allows suffice. -/
theorem within_size (h : s.BuiltBy calls) (ha : s.Acyclic) {n : NodeId} (hn : n < s.size) :
    Preorder.Within s.childrenOf s.size n := by
  have hbelow := Preorder.within_card ha (Finset.range s.size) fun m hm =>
    Finset.mem_range.mpr (h.reach_lt hn hm)
  rwa [Finset.card_range] at hbelow

theorem subtree_eq_cons (h : s.BuiltBy calls) (ha : s.Acyclic) {n : NodeId} (hn : n < s.size) :
    s.subtree n = n :: (s.childrenOf n).flatMap s.subtree := by
  have hw := h.within_size ha hn
  rw [s.subtree_eq hw, Preorder.upTo_unfold hw]
  refine congrArg (n :: ·) (List.flatMap_congr fun m hm => ?_)
  exact (s.subtree_eq (h.within_size ha (h.child_lt hm))).symm

theorem testCount_eq_add (h : s.BuiltBy calls) (ha : s.Acyclic) {n : NodeId} (hn : n < s.size) :
    s.testCount n = (if s.isTest n then 1 else 0) + ((s.childrenOf n).map s.testCount).sum := by
  have hsum : ((s.childrenOf n).flatMap s.subtree).countP s.isTest =
      ((s.childrenOf n).map s.testCount).sum := List.countP_flatMap
  rw [testCount, h.subtree_eq_cons ha hn, List.countP_cons, hsum, Nat.add_comm]

end BuiltBy

/-! ### Every path once -/

/-- Walking the subtree of a node is exact. The loop yields the subtree, one node in each turn, and it
ends when all of it is yielded, after as many turns as there are paths from the node. The subtree is the
node followed by the subtrees of its children, and this equation has no other solution. Each node comes
up once for each path to it, and the tests are counted in the same way. -/
structure WalksPaths (s : NodeStore) (n : NodeId) : Prop where
  yields : ∀ turns,
    (Preorder.afterTurns s.childrenOf turns n).listed = (s.subtree n).take turns
  ends_iff : ∀ turns,
    (Preorder.afterTurns s.childrenOf turns n).stack = [] ↔ (s.subtree n).length ≤ turns
  equation : s.subtree n = n :: (s.childrenOf n).flatMap s.subtree
  only_solution : ∀ f : NodeId → List NodeId,
    (∀ m, f m = m :: (s.childrenOf m).flatMap f) → f n = s.subtree n
  paths : (Preorder.pathsTo s.childrenOf n fun _ => True).encard = (s.subtree n).length
  visits : ∀ m, (Preorder.pathsTo s.childrenOf n fun x => x = m).encard = (s.subtree n).count m
  tests : (Preorder.pathsTo s.childrenOf n fun m => s.isTest m = true).encard = s.testCount n
  test_equation : s.testCount n =
    (if s.isTest n then 1 else 0) + ((s.childrenOf n).map s.testCount).sum

theorem BuiltBy.walksPaths {s : NodeStore} {calls : List (NodeId × NodeId)} (h : s.BuiltBy calls)
    (ha : s.Acyclic) {n : NodeId} (hn : n < s.size) : s.WalksPaths n := by
  have hw := h.within_size ha hn
  have hsubtree := s.subtree_eq hw
  refine ⟨?_, ?_, h.subtree_eq_cons ha hn, ?_, ?_, ?_, ?_, h.testCount_eq_add ha hn⟩
  · intro turns
    rw [hsubtree]
    exact (Preorder.lists_afterTurns hw turns).listed
  · intro turns
    rw [hsubtree]
    exact Preorder.stack_afterTurns_eq_nil_iff hw turns
  · intro f hf
    rw [hsubtree]
    exact Preorder.eq_upTo hf hw
  · have hpaths := Preorder.encard_pathsTo hw fun _ => true
    rw [hsubtree]
    simpa using hpaths
  · intro m
    have hpaths := Preorder.encard_pathsTo hw fun x => x == m
    rw [hsubtree, List.count_eq_countP]
    simpa using hpaths
  · rw [testCount, hsubtree]
    exact Preorder.encard_pathsTo hw s.isTest

/-- However nodes were made and hung, the children of a node are those that were hung below it, each as
often as it was; and if no node lies below itself, every subtree is walked path by path. -/
theorem built_walksPaths {s : NodeStore} {calls : List (NodeId × NodeId)} (h : s.BuiltBy calls)
    (ha : s.Acyclic) : (∀ n, s.childrenOf n = (calls.filter fun call => call.1 = n).map Prod.snd) ∧
      ∀ n < s.size, s.WalksPaths n :=
  ⟨h.childrenOf_eq, fun _ hn => h.walksPaths ha hn⟩

/- A suite holds a suite and a test, and both hold one more test; below the test it was hung twice. -/
def rhombusNodes : NodeStore :=
  (((empty.push (.detached (.suite [.char 'r']) none)).push
    (.detached (.suite [.char 'a']) (some [.char 'a']))).push
    (.detached (.test [.char 'g'] [.char 'b']) (some [.char 'b']))).push
    (.detached (.test [.char 'g'] [.char 't']) (some [.char 't']))

def rhombus : NodeStore :=
  ((((rhombusNodes.addChild 0 1).addChild 0 2).addChild 1 3).addChild 2 3).addChild 2 3

theorem rhombus_builtBy : rhombus.BuiltBy [(0, 1), (0, 2), (1, 3), (2, 3), (2, 3)] := by
  have hnodes : rhombusNodes.BuiltBy [] := .make (.make (.make (.make .empty _ _) _ _) _ _) _ _
  have htop := (hnodes.hang 0 1 (by decide) (by decide)).hang 0 2 (by decide) (by decide)
  have hbelow := (htop.hang 1 3 (by decide) (by decide)).hang 2 3 (by decide) (by decide)
  exact hbelow.hang 2 3 (by decide) (by decide)

theorem rhombus_walksPaths :
    rhombus.BuiltBy [(0, 1), (0, 2), (1, 3), (2, 3), (2, 3)] ∧ rhombus.Acyclic ∧
      rhombus.childrenOf 2 = [3, 3] ∧ rhombus.subtree 0 = [0, 1, 3, 2, 3, 3] ∧
      rhombus.testCount 0 = 4 ∧
      (Preorder.pathsTo rhombus.childrenOf 0 fun x => x = 3).encard = 3 ∧ rhombus.WalksPaths 0 := by
  have hacyclic := rhombus_builtBy.acyclic_of_lt (by decide)
  obtain ⟨hchildren, hwalks⟩ := built_walksPaths rhombus_builtBy hacyclic
  have hroot := hwalks 0 (by decide)
  exact ⟨rhombus_builtBy, hacyclic, hchildren 2, rfl, rfl, hroot.visits 3, hroot⟩

end SuiteView.NodeStore
