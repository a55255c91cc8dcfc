import SuiteView.Proofs.Permanence
import SuiteView.Proofs.View.Failure
import SuiteView.Proofs.View.Leaves
import SuiteView.Proofs.View.Tests

/-!
# Filters for one node

A filter for a node holds the keys of the node and of all nodes above it. Mapped nodes go by the ids of
their members, so in every view on the plan the filter selects the mapped ones among the target's
member, its parent, the parent of that, and so on; only the root goes by itself. These members form a
chain, so at most one of them is a leaf. Nodes stay where they are and keep their keys, and with that
the filter that is made later is the filter that was made at first.
-/

namespace SuiteView

/-! ### The filter is the same later -/

theorem Filter.ofNode_kept {s t : NodeStore} (hkeep : s.Keeps t) {n : NodeId} {above : List NodeId}
    (h : s.Ascends n above) (hlen : above.length ≤ n) : Filter.ofNode t n = Filter.ofNode s n := by
  have hsame : ∀ m ∈ n :: above, t.SameFace s m m := by
    intro m hm
    obtain ⟨x, hx⟩ := h.exists_node m hm
    exact hkeep.sameFace hx
  obtain ⟨x, y, hx, hy, hlabel, -⟩ := hsame n (List.mem_cons_self ..)
  unfold Filter.ofNode
  rw [NodeStore.ancestors_eq h hlen, NodeStore.ancestors_eq (h.kept hkeep) hlen, hx, hy,
    Option.map_some, Option.map_some, hlabel]
  exact congrArg _ (List.map_congr_left fun m hm => (hsame m hm).keyOf_eq)

namespace View

variable {v u : View} {name name' : Text} {p : Plan} {s : NodeStore}

/-- The answer for a member: the deepest mapped one among it, its parent, the parent of that, and so
on, or nothing if none of them is mapped. -/
inductive Deepest (u : View) (p : Plan) (x : Text) : List Identifier → Prop where
  | found {y : Text} {i : Identifier} (member : p.get? y = some i) (mapped : y ∈ u.mapped.keys)
      (above : Relation.ReflTransGen p.ParentOf y x)
      (deepest : ∀ z ∈ u.mapped.keys, Relation.ReflTransGen p.ParentOf z x →
        Relation.ReflTransGen p.ParentOf z y) : Deepest u p x [i]
  | missing (unmapped : ∀ z ∈ u.mapped.keys, ¬ Relation.ReflTransGen p.ParentOf z x) :
      Deepest u p x []

/-- There is one answer. -/
theorem Deepest.unique {x : Text} {is js : List Identifier} (hf : p.IsForest)
    (h : u.Deepest p x is) (h' : u.Deepest p x js) : is = js := by
  cases h with
  | found member mapped above deepest =>
    cases h' with
    | found member' mapped' above' deepest' =>
      obtain rfl := hf.reach_antisymm (deepest' _ mapped above) (deepest _ mapped' above')
      rw [Option.some.inj (member.symm.trans member')]
    | missing unmapped => exact absurd above (unmapped _ mapped)
  | missing unmapped =>
    cases h' with
    | found _ mapped above _ => exact absurd above (unmapped _ mapped)
    | missing => rfl

namespace Mirrors

/-! ### What the filter selects -/

theorem keyOf_node (h : v.Mirrors name p s) {id : Text} {n : NodeId} (hn : v.nodeFor? id = some n) :
    s.keyOf n = .stable id := by
  rw [NodeStore.keyOf, h.stableIdOf?_node hn]

theorem keyOf_root (h : v.Mirrors name p s) : s.keyOf v.root = .identity v.root := by
  rw [NodeStore.keyOf, NodeStore.stableIdOf?, h.root_node]
  rfl

theorem ascends_root (h : v.Mirrors name p s) {above : List NodeId} (ha : s.Ascends v.root above) :
    above = [] := by
  cases ha with
  | top => rfl
  | step node hangs =>
    rw [h.root_node] at node
    obtain rfl := Option.some.inj node
    cases hangs

/-- Going up from a node meets the root and the nodes of the members above. -/
theorem mem_ascends_iff (h : v.Mirrors name p s) {x : Text} {n : NodeId} {above : List NodeId}
    (ha : s.Ascends n above) (hn : v.nodeFor? x = some n) (m : NodeId) :
    m ∈ n :: above ↔
      m = v.root ∨ ∃ y, Relation.ReflTransGen p.ParentOf y x ∧ v.nodeFor? y = some m := by
  induction ha generalizing x with
  | top node parentless =>
    obtain ⟨i, label, parent, -, -, -, -, hget⟩ := h.node x _ hn
    rw [hget] at node
    obtain rfl := Option.some.inj node
    cases parentless
  | @step n up _ above node hangs rest ih =>
    obtain ⟨i, label, parent, hi, -, hparent, -, hget⟩ := h.node x n hn
    rw [hget] at node
    obtain rfl := Option.some.inj node
    obtain rfl : parent = up := Option.some.inj hangs
    have hself : (∃ y, y = x ∧ v.nodeFor? y = some m) ↔ m = n := by
      rw [exists_eq_left, hn, Option.some.injEq, eq_comm]
    simp only [Plan.reach_iff hi, or_and_right, exists_or, hself]
    cases hup : i.parent with
    | null =>
      rw [hup] at hparent
      obtain rfl : v.root = parent := Option.some.inj hparent
      rw [h.ascends_root rest]
      simp [or_comm]
    | string q =>
      rw [hup] at hparent
      rw [List.mem_cons, ih hparent]
      simp [or_left_comm]
    | bool | int | number | list | object => simp [hup, nodeAt?] at hparent

theorem ofNode_holds_iff (h : v.Mirrors name p s) {x : Text} {n : NodeId}
    (hn : v.nodeFor? x = some n) (m : NodeId) : (Filter.ofNode s n).holds s m = true ↔
      s.keyOf m = .identity v.root ∨
        ∃ y, Relation.ReflTransGen p.ParentOf y x ∧ s.keyOf m = .stable y := by
  obtain ⟨above, habove, hlen⟩ := h.ascends (h.mem_owned (u := .string x) hn)
  have hchain := h.mem_ascends_iff habove hn
  simp only [Filter.ofNode, Filter.holds, NodeStore.ancestors_eq habove hlen, List.contains_eq_mem,
    decide_eq_true_iff, List.mem_map]
  constructor
  · rintro ⟨k, hk, hkey⟩
    rw [← hkey]
    rcases (hchain k).mp hk with rfl | ⟨y, hy, hyk⟩
    · exact .inl h.keyOf_root
    · exact .inr ⟨y, hy, h.keyOf_node hyk⟩
  · rintro (hroot | ⟨y, hy, hkey⟩)
    · exact ⟨v.root, (hchain v.root).mpr (.inl rfl), h.keyOf_root.trans hroot.symm⟩
    · have hmapped : y ∈ v.mapped.keys := by
        by_contra hnot
        exact h.not_mapped_of_reach hnot hy ((v.mem_keys_iff x).mpr ⟨n, hn⟩)
      obtain ⟨k, hk⟩ := (v.mem_keys_iff y).mp hmapped
      exact ⟨k, (hchain k).mpr (.inr ⟨y, hy, hk⟩), (h.keyOf_node hk).trans hkey.symm⟩

/-- In any view on the plan, the filter selects the node of a member if this is the target's or lies
above it. -/
theorem ofNode_holds_node (h : v.Mirrors name p s) {x : Text} {n : NodeId}
    (hn : v.nodeFor? x = some n) (hu : u.Mirrors name' p s) {y : Text} {m : NodeId}
    (hm : u.nodeFor? y = some m) :
    (Filter.ofNode s n).holds s m = true ↔ Relation.ReflTransGen p.ParentOf y x := by
  rw [h.ofNode_holds_iff hn, hu.keyOf_node hm]
  simp

theorem ofNode_matches_iff (h : v.Mirrors name p s) {x : Text} {n : NodeId}
    (hn : v.nodeFor? x = some n) (hu : u.Mirrors name' p s) (y : Text) :
    u.Matches (fun m => (Filter.ofNode s n).holds s m) y ↔
      y ∈ u.mapped.keys ∧ Relation.ReflTransGen p.ParentOf y x := by
  rw [u.mem_keys_iff, ← exists_and_right]
  refine exists_congr fun m => and_congr_right fun hm => ?_
  exact h.ofNode_holds_node hn hu hm

theorem ofNode_holds_owned (h : v.Mirrors name p s) {x : Text} {n : NodeId}
    (hn : v.nodeFor? x = some n) {m : NodeId} (hm : m ∈ v.owned) :
    (Filter.ofNode s n).holds s m = true ↔ m = n ∨ m ∈ s.ancestors n ∨ m = v.root := by
  obtain ⟨above, habove, hlen⟩ := h.ascends (h.mem_owned (u := .string x) hn)
  rw [NodeStore.ancestors_eq habove hlen, ← or_assoc, ← List.mem_cons,
    h.mem_ascends_iff habove hn]
  rcases List.mem_cons.mp hm with rfl | hmapped
  · simp [h.ofNode_holds_iff hn, h.keyOf_root]
  · obtain ⟨y, hy⟩ := h.nodeFor?_of_mem hmapped
    have hne := h.nodeFor?_ne_root hy
    rw [h.ofNode_holds_node hn h hy, or_iff_left hne, or_iff_right hne]
    constructor
    · intro hreach
      exact ⟨y, hreach, hy⟩
    · rintro ⟨z, hreach, hz⟩
      exact h.nodeFor?_injective hz hy ▸ hreach

/-! ### What is left of a chain -/

theorem leaves_deepest (h : u.Mirrors name p s) (hf : p.IsForest) {holds : NodeId → Bool} {x : Text}
    (hmatch : ∀ y, u.Matches holds y ↔
      y ∈ u.mapped.keys ∧ Relation.ReflTransGen p.ParentOf y x) :
    u.Deepest p x (u.leaves p holds) := by
  have hleaf := h.mem_leafIds_iff hf holds
  have hone : ∀ y ∈ u.leafIds p holds, ∀ z ∈ u.leafIds p holds, y = z := by
    intro y hy z hz
    obtain ⟨hymatch, hybelow⟩ := (hleaf y).mp hy
    obtain ⟨hzmatch, hzbelow⟩ := (hleaf z).mp hz
    rcases hf.reach_total ((hmatch y).mp hymatch).2 ((hmatch z).mp hzmatch).2 with he | hyz | hzy
    · exact he
    · exact absurd hzmatch (hybelow z hyz)
    · exact absurd hymatch (hzbelow y hzy)
  have hnodup : (u.leafIds p holds).Nodup := (u.leafIds_sublist p holds).nodup h.keys_nodup
  have hcover : ∀ z ∈ u.mapped.keys, Relation.ReflTransGen p.ParentOf z x →
      ∃ y ∈ u.leafIds p holds, Relation.ReflTransGen p.ParentOf z y := by
    intro z hz hreach
    rcases h.exists_leaf hf ((hmatch z).mpr ⟨hz, hreach⟩) with hself | ⟨y, hy, hbelow⟩
    · exact ⟨z, hself, .refl⟩
    · exact ⟨y, hy, hbelow.to_reflTransGen⟩
  rw [View.leaves]
  cases hids : u.leafIds p holds with
  | nil =>
    refine .missing fun z hz hreach => ?_
    obtain ⟨y, hy, -⟩ := hcover z hz hreach
    rw [hids] at hy
    cases hy
  | cons y rest =>
    rw [hids] at hone hnodup hcover
    obtain rfl : rest = [] := by
      rw [List.eq_nil_iff_forall_not_mem]
      intro z hz
      obtain rfl := hone y (List.mem_cons_self ..) z (List.mem_cons_of_mem _ hz)
      exact (List.nodup_cons.mp hnodup).1 hz
    have hy : y ∈ u.leafIds p holds := hids ▸ List.mem_cons_self ..
    obtain ⟨hmapped, hreach⟩ := (hmatch y).mp ((hleaf y).mp hy).1
    obtain ⟨i, hi⟩ := (hf.mem_ids_iff y).mp (h.mem_ids hmapped)
    rw [Plan.lookup, List.filterMap_cons_some hi, List.filterMap_nil]
    refine .found hi hmapped hreach fun z hz hzx => ?_
    obtain ⟨w, hw, hzw⟩ := hcover z hz hzx
    rw [← List.mem_singleton.mp hw]
    exact hzw

end Mirrors

end View

namespace Session

/-- What a filter for the node of a member answers: in the view of the node the member alone, where it
holds of the node, of the nodes above and of no others, and in every view the deepest mapped one among
the member and those above it. -/
structure Targets (σ : Session) (f : Filter) (v : View) (n : NodeId) (i : Identifier) : Prop where
  itself : v.leaves σ.plan (fun m => f.holds σ.nodes m) = [i]
  holds_iff : ∀ m ∈ σ.nodes.subtree v.root,
    f.holds σ.nodes m = true ↔ m = n ∨ m ∈ σ.nodes.ancestors n ∨ m = v.root
  everywhere : ∀ u ∈ σ.views,
    u.Deepest σ.plan i.uniqueId (u.leaves σ.plan fun m => f.holds σ.nodes m)

theorem Sound.targets {σ : Session} (h : σ.Sound) {v : View} (hv : v ∈ σ.views) {n : NodeId}
    {i : Identifier} (hi : σ.plan.get? i.uniqueId = some i) (hn : v.nodeFor? i.uniqueId = some n) :
    σ.Targets (.ofNode σ.nodes n) v n i := by
  obtain ⟨name, hm⟩ := h.mirrors_of_mem hv
  have hdeepest : ∀ u ∈ σ.views, u.Deepest σ.plan i.uniqueId
      (u.leaves σ.plan fun m => (Filter.ofNode σ.nodes n).holds σ.nodes m) := by
    intro u hu
    obtain ⟨name', hm'⟩ := h.mirrors_of_mem hu
    exact hm'.leaves_deepest h.forest (hm.ofNode_matches_iff hn hm')
  refine ⟨?_, ?_, hdeepest⟩
  · have hmapped : i.uniqueId ∈ v.mapped.keys := (v.mem_keys_iff _).mpr ⟨n, hn⟩
    apply (hdeepest v hv).unique h.forest
    exact .found hi hmapped .refl fun _ _ hreach => hreach
  · intro m hmem
    exact hm.ofNode_holds_owned hn ((hm.subtree_perm h.forest).mem_iff.mp hmem)

/-- However a session goes on, a filter that was made for the node of a member keeps selecting it. -/
theorem run_targets (s : NodeStore) (ops later : List Op) (k : Nat) (v : View)
    (hv : ((start s).run ops).views[k]? = some v) (x : Text) (n : NodeId)
    (hn : v.nodeFor? x = some n) : ∃ w i,
      (((start s).run ops).run later).views[k]? = some w ∧ w.nodeFor? x = some n ∧
      ((start s).run ops).plan.get? x = some i ∧ i.uniqueId = x ∧
      (((start s).run ops).run later).Targets (.ofNode ((start s).run ops).nodes n) w n i := by
  have hs := run_sound s ops
  obtain ⟨name, hm⟩ := hs.mirrors k v hv
  obtain ⟨i, -, -, hi, -⟩ := hm.node x n hn
  obtain rfl := hs.forest.uniqueId_of_get? hi
  obtain ⟨above, habove, hlen⟩ := hm.ascends (hm.mem_owned (u := .string i.uniqueId) hn)
  obtain ⟨w, hw, hextends, -⟩ := run_extends hs later hv
  refine ⟨w, i, hw, hextends.nodeFor? hn, hi, rfl, ?_⟩
  rw [← Filter.ofNode_kept (run_keeps hs later) habove hlen]
  exact (hs.run later).targets (List.mem_of_getElem? hw) (hs.run_get? later hi) (hextends.nodeFor? hn)

/- The first view opens before there is anything to map, the third has `c`, and the second has the test
   `u` below `c`. -/
def threeViews : List Op :=
  [.openView [.char '1'],
   .add ⟨[.char 'c'], [.char 'C'], .container, none, .null⟩,
   .openView [.char '2'],
   .openView [.char '3'],
   .insert 1 ⟨[.char 'u'], [.char 'U'], .test, none, .string [.char 'c']⟩ (.string [.char 'c'])]

/- The second view gets `w` below `u`, the third `y` beside it. -/
def threeViewsGrow : List Op :=
  [.insert 1 ⟨[.char 'w'], [.char 'W'], .test, none, .string [.char 'u']⟩ (.string [.char 'u']),
   .insert 2 ⟨[.char 'y'], [.char 'Y'], .test, none, .string [.char 'c']⟩ (.string [.char 'c'])]

theorem threeViews_targets : ∃ v σ τ f, σ = (start .empty).run threeViews ∧
    τ = σ.run threeViewsGrow ∧ f = Filter.ofNode σ.nodes 5 ∧
    σ.views[1]? = some v ∧ v.nodeFor? [.char 'u'] = some 5 ∧
    τ.views.map (fun u => u.leafIds τ.plan fun m => f.holds τ.nodes m) =
      [[], [[.char 'u']], [[.char 'c']]] ∧
    ∃ w i, τ.views[1]? = some w ∧ w.nodeFor? [.char 'u'] = some 5 ∧
      σ.plan.get? [.char 'u'] = some i ∧ i.uniqueId = [.char 'u'] ∧ τ.Targets f w 5 i := by
  have hv : ((start .empty).run threeViews).views[1]? =
      some ⟨1, [([.char 'c'], 2), ([.char 'u'], 5)]⟩ := rfl
  exact ⟨_, _, _, _, rfl, rfl, rfl, hv, rfl, rfl,
    run_targets .empty threeViews threeViewsGrow 1 _ hv [.char 'u'] 5 rfl⟩

end Session

end SuiteView
