import SuiteView.Proofs.Effect
import SuiteView.Proofs.Filter
import SuiteView.Proofs.View.Subtree

/-!
# What stays

Nodes are never taken out of their place. A node keeps its label, its stable id, its parent and with it
the whole chain of nodes above it, and it only gets further children behind those that it has. A view
whose run has no successful insertion through it keeps its whole tree as it is, whatever happens in the
plan and in the other views.
-/

namespace SuiteView

/-- The same node later on: it shows the same, hangs in the same place, and has at most further
children behind those it had. -/
structure Node.Keeps (x y : Node) : Prop where
  label : y.label = x.label
  stableId : y.stableId = x.stableId
  parent : y.parent = x.parent
  children : x.children <+: y.children

theorem Node.Keeps.refl (x : Node) : x.Keeps x := ⟨rfl, rfl, rfl, List.prefix_rfl⟩

theorem Node.Keeps.trans {x y z : Node} (h : x.Keeps y) (h' : y.Keeps z) : x.Keeps z :=
  ⟨h'.label.trans h.label, h'.stableId.trans h.stableId, h'.parent.trans h.parent,
    h.children.trans h'.children⟩

namespace NodeStore

variable {s t u : NodeStore}

/-- The second store has every node of the first, as it was or with further children. -/
def Keeps (s t : NodeStore) : Prop :=
  ∀ n x, s.get? n = some x → ∃ y, t.get? n = some y ∧ x.Keeps y

theorem Keeps.refl (s : NodeStore) : s.Keeps s := fun _ x hx => ⟨x, hx, .refl x⟩

theorem Keeps.trans (h : s.Keeps t) (h' : t.Keeps u) : s.Keeps u := by
  intro n x hx
  obtain ⟨y, hy, hxy⟩ := h n x hx
  obtain ⟨z, hz, hyz⟩ := h' n y hy
  exact ⟨z, hz, hxy.trans hyz⟩

theorem Keeps.sameFace (h : s.Keeps t) {n : NodeId} {x : Node} (hx : s.get? n = some x) :
    t.SameFace s n n := by
  obtain ⟨y, hy, hxy⟩ := h n x hx
  exact ⟨y, x, hy, hx, hxy.label, hxy.stableId⟩

theorem Keeps.size_le (h : s.Keeps t) : s.size ≤ t.size := by
  cases hsize : s.size with
  | zero => exact Nat.zero_le _
  | succ last =>
    have hlast : last < s.nodes.size := Nat.lt_of_lt_of_eq (Nat.lt_succ_self last) hsize.symm
    obtain ⟨y, hy, -⟩ := h last _ (Array.getElem?_eq_getElem hlast)
    exact lt_size_of_get? hy

theorem keeps_of_eq (h : ∀ n, n < s.size → t.get? n = s.get? n) : s.Keeps t := by
  intro n x hx
  exact ⟨x, (h n (lt_size_of_get? hx)).trans hx, .refl x⟩

theorem keeps_withChild (s : NodeStore) {parent : NodeId} (hp : parent < s.size) (label : Label)
    (stableId : Option Text) : s.Keeps (s.withChild parent label stableId) := by
  intro n x hx
  rw [get?_withChild_old s hp (lt_size_of_get? hx), hx]
  exact ⟨_, rfl, rfl, rfl, rfl, List.prefix_append ..⟩

/-! ### The chain of ancestors -/

/-- The nodes above a node: its parent, the parent of that, and so on, up to one that has none. -/
inductive Ascends (s : NodeStore) : NodeId → List NodeId → Prop where
  | top {n : NodeId} {x : Node} (node : s.get? n = some x) (parentless : x.parent = none) :
      Ascends s n []
  | step {n parent : NodeId} {x : Node} {above : List NodeId} (node : s.get? n = some x)
      (hangs : x.parent = some parent) (rest : Ascends s parent above) :
      Ascends s n (parent :: above)

theorem Ascends.lt_size {n : NodeId} {above : List NodeId} (h : s.Ascends n above) :
    n < s.size := by
  cases h with
  | top node => exact lt_size_of_get? node
  | step node => exact lt_size_of_get? node

theorem Ascends.exists_node {n : NodeId} {above : List NodeId} (h : s.Ascends n above) :
    ∀ m ∈ n :: above, ∃ x, s.get? m = some x := by
  induction h with
  | top node => exact List.forall_mem_singleton.mpr ⟨_, node⟩
  | step node _ _ ih => exact List.forall_mem_cons.mpr ⟨⟨_, node⟩, ih⟩

theorem Ascends.kept {n : NodeId} {above : List NodeId} (h : s.Ascends n above) (hkeep : s.Keeps t) :
    t.Ascends n above := by
  induction h with
  | top node parentless =>
    obtain ⟨y, hy, hxy⟩ := hkeep _ _ node
    exact .top hy (hxy.parent.trans parentless)
  | step node hangs _ ih =>
    obtain ⟨y, hy, hxy⟩ := hkeep _ _ node
    exact .step hy (hxy.parent.trans hangs) ih

theorem ancestorsUpTo_eq {n : NodeId} {above : List NodeId} (h : s.Ascends n above) {fuel : Nat}
    (hf : above.length ≤ fuel) : s.ancestorsUpTo fuel n = above := by
  induction h generalizing fuel with
  | top node parentless =>
    cases fuel with
    | zero => rfl
    | succ fuel => simp [ancestorsUpTo, parentOf?, node, parentless]
  | step node hangs _ ih =>
    cases fuel with
    | zero => simp at hf
    | succ fuel =>
      rw [List.length_cons] at hf
      simp [ancestorsUpTo, parentOf?, node, hangs, ih (Nat.le_of_succ_le_succ hf)]

/-- Going up as often as the store is large meets every node above. -/
theorem ancestors_eq {n : NodeId} {above : List NodeId} (h : s.Ascends n above)
    (hlen : above.length ≤ n) : s.ancestors n = above :=
  ancestorsUpTo_eq h (Nat.le_of_lt (Nat.lt_of_le_of_lt hlen h.lt_size))

end NodeStore

namespace View

variable {v : View} {name : Text} {p : Plan} {s t : NodeStore}

/- Every parent is older than its children, so the chain upwards has fewer nodes than came before. -/
theorem Mirrors.ascends (h : v.Mirrors name p s) {n : NodeId} (hn : n ∈ v.owned) :
    ∃ above, s.Ascends n above ∧ above.length ≤ n := by
  obtain ⟨u, hu⟩ := (h.mem_owned_iff n).mp hn
  induction n using Nat.strongRecOn generalizing u with
  | ind n ih =>
    cases u with
    | null =>
      obtain rfl : v.root = n := Option.some.inj hu
      exact ⟨[], .top h.root_node rfl, Nat.zero_le _⟩
    | string id =>
      obtain ⟨i, label, parent, -, -, hparent, hlt, hget⟩ := h.node id n hu
      obtain ⟨above, habove, hlen⟩ := ih parent hlt (h.mem_owned hparent) i.parent hparent
      refine ⟨parent :: above, .step hget rfl habove, ?_⟩
      rw [List.length_cons]
      exact Nat.lt_of_le_of_lt hlen hlt
    | bool | int | number | list | object => simp [nodeAt?] at hu

theorem Mirrors.exists_node (h : v.Mirrors name p s) {n : NodeId} (hn : n ∈ v.owned) :
    ∃ x, s.get? n = some x := by
  obtain ⟨above, habove, -⟩ := h.ascends hn
  exact habove.exists_node n (List.mem_cons_self ..)

/-- The tree of a view with the same nodes in another store is the same tree. -/
theorem Mirrors.subtree_congr {name' : Text} {p' : Plan} (h : v.Mirrors name p s) (hf : p.IsForest)
    (h' : v.Mirrors name' p' t) (hf' : p'.IsForest) (hsize : s.size ≤ t.size)
    (hsame : ∀ n ∈ v.owned, t.get? n = s.get? n) : t.subtree v.root = s.subtree v.root := by
  have hw : Preorder.Within s.childrenOf s.size v.root :=
    h.within_of_size_le hf s.size (u := .null) rfl (Nat.le_add_right _ _)
  have hw' : Preorder.Within t.childrenOf t.size v.root :=
    h'.within_of_size_le hf' t.size (u := .null) rfl (Nat.le_add_right _ _)
  have hbelow : ∀ n, Relation.ReflTransGen (Preorder.Child s.childrenOf) v.root n →
      t.childrenOf n = s.childrenOf n := by
    intro n hn
    have hmem := Preorder.mem_upTo_of_reach hw hn
    rw [← s.subtree_eq hw] at hmem
    unfold NodeStore.childrenOf
    rw [hsame n ((h.subtree_perm hf).mem_iff.mp hmem)]
  rw [t.subtree_eq hw', s.subtree_eq hw, Preorder.upTo_congr t.size hbelow,
    Preorder.upTo_eq_of_within hsize hw]

end View

namespace Session

variable {σ : Session}

/-! ### Nodes are kept -/

theorem step_keeps (h : σ.Sound) (op : Op) : σ.nodes.Keeps (σ.step op).nodes := by
  cases h.effect op with
  | planOnly _ nodes =>
    rw [nodes]
    exact .refl _
  | opened _ _ nodes => exact NodeStore.keeps_of_eq nodes
  | inserted k v i above label view _ parent nodes =>
    obtain ⟨name, hm⟩ := h.mirrors k v view
    rw [nodes]
    exact σ.nodes.keeps_withChild (hm.lt_size parent) label _

theorem run_keeps (h : σ.Sound) (ops : List Op) : σ.nodes.Keeps (σ.run ops).nodes := by
  induction ops generalizing σ with
  | nil => exact .refl _
  | cons op ops ih => exact (step_keeps h op).trans (ih (h.step op))

/-! ### Trees stay as they are -/

/-- The view maps what it mapped, and every node of its tree is as it was. -/
structure Untouched (σ τ : Session) (k : Nat) (v : View) : Prop where
  view : τ.views[k]? = some v
  nodes : ∀ n ∈ v.owned, τ.nodes.get? n = σ.nodes.get? n
  subtree : τ.nodes.subtree v.root = σ.nodes.subtree v.root

theorem Untouched.trans {τ υ : Session} {k : Nat} {v : View} (h : Untouched σ τ k v)
    (h' : Untouched τ υ k v) : Untouched σ υ k v where
  view := h'.view
  nodes n hn := (h'.nodes n hn).trans (h.nodes n hn)
  subtree := h'.subtree.trans h.subtree

/-- A step that puts nothing into a view leaves its nodes alone: those of another view are others. -/
theorem step_nodes_eq (h : σ.Sound) (op : Op) {k : Nat} {v : View} (hv : σ.views[k]? = some v)
    (hquiet : σ.insertsThrough k op = false) {n : NodeId} (hn : n ∈ v.owned) :
    (σ.step op).nodes.get? n = σ.nodes.get? n := by
  obtain ⟨name, hm⟩ := h.mirrors k v hv
  cases h.effect op with
  | planOnly _ nodes => rw [nodes]
  | opened _ _ nodes => exact nodes n (hm.owned_lt hn)
  | inserted j u i above label view _ parent nodes _ through =>
    have hjk : j ≠ k := by
      rw [through k] at hquiet
      exact of_decide_eq_false hquiet
    obtain ⟨name', hm'⟩ := h.mirrors j u view
    have hne : n ≠ above := by
      rintro rfl
      exact h.apart j k u v hjk view hv (hm'.mem_owned parent) hn
    rw [nodes]
    exact σ.nodes.get?_withChild_of_ne (hm'.lt_size parent) (hm.owned_lt hn) hne label _

theorem step_view_eq (h : σ.Sound) (op : Op) {k : Nat} {v : View} (hv : σ.views[k]? = some v)
    (hquiet : σ.insertsThrough k op = false) : (σ.step op).views[k]? = some v := by
  obtain ⟨w, hw, hextends, hsize⟩ := step_extends h op hv
  rw [hquiet] at hsize
  have hmapped : v.mapped = w.mapped := hextends.mapped_prefix.eq_of_length hsize.symm
  obtain rfl : w = v := by
    cases v
    cases w
    exact congrArg₂ View.mk hextends.root_eq hmapped.symm
  exact hw

theorem step_untouched (h : σ.Sound) (op : Op) {k : Nat} {v : View} (hv : σ.views[k]? = some v)
    (hquiet : σ.insertsThrough k op = false) : Untouched σ (σ.step op) k v := by
  have hview := step_view_eq h op hv hquiet
  have hnodes : ∀ n ∈ v.owned, (σ.step op).nodes.get? n = σ.nodes.get? n := fun _ hn =>
    step_nodes_eq h op hv hquiet hn
  obtain ⟨name, hm⟩ := h.mirrors k v hv
  obtain ⟨name', hm'⟩ := (h.step op).mirrors k v hview
  exact ⟨hview, hnodes, hm.subtree_congr h.forest hm' (h.step op).forest
    (step_keeps h op).size_le hnodes⟩

theorem run_untouched (h : σ.Sound) (ops : List Op) {k : Nat} {v : View}
    (hv : σ.views[k]? = some v) (hquiet : σ.insertions k ops = 0) :
    Untouched σ (σ.run ops) k v := by
  induction ops generalizing σ with
  | nil => exact ⟨hv, fun _ _ => rfl, rfl⟩
  | cons op ops ih =>
    rw [insertions] at hquiet
    have hstep : σ.insertsThrough k op = false := by
      cases hthrough : σ.insertsThrough k op with
      | false => rfl
      | true => simp [hthrough] at hquiet
    have hfirst := step_untouched h op hv hstep
    exact hfirst.trans (ih (h.step op) hfirst.view (by omega))

/-! ### Whole runs -/

/-- What a view keeps from one session to a later one: every id its node, every node its label, its id,
its parent, all nodes above it and its children in front of the newer ones, and the mapping its order. -/
structure KeepsView (σ τ : Session) (v w : View) : Prop where
  extends_view : v.Extends w
  same_node : ∀ id n, v.nodeFor? id = some n → w.nodeFor? id = some n
  node : ∀ n ∈ v.owned, ∃ x y, σ.nodes.get? n = some x ∧ τ.nodes.get? n = some y ∧ x.Keeps y
  ancestors : ∀ n ∈ v.owned, ∃ above, σ.nodes.Ascends n above ∧ τ.nodes.Ascends n above ∧
    σ.nodes.ancestors n = above ∧ τ.nodes.ancestors n = above

theorem run_keepsView (h : σ.Sound) (ops : List Op) {k : Nat} {v w : View}
    (hv : σ.views[k]? = some v) (hextends : v.Extends w) : KeepsView σ (σ.run ops) v w := by
  have hkeeps := run_keeps h ops
  obtain ⟨name, hm⟩ := h.mirrors k v hv
  refine ⟨hextends, fun id n hn => hextends.nodeFor? hn, ?_, ?_⟩
  · intro n hn
    obtain ⟨x, hx⟩ := hm.exists_node hn
    obtain ⟨y, hy, hxy⟩ := hkeeps n x hx
    exact ⟨x, y, hx, hy, hxy⟩
  · intro n hn
    obtain ⟨above, habove, hlen⟩ := hm.ascends hn
    have hlater := habove.kept hkeeps
    exact ⟨above, habove, hlater, NodeStore.ancestors_eq habove hlen,
      NodeStore.ancestors_eq hlater hlen⟩

/-- However a session goes on, each of its views keeps every mapped node as and where it is, and grows
by one member for each insertion through it that succeeds. As long as there is none, its mapping and its
tree stay as they are. -/
theorem run_permanent (s : NodeStore) (ops later : List Op) (k : Nat) (v : View)
    (hv : ((start s).run ops).views[k]? = some v) :
    ∃ w, (((start s).run ops).run later).views[k]? = some w ∧
      KeepsView ((start s).run ops) (((start s).run ops).run later) v w ∧
      w.size = v.size + ((start s).run ops).insertions k later ∧
      (((start s).run ops).insertions k later = 0 →
        Untouched ((start s).run ops) (((start s).run ops).run later) k v) := by
  have hsound := run_sound s ops
  obtain ⟨w, hw, hextends, hsize⟩ := run_extends hsound later hv
  exact ⟨w, hw, run_keepsView hsound later hv hextends, hsize, run_untouched hsound later hv⟩

/- No third view opens, because `x` cannot be named. The first view takes `y`; the second takes `w` and
   refuses `u`, which it has. -/
def goingOn : List Op :=
  [.openView [.char '3'],
   .insert 0 ⟨[.char 'y'], [.char 'Y'], .test, none, .string [.char 'c']⟩ (.string [.char 'c']),
   .insert 1 ⟨[.char 'w'], [.char 'W'], .test, none, .string [.char 'u']⟩ (.string [.char 'u']),
   .insert 1 ⟨[.char 'u'], [.char 'U'], .test, none, .string [.char 'c']⟩ (.string [.char 'c'])]

theorem twoViews_permanent : ∃ v w,
    ((start .empty).run twoViews).views[1]? = some v ∧
    (((start .empty).run twoViews).run goingOn).views[1]? = some w ∧
    v.mapped.keys = [[.char 'c'], [.char 'u']] ∧
    w.mapped.keys = [[.char 'c'], [.char 'u'], [.char 'w']] ∧
    ((start .empty).run twoViews).insertions 1 goingOn = 1 ∧
    KeepsView ((start .empty).run twoViews) (((start .empty).run twoViews).run goingOn) v w := by
  have hbefore : ((start .empty).run twoViews).views[1]? =
      some ⟨2, [([.char 'c'], 3), ([.char 'u'], 4)]⟩ := rfl
  have hafter : (((start .empty).run twoViews).run goingOn).views[1]? =
      some ⟨2, [([.char 'c'], 3), ([.char 'u'], 4), ([.char 'w'], 6)]⟩ := rfl
  obtain ⟨w, hw, hkeeps, -, -⟩ := run_permanent .empty twoViews goingOn 1 _ hbefore
  obtain rfl := Option.some.inj (hafter.symm.trans hw)
  exact ⟨_, _, hbefore, hafter, rfl, rfl, rfl, hkeeps⟩

end Session

end SuiteView
