import SuiteView.Proofs.Report.Tree
import SuiteView.Proofs.View.Growth

/-!
# Reports under another name

An entry is made of what its node shows and of the entries of the children, and its number is counted by
the kinds of the nodes below. So two views of one plan that map the same members in the same order have
the same reports, up to the one entry that shows the name of a view.
-/

namespace SuiteView

theorem map_eq_of_forall₂ {α β γ : Type} {f : α → γ} {g : β → γ} {xs : List α} {ys : List β}
    (h : List.Forall₂ (fun x y => f x = g y) xs ys) : xs.map f = ys.map g := by
  rw [← List.forall₂_eq_eq_eq, List.forall₂_map_left_iff, List.forall₂_map_right_iff]
  exact h

namespace Entry

/-- The entry of a suite under another name. -/
def renamed (name : Text) : Entry → Entry
  | .node _ stableId isSelected testCount children =>
    .node (.suite name) stableId isSelected testCount children

/-- Of the document of a suite the first field is the name, and no other field depends on it. -/
theorem document_renamed {e : Entry} {old : Text} (h : e.label = .suite old) (name : Text) :
    ∃ rest, e.document = .mapping (("name", .text old) :: rest) ∧
      (e.renamed name).document = .mapping (("name", .text name) :: rest) := by
  obtain ⟨label, stableId, isSelected, testCount, children⟩ := e
  obtain rfl : label = .suite old := h
  exact ⟨_, rfl, rfl⟩

end Entry

namespace View.Mirrors

variable {v w : View} {name name' : Text} {p : Plan} {s t : NodeStore}

theorem isTest_eq (hv : v.Mirrors name p s) (hw : w.Mirrors name' p t) {id : Text} {n m : NodeId}
    (hn : v.nodeFor? id = some n) (hm : w.nodeFor? id = some m) : s.isTest n = t.isTest m := by
  obtain ⟨i, -, -, hi, -⟩ := hv.node id n hn
  rw [hv.isTest_node hn hi, hw.isTest_node hm hi]

theorem testCount_eq (hv : v.Mirrors name p s) (hw : w.Mirrors name' p t) (hf : p.IsForest)
    (h : v.SameKeys w) {u : Value} {n m : NodeId} (hn : v.nodeAt? u = some n)
    (hm : w.nodeAt? u = some m) (hkind : s.isTest n = t.isTest m) : s.testCount n = t.testCount m := by
  -- only the kinds of the nodes count, which pair up
  have hkinds : ∀ ids : List Text, (ids.filterMap v.nodeFor?).map s.isTest =
      (ids.filterMap w.nodeFor?).map t.isTest := fun ids =>
    map_eq_of_forall₂ (filterMap_forall₂ h ids fun _ _ _ _ hn hm => hv.isTest_eq hw hn hm)
  have hcount : ∀ (r : NodeStore) (ns : List NodeId), ns.countP r.isTest =
      (ns.map r.isTest).countP id := fun r _ =>
    (List.countP_map (p := id) (f := r.isTest)).symm
  rw [NodeStore.testCount, NodeStore.testCount, hv.subtree_at hf hn, hw.subtree_at hf hm, hcount,
    hcount, List.map_cons, List.map_cons, hkind, hkinds]

/-- The nodes of one member have the same entries. -/
theorem ofNode_congr (hv : v.Mirrors name p s) (hw : w.Mirrors name' p t) (hf : p.IsForest)
    (h : v.SameKeys w) (selected : List Text) {id : Text} {n m : NodeId}
    (hn : v.nodeFor? id = some n) (hm : w.nodeFor? id = some m) :
    Entry.ofNode s selected n = Entry.ofNode t selected m := by
  refine hv.pairs_induction hw hf h
    (R := fun n m => Entry.ofNode s selected n = Entry.ofNode t selected m) ?_ hn hm
  intro id n m x y hn hm hx hy hlabel hid hchildren
  have hn' := hv.mem_owned (u := .string id) hn
  have hm' := hw.mem_owned (u := .string id) hm
  have hcount := hv.testCount_eq hw hf h (u := .string id) hn hm (hv.isTest_eq hw hn hm)
  have hentries := map_eq_of_forall₂ hchildren
  rw [hv.ofNode_eq hf selected hn' hx, hw.ofNode_eq hf selected hm' hy, hlabel, hid, hcount, hentries]

theorem testCount_root (hv : v.Mirrors name p s) (hw : w.Mirrors name' p t) (hf : p.IsForest)
    (h : v.SameKeys w) : s.testCount v.root = t.testCount w.root :=
  hv.testCount_eq hw hf h (u := .null) rfl rfl (hv.isTest_root.trans hw.isTest_root.symm)

/-- The entries of the roots differ in their names alone. -/
theorem ofNode_root (hv : v.Mirrors name p s) (hw : w.Mirrors name' p t) (hf : p.IsForest)
    (h : v.SameKeys w) (selected : List Text) :
    Entry.ofNode t selected w.root = (Entry.ofNode s selected v.root).renamed name' := by
  have hentries := map_eq_of_forall₂ (nodesUnder_forall₂ h (p := p) .null fun _ _ _ _ hn hm =>
    hv.ofNode_congr hw hf h selected hn hm)
  rw [hv.ofNode_eq hf selected (List.mem_cons_self ..) hv.root_node,
    hw.ofNode_eq hf selected (List.mem_cons_self ..) hw.root_node, ← hv.testCount_root hw hf h,
    ← hentries]
  rfl

theorem report_renamed (hv : v.Mirrors name p s) (hw : w.Mirrors name' p t) (hf : p.IsForest)
    (hkeys : w.mapped.keys = v.mapped.keys) (selection : Option Selection) (time : Timestamp) :
    w.report t selection time = { v.report s selection time with
      tree := (v.report s selection time).tree.renamed name' } := by
  have h : v.SameKeys w := fun id => by rw [hkeys]
  have hsize : w.size = v.size := by
    have hlength := congrArg List.length hkeys
    rwa [Table.keys, Table.keys, List.length_map, List.length_map] at hlength
  have hcount := hv.testCount_root hw hf h
  have htree := hv.ofNode_root hw hf h ((selection.map (·.ids)).getD [])
  rw [Entry.ofNode, Entry.ofNode] at htree
  rw [View.report, View.report, hsize, hcount, htree]

end View.Mirrors

end SuiteView
