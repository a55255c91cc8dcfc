import SuiteView.Proofs.Permanence
import SuiteView.Proofs.View.Tests
import SuiteView.Report.Basic

/-!
# Entries of a report

The entries of a report follow the walk through the tree: one entry for every node at and below the
root, in pre-order, each with what its node shows. In the report of a view every mapped member has
one entry, which carries its id, and the entry of the root carries none.
-/

namespace SuiteView

/-! ### Fields of documents -/

namespace Yaml.Document

def field? : Document → String → Option Document
  | .mapping fields, name => fields.lookup name
  | _, _ => none

/-- What stands in a document at the end of a path of field names. -/
def at? (d : Document) (path : List String) : Option Document := path.foldlM field? d

end Yaml.Document

namespace Entry

/-! ### Parts of an entry -/

def label : Entry → Label
  | .node label _ _ _ _ => label

def stableId : Entry → Option Text
  | .node _ stableId _ _ _ => stableId

def isSelected : Entry → Bool
  | .node _ _ isSelected _ _ => isSelected

def children : Entry → List Entry
  | .node _ _ _ _ children => children

def testCount : Entry → Nat
  | .node _ _ _ testCount _ => testCount

theorem document_name (e : Entry) : e.document.field? "name" = some (.text e.label.display) := by
  cases e
  rfl

theorem document_stableId (e : Entry) :
    e.document.field? "stable_id" = some ((e.stableId.map Yaml.Document.text).getD .null) := by
  cases e
  rfl

theorem document_stableId_iff (e : Entry) (id : Text) :
    e.document.field? "stable_id" = some (.text id) ↔ e.stableId = some id := by
  rw [document_stableId]
  cases e.stableId <;> simp

theorem document_selected (e : Entry) : e.document.field? "selected" =
    if e.isSelected then some (.flag true) else none := by
  obtain ⟨label, stableId, isSelected, testCount, children⟩ := e
  cases label <;> cases isSelected <;> cases children <;> rfl

theorem document_selected_iff (e : Entry) :
    e.document.field? "selected" = some (.flag true) ↔ e.isSelected = true := by
  rw [document_selected]
  cases e.isSelected <;> simp

/-! ### All entries of a tree -/

mutual

/-- An entry and everything below it, in pre-order. -/
def all : Entry → List Entry
  | .node label stableId isSelected testCount children =>
    .node label stableId isSelected testCount children :: allOf children
termination_by structural e => e

def allOf : List Entry → List Entry
  | [] => []
  | e :: rest => all e ++ allOf rest
termination_by structural es => es

end

theorem allOf_eq_flatMap (es : List Entry) : allOf es = es.flatMap all := by
  induction es with
  | nil => rfl
  | cons e rest ih => rw [allOf, List.flatMap_cons, ih]

theorem all_eq_cons (e : Entry) : e.all = e :: allOf e.children := by
  cases e
  rfl

/-- What an entry shows of its own node. -/
def shown (e : Entry) : Label × Option Text × Bool := (e.label, e.stableId, e.isSelected)

/-- What the entry of a node shows. -/
def shownOf (selected : List Text) (node : Node) : Label × Option Text × Bool :=
  (node.label, node.stableId, (node.stableId.map selected.contains).getD false)

/-! ### Entries of nodes -/

/-- The entry of a node, which is there if the node is. -/
def ofNode (s : NodeStore) (selected : List Text) (n : NodeId) : Entry :=
  (ofNode? s selected n).getD .blank

variable {s : NodeStore} {selected : List Text}

theorem ofNodeUpTo_eq_of_within {d e : Nat} (hde : d ≤ e) {n : NodeId}
    (hw : Preorder.Within s.childrenOf d n) :
    ofNodeUpTo s selected e n = ofNodeUpTo s selected d n := by
  induction d generalizing e n with
  | zero => exact False.elim hw
  | succ d ih =>
    obtain ⟨e, rfl⟩ : ∃ e', e = e' + 1 := ⟨e - 1, by omega⟩
    rw [ofNodeUpTo, ofNodeUpTo]
    cases hget : s.get? n with
    | none => rfl
    | some node =>
      have hchildren : s.childrenOf n = node.children := by simp [NodeStore.childrenOf, hget]
      have hsame : node.children.filterMap (ofNodeUpTo s selected e) =
          node.children.filterMap (ofNodeUpTo s selected d) :=
        List.filterMap_congr fun m hm => ih (by omega) (hw m (hchildren ▸ hm))
      rw [Option.map_some, Option.map_some, hsame]

theorem ofNode?_eq_some {n : NodeId} {node : Node} (hget : s.get? n = some node) :
    ofNode? s selected n = some (ofNode s selected n) := by
  rw [ofNode, ofNode?, ofNodeUpTo, hget]
  rfl

end Entry

/-! ### The report of a view -/

namespace Report

/-- What stands in the document of a report at the end of a path of field names. -/
def at? (r : Report) (path : List String) : Option Yaml.Document :=
  (Yaml.Document.mapping r.fields).at? path

theorem at_tests (r : Report) : r.at? ["report", "summary", "tests"] = some (.count r.tests) := rfl

theorem at_selected (r : Report) : r.at? ["report", "summary", "selected"] =
    r.selection.map fun selection => .count selection.ids.length := by
  obtain ⟨time, mappedNodes, tests, selection, tree⟩ := r
  cases selection <;> rfl

theorem at_ids (r : Report) : r.at? ["report", "selection", "ids"] =
    r.selection.map fun selection => .sequence (selection.ids.map .text) := by
  obtain ⟨time, mappedNodes, tests, selection, tree⟩ := r
  cases selection <;> rfl

/-- The ids of the entries that are marked, in the order of the tree. -/
def markedIds (r : Report) : List Text :=
  (r.tree.all.filter Entry.isSelected).filterMap Entry.stableId

/-- Every mapped member has one entry, the root has one without an id, and marked are the entries of
the members whose ids were given. -/
structure Marks (r : Report) (v : View) (ids : List Text) : Prop where
  root : r.tree.stableId = none ∧ r.tree.document.field? "selected" = none
  shown_once : (r.tree.all.filterMap Entry.stableId).Perm v.mapped.keys
  marked_iff : ∀ e ∈ r.tree.all, e.document.field? "selected" = some (.flag true) ↔
    ∃ id ∈ ids, e.document.field? "stable_id" = some (.text id)
  marked_once : r.markedIds.Perm (v.mapped.keys.filter ids.contains)
  marked_count : r.tree.all.countP Entry.isSelected = r.markedIds.length

end Report

namespace View.Mirrors

variable {v : View} {name : Text} {p : Plan} {s : NodeStore}

theorem within_size (h : v.Mirrors name p s) (hf : p.IsForest) {n : NodeId} (hn : n ∈ v.owned) :
    Preorder.Within s.childrenOf s.size n := by
  obtain ⟨u, hu⟩ := (h.mem_owned_iff n).mp hn
  exact h.within_of_size_le hf s.size hu (Nat.le_add_right _ _)

theorem child_owned (h : v.Mirrors name p s) {n : NodeId} (hn : n ∈ v.owned) {m : NodeId}
    (hm : m ∈ s.childrenOf n) : m ∈ v.owned := by
  obtain ⟨u, hu⟩ := (h.mem_owned_iff n).mp hn
  rw [h.childrenOf_eq hu] at hm
  obtain ⟨id, -, hid⟩ := List.mem_filterMap.mp hm
  exact h.mem_owned (u := .string id) hid

/-- The entry of a node is made of the node and of the entries of its children. -/
theorem ofNode_eq (h : v.Mirrors name p s) (hf : p.IsForest) (selected : List Text) {n : NodeId}
    (hn : n ∈ v.owned) {node : Node} (hget : s.get? n = some node) :
    Entry.ofNode s selected n =
      .node node.label node.stableId ((node.stableId.map selected.contains).getD false)
        (s.testCount n) (node.children.map (Entry.ofNode s selected)) := by
  have hchildren : s.childrenOf n = node.children := by simp [NodeStore.childrenOf, hget]
  have hentries : node.children.filterMap (Entry.ofNodeUpTo s selected s.size) =
      node.children.map (Entry.ofNode s selected) := by
    rw [← List.filterMap_eq_map]
    refine List.filterMap_congr fun m hm => ?_
    have hm' := h.child_owned hn (hchildren ▸ hm)
    obtain ⟨x, hx⟩ := h.exists_node hm'
    rw [← Entry.ofNodeUpTo_eq_of_within (Nat.le_succ _) (h.within_size hf hm')]
    exact Entry.ofNode?_eq_some hx
  rw [Entry.ofNode, Entry.ofNode?, Entry.ofNodeUpTo, hget, Option.map_some, hentries]
  rfl

/-- The pre-order of the entries is the pre-order of the nodes. -/
theorem all_ofNode (h : v.Mirrors name p s) (hf : p.IsForest) (selected : List Text) {n : NodeId}
    (hn : n ∈ v.owned) : (Entry.ofNode s selected n).all =
      (s.subtree n).map (Entry.ofNode s selected) := by
  -- by the depth below the node, which the size of the store bounds
  have hdepth : ∀ d n, n ∈ v.owned → Preorder.Within s.childrenOf d n →
      (Entry.ofNode s selected n).all =
        (Preorder.upTo s.childrenOf d n).map (Entry.ofNode s selected) := by
    intro d
    induction d with
    | zero => exact fun n _ hw => False.elim hw
    | succ d ih =>
      intro n hn hw
      obtain ⟨node, hget⟩ := h.exists_node hn
      have hchildren : s.childrenOf n = node.children := by simp [NodeStore.childrenOf, hget]
      have hbelow : Entry.allOf (Entry.ofNode s selected n).children =
          ((s.childrenOf n).flatMap (Preorder.upTo s.childrenOf d)).map
            (Entry.ofNode s selected) := by
        rw [h.ofNode_eq hf selected hn hget, Entry.children, Entry.allOf_eq_flatMap,
          List.flatMap_map, List.map_flatMap, hchildren]
        refine List.flatMap_congr fun m hm => ?_
        rw [← hchildren] at hm
        exact ih m (h.child_owned hn hm) (hw m hm)
      rw [Entry.all_eq_cons, hbelow, Preorder.upTo, List.map_cons]
  have hw := h.within_size hf hn
  rw [s.subtree_eq hw]
  exact hdepth s.size n hn hw

theorem map_shown_ofNode (h : v.Mirrors name p s) (hf : p.IsForest) (selected : List Text)
    {ns : List NodeId} (hns : ∀ n ∈ ns, n ∈ v.owned) :
    (ns.map (Entry.ofNode s selected)).map Entry.shown =
      (ns.filterMap s.get?).map (Entry.shownOf selected) := by
  induction ns with
  | nil => rfl
  | cons n ns ih =>
    obtain ⟨hn, hrest⟩ := List.forall_mem_cons.mp hns
    obtain ⟨node, hget⟩ := h.exists_node hn
    rw [List.map_cons, List.map_cons, ih hrest, List.filterMap_cons_some hget, List.map_cons,
      h.ofNode_eq hf selected hn hget]
    rfl

theorem shown_entries (h : v.Mirrors name p s) (hf : p.IsForest) (selection : Option Selection)
    (time : Timestamp) : (v.report s selection time).tree.all.map Entry.shown =
      (.suite name, none, false) :: ((p.preorderIds.filterMap v.nodeFor?).filterMap s.get?).map
        (Entry.shownOf ((selection.map (·.ids)).getD [])) := by
  show (Entry.ofNode s ((selection.map (·.ids)).getD []) v.root).all.map Entry.shown = _
  have hroot : v.root ∈ v.owned := List.mem_cons_self ..
  rw [h.all_ofNode hf _ hroot, h.map_shown_ofNode hf _ fun n hn => (h.subtree_perm hf).mem_iff.mp hn,
    h.subtree_root hf, List.filterMap_cons_some h.root_node, List.map_cons]
  rfl

theorem shown_members (h : v.Mirrors name p s) (selected ids : List Text) :
    (((ids.filterMap v.nodeFor?).filterMap s.get?).map (Entry.shownOf selected)).map Prod.snd =
      (ids.filter v.mapped.contains).map fun id => (some id, selected.contains id) := by
  induction ids with
  | nil => rfl
  | cons id ids ih =>
    cases hn : v.nodeFor? id with
    | none =>
      have hgone : ¬ v.mapped.contains id = true := by
        rw [Table.contains_iff, ← v.nodeFor?_eq_none_iff]
        exact hn
      rw [List.filterMap_cons_none hn, ih, List.filter_cons_of_neg hgone]
    | some n =>
      have hthere : v.mapped.contains id = true := by
        rw [Table.contains_iff, v.mem_keys_iff]
        exact ⟨n, hn⟩
      obtain ⟨i, label, parent, -, -, -, -, hget⟩ := h.node id n hn
      rw [List.filterMap_cons_some hn, List.filterMap_cons_some hget, List.map_cons, List.map_cons, ih,
        List.filter_cons_of_pos hthere, List.map_cons]
      rfl

theorem preorder_mapped_perm (h : v.Mirrors name p s) (hf : p.IsForest) :
    (p.preorderIds.filter v.mapped.contains).Perm v.mapped.keys := by
  rw [List.perm_ext_iff_of_nodup (hf.preorderIds_nodup.filter _) h.keys_nodup]
  intro id
  rw [List.mem_filter, Table.contains_iff]
  constructor
  · exact And.right
  · intro hid
    exact ⟨hf.mem_preorderIds (h.mem_ids hid), hid⟩

/-- The id and the mark of every entry: none for the root, then those of the mapped members. -/
theorem marks_entries (h : v.Mirrors name p s) (hf : p.IsForest) (selection : Option Selection)
    (time : Timestamp) :
    (v.report s selection time).tree.all.map (fun e => (e.stableId, e.isSelected)) =
      (none, false) :: (p.preorderIds.filter v.mapped.contains).map fun id =>
        (some id, ((selection.map (·.ids)).getD []).contains id) := by
  have hshown := congrArg (List.map Prod.snd) (h.shown_entries hf selection time)
  rw [List.map_map, List.map_cons, h.shown_members] at hshown
  exact hshown

theorem report_marks (h : v.Mirrors name p s) (hf : p.IsForest) (selection : Option Selection)
    (time : Timestamp) :
    (v.report s selection time).Marks v ((selection.map (·.ids)).getD []) := by
  have hmarks := h.marks_entries hf selection time
  have hperm := h.preorder_mapped_perm hf
  generalize (v.report s selection time) = r at hmarks ⊢
  generalize (selection.map (·.ids)).getD [] = ids at hmarks ⊢
  generalize p.preorderIds.filter v.mapped.contains = mapped at hmarks hperm
  have hstable : r.tree.all.filterMap Entry.stableId = mapped := by
    have hfirst := congrArg (List.filterMap Prod.fst) hmarks
    simpa [List.filterMap_map, Function.comp_def] using hfirst
  have hmarked : (r.tree.all.filter Entry.isSelected).map Entry.stableId =
      (mapped.filter ids.contains).map some := by
    have hsecond := congrArg (fun l => (l.filter Prod.snd).map Prod.fst) hmarks
    rw [List.filter_map, List.map_map, List.filter_cons_of_neg (by simp), List.filter_map,
      List.map_map] at hsecond
    exact hsecond
  have hmarkedIds : r.markedIds = mapped.filter ids.contains := by
    have hall := congrArg (List.filterMap id) hmarked
    simpa [Report.markedIds, List.filterMap_map, Function.comp_def] using hall
  refine ⟨?_, hstable ▸ hperm, ?_, ?_, ?_⟩
  · have hroot : r.tree.all.map (fun e => (e.stableId, e.isSelected)) =
        (r.tree.stableId, r.tree.isSelected) ::
          r.tree.all.tail.map fun e => (e.stableId, e.isSelected) := by
      cases r.tree
      rfl
    rw [hroot] at hmarks
    obtain ⟨hid, hmark⟩ := Prod.mk.inj (List.cons.inj hmarks).1
    refine ⟨hid, ?_⟩
    rw [Entry.document_selected, hmark]
    rfl
  · intro e he
    simp only [Entry.document_selected_iff, Entry.document_stableId_iff]
    have hpair : (e.stableId, e.isSelected) ∈ (none, false) :: mapped.map fun id =>
        (some id, ids.contains id) := hmarks ▸ List.mem_map_of_mem he
    rcases List.mem_cons.mp hpair with hroot | hmember
    · obtain ⟨hid, hmark⟩ := Prod.mk.inj hroot
      simp [hid, hmark]
    · obtain ⟨id, -, hid⟩ := List.mem_map.mp hmember
      obtain ⟨hid, hmark⟩ := Prod.mk.inj hid
      simp [← hid, ← hmark]
  · rw [hmarkedIds]
    exact hperm.filter _
  · have hlength := congrArg List.length hmarked
    rw [List.countP_eq_length_filter, hmarkedIds]
    simpa using hlength

/-- An entry shows the label of the node that its member is mapped to. -/
theorem report_labels (h : v.Mirrors name p s) (hf : p.IsForest) (selection : Option Selection)
    (time : Timestamp) {e : Entry} (he : e ∈ (v.report s selection time).tree.all) {id : Text}
    (hid : e.stableId = some id) :
    ∃ n node, v.nodeFor? id = some n ∧ s.get? n = some node ∧ e.label = node.label := by
  have hshown : e.shown ∈ (v.report s selection time).tree.all.map Entry.shown :=
    List.mem_map_of_mem he
  rw [h.shown_entries hf] at hshown
  rcases List.mem_cons.mp hshown with hroot | hmember
  · have hnone : e.stableId = none := congrArg (fun shown => shown.2.1) hroot
    rw [hid] at hnone
    cases hnone
  · obtain ⟨node, hnode, hof⟩ := List.mem_map.mp hmember
    obtain ⟨n, hn, hget⟩ := List.mem_filterMap.mp hnode
    obtain ⟨x, -, hx⟩ := List.mem_filterMap.mp hn
    obtain ⟨i, label, parent, -, -, -, -, hat⟩ := h.node x n hx
    obtain rfl := Option.some.inj (hget.symm.trans hat)
    have hsame : some x = some id := (congrArg (fun shown => shown.2.1) hof).trans hid
    obtain rfl := Option.some.inj hsame
    exact ⟨n, _, hx, hat, (congrArg Prod.fst hof).symm⟩

end View.Mirrors

end SuiteView
