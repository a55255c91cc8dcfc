import SuiteView.Proofs.Report.Entries

/-!
# The tree in a report

The tree in a report copies the tree of the view: the entry of a node has the entries of the node's
children for its children, so both trees have the same shape and the same pre-order. The numbers
beside the entries are counted by walks of their own through the nodes, and they come out as what
the entries show.
-/

namespace SuiteView

/-- The document says that it stands for a test. -/
def Yaml.Document.showsTest (d : Document) : Bool :=
  match d.field? "kind" with
  | some (.text kind) => kind = "test"
  | _ => false

namespace Entry

/-! ### Documents of entries -/

theorem documents_eq_map (es : List Entry) : documents es = es.map document := by
  induction es with
  | nil => rfl
  | cons e rest ih => rw [documents, ih, List.map_cons]

theorem document_children (e : Entry) : e.document.field? "children" =
    if e.children = [] then none else some (.sequence (e.children.map document)) := by
  obtain ⟨label, stableId, isSelected, testCount, children⟩ := e
  rw [document, documents_eq_map]
  cases label <;> cases isSelected <;> cases children <;> rfl

theorem document_kind (e : Entry) :
    e.document.field? "kind" = some (.text e.label.kindName) := by
  cases e
  rfl

theorem document_showsTest (e : Entry) : e.document.showsTest = e.label.isTest := by
  rw [Yaml.Document.showsTest, document_kind]
  have hne : Text.ofString "suite" ≠ Text.ofString "test" := by decide
  cases e.label with
  | suite => exact decide_eq_false hne
  | test => exact decide_eq_true rfl

/-- The document of an entry names its node, with group and case for a test and the number of the
tests below it for a suite, and holds the documents of the children if there are any. -/
structure Tells (e : Entry) : Prop where
  stable_id : e.document.field? "stable_id" = some ((e.stableId.map Yaml.Document.text).getD .null)
  children : e.document.field? "children" =
    if e.children = [] then none else some (.sequence (e.children.map document))
  test : ∀ group caseName, e.label = .test group caseName →
    e.document.field? "kind" = some (.text "test") ∧
    e.document.field? "name" = some (.text (caseName ++ "(" ++ group ++ ")")) ∧
    e.document.field? "group" = some (.text group) ∧
    e.document.field? "case" = some (.text caseName) ∧ e.document.field? "test_count" = none
  suite : ∀ name, e.label = .suite name →
    e.document.field? "kind" = some (.text "suite") ∧ e.document.field? "name" = some (.text name) ∧
    e.document.field? "group" = none ∧ e.document.field? "case" = none ∧
    e.document.field? "test_count" =
      some (.count ((allOf e.children).countP fun below => below.document.showsTest))

/-- The number of an entry only has to count all tests, itself included: a suite is none. -/
theorem tells_of_testCount {e : Entry}
    (h : e.testCount = e.all.countP fun below => below.document.showsTest) : e.Tells := by
  refine ⟨e.document_stableId, e.document_children, ?_, ?_⟩
  · intro group caseName hlabel
    obtain ⟨label, stableId, isSelected, testCount, children⟩ := e
    obtain rfl : label = .test group caseName := hlabel
    cases isSelected <;> cases children <;> exact ⟨rfl, rfl, rfl, rfl, rfl⟩
  · intro name hlabel
    have hself : ¬ e.document.showsTest = true := by
      rw [document_showsTest, hlabel]
      exact Bool.false_ne_true
    rw [all_eq_cons, List.countP_cons, if_neg hself, Nat.add_zero] at h
    rw [← h]
    obtain ⟨label, stableId, isSelected, testCount, children⟩ := e
    obtain rfl : label = .suite name := hlabel
    cases isSelected <;> cases children <;> exact ⟨rfl, rfl, rfl, rfl, rfl⟩

end Entry

namespace View.Mirrors

variable {v : View} {name : Text} {p : Plan} {s : NodeStore}

theorem subtree_owned (h : v.Mirrors name p s) (hf : p.IsForest) {n m : NodeId} (hn : n ∈ v.owned)
    (hm : m ∈ s.subtree n) : m ∈ v.owned := by
  rw [s.subtree_eq (h.within_size hf hn)] at hm
  have hreach := Preorder.reach_of_mem_upTo hm
  clear hm
  induction hreach with
  | refl => exact hn
  | tail _ hchild ih => exact h.child_owned ih hchild

/-- The count that the walk gives is the number of the tests among the entries. -/
theorem tells_ofNode (h : v.Mirrors name p s) (hf : p.IsForest) (selected : List Text) {n : NodeId}
    (hn : n ∈ v.owned) : (Entry.ofNode s selected n).Tells := by
  refine Entry.tells_of_testCount ?_
  rw [h.all_ofNode hf selected hn, List.countP_map]
  obtain ⟨node, hget⟩ := h.exists_node hn
  rw [h.ofNode_eq hf selected hn hget, Entry.testCount, NodeStore.testCount]
  refine List.countP_congr fun m hm => ?_
  obtain ⟨x, hx⟩ := h.exists_node (h.subtree_owned hf hn hm)
  rw [Function.comp_apply, Entry.document_showsTest,
    h.ofNode_eq hf selected (h.subtree_owned hf hn hm) hx]
  simp [NodeStore.isTest, hx, Entry.label]

end View.Mirrors

/-! ### The report of a view -/

namespace Report

theorem at_tree (r : Report) : r.at? ["report", "tree"] = some r.tree.document := by
  obtain ⟨time, mappedNodes, tests, selection, tree⟩ := r
  cases selection <;> rfl

theorem at_mappedNodes (r : Report) :
    r.at? ["report", "summary", "mapped_nodes"] = some (.count r.mappedNodes) := rfl

/-- The tree of a report copies the tree of a view: there is one entry for every node, the entries
follow each other and lie in each other like their nodes, and every entry shows what its node shows.
The root is named as the view was; the summary counts the entries without it, and its tests. -/
structure Copies (r : Report) (v : View) (s : NodeStore) (name : Text) (entryOf : NodeId → Entry) :
    Prop where
  tree : r.at? ["report", "tree"] = some (entryOf v.root).document
  entries : (entryOf v.root).all = (s.subtree v.root).map entryOf
  once : (s.subtree v.root).Nodup
  nodes : (s.subtree v.root).Perm (v.root :: v.mapped.map Prod.snd)
  node : ∀ n ∈ s.subtree v.root, ∃ node, s.get? n = some node ∧
    (entryOf n).label = node.label ∧ (entryOf n).stableId = node.stableId ∧
    (entryOf n).children = node.children.map entryOf ∧ (entryOf n).Tells
  root : (entryOf v.root).document.field? "kind" = some (.text "suite") ∧
    (entryOf v.root).document.field? "name" = some (.text name) ∧
    (entryOf v.root).document.field? "stable_id" = some .null
  member : ∀ id n, v.nodeFor? id = some n →
    (entryOf n).document.field? "stable_id" = some (.text id)
  mapped_nodes : r.at? ["report", "summary", "mapped_nodes"] =
    some (.count ((entryOf v.root).all.length - 1))
  tests : r.at? ["report", "summary", "tests"] =
    (entryOf v.root).document.field? "test_count"

end Report

theorem View.Mirrors.report_copies {v : View} {name : Text} {p : Plan} {s : NodeStore}
    (h : v.Mirrors name p s) (hf : p.IsForest) (selection : Option Selection) (time : Timestamp) :
    (v.report s selection time).Copies v s name
      (Entry.ofNode s ((selection.map (·.ids)).getD [])) := by
  generalize hselected : (selection.map (·.ids)).getD [] = selected
  have hroot : v.root ∈ v.owned := List.mem_cons_self ..
  have heq := h.ofNode_eq hf selected hroot h.root_node
  have hall := h.all_ofNode hf selected hroot
  have hperm := h.subtree_perm hf
  refine ⟨?_, hall, hperm.nodup_iff.mpr h.owned_nodup, hperm, ?_, ?_, ?_, ?_, ?_⟩
  · rw [Report.at_tree, ← hselected]
    rfl
  · intro n hn
    have hn' := hperm.mem_iff.mp hn
    obtain ⟨node, hget⟩ := h.exists_node hn'
    refine ⟨node, hget, ?_, ?_, ?_, h.tells_ofNode hf selected hn'⟩
    · rw [h.ofNode_eq hf selected hn' hget, Entry.label]
    · rw [h.ofNode_eq hf selected hn' hget, Entry.stableId]
    · rw [h.ofNode_eq hf selected hn' hget, Entry.children]
  · rw [heq]
    exact ⟨rfl, rfl, rfl⟩
  · intro id n hn
    obtain ⟨i, label, parent, -, -, -, -, hget⟩ := h.node id n hn
    rw [Entry.document_stableId_iff, h.ofNode_eq hf selected (h.mem_owned (u := .string id) hn) hget,
      Entry.stableId]
  · rw [Report.at_mappedNodes, hall, List.length_map, hperm.length_eq, View.owned, List.length_cons,
      List.length_map]
    rfl
  · rw [Report.at_tests, heq]
    rfl

namespace Session

variable {σ : Session}

/-- A view that was opened stays in its place and keeps its name. -/
theorem run_openView (hs : σ.Sound) {name : Text} {b : Bridge}
    (h : Bridge.create σ.plan σ.nodes name = .ok b) (later : List Op) :
    ∃ v, (σ.run (.openView name :: later)).views[σ.views.length]? = some v ∧
      v.Mirrors name (σ.run (.openView name :: later)).plan
        (σ.run (.openView name :: later)).nodes := by
  have hstep : σ.step (.openView name) = ⟨b.plan, b.nodes, σ.views ++ [b.view]⟩ := by
    simp only [step, h]
  have hopened : (σ.step (.openView name)).views[σ.views.length]? = some b.view := by
    rw [hstep]
    exact List.getElem?_concat_length
  have hsound := hs.step (.openView name)
  obtain ⟨v, hv, hextends, -⟩ := run_extends hsound later hopened
  obtain ⟨name', hm⟩ := (hsound.run later).mirrors _ v hv
  have hroot : (σ.step (.openView name)).nodes.get? v.root =
      some ⟨.suite name, none, none, b.view.nodesUnder b.plan .null⟩ := by
    rw [hextends.root_eq, hstep]
    exact (Bridge.create_grown hs.forest h).mirrors.root_node
  obtain ⟨y, hy, hkept⟩ := run_keeps hsound later v.root _ hroot
  obtain rfl := Option.some.inj (hy.symm.trans hm.root_node)
  obtain rfl : name' = name := Label.suite.inj hkept.label
  exact ⟨v, hv, hm⟩

/-- Whenever a view is opened, and however the session goes on, the report of the view copies the
tree of its nodes. -/
theorem run_report_copies (s : NodeStore) (before later : List Op) (name : Text) (b : Bridge)
    (h : Bridge.create ((start s).run before).plan ((start s).run before).nodes name = .ok b) :
    ∃ v, (((start s).run before).run (.openView name :: later)).views[
        ((start s).run before).views.length]? = some v ∧
      ∀ selection time, ∃ entryOf,
        (v.report (((start s).run before).run (.openView name :: later)).nodes selection time).Copies
          v (((start s).run before).run (.openView name :: later)).nodes name entryOf := by
  have hs := run_sound s before
  obtain ⟨v, hv, hm⟩ := run_openView hs h later
  have hf := (hs.run (.openView name :: later)).forest
  exact ⟨v, hv, fun selection time => ⟨_, hm.report_copies hf selection time⟩⟩

/- A suite with a test in it, and later a test below this test. -/
def suiteAndTest : List Op :=
  [.add ⟨[.char 'c'], [.char 'C'], .container, none, .null⟩,
   .add ⟨[.char 't'], [.char 'T'], .test, none, .string [.char 'c']⟩]

def testBelowTest : List Op :=
  [.insert 0 ⟨[.char 'u'], [.char 'U'], .test, none, .string [.char 't']⟩ (.string [.char 't'])]

theorem testBelowTest_copies : ∃ b v,
    Bridge.create ((start .empty).run suiteAndTest).plan ((start .empty).run suiteAndTest).nodes
      [.char 'r'] = .ok b ∧
    (((start .empty).run suiteAndTest).run (.openView [.char 'r'] :: testBelowTest)).views[0]? =
      some v ∧
    ∃ (r : Report) (entryOf : NodeId → Entry), r.Copies v
      (((start .empty).run suiteAndTest).run (.openView [.char 'r'] :: testBelowTest)).nodes
      [.char 'r'] entryOf ∧
      r.at? ["report", "summary", "mapped_nodes"] = some (.count 3) ∧
      r.at? ["report", "summary", "tests"] = some (.count 2) := by
  have hcreate : Bridge.create ((start .empty).run suiteAndTest).plan
      ((start .empty).run suiteAndTest).nodes [.char 'r'] = .ok _ := rfl
  have hview : (((start .empty).run suiteAndTest).run
      (.openView [.char 'r'] :: testBelowTest)).views[0]? =
      some ⟨0, [([.char 'c'], 1), ([.char 't'], 2), ([.char 'u'], 3)]⟩ := rfl
  obtain ⟨v, hv, hcopies⟩ := run_report_copies .empty suiteAndTest testBelowTest [.char 'r'] _ hcreate
  obtain rfl := Option.some.inj (hview.symm.trans hv)
  obtain ⟨entryOf, hcopy⟩ := hcopies none ⟨2024, 1, 2, 3, 4, 5, 0⟩
  exact ⟨_, _, hcreate, hview, _, entryOf, hcopy, rfl, rfl⟩

end Session

end SuiteView
