import SuiteView.Proofs.Plan.Arrival
import SuiteView.Proofs.View.Tests

/-!
# Where a late member arrives

An insertion that succeeds makes the member the last child of its parent, in the plan and in the tree.
Every walk that meets the parent lists the member once more than before, right behind all that lay below
the parent, and the tests among it likewise. Walks that do not meet the parent stay as they are.
-/

namespace SuiteView

namespace View

variable {p p' : Plan} {i : Identifier}

theorem testsBelow_congr (h : p.IsForest) (h' : p'.IsForest) {x : Text}
    (hsame : p'.descendants x = p.descendants x) : testsBelow p' x = testsBelow p x := by
  rw [testsBelow_eq_filter h, testsBelow_eq_filter h', hsame]

/-- What lies below an id, cut in two behind a branch: the member goes in between, and if it is a test,
between the tests of the two parts. -/
structure GoesBetween (p p' : Plan) (i : Identifier) (x : Text) (front back : List Identifier) :
    Prop where
  before : p.descendants x = front ++ back
  after : p'.descendants x = front ++ i :: back
  tests_before : testsBelow p x = front.filter Identifier.isTest ++ back.filter Identifier.isTest
  tests_after : testsBelow p' x = front.filter Identifier.isTest ++
    (if i.isTest then [i] else []) ++ back.filter Identifier.isTest

theorem goesBetween (h : p.IsForest) (ha : p.add i = .ok p') {x : Text} {front back : List Identifier}
    (hold : p.descendants x = front ++ back) (hnew : p'.descendants x = front ++ i :: back) :
    GoesBetween p p' i x front back where
  before := hold
  after := hnew
  tests_before := by rw [testsBelow_eq_filter h, hold, List.filter_append]
  tests_after := by
    rw [testsBelow_eq_filter (h.add ha), hnew, ← List.singleton_append, ← List.append_assoc,
      List.filter_append, List.filter_append, List.filter_singleton, Bool.cond_eq_ite]

end View

namespace Bridge

variable {name : Text} {b b' : Bridge} {i : Identifier} {q : Text} {above n : NodeId}

/-! ### In the tree -/

/-- The node of the member is the last child of a node, and no other node has changed. -/
structure HangsLast (b b' : Bridge) (above n : NodeId) : Prop where
  children : b'.nodes.childrenOf above = b.nodes.childrenOf above ++ [n]
  parent : b'.nodes.parentOf? n = some above
  fresh : n = b.nodes.size
  others : ∀ m, m < b.nodes.size → m ≠ above → b'.nodes.get? m = b.nodes.get? m

theorem Inserted.hangsLast (h : b.Inserted i q above b') (hm : b.view.Mirrors name b.plan b.nodes) :
    b.HangsLast b' above b.nodes.size := by
  obtain ⟨label, hnodes⟩ := h.nodes
  have hlt : above < b.nodes.size := hm.lt_size (u := .string q) h.under
  have hnew := b.nodes.get?_withChild_new hlt label (some i.uniqueId)
  have hold := b.nodes.get?_withChild_old hlt hlt label (some i.uniqueId)
  obtain ⟨j, l, up, -, -, -, -, hget⟩ := hm.node q above h.under
  rw [hget] at hold
  refine ⟨?_, ?_, rfl, ?_⟩
  · unfold NodeStore.childrenOf
    rw [hnodes, hold, hget]
    simp
  · unfold NodeStore.parentOf?
    rw [hnodes, hnew]
    rfl
  · intro m hmlt hne
    rw [hnodes]
    exact b.nodes.get?_withChild_of_ne hlt hmlt hne label _

/-! ### In every walk -/

/-- Where a late member stands: last below its parent, behind the branch of its parent below everything
above that, and nowhere else. -/
structure Arrives (b : Bridge) (i : Identifier) (q : Text) (b' : Bridge) (n : NodeId) : Prop where
  last_child : b'.plan.children q = b.plan.children q ++ [i]
  last_node : ∃ above, b.view.nodeFor? q = some above ∧ b'.view.nodeFor? q = some above ∧
    b'.view.nodeFor? i.uniqueId = some n ∧ b.HangsLast b' above n
  below_parent : View.GoesBetween b.plan b'.plan i q (b.plan.descendants q) []
  below_above : ∀ a, b.plan.Below a q → ∃ front j back, b.plan.get? q = some j ∧
    View.GoesBetween b.plan b'.plan i a (front ++ j :: b.plan.descendants q) back
  below_other : ∀ x, x ≠ q → ¬ b.plan.Below x q →
    b'.plan.descendants x = b.plan.descendants x ∧
      View.testsBelow b'.plan x = View.testsBelow b.plan x
  below_new : b'.plan.descendants i.uniqueId = []
  other_children : ∀ x, x ≠ q → b'.plan.children x = b.plan.children x
  roots : b'.plan.roots = b.plan.roots
  parent : b'.plan.parent? i.uniqueId = b.plan.get? q
  other_parents : ∀ x, x ≠ i.uniqueId → b'.plan.parent? x = b.plan.parent? x

theorem Inserted.arrives (h : b.Inserted i q above b') (hf : b.plan.IsForest)
    (hm : b.view.Mirrors name b.plan b.nodes) : b.Arrives i q b' b.nodes.size := by
  have hq : q ∈ b.plan.ids := hm.mem_ids ((b.view.mem_keys_iff q).mpr ⟨above, h.under⟩)
  have hf' := hf.add h.plan
  refine ⟨?_, ⟨above, h.under, ?_, ?_, h.hangsLast hm⟩, ?_, ?_, ?_, ?_, ?_, ?_, ?_, ?_⟩
  · rw [hf.children_add h.plan, if_pos h.parent]
  · have hne : q ≠ i.uniqueId := fun he => (Plan.add_cases h.plan).1 (he ▸ hq)
    rw [h.nodeFor? hm, if_neg hne, h.under]
  · rw [h.nodeFor? hm, if_pos rfl]
  · apply View.goesBetween hf h.plan
    · rw [List.append_nil]
    · exact hf.descendants_parent h.plan h.parent
  · intro a haq
    obtain ⟨front, j, back, hj, hold, hnew⟩ := hf.descendants_ancestor h.plan h.parent haq
    exact ⟨front, j, back, hj, View.goesBetween hf h.plan hold hnew⟩
  · intro x hne hx
    have hreach : ¬ Relation.ReflTransGen b.plan.ParentOf x q := by
      intro hreach
      rcases Relation.reflTransGen_iff_eq_or_transGen.mp hreach with he | hbelow
      · exact hne he.symm
      · exact hx hbelow
    have hsame := hf.descendants_elsewhere h.plan hq h.parent hreach
    exact ⟨hsame, View.testsBelow_congr hf hf' hsame⟩
  · exact hf.descendants_added h.plan
  · intro x hne
    have hother : ¬ i.parent = .string x := by
      rw [h.parent]
      exact fun he => hne (Value.string.inj he).symm
    rw [hf.children_add h.plan, if_neg hother, List.append_nil]
  · exact hf.roots_addChild h.plan h.parent
  · exact Plan.parent?_added h.plan hq h.parent
  · intro x hx
    exact hf.parent?_add_of_ne h.plan hx

end Bridge

namespace Session

/-- In every view of every session, a member that is inserted arrives in one place of the plan, of the
tree and of every walk, and all else stays where it was. -/
theorem run_arrives (s : NodeStore) (ops : List Op) (v : View)
    (hv : v ∈ ((start s).run ops).views) (i : Identifier) (parent : Value) (b' : Bridge) (n : NodeId)
    (h : (((start s).run ops).bridge v).insertUnder i parent = (b', .ok n)) :
    ∃ q, parent = .string q ∧ (((start s).run ops).bridge v).Arrives i q b' n := by
  have hs := run_sound s ops
  obtain ⟨name, hm⟩ := hs.mirrors_of_mem hv
  obtain ⟨q, above, hq, rfl, hinserted, -⟩ :=
    Bridge.insertUnder_ok (b := ((start s).run ops).bridge v) hs.forest hm h
  exact ⟨q, hq, hinserted.arrives hs.forest hm⟩

/-- A suite with two suites in it, and a view on them. -/
def twoBranches : List Op :=
  [.add ⟨[.char 'a'], [.char 'A'], .container, none, .null⟩,
   .add ⟨[.char 'b'], [.char 'B'], .container, none, .string [.char 'a']⟩,
   .add ⟨[.char 'c'], [.char 'C'], .container, none, .string [.char 'a']⟩,
   .openView [.char 'r']]

def lateTest : Identifier := ⟨[.char 't'], [.char 'T'], .test, none, .string [.char 'b']⟩

/- Below `a` the test comes between the two suites. -/
theorem twoBranches_arrives : ∃ v ∈ ((start .empty).run twoBranches).views, ∃ b' n,
    (((start .empty).run twoBranches).bridge v).insertUnder lateTest (.string [.char 'b']) =
      (b', .ok n) ∧
    ((start .empty).run twoBranches).plan.descendantIds [.char 'a'] = [[.char 'b'], [.char 'c']] ∧
    b'.plan.descendantIds [.char 'a'] = [[.char 'b'], [.char 't'], [.char 'c']] ∧
    ∃ q, .string [.char 'b'] = Value.string q ∧
      (((start .empty).run twoBranches).bridge v).Arrives lateTest q b' n := by
  have hlast : ((start .empty).run twoBranches).views[0]? =
      some ⟨0, [([.char 'a'], 1), ([.char 'b'], 2), ([.char 'c'], 3)]⟩ := rfl
  have hv := List.mem_of_getElem? hlast
  exact ⟨_, hv, _, _, rfl, rfl, rfl, run_arrives .empty twoBranches _ hv lateTest _ _ _ rfl⟩

end Session

end SuiteView
