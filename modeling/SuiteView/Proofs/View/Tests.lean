import SuiteView.Proofs.View.Growth

/-!
# Tests below a member

The tests below a member can be asked of the plan, which lists its descendants, and of the tree, where
the subtree of a node is walked. Both walk the same forest: the tree answers with the mapped ones among
the members that the plan answers with, in the same order. In a view that has mapped everything the
two answers have the same length.
-/

namespace SuiteView

namespace View

variable {v : View} {name : Text} {p : Plan} {s : NodeStore}

/-! ### Asking the plan -/

/-- Where no id comes twice, leaving out what was seen leaves out nothing. -/
theorem unseenTests_eq_filter (is : List Identifier) (seen : List Text)
    (hnodup : (is.map (·.uniqueId)).Nodup) (hseen : ∀ i ∈ is, i.uniqueId ∉ seen) :
    unseenTests seen is = is.filter Identifier.isTest := by
  induction is generalizing seen with
  | nil => rfl
  | cons i is ih =>
    rw [List.map_cons, List.nodup_cons] at hnodup
    have hi : seen.contains i.uniqueId = false := by
      simpa using hseen i (List.mem_cons_self ..)
    have hrest : ∀ j ∈ is, j.uniqueId ∉ seen := fun j hj => hseen j (List.mem_cons_of_mem _ hj)
    have hrest' : ∀ j ∈ is, j.uniqueId ∉ i.uniqueId :: seen := by
      intro j hj hmem
      rcases List.mem_cons.mp hmem with he | hold
      · have hdup : i.uniqueId ∈ is.map (·.uniqueId) := he ▸ List.mem_map_of_mem hj
        exact hnodup.1 hdup
      · exact hrest j hj hold
    cases htest : i.isTest with
    | true =>
      rw [List.filter_cons_of_pos htest, unseenTests]
      simp only [htest, hi, Bool.not_false, Bool.and_self, if_true]
      rw [ih _ hnodup.2 hrest']
    | false =>
      have hnot : ¬ i.isTest = true := by simp [htest]
      rw [List.filter_cons_of_neg hnot, unseenTests]
      simp only [htest, Bool.false_and, Bool.false_eq_true, if_false]
      exact ih _ hnodup.2 hrest

theorem testsBelow_eq_filter (h : p.IsForest) (id : Text) :
    testsBelow p id = (p.descendants id).filter Identifier.isTest :=
  unseenTests_eq_filter _ [] (h.descendantIds_nodup id) fun _ _ => List.not_mem_nil

theorem testsBelow_ids_nodup (h : p.IsForest) (id : Text) :
    ((testsBelow p id).map (·.uniqueId)).Nodup := by
  have hsub : (testsBelow p id).Sublist (p.descendants id) := by
    rw [testsBelow_eq_filter h]
    exact List.filter_sublist
  exact (hsub.map _).nodup (h.descendantIds_nodup id)

/-! ### Asking the tree -/

namespace Mirrors

theorem isTest_node (h : v.Mirrors name p s) {id : Text} {n : NodeId} {i : Identifier}
    (hn : v.nodeFor? id = some n) (hi : p.get? id = some i) : s.isTest n = i.isTest := by
  obtain ⟨j, label, parent, hj, hlabel, -, -, hget⟩ := h.node id n hn
  obtain rfl : i = j := Option.some.inj (hi.symm.trans hj)
  have hsame : s.isTest n = label.isTest := by simp [NodeStore.isTest, hget]
  rw [hsame]
  cases hkind : i.kind with
  | container =>
    rw [i.label_container hkind hlabel]
    simp [Label.isTest, Identifier.isTest, hkind]
  | test =>
    obtain ⟨group, caseName, -, rfl⟩ := i.label_test hkind hlabel
    simp [Label.isTest, Identifier.isTest, hkind]

theorem isTest_root (h : v.Mirrors name p s) : s.isTest v.root = false := by
  simp [NodeStore.isTest, h.root_node, Label.isTest]

theorem stableIdOf?_node (h : v.Mirrors name p s) {id : Text} {n : NodeId}
    (hn : v.nodeFor? id = some n) : s.stableIdOf? n = some id := by
  obtain ⟨i, label, parent, -, -, -, -, hget⟩ := h.node id n hn
  simp [NodeStore.stableIdOf?, hget]

/- Node for node the tree agrees with the members that it stands for; members that are not mapped have
   no node, and the filter drops them on the other side. -/
theorem stableIds_tests (h : v.Mirrors name p s) (is : List Identifier)
    (his : ∀ i ∈ is, p.get? i.uniqueId = some i) :
    (((is.map (·.uniqueId)).filterMap v.nodeFor?).filter s.isTest).map s.stableIdOf? =
      (((is.filter Identifier.isTest).map (·.uniqueId)).filter v.mapped.contains).map some := by
  induction is with
  | nil => rfl
  | cons i is ih =>
    have hi := his i (List.mem_cons_self ..)
    have ih := ih fun j hj => his j (List.mem_cons_of_mem _ hj)
    cases hn : v.nodeFor? i.uniqueId with
    | none =>
      have hgone : v.mapped.contains i.uniqueId = false := by
        simpa [Table.contains, View.nodeFor?] using hn
      rw [List.map_cons, List.filterMap_cons_none hn, ih]
      cases htest : i.isTest with
      | true =>
        have hnot : ¬ v.mapped.contains i.uniqueId = true := by simp [hgone]
        rw [List.filter_cons_of_pos htest, List.map_cons, List.filter_cons_of_neg hnot]
      | false =>
        have hnot : ¬ i.isTest = true := by simp [htest]
        rw [List.filter_cons_of_neg hnot]
    | some n =>
      have hthere : v.mapped.contains i.uniqueId = true := by
        rw [Table.contains_iff, v.mem_keys_iff]
        exact ⟨n, hn⟩
      have hsame := h.isTest_node hn hi
      have hid := h.stableIdOf?_node hn
      rw [List.map_cons, List.filterMap_cons_some hn]
      cases htest : i.isTest with
      | true =>
        rw [htest] at hsame
        rw [List.filter_cons_of_pos htest, List.filter_cons_of_pos hsame, List.map_cons, List.map_cons,
          List.filter_cons_of_pos hthere, List.map_cons, ih, hid]
      | false =>
        have hnot : ¬ s.isTest n = true := by simp [hsame, htest]
        have hnot' : ¬ i.isTest = true := by simp [htest]
        rw [List.filter_cons_of_neg hnot, List.filter_cons_of_neg hnot', ih]

theorem stableIds_below (h : v.Mirrors name p s) (hf : p.IsForest) {id : Text} {n : NodeId}
    (hn : v.nodeFor? id = some n) :
    ((s.subtree n).filter fun m => m ≠ n && s.isTest m).map s.stableIdOf? =
      (((testsBelow p id).map (·.uniqueId)).filter v.mapped.contains).map some := by
  have hother : ∀ m ∈ (p.descendantIds id).filterMap v.nodeFor?, m ≠ n := by
    intro m hm he
    obtain ⟨x, hx, hxm⟩ := List.mem_filterMap.mp hm
    have hsame : x = id := h.nodeFor?_injective hxm (he ▸ hn)
    rw [hf.mem_descendantIds_iff, hsame] at hx
    exact hf.not_below_self id hx
  have hfilter : (s.subtree n).filter (fun m => m ≠ n && s.isTest m) =
      ((p.descendantIds id).filterMap v.nodeFor?).filter s.isTest := by
    rw [h.subtree_node hf hn, List.filter_cons_of_neg (by simp)]
    refine List.filter_congr fun m hm => ?_
    simp [hother m hm]
  rw [hfilter, testsBelow_eq_filter hf]
  exact h.stableIds_tests _ fun i hi => hf.get?_of_mem_descendants hi

end Mirrors

/-- The plan and the tree agree on the tests below every mapped member. -/
structure TestsAgree (v : View) (p : Plan) (s : NodeStore) : Prop where
  below : ∀ id n, v.nodeFor? id = some n →
    ((s.subtree n).filter fun m => m ≠ n && s.isTest m).map s.stableIdOf? =
      (((testsBelow p id).map (·.uniqueId)).filter v.mapped.contains).map some
  nodup : ∀ n, (∃ id, v.nodeFor? id = some n) →
    (((s.subtree n).filter fun m => m ≠ n && s.isTest m).map s.stableIdOf?).Nodup
  nothing_dropped : ∀ id, testsBelow p id = (p.descendants id).filter Identifier.isTest

theorem Mirrors.testsAgree (h : v.Mirrors name p s) (hf : p.IsForest) : v.TestsAgree p s where
  below id n hn := h.stableIds_below hf hn
  nodup n hn := by
    obtain ⟨id, hid⟩ := hn
    have hids := (testsBelow_ids_nodup hf id).filter v.mapped.contains
    rw [h.stableIds_below hf hid]
    exact hids.map fun _ _ => Option.some.inj
  nothing_dropped := testsBelow_eq_filter hf

/-! ### Counting -/

/-- The tests of the plan, counted in the tree: below every member and below the root. -/
structure TestsCounted (v : View) (p : Plan) (s : NodeStore) : Prop where
  below : ∀ id i, p.get? id = some i → ∃ n, v.nodeFor? id = some n ∧
    s.testCount n = (testsBelow p id).length + if i.isTest then 1 else 0
  total : s.testCount v.root = p.toList.countP Identifier.isTest

theorem Mirrors.countP_nodes (h : v.Mirrors name p s) (is : List Identifier)
    (his : ∀ i ∈ is, p.get? i.uniqueId = some i) (hall : ∀ id ∈ p.ids, id ∈ v.mapped.keys) :
    ((is.map (·.uniqueId)).filterMap v.nodeFor?).countP s.isTest = is.countP Identifier.isTest := by
  have hlength := congrArg List.length (h.stableIds_tests is his)
  have hkept : ((is.filter Identifier.isTest).map (·.uniqueId)).filter v.mapped.contains =
      (is.filter Identifier.isTest).map (·.uniqueId) := by
    refine List.filter_eq_self.mpr fun id hid => ?_
    obtain ⟨i, hi, rfl⟩ := List.mem_map.mp hid
    have hget := his i (List.mem_filter.mp hi).1
    have hmem : i.uniqueId ∈ p.ids := (p.members.mem_keys_iff _).mpr ⟨i, hget⟩
    rw [Table.contains_iff]
    exact hall _ hmem
  rw [hkept] at hlength
  simp only [List.length_map] at hlength
  rw [List.countP_eq_length_filter, List.countP_eq_length_filter, hlength]

theorem Mirrors.testsCounted (h : v.Mirrors name p s) (hf : p.IsForest)
    (hall : ∀ id ∈ p.ids, id ∈ v.mapped.keys) : v.TestsCounted p s where
  below id i hi := by
    obtain ⟨n, hn⟩ := (v.mem_keys_iff id).mp (hall id ((hf.mem_ids_iff id).mpr ⟨i, hi⟩))
    refine ⟨n, hn, ?_⟩
    have hbelow := h.countP_nodes (p.descendants id)
      (fun j hj => hf.get?_of_mem_descendants hj) hall
    have hself := h.isTest_node hn hi
    rw [NodeStore.testCount, h.subtree_node hf hn, List.countP_cons, hself, testsBelow_eq_filter hf,
      ← List.countP_eq_length_filter, ← hbelow]
    rfl
  total := by
    have hsub : p.preorderIds ⊆ p.ids := hf.preorderIds_subset
    have hget : ∀ i ∈ p.lookup p.preorderIds, p.get? i.uniqueId = some i := by
      intro i hi
      obtain ⟨id, -, hid⟩ := List.mem_filterMap.mp hi
      rw [hf.uniqueId_of_get? hid]
      exact hid
    have hcount := h.countP_nodes (p.lookup p.preorderIds) hget hall
    have hperm : (p.lookup p.preorderIds).Perm p.toList := by
      have hlookup := hf.preorderIds_perm.filterMap p.get?
      rw [← hf.lookup_ids_eq]
      exact hlookup
    rw [hf.lookup_ids hsub, hperm.countP_eq] at hcount
    have hroot : ¬ s.isTest v.root = true := by simp [h.isTest_root]
    rw [NodeStore.testCount, h.subtree_root hf, List.countP_cons_of_neg hroot, hcount]

end View

namespace Session

/-- However a session went, the plan and each of its views agree on the tests below every mapped
member. A view that all later members came in through, none of them without a usable location, counts
in its tree every test of the plan. -/
theorem run_tests :
    (∀ (s : NodeStore) (ops : List Op), ∀ v ∈ ((start s).run ops).views,
      v.TestsAgree ((start s).run ops).plan ((start s).run ops).nodes) ∧
    ∀ (is : List Identifier) (name : Text) (s : NodeStore) (calls : List (Identifier × Value)),
      (∀ i ∈ (Plan.empty.afterAdding is).toList, i.IsLocated) →
      (∀ call ∈ calls, call.1.IsLocated) →
      ∃ b, Bridge.create (Plan.empty.afterAdding is) s name = .ok b ∧
        (b.insertAll calls).view.TestsCounted (b.insertAll calls).plan (b.insertAll calls).nodes := by
  constructor
  · intro s ops v hv
    have hs := run_sound s ops
    obtain ⟨name, hm⟩ := hs.mirrors_of_mem hv
    exact hm.testsAgree hs.forest
  · intro is name s calls hplan hcalls
    have hf := Plan.isForest_afterAdding is
    obtain ⟨b, hb⟩ := Bridge.create_ok (fun i hi => i.label_ok (hplan i hi) _) s name
    have hgrown := (Bridge.Complete.create hf hplan hb).insertAll calls hcalls
    exact ⟨b, hb, hgrown.mirrors.testsCounted hgrown.forest hgrown.mapped⟩

/- In the second view the test `u` is mapped; `t` came behind its back, and `x` has no node. -/
theorem twoViews_tests :
    (∃ v ∈ ((start .empty).run twoViews).views,
      (View.testsBelow ((start .empty).run twoViews).plan [.char 'c']).map (·.uniqueId) =
        [[.char 't'], [.char 'x'], [.char 'u']] ∧
      ((((start .empty).run twoViews).nodes.subtree 3).filter fun m =>
          m ≠ 3 && ((start .empty).run twoViews).nodes.isTest m).map
        ((start .empty).run twoViews).nodes.stableIdOf? = [some [.char 'u']] ∧
      v.TestsAgree ((start .empty).run twoViews).plan ((start .empty).run twoViews).nodes) ∧
    ∃ b, Bridge.create (Plan.empty.afterAdding Bridge.twoSuites) .empty [.char 'r'] = .ok b ∧
      (b.insertAll Bridge.lateTests).view.TestsCounted (b.insertAll Bridge.lateTests).plan
        (b.insertAll Bridge.lateTests).nodes := by
  obtain ⟨hagree, hcounted⟩ := run_tests
  constructor
  · have hlast : ((start .empty).run twoViews).views[1]? =
        some ⟨2, [([.char 'c'], 3), ([.char 'u'], 4)]⟩ := rfl
    have hv := List.mem_of_getElem? hlast
    exact ⟨_, hv, rfl, rfl, hagree .empty twoViews _ hv⟩
  · have hplan : ∀ i ∈ (Plan.empty.afterAdding Bridge.twoSuites).toList, i.location = none := by
      decide
    have hcalls : ∀ call ∈ Bridge.lateTests, call.1.location = none := by decide
    exact hcounted Bridge.twoSuites [.char 'r'] .empty Bridge.lateTests
      (fun i hi => i.isLocated_of_none (hplan i hi))
      (fun call hcall => call.1.isLocated_of_none (hcalls call hcall))

end Session

end SuiteView
