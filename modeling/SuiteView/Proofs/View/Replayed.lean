import SuiteView.Proofs.View.Tests
import SuiteView.View.Replay

/-!
# Orders behind a replay

A view maps the members in the pre-order of the plan that it was opened on. Every late entry that is
replayed afterwards comes last, in the plan and in the mapping alike. So the two orders differ by no
more than the plan differed from its pre-order, and the tests that a filter finds come in the order of
the mapping.
-/

namespace SuiteView

namespace Bridge

variable {name : Text} {b b' : Bridge}

/-- An insertion that succeeds puts the member last, in the plan and in the mapping. -/
theorem insert_grows (hf : b.plan.IsForest) (hm : b.view.Mirrors name b.plan b.nodes)
    {i : Identifier} {q : Text} {n : NodeId} (h : b.insert i q = (b', .ok n)) :
    b.plan.add i = .ok b'.plan ∧ b'.view.mapped.keys = b.view.mapped.keys ++ [i.uniqueId] ∧
      b'.view.Mirrors name b'.plan b'.nodes := by
  have hinsert : b.insertUnder i (.string q) = (b', .ok n) := h
  obtain ⟨q', above, -, -, hinserted, hm'⟩ := insertUnder_ok hf hm hinsert
  exact ⟨hinserted.plan, hinserted.keys, hm'⟩

/-- The late members come last in the plan and in the mapping, in the order in which they were
replayed. -/
structure Replayed (name : Text) (b b' : Bridge) (late : List (Identifier × Text)) : Prop where
  forest : b'.plan.IsForest
  mirrors : b'.view.Mirrors name b'.plan b'.nodes
  toList : b'.plan.toList = b.plan.toList ++ late.map Prod.fst
  ids : b'.plan.ids = b.plan.ids ++ late.map fun entry => entry.1.uniqueId
  keys : b'.view.mapped.keys = b.view.mapped.keys ++ late.map fun entry => entry.1.uniqueId

theorem replay_ok (hf : b.plan.IsForest) (hm : b.view.Mirrors name b.plan b.nodes)
    {reads : List (Except Manifest.Error (Identifier × Text))}
    (h : b.replay reads = (b', .ok ())) :
    ∃ late : List (Identifier × Text), reads = late.map .ok ∧ Replayed name b b' late := by
  induction reads generalizing b with
  | nil =>
    obtain rfl : b = b' := (Prod.mk.inj h).1
    exact ⟨[], rfl, hf, hm, (List.append_nil _).symm, (List.append_nil _).symm,
      (List.append_nil _).symm⟩
  | cons read rest ih =>
    cases read with
    | error cause => cases (Prod.mk.inj h).2
    | ok entry =>
      obtain ⟨i, q⟩ := entry
      rw [replay] at h
      cases hinsert : b.insert i q with
      | mk b₁ result =>
        rw [hinsert] at h
        cases result with
        | error cause => cases (Prod.mk.inj h).2
        | ok n =>
          obtain ⟨ha, hkeys, hm₁⟩ := insert_grows hf hm hinsert
          obtain ⟨late, rfl, hlate⟩ := ih (hf.add ha) hm₁ h
          refine ⟨(i, q) :: late, rfl, hlate.forest, hlate.mirrors, ?_, ?_, ?_⟩
          · rw [hlate.toList, Plan.toList_add ha]
            simp
          · rw [hlate.ids, Plan.ids_add ha]
            simp
          · rw [hlate.keys, hkeys]
            simp

end Bridge

namespace View

variable {v : View} {name : Text} {p : Plan} {s : NodeStore}

/-! ### Listing all tests -/

/-- No test of the plan has a test below it. -/
def TestsAreLeaves (p : Plan) : Prop :=
  ∀ i ∈ p.toList, i.isTest = true → testsBelow p i.uniqueId = []

theorem TestsAreLeaves.not_below (h : TestsAreLeaves p) (hf : p.IsForest) {i j : Identifier}
    (hi : i ∈ p.toList) (hj : j ∈ p.toList) (hitest : i.isTest = true) (hjtest : j.isTest = true) :
    ¬ p.Below i.uniqueId j.uniqueId := by
  intro hbelow
  have hnone := h i hi hitest
  rw [testsBelow_eq_filter hf, List.filter_eq_nil_iff] at hnone
  rw [← hf.mem_descendantIds_iff] at hbelow
  obtain ⟨k, hk, hid⟩ := List.mem_map.mp hbelow
  have hsame : k = j := by
    have hget := hf.get?_of_mem_descendants hk
    rw [hid, hf.get?_uniqueId hj] at hget
    exact (Option.some.inj hget).symm
  exact hnone k hk (hsame ▸ hjtest)

theorem Mirrors.matches_isTest_iff (h : v.Mirrors name p s) {holds : NodeId → Bool}
    (hholds : ∀ n, holds n = s.isTest n) (id : Text) :
    v.Matches holds id ↔ id ∈ v.mapped.keys ∧ ∃ i, p.get? id = some i ∧ i.isTest = true := by
  constructor
  · intro hmatch
    obtain ⟨n, hn, htest⟩ := hmatch
    obtain ⟨i, -, -, hi, -⟩ := h.node id n hn
    rw [hholds, h.isTest_node hn hi] at htest
    exact ⟨(v.mem_keys_iff id).mpr ⟨n, hn⟩, i, hi, htest⟩
  · intro hmapped
    obtain ⟨hid, i, hi, htest⟩ := hmapped
    obtain ⟨n, hn⟩ := (v.mem_keys_iff id).mp hid
    refine ⟨n, hn, ?_⟩
    rw [hholds, h.isTest_node hn hi, htest]

/-- Where no test lies below another, the tests are their own leaves. -/
theorem Mirrors.leafIds_isTest (h : v.Mirrors name p s) (hf : p.IsForest)
    (hleaves : TestsAreLeaves p) {holds : NodeId → Bool} (hholds : ∀ n, holds n = s.isTest n) :
    v.leafIds p holds = v.mapped.keys.filter fun id => (p.get? id).any Identifier.isTest := by
  have hmatching : v.matching holds =
      v.mapped.keys.filter fun id => (p.get? id).any Identifier.isTest := by
    rw [h.matching_eq_filter]
    refine List.filter_congr fun id hid => ?_
    obtain ⟨n, hn⟩ := (v.mem_keys_iff id).mp hid
    obtain ⟨i, -, -, hi, -⟩ := h.node id n hn
    rw [hn, hi, Option.any_some, Option.any_some, hholds, h.isTest_node hn hi]
  rw [← hmatching, leafIds]
  refine List.filter_eq_self.mpr fun id hid => ?_
  rw [h.mem_matching_iff, h.matches_isTest_iff hholds] at hid
  obtain ⟨-, i, hi, htest⟩ := hid
  simp only [List.all_eq_true, Bool.not_eq_true', List.contains_eq_mem, decide_eq_false_iff_not,
    h.mem_matching_iff, h.matches_isTest_iff hholds, hf.mem_descendantIds_iff]
  intro x hbelow hmatch
  obtain ⟨-, j, hj, htest'⟩ := hmatch
  rw [← hf.uniqueId_of_get? hi, ← hf.uniqueId_of_get? hj] at hbelow
  exact hleaves.not_below hf (hf.mem_of_get? hi) (hf.mem_of_get? hj) htest htest' hbelow

theorem Mirrors.leaves_isTest (h : v.Mirrors name p s) (hf : p.IsForest)
    (hleaves : TestsAreLeaves p) {holds : NodeId → Bool} (hholds : ∀ n, holds n = s.isTest n) :
    v.leaves p holds = (p.lookup v.mapped.keys).filter Identifier.isTest := by
  rw [leaves, h.leafIds_isTest hf hleaves hholds, Plan.lookup, Plan.lookup, List.filter_filterMap,
    List.filterMap_filter]
  refine List.filterMap_congr fun id _ => ?_
  cases p.get? id <;> simp [Option.filter]

end View

end SuiteView
