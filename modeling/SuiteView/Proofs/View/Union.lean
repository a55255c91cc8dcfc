import SuiteView.Proofs.View.Leaves
import SuiteView.Proofs.View.Tests

/-!
# Leaves of a union

Leaves are not monotone: a match below a leaf of one predicate hides it in the union with another. But
nothing is lost by keeping the leaves alone, since below every match lies one of them: a predicate that
holds of the leaves of another, and of nothing that the other does not hold of, has the same leaves.
-/

namespace SuiteView

namespace View

variable {v : View} {name : Text} {p : Plan} {s : NodeStore}

theorem matches_or_iff (P Q : NodeId → Bool) (id : Text) :
    v.Matches (fun n => P n || Q n) id ↔ v.Matches P id ∨ v.Matches Q id := by
  unfold Matches
  simp only [Bool.or_eq_true, and_or_left, exists_or]

namespace Mirrors

theorem matches_ids_iff (h : v.Mirrors name p s) (wanted : List Text) (id : Text) :
    v.Matches (fun n => (Filter.ids wanted).holds s n) id ↔ id ∈ v.mapped.keys ∧ id ∈ wanted := by
  have hholds : ∀ n, v.nodeFor? id = some n →
      ((Filter.ids wanted).holds s n = true ↔ id ∈ wanted) := by
    intro n hn
    simp only [Filter.holds, h.stableIdOf?_node hn, List.contains_eq_mem, decide_eq_true_iff]
  rw [v.mem_keys_iff]
  constructor
  · rintro ⟨n, hn, hwanted⟩
    exact ⟨⟨n, hn⟩, (hholds n hn).mp hwanted⟩
  · rintro ⟨⟨n, hn⟩, hwanted⟩
    exact ⟨n, hn, (hholds n hn).mpr hwanted⟩

theorem leafIds_eq_of_between (h : v.Mirrors name p s) (hf : p.IsForest) {wide narrow : NodeId → Bool}
    (hsub : ∀ x, v.Matches narrow x → v.Matches wide x)
    (hleaf : ∀ x ∈ v.leafIds p wide, v.Matches narrow x) :
    v.leafIds p narrow = v.leafIds p wide := by
  classical
  rw [h.leafIds_eq_filter hf narrow, h.leafIds_eq_filter hf wide]
  refine List.filter_congr fun id _ => ?_
  rw [Bool.eq_iff_iff, decide_eq_true_iff, decide_eq_true_iff, ← h.mem_leafIds_iff hf wide]
  constructor
  · rintro ⟨hmatch, hbelow⟩
    -- were there a wider match further down, then also a leaf, which the narrow predicate selects
    rcases h.exists_leaf hf (hsub id hmatch) with hself | ⟨x, hx, hidx⟩
    · exact hself
    · exact absurd (hleaf x hx) (hbelow x hidx)
  · intro hid
    refine ⟨hleaf id hid, fun x hx hmatch => ?_⟩
    exact ((h.mem_leafIds_iff hf wide id).mp hid).2 x hx (hsub x hmatch)

theorem leaves_ids (h : v.Mirrors name p s) (hf : p.IsForest) (holds : NodeId → Bool)
    {wanted : List Text} (hmatch : ∀ x ∈ wanted, v.Matches holds x)
    (hleaf : v.leafIds p holds ⊆ wanted) :
    v.leaves p (fun n => (Filter.ids wanted).holds s n) = v.leaves p holds := by
  refine congrArg p.lookup (h.leafIds_eq_of_between hf ?_ ?_)
  · intro x hx
    exact hmatch x ((h.matches_ids_iff wanted x).mp hx).2
  · intro x hx
    exact (h.matches_ids_iff wanted x).mpr ⟨(v.leafIds_sublist p holds).subset hx, hleaf hx⟩

theorem leafIds_or_subset (h : v.Mirrors name p s) (hf : p.IsForest) (P Q : NodeId → Bool) :
    v.leafIds p (fun n => P n || Q n) ⊆ v.leafIds p P ++ v.leafIds p Q := by
  intro x hx
  obtain ⟨hmatch, hbelow⟩ := (h.mem_leafIds_iff hf _ x).mp hx
  have hnone : ∀ y, p.Below x y → ¬ v.Matches P y ∧ ¬ v.Matches Q y := by
    intro y hy
    rw [← not_or, ← matches_or_iff]
    exact hbelow y hy
  rw [List.mem_append, h.mem_leafIds_iff hf, h.mem_leafIds_iff hf]
  rcases (matches_or_iff P Q x).mp hmatch with hP | hQ
  · exact .inl ⟨hP, fun y hy => (hnone y hy).1⟩
  · exact .inr ⟨hQ, fun y hy => (hnone y hy).2⟩

end Mirrors

/-- The ids of the leaves stand for a predicate in every union. -/
structure LeavesSuffice (v : View) (p : Plan) (s : NodeStore) : Prop where
  union : ∀ P Q : NodeId → Bool, v.leaves p (fun n => P n || Q n) = v.leaves p fun n =>
    (Filter.ids ((v.leaves p P).map (·.uniqueId) ++ (v.leaves p Q).map (·.uniqueId))).holds s n
  any : ∀ f g : Filter, v.leaves p (fun n => (Filter.any [f, g]).holds s n) = v.leaves p fun n =>
    (Filter.ids ((v.leaves p fun m => f.holds s m).map (·.uniqueId) ++
      (v.leaves p fun m => g.holds s m).map (·.uniqueId))).holds s n
  idempotent : ∀ P : NodeId → Bool,
    v.leaves p (fun n => (Filter.ids ((v.leaves p P).map (·.uniqueId))).holds s n) = v.leaves p P

theorem Mirrors.leavesSuffice (h : v.Mirrors name p s) (hf : p.IsForest) : v.LeavesSuffice p s := by
  have hids : ∀ P, (v.leaves p P).map (·.uniqueId) = v.leafIds p P := fun P =>
    hf.lookup_ids (h.leafIds_subset P)
  have hleaf : ∀ P, ∀ x ∈ v.leafIds p P, v.Matches P x := fun P x hx =>
    ((h.mem_leafIds_iff hf P x).mp hx).1
  have hunion : ∀ P Q : NodeId → Bool, v.leaves p (fun n => P n || Q n) = v.leaves p fun n =>
      (Filter.ids ((v.leaves p P).map (·.uniqueId) ++
        (v.leaves p Q).map (·.uniqueId))).holds s n := by
    intro P Q
    rw [hids, hids]
    refine (h.leaves_ids hf _ (fun x hx => ?_) (h.leafIds_or_subset hf P Q)).symm
    rw [matches_or_iff]
    exact (List.mem_append.mp hx).imp (hleaf P x) (hleaf Q x)
  refine ⟨hunion, fun f g => ?_, fun P => ?_⟩
  · rw [← hunion]
    simp only [Filter.holds, Filter.holdAny, Bool.or_false]
  · rw [hids]
    exact h.leaves_ids hf P (hleaf P) fun _ hx => hx

end View

namespace Session

/-- In every view of every session, the leaves of a union are those of the ids of the leaves of its
parts. -/
theorem run_leavesSuffice (s : NodeStore) (ops : List Op) (v : View)
    (hv : v ∈ ((start s).run ops).views) :
    v.LeavesSuffice ((start s).run ops).plan ((start s).run ops).nodes := by
  have hs := run_sound s ops
  obtain ⟨name, hm⟩ := hs.mirrors_of_mem hv
  exact hm.leavesSuffice hs.forest

/- The suite `c` is a leaf among the suites, but not in the union with the tests, as `u` is below it. -/
theorem twoViews_leavesSuffice : ∃ v ∈ ((start .empty).run twoViews).views,
    v.LeavesSuffice ((start .empty).run twoViews).plan ((start .empty).run twoViews).nodes ∧
    ∃ isTest, isTest = ((start .empty).run twoViews).nodes.isTest ∧
      v.leafIds ((start .empty).run twoViews).plan (fun n => !isTest n) = [[.char 'c']] ∧
      v.leafIds ((start .empty).run twoViews).plan isTest = [[.char 'u']] ∧
      v.leafIds ((start .empty).run twoViews).plan (fun n => !isTest n || isTest n) =
        [[.char 'u']] := by
  have hlast : ((start .empty).run twoViews).views[1]? =
      some ⟨2, [([.char 'c'], 3), ([.char 'u'], 4)]⟩ := rfl
  have hv := List.mem_of_getElem? hlast
  exact ⟨_, hv, run_leavesSuffice .empty twoViews _ hv, _, rfl, rfl, rfl, rfl⟩

end Session

end SuiteView
