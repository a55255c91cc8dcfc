import SuiteView.Proofs.Permanence
import SuiteView.Proofs.View.Arrival

/-!
# Leaves after an insertion

A filter answers for an old node as it did before, since the node keeps its label and its id, and a
filter for a node holds on to the keys it was made with. So an insertion changes the leaves of a filter
only if the filter selects the new node: then this node is a leaf, the last one, and the members above
it are leaves no longer.
-/

namespace SuiteView

namespace Bridge

variable {name : Text} {b b' : Bridge} {i : Identifier} {q : Text} {above : NodeId}

/-! ### Matches -/

theorem Inserted.sameFace (h : b.Inserted i q above b') (hm : b.view.Mirrors name b.plan b.nodes)
    {x : Text} {n : NodeId} (hn : b.view.nodeFor? x = some n) : b'.nodes.SameFace b.nodes n n := by
  obtain ⟨label, hnodes⟩ := h.nodes
  have hlt : above < b.nodes.size := hm.lt_size (u := .string q) h.under
  obtain ⟨node, hnode⟩ := hm.exists_node (hm.mem_owned (u := .string x) hn)
  rw [hnodes]
  exact (b.nodes.keeps_withChild hlt label (some i.uniqueId)).sameFace hnode

theorem Inserted.matches_old (h : b.Inserted i q above b') (hm : b.view.Mirrors name b.plan b.nodes)
    {holds holds' : NodeId → Bool}
    (hagree : ∀ x n, b.view.nodeFor? x = some n → holds' n = holds n) {x : Text}
    (hx : x ≠ i.uniqueId) : b'.view.Matches holds' x ↔ b.view.Matches holds x := by
  unfold View.Matches
  rw [h.nodeFor? hm, if_neg hx]
  refine exists_congr fun n => and_congr_right fun hn => ?_
  rw [hagree x n hn]

theorem Inserted.matches_new (h : b.Inserted i q above b') (hm : b.view.Mirrors name b.plan b.nodes)
    (holds' : NodeId → Bool) :
    b'.view.Matches holds' i.uniqueId ↔ holds' b.nodes.size = true := by
  unfold View.Matches
  rw [h.nodeFor? hm, if_pos rfl]
  constructor
  · rintro ⟨n, hn, hholds⟩
    exact Option.some.inj hn ▸ hholds
  · intro hholds
    exact ⟨b.nodes.size, rfl, hholds⟩

/-! ### Leaves -/

/-- An old leaf stays one unless the new member lies below it and matches. -/
theorem Inserted.isLeaf_old (h : b.Inserted i q above b') (hf : b.plan.IsForest)
    (hm : b.view.Mirrors name b.plan b.nodes) {holds holds' : NodeId → Bool}
    (hagree : ∀ x n, b.view.nodeFor? x = some n → holds' n = holds n) {id : Text}
    (hid : id ∈ b.view.mapped.keys) :
    (b'.view.Matches holds' id ∧ ∀ x, b'.plan.Below id x → ¬ b'.view.Matches holds' x) ↔
      (b.view.Matches holds id ∧ ∀ x, b.plan.Below id x → ¬ b.view.Matches holds x) ∧
        ¬ (b'.plan.Below id i.uniqueId ∧ holds' b.nodes.size = true) := by
  have hkept := Plan.kept_add h.plan
  have hself : id ≠ i.uniqueId := fun he => h.not_mapped hm (he ▸ hid)
  have hfree : ∀ x ∈ b.plan.ids, x ≠ i.uniqueId := fun x hx he => (Plan.add_cases h.plan).1 (he ▸ hx)
  rw [h.matches_old hm hagree hself]
  constructor
  · rintro ⟨hmatch, hbelow⟩
    refine ⟨⟨hmatch, fun x hx hxmatch => ?_⟩, fun hnew => ?_⟩
    · have hmem := (hf.below_mem hx).2.1
      apply hbelow x ((hf.below_kept_iff hkept hmem).mpr hx)
      exact (h.matches_old hm hagree (hfree x hmem)).mpr hxmatch
    · exact hbelow i.uniqueId hnew.1 ((h.matches_new hm holds').mpr hnew.2)
  · rintro ⟨⟨hmatch, hbelow⟩, hnew⟩
    refine ⟨hmatch, fun x hx hxmatch => ?_⟩
    by_cases he : x = i.uniqueId
    · subst he
      exact hnew ⟨hx, (h.matches_new hm holds').mp hxmatch⟩
    · rw [h.matches_old hm hagree he] at hxmatch
      have hmem : x ∈ b.plan.ids := by
        obtain ⟨n, hn, -⟩ := hxmatch
        exact hm.mem_ids ((b.view.mem_keys_iff x).mpr ⟨n, hn⟩)
      exact hbelow x ((hf.below_kept_iff hkept hmem).mp hx) hxmatch

open Classical in
theorem Inserted.leafIds (h : b.Inserted i q above b') (hf : b.plan.IsForest)
    (hm : b.view.Mirrors name b.plan b.nodes) (hm' : b'.view.Mirrors name b'.plan b'.nodes)
    {holds holds' : NodeId → Bool}
    (hagree : ∀ x n, b.view.nodeFor? x = some n → holds' n = holds n) :
    b'.view.leafIds b'.plan holds' =
      if holds' b.nodes.size then
        (b.view.leafIds b.plan holds).filter (fun id => ¬ b'.plan.Below id i.uniqueId) ++ [i.uniqueId]
      else b.view.leafIds b.plan holds := by
  -- nothing lies below the new member, so it is a leaf if it matches
  have hlast : decide (b'.view.Matches holds' i.uniqueId ∧
      ∀ x, b'.plan.Below i.uniqueId x → ¬ b'.view.Matches holds' x) = holds' b.nodes.size := by
    rw [Bool.eq_iff_iff, decide_eq_true_iff, h.matches_new hm]
    exact and_iff_left fun x hx => absurd hx (hf.not_below_added h.plan x)
  rw [hm'.leafIds_eq_filter (hf.add h.plan), h.keys, List.filter_append, List.filter_singleton, hlast,
    hm.leafIds_eq_filter hf]
  by_cases hholds : holds' b.nodes.size = true
  · rw [if_pos hholds, hholds, List.filter_filter]
    refine congrArg (· ++ [i.uniqueId]) (List.filter_congr fun id hid => ?_)
    rw [Bool.eq_iff_iff, Bool.and_eq_true, decide_eq_true_iff, decide_eq_true_iff, decide_eq_true_iff,
      h.isLeaf_old hf hm hagree hid, and_comm, and_iff_left hholds]
  · rw [if_neg hholds, Bool.eq_false_iff.mpr hholds, cond_false, List.append_nil]
    refine List.filter_congr fun id hid => ?_
    rw [Bool.eq_iff_iff, decide_eq_true_iff, decide_eq_true_iff, h.isLeaf_old hf hm hagree hid,
      and_iff_left fun hboth => hholds hboth.2]

open Classical in
/-- What becomes of the leaves of any filter. -/
structure LeavesFollow (b : Bridge) (i : Identifier) (b' : Bridge) (n : NodeId) : Prop where
  unselected : ∀ f : Filter, f.holds b'.nodes n = false →
    b'.view.leaves b'.plan (fun m => f.holds b'.nodes m) =
      b.view.leaves b.plan (fun m => f.holds b.nodes m)
  selected : ∀ f : Filter, f.holds b'.nodes n = true →
    b'.view.leaves b'.plan (fun m => f.holds b'.nodes m) =
      (b.view.leaves b.plan (fun m => f.holds b.nodes m)).filter
        (fun j => ¬ b'.plan.Below j.uniqueId i.uniqueId) ++ [i]

theorem Inserted.leavesFollow (h : b.Inserted i q above b') (hf : b.plan.IsForest)
    (hm : b.view.Mirrors name b.plan b.nodes) (hm' : b'.view.Mirrors name b'.plan b'.nodes) :
    b.LeavesFollow i b' b.nodes.size := by
  have hagree : ∀ (f : Filter) x n, b.view.nodeFor? x = some n → f.holds b'.nodes n = f.holds b.nodes n :=
    fun f _ _ hn => Filter.holds_of_sameNode (h.sameFace hm hn) f
  have hsub : ∀ f : Filter, b.view.leafIds b.plan (fun m => f.holds b.nodes m) ⊆ b.plan.ids :=
    fun _ => hm.leafIds_subset _
  constructor
  · intro f hholds
    have hids := h.leafIds hf hm hm' (hagree f)
    rw [hholds, if_neg Bool.false_ne_true] at hids
    rw [View.leaves, View.leaves, hids, Plan.lookup_add h.plan (hsub f)]
  · intro f hholds
    have hids := h.leafIds hf hm hm' (hagree f)
    rw [hholds, if_pos rfl] at hids
    rw [View.leaves, View.leaves, hids, Plan.lookup_append, Plan.lookup_added h.plan,
      Plan.lookup_add h.plan fun id hid => hsub f (List.mem_filter.mp hid).1, hf.lookup_filter]

end Bridge

namespace Session

/-- In every view of every session, a filter that does not select a node that is inserted keeps its
leaves, and one that selects it loses those above it and gains it at the end. -/
theorem run_leavesFollow (s : NodeStore) (ops : List Op) (v : View)
    (hv : v ∈ ((start s).run ops).views) (i : Identifier) (parent : Value) (b' : Bridge) (n : NodeId)
    (h : (((start s).run ops).bridge v).insertUnder i parent = (b', .ok n)) :
    (((start s).run ops).bridge v).LeavesFollow i b' n := by
  have hs := run_sound s ops
  obtain ⟨name, hm⟩ := hs.mirrors_of_mem hv
  obtain ⟨q, above, -, rfl, hinserted, hm'⟩ :=
    Bridge.insertUnder_ok (b := ((start s).run ops).bridge v) hs.forest hm h
  exact hinserted.leavesFollow hs.forest hm hm'

/- Of the leaves `b` and `c`, the first is above the new test, which comes behind the second. -/
theorem twoBranches_leavesFollow : ∃ v ∈ ((start .empty).run twoBranches).views, ∃ b' n,
    (((start .empty).run twoBranches).bridge v).insertUnder lateTest (.string [.char 'b']) =
      (b', .ok n) ∧
    (((start .empty).run twoBranches).bridge v).LeavesFollow lateTest b' n ∧
    ∃ f, f = Filter.any [.ofNode ((start .empty).run twoBranches).nodes 3,
        .negation (.ids [[.char 'a']])] ∧ f.holds b'.nodes n = true ∧
      (v.leafIds ((start .empty).run twoBranches).plan fun m =>
        f.holds ((start .empty).run twoBranches).nodes m) = [[.char 'b'], [.char 'c']] ∧
      (b'.view.leafIds b'.plan fun m => f.holds b'.nodes m) = [[.char 'c'], [.char 't']] := by
  have hlast : ((start .empty).run twoBranches).views[0]? =
      some ⟨0, [([.char 'a'], 1), ([.char 'b'], 2), ([.char 'c'], 3)]⟩ := rfl
  have hv := List.mem_of_getElem? hlast
  exact ⟨_, hv, _, _, rfl,
    run_leavesFollow .empty twoBranches _ hv lateTest (.string [.char 'b']) _ _ rfl,
    _, rfl, rfl, rfl, rfl⟩

end Session

end SuiteView
