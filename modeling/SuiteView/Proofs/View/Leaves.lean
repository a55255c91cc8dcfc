import SuiteView.Proofs.Session

/-!
# The leaves among the matches

Of the mapped members whose nodes satisfy a predicate, those are listed that have no other below
them. Going down from a match, the place in the plan grows, so there is a last match on the way, and
no match is lost.
-/

namespace SuiteView

namespace View

variable {v : View} {name : Text} {p : Plan} {s : NodeStore}

/-- The member is mapped, and its node satisfies the predicate. -/
def Matches (v : View) (holds : NodeId → Bool) (id : Text) : Prop :=
  ∃ n, v.nodeFor? id = some n ∧ holds n = true

theorem matching_sublist (v : View) (holds : NodeId → Bool) :
    (v.matching holds).Sublist v.mapped.keys :=
  List.filter_sublist.map Prod.fst

theorem leafIds_sublist (v : View) (p : Plan) (holds : NodeId → Bool) :
    (v.leafIds p holds).Sublist v.mapped.keys :=
  List.filter_sublist.trans (v.matching_sublist holds)

namespace Mirrors

theorem mem_matching_iff (h : v.Mirrors name p s) (holds : NodeId → Bool) (id : Text) :
    id ∈ v.matching holds ↔ v.Matches holds id := by
  simp only [matching, Table.keys, List.mem_map, List.mem_filter]
  constructor
  · rintro ⟨⟨x, n⟩, ⟨hx, hn⟩, rfl⟩
    exact ⟨n, Table.get?_of_mem h.keys_nodup hx, hn⟩
  · rintro ⟨n, hid, hn⟩
    exact ⟨(id, n), ⟨Table.mem_of_get? hid, hn⟩, rfl⟩

theorem matching_eq_filter (h : v.Mirrors name p s) (holds : NodeId → Bool) :
    v.matching holds = v.mapped.keys.filter fun id => (v.nodeFor? id).any holds := by
  rw [matching, Table.keys, Table.keys, List.filter_map]
  refine congrArg (List.map Prod.fst) (List.filter_congr fun entry hentry => ?_)
  obtain ⟨id, n⟩ := entry
  have hn : v.nodeFor? id = some n := Table.get?_of_mem h.keys_nodup hentry
  simp [hn]

theorem mem_leafIds_iff (h : v.Mirrors name p s) (hf : p.IsForest) (holds : NodeId → Bool)
    (id : Text) : id ∈ v.leafIds p holds ↔
      v.Matches holds id ∧ ∀ x, p.Below id x → ¬ v.Matches holds x := by
  simp only [leafIds, List.mem_filter, List.all_eq_true, Bool.not_eq_true', List.contains_eq_mem,
    decide_eq_false_iff_not, h.mem_matching_iff, hf.mem_descendantIds_iff]

open Classical in
/-- The leaves are what a filter of the mapped ids leaves over, which keeps their order. -/
theorem leafIds_eq_filter (h : v.Mirrors name p s) (hf : p.IsForest) (holds : NodeId → Bool) :
    v.leafIds p holds = v.mapped.keys.filter fun id =>
      v.Matches holds id ∧ ∀ x, p.Below id x → ¬ v.Matches holds x := by
  have hmem := h.mem_leafIds_iff hf holds
  rw [leafIds, h.matching_eq_filter, List.filter_filter] at hmem ⊢
  refine List.filter_congr fun id hid => ?_
  rw [Bool.eq_iff_iff, decide_eq_true_iff, ← hmem id, List.mem_filter]
  exact (and_iff_right hid).symm

theorem leafIds_subset (h : v.Mirrors name p s) (holds : NodeId → Bool) :
    v.leafIds p holds ⊆ p.ids := fun _ hid => h.mem_ids ((v.leafIds_sublist p holds).subset hid)

/-- A match is a leaf, or it has one below it. -/
theorem exists_leaf (h : v.Mirrors name p s) (hf : p.IsForest) {holds : NodeId → Bool} {id : Text}
    (hid : v.Matches holds id) :
    id ∈ v.leafIds p holds ∨ ∃ x ∈ v.leafIds p holds, p.Below id x := by
  -- a match below lies further behind in the plan, where fewer members are left
  induction hn : p.ids.length - p.ids.idxOf id using Nat.strongRecOn generalizing id with
  | ind n ih =>
    by_cases hmore : ∃ x, p.Below id x ∧ v.Matches holds x
    · obtain ⟨x, hx, hmatch⟩ := hmore
      obtain ⟨-, hmem, hlt⟩ := hf.below_mem hx
      have hlast := List.idxOf_lt_length_of_mem hmem
      rcases ih _ (by omega) hmatch rfl with hleaf | ⟨y, hy, hxy⟩
      · exact .inr ⟨x, hleaf, hx⟩
      · exact .inr ⟨y, hy, Relation.TransGen.trans hx hxy⟩
    · refine .inl ((h.mem_leafIds_iff hf holds id).mpr ⟨hid, ?_⟩)
      intro x hx hmatch
      exact hmore ⟨x, hx, hmatch⟩

end Mirrors

/-- The leaves are, in the order of mapping, the members of exactly the matches without a match below
them; none is missing from the plan, none comes twice, none lies below another, and every match is
one or has one below it. -/
structure LeavesExact (v : View) (p : Plan) (holds : NodeId → Bool) : Prop where
  in_order : ((v.leaves p holds).map (·.uniqueId)).Sublist v.mapped.keys
  mem_iff : ∀ id, id ∈ (v.leaves p holds).map (·.uniqueId) ↔
    v.Matches holds id ∧ ∀ x, p.Below id x → ¬ v.Matches holds x
  all_found : (v.leafIds p holds).map p.get? = (v.leaves p holds).map some
  nodup : ((v.leaves p holds).map (·.uniqueId)).Nodup
  not_below : ∀ i ∈ v.leaves p holds, ∀ j ∈ v.leaves p holds, ¬ p.Below i.uniqueId j.uniqueId
  covered : ∀ id, v.Matches holds id → ∃ i ∈ v.leaves p holds,
    i.uniqueId = id ∨ p.Below id i.uniqueId
  empty_iff : v.leaves p holds = [] ↔ ∀ id, ¬ v.Matches holds id

theorem Mirrors.leavesExact (h : v.Mirrors name p s) (hf : p.IsForest) (holds : NodeId → Bool) :
    v.LeavesExact p holds := by
  have hids : (v.leaves p holds).map (·.uniqueId) = v.leafIds p holds :=
    hf.lookup_ids (h.leafIds_subset holds)
  have hmem : ∀ i ∈ v.leaves p holds, i.uniqueId ∈ v.leafIds p holds := by
    intro i hi
    rw [← hids]
    exact List.mem_map_of_mem hi
  have hcovered : ∀ id, v.Matches holds id → ∃ i ∈ v.leaves p holds,
      i.uniqueId = id ∨ p.Below id i.uniqueId := by
    intro id hid
    have hleaf := h.exists_leaf hf hid
    rw [← hids] at hleaf
    rcases hleaf with hself | ⟨x, hx, hbelow⟩
    · obtain ⟨i, hi, rfl⟩ := List.mem_map.mp hself
      exact ⟨i, hi, .inl rfl⟩
    · obtain ⟨i, hi, rfl⟩ := List.mem_map.mp hx
      exact ⟨i, hi, .inr hbelow⟩
  refine ⟨?_, ?_, ?_, ?_, ?_, hcovered, ?_⟩
  · rw [hids]
    exact v.leafIds_sublist p holds
  · intro id
    rw [hids]
    exact h.mem_leafIds_iff hf holds id
  · exact (hf.map_some_lookup (h.leafIds_subset holds)).symm
  · rw [hids]
    exact (v.leafIds_sublist p holds).nodup h.keys_nodup
  · intro i hi j hj hbelow
    have hleaf := (h.mem_leafIds_iff hf holds _).mp (hmem i hi)
    exact hleaf.2 _ hbelow ((h.mem_leafIds_iff hf holds _).mp (hmem j hj)).1
  · constructor
    · intro hempty id hid
      obtain ⟨i, hi, -⟩ := hcovered id hid
      rw [hempty] at hi
      cases hi
    · intro hnone
      rw [List.eq_nil_iff_forall_not_mem]
      intro i hi
      exact hnone _ ((h.mem_leafIds_iff hf holds _).mp (hmem i hi)).1

end View

namespace Session

/-- However a session went, the leaves of any predicate in any of its views are exact. -/
theorem run_leaves (s : NodeStore) (ops : List Op) (v : View)
    (hv : v ∈ ((start s).run ops).views) (holds : NodeId → Bool) :
    v.LeavesExact ((start s).run ops).plan holds := by
  have hs := run_sound s ops
  obtain ⟨name, hm⟩ := hs.mirrors_of_mem hv
  exact hm.leavesExact hs.forest holds

theorem twoViews_leaves : ∃ v ∈ ((start .empty).run twoViews).views,
    (v.leaves ((start .empty).run twoViews).plan fun _ => true).map (·.uniqueId) = [[.char 'u']] ∧
    v.LeavesExact ((start .empty).run twoViews).plan fun _ => true := by
  have hlast : ((start .empty).run twoViews).views[1]? =
      some ⟨2, [([.char 'c'], 3), ([.char 'u'], 4)]⟩ := rfl
  have hv := List.mem_of_getElem? hlast
  exact ⟨_, hv, rfl, run_leaves .empty twoViews _ hv fun _ => true⟩

end Session

end SuiteView
