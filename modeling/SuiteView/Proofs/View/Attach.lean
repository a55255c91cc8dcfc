import SuiteView.Proofs.View.Mirror

/-!
# Steps that keep a mirror

A mirror survives an addition to the plan, any change of the store outside its own nodes, and the
attaching of a member whose parent is mapped and whose later siblings are not.
-/

namespace SuiteView

namespace View.Mirrors

variable {v : View} {name : Text} {p : Plan} {s : NodeStore}

theorem nodesUnder_congr {v' : View} {p' : Plan} {u : Value}
    (h : p'.idsUnder u = p.idsUnder u) (hv : ∀ id ∈ p.idsUnder u, v'.nodeFor? id = v.nodeFor? id) :
    v'.nodesUnder p' u = v.nodesUnder p u := by
  unfold View.nodesUnder
  rw [h]
  exact List.filterMap_congr hv

theorem nodesUnder_add (h : v.Mirrors name p s) {p' : Plan} {i : Identifier}
    (ha : p.add i = .ok p') (u : Value) : v.nodesUnder p' u = v.nodesUnder p u := by
  have hfree : v.nodeFor? i.uniqueId = none :=
    (v.nodeFor?_eq_none_iff _).mpr fun hmem => (Plan.add_cases ha).1 (h.mem_ids hmem)
  unfold View.nodesUnder
  rw [Plan.idsUnder_add ha, List.filterMap_append]
  by_cases hu : i.parent = u
  · simp [hu, hfree]
  · simp [hu]

/-- The new member is not mapped, so what is shown stays as it is. -/
theorem of_add (h : v.Mirrors name p s) (hp : p.IsForest) {p' : Plan} {i : Identifier}
    (ha : p.add i = .ok p') : v.Mirrors name p' s where
  keys_nodup := h.keys_nodup
  owned_nodup := h.owned_nodup
  root_node := by
    rw [h.nodesUnder_add ha]
    exact h.root_node
  node id n hn := by
    obtain ⟨j, label, parent, hj, hlabel, hparent, hlt, hget⟩ := h.node id n hn
    refine ⟨j, label, parent, Plan.get?_add_of_mem ha hj, ?_, hparent, hlt, ?_⟩
    · have hid := hp.uniqueId_of_get? hj
      rwa [Identifier.label_congr (p := p)]
      exact hp.parent?_add ha (hid ▸ hj)
    · rw [h.nodesUnder_add ha]
      exact hget

theorem of_frame (h : v.Mirrors name p s) {s' : NodeStore}
    (hs : ∀ n ∈ v.owned, s'.get? n = s.get? n) : v.Mirrors name p s' where
  keys_nodup := h.keys_nodup
  owned_nodup := h.owned_nodup
  root_node := by
    rw [hs _ (h.mem_owned (u := .null) rfl)]
    exact h.root_node
  node id n hn := by
    rw [hs n (h.mem_owned (u := .string id) hn)]
    exact h.node id n hn

end View.Mirrors

/-! ### Attaching -/

/-- A member may be attached: it is not mapped, and neither is any sibling behind it. -/
structure View.Awaits (v : View) (p : Plan) (parent : Value) (ids : List Text) : Prop where
  is_tail : ∃ done, p.idsUnder parent = done ++ ids
  not_mapped : ∀ id ∈ ids, id ∉ v.mapped.keys

namespace View.Mirrors

variable {v : View} {name : Text} {p : Plan} {s : NodeStore}

theorem nodesUnder_mapLast (_ : v.Mirrors name p s) (hp : p.IsForest) {i : Identifier} {id : Text}
    {later : List Text} (hi : p.get? id = some i) (hw : v.Awaits p i.parent (id :: later))
    (n : NodeId) (u : Value) :
    (v.mapLast id n).nodesUnder p u = v.nodesUnder p u ++ if u = i.parent then [n] else [] := by
  have hfree : id ∉ v.mapped.keys := hw.not_mapped id (List.mem_cons_self ..)
  have hold : ∀ x, x ≠ id → (v.mapLast id n).nodeFor? x = v.nodeFor? x := by
    intro x hx
    rw [nodeFor?_mapLast hfree, if_neg hx]
  by_cases hu : u = i.parent
  · subst hu
    obtain ⟨done, hdone⟩ := hw.is_tail
    have hnodup := hp.idsUnder_nodup i.parent
    rw [hdone] at hnodup
    have hne := (List.nodup_append.mp hnodup).2.2
    have hlater : later.filterMap v.nodeFor? = [] := by
      rw [List.filterMap_eq_nil_iff]
      intro x hx
      exact (v.nodeFor?_eq_none_iff x).mpr (hw.not_mapped x (List.mem_cons_of_mem _ hx))
    have hlater' : later.filterMap (v.mapLast id n).nodeFor? = [] := by
      rw [List.filterMap_congr fun x hx => hold x ?_, hlater]
      rintro rfl
      exact (List.nodup_cons.mp (List.nodup_append.mp hnodup).2.1).1 hx
    have hdone' : done.filterMap (v.mapLast id n).nodeFor? = done.filterMap v.nodeFor? :=
      List.filterMap_congr fun x hx => hold x (hne x hx id (List.mem_cons_self ..))
    have hself : (v.mapLast id n).nodeFor? id = some n := by
      rw [nodeFor?_mapLast hfree, if_pos rfl]
    have hnone : v.nodeFor? id = none := (v.nodeFor?_eq_none_iff id).mpr hfree
    unfold View.nodesUnder
    rw [hdone, List.filterMap_append, List.filterMap_append, hdone',
      List.filterMap_cons_some hself, List.filterMap_cons_none hnone, hlater, hlater']
    simp
  · have hnot : ∀ x ∈ p.idsUnder u, (v.mapLast id n).nodeFor? x = v.nodeFor? x := by
      intro x hx
      apply hold
      rintro rfl
      obtain ⟨j, hj, hju⟩ := (hp.mem_idsUnder_iff u x).mp hx
      obtain rfl : i = j := Option.some.inj (hi.symm.trans hj)
      exact hu hju.symm
    rw [nodesUnder_congr rfl hnot, if_neg hu, List.append_nil]

theorem nodesUnder_of_not_mapped (h : v.Mirrors name p s) (hp : p.IsForest) {id : Text}
    (hid : id ∉ v.mapped.keys) : v.nodesUnder p (.string id) = [] := by
  unfold View.nodesUnder
  rw [List.filterMap_eq_nil_iff]
  intro x hx
  rw [v.nodeFor?_eq_none_iff]
  exact fun hx' => hid (h.parent_mapped hx' ((hp.mem_idsUnder_iff _ x).mp hx))

/-- The old node of a parent gets the new node as its last child if the member declares it. -/
theorem get?_withChild (h : v.Mirrors name p s) (hp : p.IsForest) {i : Identifier} {id : Text}
    {later : List Text} {parent : NodeId} (hi : p.get? id = some i)
    (hw : v.Awaits p i.parent (id :: later)) (hparent : v.nodeAt? i.parent = some parent)
    (label new : Label) (stableId : Option Text) (above : Option NodeId) {u : Value} {m : NodeId}
    (hm : v.nodeAt? u = some m)
    (hget : s.get? m = some ⟨label, stableId, above, v.nodesUnder p u⟩) :
    (s.withChild parent new (some id)).get? m =
      some ⟨label, stableId, above, (v.mapLast id s.size).nodesUnder p u⟩ := by
  rw [s.get?_withChild_old (h.lt_size hparent) (h.lt_size hm), hget,
    h.nodesUnder_mapLast hp hi hw]
  by_cases hu : u = i.parent
  · have hmp : m = parent := by
      rw [hu, hparent] at hm
      exact (Option.some.inj hm).symm
    simp [hu, hmp]
  · have hmp : ¬ m = parent := by
      rintro rfl
      exact hu (h.nodeAt?_injective hm hparent)
    simp [hu, hmp]

theorem withChild (h : v.Mirrors name p s) (hp : p.IsForest) {i : Identifier} {id : Text}
    {later : List Text} {parent : NodeId} {label : Label} (hi : p.get? id = some i)
    (hw : v.Awaits p i.parent (id :: later)) (hparent : v.nodeAt? i.parent = some parent)
    (hlabel : i.label p = .ok label) :
    (v.mapLast id s.size).Mirrors name p (s.withChild parent label (some id)) where
  keys_nodup := by
    show Table.keys (v.mapped ++ [(id, s.size)]) |>.Nodup
    rw [Table.keys_append]
    refine List.nodup_append.mpr ⟨h.keys_nodup, List.nodup_singleton _, ?_⟩
    rintro x hx y hy rfl
    exact hw.not_mapped x (List.mem_singleton.mp hy ▸ List.mem_cons_self ..) hx
  owned_nodup := by
    rw [owned_mapLast]
    refine List.nodup_append.mpr ⟨h.owned_nodup, List.nodup_singleton _, ?_⟩
    rintro x hx y hy rfl
    exact Nat.lt_irrefl _ (List.mem_singleton.mp hy ▸ h.owned_lt hx)
  root_node := h.get?_withChild hp hi hw hparent (.suite name) label none none rfl h.root_node
  node x n hn := by
    have hfree : id ∉ v.mapped.keys := hw.not_mapped id (List.mem_cons_self ..)
    rw [nodeFor?_mapLast hfree] at hn
    by_cases hx : x = id
    · subst hx
      rw [if_pos rfl] at hn
      obtain rfl := Option.some.inj hn
      have hself : ¬ Value.string x = i.parent := by
        intro he
        rw [← he] at hparent
        exact hfree ((v.mem_keys_iff x).mpr ⟨parent, hparent⟩)
      refine ⟨i, label, parent, hi, hlabel, nodeAt?_mapLast hfree _ hparent, h.lt_size hparent, ?_⟩
      rw [s.get?_withChild_new (h.lt_size hparent), h.nodesUnder_mapLast hp hi hw, if_neg hself,
        h.nodesUnder_of_not_mapped hp hfree]
      rfl
    · rw [if_neg hx] at hn
      obtain ⟨j, l, above, hj, hl, habove, hlt, hget⟩ := h.node x n hn
      exact ⟨j, l, above, hj, hl, nodeAt?_mapLast hfree _ habove, hlt,
        h.get?_withChild hp hi hw hparent l label (some x) (some above) (u := .string x) hn hget⟩

end View.Mirrors

end SuiteView
