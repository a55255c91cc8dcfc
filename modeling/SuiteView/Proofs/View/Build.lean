import SuiteView.Proofs.View.Attach

/-!
# Building a view

The recursive build attaches the members in the pre-order of the plan. Every call finds its parent
mapped and the later siblings of its member unmapped, so each attached node lands in its place, and
the result mirrors the plan with every member mapped.
-/

namespace SuiteView.Bridge

/-- The bridge with the node of a member below another node. -/
def withNode (b : Bridge) (i : Identifier) (parent : NodeId) (label : Label) : Bridge where
  plan := b.plan
  nodes := b.nodes.withChild parent label (some i.uniqueId)
  view := b.view.mapLast i.uniqueId b.nodes.size

theorem attach_of_label {b : Bridge} {i : Identifier} (hfree : i.uniqueId ∉ b.view.mapped.keys)
    {label : Label} (hlabel : i.label b.plan = .ok label) (parent : NodeId) :
    b.attach i parent = .ok (b.withNode i parent label, b.nodes.size) := by
  have hmapped : b.view.mapped.put i.uniqueId b.nodes.size =
      b.view.mapped ++ [(i.uniqueId, b.nodes.size)] := Table.put_of_not_mem _ _ hfree
  unfold attach
  rw [hlabel]
  show Except.ok (Bridge.mk b.plan (b.nodes.withChild parent label (some i.uniqueId))
    ⟨b.view.root, b.view.mapped.put i.uniqueId b.nodes.size⟩, b.nodes.size) = _
  rw [hmapped]
  rfl

theorem attach_of_error {b : Bridge} {i : Identifier} {cause : NamingError}
    (hlabel : i.label b.plan = .error cause) (parent : NodeId) :
    b.attach i parent = .error cause := by
  unfold attach
  rw [hlabel]
  rfl

/-- The second bridge comes from the first by mapping further ids, and mirrors its plan; the nodes
made before its root are as they were. -/
structure Grown (name : Text) (b b' : Bridge) (ids : List Text) : Prop where
  mirrors : b'.view.Mirrors name b'.plan b'.nodes
  plan_eq : b'.plan = b.plan
  root_eq : b'.view.root = b.view.root
  mapped_eq : ∃ added, b'.view.mapped = b.view.mapped ++ added ∧ Table.keys added = ids
  frame : ∀ n, n < b.view.root → b'.nodes.get? n = b.nodes.get? n

namespace Grown

variable {name : Text} {b b' b'' : Bridge} {ids ids' : List Text}

theorem refl (h : b.view.Mirrors name b.plan b.nodes) : Grown name b b [] :=
  ⟨h, rfl, rfl, ⟨[], (List.append_nil _).symm, rfl⟩, fun _ _ => rfl⟩

theorem trans (h : Grown name b b' ids) (h' : Grown name b' b'' ids') :
    Grown name b b'' (ids ++ ids') := by
  obtain ⟨added, hadded, hkeys⟩ := h.mapped_eq
  obtain ⟨added', hadded', hkeys'⟩ := h'.mapped_eq
  refine ⟨h'.mirrors, h'.plan_eq.trans h.plan_eq, h'.root_eq.trans h.root_eq, ?_, ?_⟩
  · refine ⟨added ++ added', ?_, ?_⟩
    · rw [hadded', hadded, List.append_assoc]
    · rw [Table.keys_append, hkeys, hkeys']
  · intro n hn
    rw [h'.frame n (h.root_eq ▸ hn), h.frame n hn]

theorem keys_eq (h : Grown name b b' ids) : b'.view.mapped.keys = b.view.mapped.keys ++ ids := by
  obtain ⟨added, hadded, hkeys⟩ := h.mapped_eq
  rw [hadded, Table.keys_append, hkeys]

theorem nodeAt? (h : Grown name b b' ids) {u : Value} {n : NodeId}
    (hn : b.view.nodeAt? u = some n) : b'.view.nodeAt? u = some n := by
  obtain ⟨added, hadded, -⟩ := h.mapped_eq
  cases u with
  | null =>
    show some b'.view.root = some n
    rw [h.root_eq]
    exact hn
  | string id =>
    show Table.get? b'.view.mapped id = some n
    rw [hadded]
    exact Table.get?_append_of_some added hn
  | bool | int | number | list | object => simp [View.nodeAt?] at hn

end Grown

/-! ### One member -/

variable {name : Text} {b : Bridge}

theorem withNode_grown (hf : b.plan.IsForest) (hm : b.view.Mirrors name b.plan b.nodes)
    {i : Identifier} {later : List Text} {parent : NodeId} {label : Label}
    (hi : b.plan.get? i.uniqueId = some i)
    (hw : b.view.Awaits b.plan i.parent (i.uniqueId :: later))
    (hparent : b.view.nodeAt? i.parent = some parent) (hlabel : i.label b.plan = .ok label) :
    Grown name b (b.withNode i parent label) [i.uniqueId] where
  mirrors := hm.withChild hf hi hw hparent hlabel
  plan_eq := rfl
  root_eq := rfl
  mapped_eq := ⟨[(i.uniqueId, b.nodes.size)], rfl, rfl⟩
  frame n hn := by
    have hroot := hm.root_le hparent
    have hlt := hm.lt_size hparent
    exact b.nodes.get?_withChild_of_ne hlt (Nat.lt_trans hn (Nat.lt_of_le_of_lt hroot hlt))
      (Nat.ne_of_lt (Nat.lt_of_lt_of_le hn hroot)) label _

theorem withNode_awaits (hf : b.plan.IsForest) (hm : b.view.Mirrors name b.plan b.nodes)
    {i : Identifier} (hfree : i.uniqueId ∉ b.view.mapped.keys) (parent : NodeId) (label : Label) :
    (b.withNode i parent label).view.Awaits b.plan (.string i.uniqueId)
      (b.plan.idsUnder (.string i.uniqueId)) where
  is_tail := ⟨[], rfl⟩
  not_mapped id hid hmem := by
    have hstep : b.plan.ParentOf i.uniqueId id := (hf.mem_idsUnder_iff _ id).mp hid
    have hkeys : (b.withNode i parent label).view.mapped.keys =
        b.view.mapped.keys ++ [i.uniqueId] := Table.keys_append ..
    rw [hkeys] at hmem
    rcases List.mem_append.mp hmem with hold | hnew
    · exact hfree (hm.parent_mapped hold hstep)
    · rw [List.mem_singleton.mp hnew] at hstep
      exact hf.not_below_self _ (.single hstep)

/-! ### The recursion -/

/-- What one call of the build does, for a number of levels. -/
def BuildsUpTo (name : Text) (fuel : Nat) : Prop :=
  ∀ {b b' : Bridge} {i : Identifier} {later : List Text} {parent : NodeId},
    b.plan.IsForest → b.view.Mirrors name b.plan b.nodes →
    b.plan.get? i.uniqueId = some i →
    b.view.Awaits b.plan i.parent (i.uniqueId :: later) →
    b.view.nodeAt? i.parent = some parent →
    Preorder.Within b.plan.childIdsOf fuel i.uniqueId →
    build fuel b parent i = .ok b' →
    Grown name b b' (Preorder.upTo b.plan.childIdsOf fuel i.uniqueId)

/- The siblings that are left form the tail of their list. Building the first one maps its subtree,
   which holds none of the others, so the rest is still unmapped. -/
theorem Grown.awaits_rest {b b' : Bridge} {fuel : Nat} {u : Value} {id : Text} {rest : List Text}
    (hf : b.plan.IsForest) (hw : b.view.Awaits b.plan u (id :: rest))
    (hg : Grown name b b' (Preorder.upTo b.plan.childIdsOf fuel id)) :
    b'.view.Awaits b'.plan u rest := by
  obtain ⟨done, hdone⟩ := hw.is_tail
  have hnodup := hf.idsUnder_nodup u
  have hunder : ∀ x ∈ id :: rest, x ∈ b.plan.idsUnder u := by
    intro x hx
    rw [hdone]
    exact List.mem_append_right _ hx
  rw [hdone] at hnodup
  have hfresh := (List.nodup_cons.mp (List.nodup_append.mp hnodup).2.1).1
  rw [hg.plan_eq]
  refine ⟨⟨done ++ [id], by rw [hdone, List.append_assoc]; rfl⟩, ?_⟩
  intro x hx hmem
  have hne : id ≠ x := fun he => hfresh (he ▸ hx)
  rw [hg.keys_eq] at hmem
  rcases List.mem_append.mp hmem with hold | hnew
  · exact hw.not_mapped x (List.mem_cons_of_mem _ hx) hold
  · exact hf.sibling_not_mem_upTo (hunder id (List.mem_cons_self ..))
      (hunder x (List.mem_cons_of_mem _ hx)) hne hnew

theorem buildSiblings {fuel : Nat} (hbuild : BuildsUpTo name fuel) (ids : List Text) {b b' : Bridge}
    {u : Value} {parent : NodeId} (hf : b.plan.IsForest)
    (hm : b.view.Mirrors name b.plan b.nodes) (hw : b.view.Awaits b.plan u ids)
    (hparent : b.view.nodeAt? u = some parent)
    (hdepth : ∀ id ∈ ids, Preorder.Within b.plan.childIdsOf fuel id)
    (h : (b.plan.lookup ids).foldlM (fun b child => build fuel b parent child) b = .ok b') :
    Grown name b b' (ids.flatMap (Preorder.upTo b.plan.childIdsOf fuel)) := by
  induction ids generalizing b with
  | nil =>
    obtain rfl : b = b' := Except.ok.inj h
    exact .refl hm
  | cons id rest ih =>
    have hid : id ∈ b.plan.idsUnder u := by
      obtain ⟨done, hdone⟩ := hw.is_tail
      rw [hdone]
      exact List.mem_append_right _ (List.mem_cons_self ..)
    obtain ⟨i, hi, hiu⟩ := (hf.mem_idsUnder_iff u id).mp hid
    obtain rfl := hf.uniqueId_of_get? hi
    subst hiu
    have hlookup : b.plan.lookup (i.uniqueId :: rest) = i :: b.plan.lookup rest :=
      List.filterMap_cons_some hi
    rw [hlookup, List.foldlM_cons] at h
    cases hfirst : build fuel b parent i with
    | error cause =>
      rw [hfirst] at h
      cases h
    | ok b₁ =>
      rw [hfirst] at h
      have hg := hbuild hf hm hi hw hparent (hdepth _ (List.mem_cons_self ..)) hfirst
      have hrest := ih (b := b₁) (hg.plan_eq ▸ hf) hg.mirrors (hg.awaits_rest hf hw)
        (hg.nodeAt? hparent)
        (by
          rw [hg.plan_eq]
          exact fun x hx => hdepth x (List.mem_cons_of_mem _ hx))
        (by
          rw [hg.plan_eq]
          exact h)
      rw [hg.plan_eq] at hrest
      rw [List.flatMap_cons]
      exact hg.trans hrest

theorem buildsUpTo (name : Text) (fuel : Nat) : BuildsUpTo name fuel := by
  induction fuel with
  | zero =>
    intro b b' i later parent _ _ _ _ _ hdepth _
    exact False.elim hdepth
  | succ fuel ih =>
    intro b b' i later parent hf hm hi hw hparent hdepth h
    have hfree := hw.not_mapped i.uniqueId (List.mem_cons_self ..)
    cases hlabel : i.label b.plan with
    | error cause =>
      rw [build, attach_of_error hlabel] at h
      cases h
    | ok label =>
      rw [build, attach_of_label hfree hlabel] at h
      have hg := withNode_grown hf hm hi hw hparent hlabel
      have hnode : (b.withNode i parent label).view.nodeAt? (.string i.uniqueId) =
          some b.nodes.size := by
        show (b.view.mapLast i.uniqueId b.nodes.size).nodeFor? i.uniqueId = _
        rw [View.nodeFor?_mapLast hfree, if_pos rfl]
      have hchildren : b.plan.childIdsOf i.uniqueId = b.plan.idsUnder (.string i.uniqueId) :=
        hf.childIdsOf_eq _
      have hbelow := buildSiblings ih (b.plan.childIdsOf i.uniqueId)
        (b := b.withNode i parent label) hf hg.mirrors
        (hchildren ▸ withNode_awaits hf hm hfree parent label) hnode hdepth h
      exact hg.trans hbelow

/-! ### Opening a view -/

/-- A view that maps nothing yet: a fresh root in the store. -/
def blank (p : Plan) (s : NodeStore) (name : Text) : Bridge :=
  ⟨p, s.push (.detached (.suite name) none), ⟨s.size, []⟩⟩

theorem blank_mirrors (p : Plan) (s : NodeStore) (name : Text) :
    (blank p s name).view.Mirrors name p (blank p s name).nodes where
  keys_nodup := List.nodup_nil
  owned_nodup := List.nodup_singleton _
  root_node := by
    have hnone : (p.idsUnder .null).filterMap (blank p s name).view.nodeFor? = [] :=
      List.filterMap_eq_nil_iff.mpr fun _ _ => rfl
    show (s.push (.detached (.suite name) none)).get? s.size = _
    rw [NodeStore.get?_push, if_pos rfl, View.nodesUnder, hnone]
    rfl
  node id n hn := by cases hn

theorem create_grown {p : Plan} {s : NodeStore} {name : Text} {b : Bridge} (hf : p.IsForest)
    (h : create p s name = .ok b) : Grown name (blank p s name) b p.preorderIds := by
  have hw : (blank p s name).view.Awaits p .null (p.idsUnder .null) :=
    ⟨⟨[], rfl⟩, fun _ _ => List.not_mem_nil⟩
  have hdepth : ∀ id ∈ p.idsUnder .null, Preorder.Within p.childIdsOf p.size id :=
    fun id hid => hf.within_size (hf.idsUnder_subset _ hid)
  rw [create, Plan.roots, hf.rootIds_eq] at h
  exact buildSiblings (buildsUpTo name p.size) (p.idsUnder .null) (b := blank p s name) hf
    (blank_mirrors p s name) hw rfl hdepth h

theorem create_frame {p : Plan} {s : NodeStore} {name : Text} {b : Bridge} (hf : p.IsForest)
    (h : create p s name = .ok b) {n : NodeId} (hn : n < s.size) :
    b.nodes.get? n = s.get? n := by
  rw [(create_grown hf h).frame n hn]
  show (s.push _).get? n = s.get? n
  rw [NodeStore.get?_push, if_neg (Nat.ne_of_lt hn)]

theorem create_keys {p : Plan} {s : NodeStore} {name : Text} {b : Bridge} (hf : p.IsForest)
    (h : create p s name = .ok b) : b.view.mapped.keys = p.preorderIds :=
  (create_grown hf h).keys_eq

/-! ### When the build succeeds -/

theorem mem_toList_of_lookup {p : Plan} {ids : List Text} {i : Identifier} (h : i ∈ p.lookup ids) :
    i ∈ p.toList := by
  obtain ⟨id, -, hid⟩ := List.mem_filterMap.mp h
  exact List.mem_map_of_mem (Table.mem_of_get? hid)

theorem buildSiblings_ok {p : Plan} {fuel : Nat}
    (hbuild : ∀ (b : Bridge) (i : Identifier) (parent : NodeId), b.plan = p → i ∈ p.toList →
      ∃ b', build fuel b parent i = .ok b' ∧ b'.plan = p)
    (is : List Identifier) (his : ∀ i ∈ is, i ∈ p.toList) {b : Bridge} (hb : b.plan = p)
    (parent : NodeId) :
    ∃ b', is.foldlM (fun b child => build fuel b parent child) b = .ok b' ∧ b'.plan = p := by
  induction is generalizing b with
  | nil => exact ⟨b, rfl, hb⟩
  | cons i is ih =>
    obtain ⟨b₁, hb₁, hplan⟩ := hbuild b i parent hb (his i (List.mem_cons_self ..))
    rw [List.foldlM_cons, hb₁]
    exact ih (fun j hj => his j (List.mem_cons_of_mem _ hj)) hplan

theorem build_ok {p : Plan} (hlabel : ∀ i ∈ p.toList, ∃ label, i.label p = .ok label) (fuel : Nat)
    (b : Bridge) (i : Identifier) (parent : NodeId) (hb : b.plan = p) (hi : i ∈ p.toList) :
    ∃ b', build fuel b parent i = .ok b' ∧ b'.plan = p := by
  induction fuel generalizing b i parent with
  | zero => exact ⟨b, rfl, hb⟩
  | succ fuel ih =>
    obtain ⟨label, hi⟩ := hlabel i hi
    rw [← hb] at hi
    obtain ⟨b₁, node, hattach, hplan⟩ : ∃ b₁ node, b.attach i parent = .ok (b₁, node) ∧
        b₁.plan = p := by
      unfold attach
      rw [hi]
      exact ⟨_, _, rfl, hb⟩
    rw [build, hattach]
    refine buildSiblings_ok ih (b₁.plan.children i.uniqueId) ?_ hplan node
    intro j hj
    rw [hplan] at hj
    exact mem_toList_of_lookup hj

theorem create_ok {p : Plan} (hlabel : ∀ i ∈ p.toList, ∃ label, i.label p = .ok label)
    (s : NodeStore) (name : Text) : ∃ b, create p s name = .ok b := by
  obtain ⟨b, hb, -⟩ := buildSiblings_ok (build_ok hlabel p.size) p.roots
    (fun i hi => mem_toList_of_lookup hi) (b := blank p s name) rfl s.size
  exact ⟨b, hb⟩

end SuiteView.Bridge
