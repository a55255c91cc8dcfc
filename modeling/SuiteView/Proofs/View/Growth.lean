import Mathlib.Data.List.Forall2
import SuiteView.Proofs.Filter
import SuiteView.Proofs.View.Leaves

/-!
# Growing and building come to the same

A view that nothing but its own insertions has overtaken maps every member of the plan, and so does
a view opened on the grown plan. Two views that map the same members show the same tree, node by
node, whatever the order in which the nodes were made.
-/

namespace SuiteView

/-! ### The same tree twice -/

/-- The trees below two nodes agree position by position: labels, stable ids and the children in
their order. -/
inductive NodeStore.SameTree (s t : NodeStore) : NodeId → NodeId → Prop where
  | node {n m : NodeId} {x y : Node} (left : s.get? n = some x) (right : t.get? m = some y)
      (label : x.label = y.label) (stableId : x.stableId = y.stableId)
      (children : List.Forall₂ (SameTree s t) x.children y.children) : SameTree s t n m

theorem Option.rel_of_isSome_iff {α β : Type} {R : α → β → Prop} {a : Option α} {b : Option β}
    (h : a.isSome = b.isSome) (hr : ∀ x y, a = some x → b = some y → R x y) : Option.Rel R a b := by
  cases a with
  | none =>
    cases b with
    | none => exact .none
    | some y => cases h
  | some x =>
    cases b with
    | none => cases h
    | some y => exact .some (hr x y rfl rfl)

namespace View

variable {v w : View} {name name' : Text} {p : Plan} {s t : NodeStore}

/-- The two views map the same members. -/
def SameKeys (v w : View) : Prop := ∀ id, id ∈ v.mapped.keys ↔ id ∈ w.mapped.keys

namespace Mirrors

theorem sameFace (hv : v.Mirrors name p s) (hw : w.Mirrors name' p t) {id : Text} {n m : NodeId}
    (hn : v.nodeFor? id = some n) (hm : w.nodeFor? id = some m) : s.SameFace t n m := by
  obtain ⟨i, label, _, hi, hlabel, -, -, hget⟩ := hv.node id n hn
  obtain ⟨j, label', _, hj, hlabel', -, -, hget'⟩ := hw.node id m hm
  obtain rfl : i = j := Option.some.inj (hi.symm.trans hj)
  exact ⟨_, _, hget, hget', Except.ok.inj (hlabel.symm.trans hlabel'), rfl⟩

/-- Nodes of one view pair up with the nodes of the other for the same members. -/
theorem filterMap_forall₂ (h : v.SameKeys w) {R : NodeId → NodeId → Prop} (ids : List Text)
    (hr : ∀ id ∈ ids, ∀ n m, v.nodeFor? id = some n → w.nodeFor? id = some m → R n m) :
    List.Forall₂ R (ids.filterMap v.nodeFor?) (ids.filterMap w.nodeFor?) := by
  have hsame : List.Forall₂ (fun x y => x = y ∧ x ∈ ids) ids ids :=
    List.forall₂_same.mpr fun x hx => ⟨rfl, hx⟩
  refine List.rel_filterMap ?_ hsame
  rintro x _ ⟨rfl, hx⟩
  refine Option.rel_of_isSome_iff ?_ (hr x hx)
  rw [Bool.eq_iff_iff]
  exact (v.mapped.get?_isSome_iff x).trans ((h x).trans (w.mapped.get?_isSome_iff x).symm)

/-- Siblings of one view pair up with the siblings of the other. -/
theorem nodesUnder_forall₂ (h : v.SameKeys w) {R : NodeId → NodeId → Prop} (u : Value)
    (hr : ∀ id ∈ p.idsUnder u, ∀ n m, v.nodeFor? id = some n → w.nodeFor? id = some m → R n m) :
    List.Forall₂ R (v.nodesUnder p u) (w.nodesUnder p u) :=
  filterMap_forall₂ h (p.idsUnder u) hr

/-- What holds of the nodes of one member once it holds of their children in pairs holds of all nodes of
one member. Nodes are younger than their parents, so the induction goes from the youngest upwards. -/
theorem pairs_induction (hv : v.Mirrors name p s) (hw : w.Mirrors name' p t) (hf : p.IsForest)
    (h : v.SameKeys w) {R : NodeId → NodeId → Prop}
    (hstep : ∀ id n m x y, v.nodeFor? id = some n → w.nodeFor? id = some m → s.get? n = some x →
      t.get? m = some y → x.label = y.label → x.stableId = y.stableId →
      List.Forall₂ R x.children y.children → R n m)
    {id : Text} {n m : NodeId} (hn : v.nodeFor? id = some n) (hm : w.nodeFor? id = some m) :
    R n m := by
  induction hd : s.size - n using Nat.strongRecOn generalizing id n m with
  | ind d ih =>
    have hchildren : List.Forall₂ R (v.nodesUnder p (.string id)) (w.nodesUnder p (.string id)) := by
      refine nodesUnder_forall₂ h (.string id) fun x hx n' m' hn' hm' => ?_
      obtain ⟨i, -, parent, hi, -, hparent, hlt, -⟩ := hv.node x n' hn'
      obtain ⟨j, hj, hju⟩ := (hf.mem_idsUnder_iff _ x).mp hx
      obtain rfl : i = j := Option.some.inj (hi.symm.trans hj)
      rw [hju] at hparent
      obtain rfl := Option.some.inj (hn.symm.trans hparent)
      have hsize : n' < s.size := hv.lt_size (u := .string x) hn'
      exact ih (s.size - n') (hd ▸ Nat.sub_lt_sub_left (Nat.lt_trans hlt hsize) hlt) hn' hm' rfl
    obtain ⟨i, label, _, hi, hlabel, -, -, hget⟩ := hv.node id n hn
    obtain ⟨j, label', _, hj, hlabel', -, -, hget'⟩ := hw.node id m hm
    obtain rfl : i = j := Option.some.inj (hi.symm.trans hj)
    have hsame : label = label' := Except.ok.inj (hlabel.symm.trans hlabel')
    exact hstep id n m _ _ hn hm hget hget' hsame rfl hchildren

theorem sameTree_member (hv : v.Mirrors name p s) (hw : w.Mirrors name' p t) (hf : p.IsForest)
    (h : v.SameKeys w) {id : Text} {n m : NodeId} (hn : v.nodeFor? id = some n)
    (hm : w.nodeFor? id = some m) : s.SameTree t n m :=
  hv.pairs_induction hw hf h (fun _ _ _ _ _ _ _ left right label stableId children =>
    .node left right label stableId children) hn hm

theorem sameTree_under (hv : v.Mirrors name p s) (hw : w.Mirrors name' p t) (hf : p.IsForest)
    (h : v.SameKeys w) (u : Value) :
    List.Forall₂ (s.SameTree t) (v.nodesUnder p u) (w.nodesUnder p u) :=
  nodesUnder_forall₂ h u fun _ _ _ _ hn hm => hv.sameTree_member hw hf h hn hm

theorem sameTree (hv : v.Mirrors name p s) (hw : w.Mirrors name p t) (hf : p.IsForest)
    (h : v.SameKeys w) {u : Value} {n m : NodeId} (hn : v.nodeAt? u = some n)
    (hm : w.nodeAt? u = some m) : s.SameTree t n m := by
  cases u with
  | null =>
    obtain rfl : v.root = n := Option.some.inj hn
    obtain rfl : w.root = m := Option.some.inj hm
    exact .node hv.root_node hw.root_node rfl rfl (hv.sameTree_under hw hf h .null)
  | string id => exact hv.sameTree_member hw hf h hn hm
  | bool | int | number | list | object => simp [nodeAt?] at hn

/-! ### What filters find -/

theorem matches_of_sameKeys (hv : v.Mirrors name p s) (hw : w.Mirrors name p t) (h : v.SameKeys w)
    {f : Filter} (hfree : f.nodeFree = true) {id : Text} (hid : v.Matches (f.holds s) id) :
    w.Matches (f.holds t) id := by
  obtain ⟨n, hn, hholds⟩ := hid
  obtain ⟨m, hm⟩ := (w.mem_keys_iff id).mp ((h id).mp ((v.mem_keys_iff id).mpr ⟨n, hn⟩))
  exact ⟨m, hm, (Filter.holds_of_sameFace (hv.sameFace hw hn hm) f hfree).symm.trans hholds⟩

theorem matches_iff (hv : v.Mirrors name p s) (hw : w.Mirrors name p t) (h : v.SameKeys w)
    {f : Filter} (hfree : f.nodeFree = true) (id : Text) :
    v.Matches (f.holds s) id ↔ w.Matches (f.holds t) id :=
  ⟨hv.matches_of_sameKeys hw h hfree, hw.matches_of_sameKeys hv (fun x => (h x).symm) hfree⟩

theorem mem_leaves_iff (hv : v.Mirrors name p s) (hw : w.Mirrors name p t) (hf : p.IsForest)
    (h : v.SameKeys w) {f : Filter} (hfree : f.nodeFree = true) (i : Identifier) :
    i ∈ v.leaves p (f.holds s) ↔ i ∈ w.leaves p (f.holds t) := by
  have hleaf : ∀ id, id ∈ v.leafIds p (f.holds s) ↔ id ∈ w.leafIds p (f.holds t) := by
    intro id
    rw [hv.mem_leafIds_iff hf, hw.mem_leafIds_iff hf]
    simp only [hv.matches_iff hw h hfree]
  simp only [leaves, Plan.lookup, List.mem_filterMap, hleaf]

end Mirrors

end View

namespace Bridge

/-! ### Growing one view -/

/-- Nothing is missing from the view, and nothing in the plan stands in the way of a further view. -/
structure Complete (name : Text) (b : Bridge) : Prop where
  forest : b.plan.IsForest
  mirrors : b.view.Mirrors name b.plan b.nodes
  located : ∀ i ∈ b.plan.toList, i.IsLocated
  mapped : ∀ id ∈ b.plan.ids, id ∈ b.view.mapped.keys

/-- Insertions one after the other, whether they succeed or not. -/
def insertAll (b : Bridge) (calls : List (Identifier × Value)) : Bridge :=
  calls.foldl (fun b call => (b.insertUnder call.1 call.2).1) b

namespace Complete

variable {name : Text} {b : Bridge}

theorem create {p : Plan} {s : NodeStore} (hf : p.IsForest) (hloc : ∀ i ∈ p.toList, i.IsLocated)
    (h : create p s name = .ok b) : b.Complete name := by
  have hg := create_grown hf h
  have hplan : b.plan = p := hg.plan_eq
  refine ⟨hplan ▸ hf, hg.mirrors, hplan ▸ hloc, ?_⟩
  intro id hid
  rw [hplan] at hid
  rw [create_keys hf h]
  exact hf.mem_preorderIds hid

/- A member with a usable location can be named, so an insertion that has reached the plan reaches
   the view. -/
theorem insertUnder (h : b.Complete name) {i : Identifier} (hi : i.IsLocated) (parent : Value) :
    (b.insertUnder i parent).1.Complete name := by
  rcases b.insertUnder_cases i parent with
    ⟨e, hins, -⟩ | ⟨q, above, p, -, hq, habove, ha, ⟨cause, hcause, -⟩ | ⟨b', n, hattach, hins⟩⟩
  · rw [hins]
    exact h
  · obtain ⟨label, hlabel⟩ := i.label_ok hi p
    rw [hlabel] at hcause
    cases hcause
  · rw [hins]
    obtain ⟨hg, -, -⟩ := attach_grown h.forest h.mirrors hq habove ha hattach
    have hplan : b'.plan = p := hg.plan_eq
    have hkeys : b'.view.mapped.keys = b.view.mapped.keys ++ [i.uniqueId] := hg.keys_eq
    refine ⟨hplan ▸ h.forest.add ha, hg.mirrors, ?_, ?_⟩
    · intro j hj
      rw [hplan, Plan.toList_add ha] at hj
      rcases List.mem_append.mp hj with hold | hnew
      · exact h.located j hold
      · rwa [List.mem_singleton.mp hnew]
    · intro id hid
      rw [hplan, Plan.ids_add ha] at hid
      rw [hkeys]
      rcases List.mem_append.mp hid with hold | hnew
      · exact List.mem_append_left _ (h.mapped id hold)
      · exact List.mem_append_right _ hnew

theorem insertAll (h : b.Complete name) (calls : List (Identifier × Value))
    (hcalls : ∀ call ∈ calls, call.1.IsLocated) : (b.insertAll calls).Complete name := by
  induction calls generalizing b with
  | nil => exact h
  | cons call rest ih =>
    have hi := hcalls call (List.mem_cons_self ..)
    exact ih (h.insertUnder hi call.2) fun c hc => hcalls c (List.mem_cons_of_mem _ hc)

theorem mem_keys_iff (h : b.Complete name) (id : Text) :
    id ∈ b.view.mapped.keys ↔ id ∈ b.plan.ids :=
  ⟨h.mirrors.mem_ids, h.mapped id⟩

end Complete

/-! ### Two views of one plan -/

/-- Two views of one plan that map all of it and cannot be told apart by their trees: whatever a
filter by group, case and id selects, and whatever tests lie below a member, it is the same. -/
structure Alike (b b' : Bridge) : Prop where
  plan_eq : b'.plan = b.plan
  tree : b.nodes.SameTree b'.nodes b.view.root b'.view.root
  mapped : ∀ id, id ∈ b.view.mapped.keys ↔ id ∈ b.plan.ids
  mapped' : ∀ id, id ∈ b'.view.mapped.keys ↔ id ∈ b.plan.ids
  leaves : ∀ f : Filter, f.nodeFree = true → ∀ i,
    i ∈ b.view.leaves b.plan (fun n => f.holds b.nodes n) ↔
      i ∈ b'.view.leaves b'.plan (fun n => f.holds b'.nodes n)
  tests : ∀ id, View.testsBelow b.plan id = View.testsBelow b'.plan id

theorem Complete.alike {name : Text} {b b' : Bridge} (h : b.Complete name)
    (h' : b'.Complete name) (hplan : b'.plan = b.plan) : b.Alike b' := by
  have hm' : b'.view.Mirrors name b.plan b'.nodes := hplan ▸ h'.mirrors
  have hkeys' : ∀ id, id ∈ b'.view.mapped.keys ↔ id ∈ b.plan.ids := hplan ▸ h'.mem_keys_iff
  have hkeys : b.view.SameKeys b'.view := fun id => (h.mem_keys_iff id).trans (hkeys' id).symm
  refine ⟨hplan, ?_, h.mem_keys_iff, hkeys', ?_, ?_⟩
  · exact h.mirrors.sameTree hm' h.forest hkeys (u := .null) rfl rfl
  · intro f hfree i
    rw [hplan]
    exact h.mirrors.mem_leaves_iff hm' h.forest hkeys hfree i
  · intro id
    rw [hplan]

/-- A plan whose members can be named opens into a view; after any insertions of members that can
be named, taken or refused, a second view opened on the grown plan is like the first. -/
theorem insertAll_alike_create (is : List Identifier) (name : Text) (s s' : NodeStore)
    (calls : List (Identifier × Value))
    (hplan : ∀ i ∈ (Plan.empty.afterAdding is).toList, i.IsLocated)
    (hcalls : ∀ call ∈ calls, call.1.IsLocated) :
    ∃ b fresh, create (Plan.empty.afterAdding is) s name = .ok b ∧
      create (b.insertAll calls).plan s' name = .ok fresh ∧ (b.insertAll calls).Alike fresh := by
  have hf := Plan.isForest_afterAdding is
  obtain ⟨b, hb⟩ := create_ok (fun i hi => i.label_ok (hplan i hi) _) s name
  have hgrown := (Complete.create hf hplan hb).insertAll calls hcalls
  obtain ⟨fresh, hfresh⟩ :=
    create_ok (fun i hi => i.label_ok (hgrown.located i hi) _) s' name
  have hsame : fresh.plan = (b.insertAll calls).plan := (create_grown hgrown.forest hfresh).plan_eq
  exact ⟨b, fresh, hb, hfresh,
    hgrown.alike (Complete.create hgrown.forest hgrown.located hfresh) hsame⟩

def twoSuites : List Identifier :=
  [⟨[.char 'a'], [.char 'A'], .container, none, .null⟩,
   ⟨[.char 'b'], [.char 'B'], .container, none, .null⟩]

/- The later suite is served first, and the second call names the wrong parent. -/
def lateTests : List (Identifier × Value) :=
  [(⟨[.char 't'], [.char 'T'], .test, none, .string [.char 'b']⟩, .string [.char 'b']),
   (⟨[.char 'u'], [.char 'U'], .test, none, .string [.char 'a']⟩, .string [.char 'b']),
   (⟨[.char 'u'], [.char 'U'], .test, none, .string [.char 'a']⟩, .string [.char 'a'])]

theorem lateTests_alike : ∃ b fresh,
    create (Plan.empty.afterAdding twoSuites) .empty [.char 'r'] = .ok b ∧
    create (b.insertAll lateTests).plan .empty [.char 'r'] = .ok fresh ∧
    (b.insertAll lateTests).Alike fresh := by
  have hadded : (Plan.empty.afterAdding twoSuites).toList = twoSuites := rfl
  have hplan : ∀ i ∈ twoSuites, i.location = none := by decide
  have hcalls : ∀ call ∈ lateTests, call.1.location = none := by decide
  refine insertAll_alike_create twoSuites [.char 'r'] .empty .empty lateTests ?_ ?_
  · intro i hi got hgot
    rw [hplan i (hadded ▸ hi)] at hgot
    cases hgot
  · intro call hcall got hgot
    rw [hcalls call hcall] at hgot
    cases hgot

end Bridge

end SuiteView
