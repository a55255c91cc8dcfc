import SuiteView.Proofs.Node.Store
import SuiteView.Proofs.Plan.Descendants
import SuiteView.View.Basic

/-!
# A view mirrors its plan

A view does not show the whole plan: members that were added behind its back are missing, with
everything below them. What it shows is the plan restricted to the mapped members, sibling by sibling
in the order of the plan. Adding to the plan and hanging one more node in its place keep this.
-/

namespace SuiteView

/-! ### Names depend on the parent alone -/

theorem Identifier.label_congr {p p' : Plan} {i : Identifier}
    (h : p'.parent? i.uniqueId = p.parent? i.uniqueId) : i.label p' = i.label p := by
  unfold label resolve groupName
  rw [h]

theorem Identifier.label_container {p : Plan} (i : Identifier) (hkind : i.kind = .container)
    {label : Label} (h : i.label p = .ok label) : label = .suite i.displayName := by
  simp only [Identifier.label, hkind] at h
  exact (Except.ok.inj h).symm

theorem Identifier.label_test {p : Plan} (i : Identifier) (hkind : i.kind = .test)
    {label : Label} (h : i.label p = .ok label) :
    ∃ group caseName, i.resolve p = .ok (group, caseName) ∧ label = .test group caseName := by
  simp only [Identifier.label, hkind] at h
  cases hres : i.resolve p with
  | error cause =>
    rw [hres] at h
    cases h
  | ok names =>
    rw [hres] at h
    exact ⟨names.1, names.2, rfl, (Except.ok.inj h).symm⟩

theorem Plan.IsForest.parent?_add {p p' : Plan} (h : p.IsForest) {i j : Identifier}
    (ha : p.add i = .ok p') {id : Text} (hj : p.get? id = some j) :
    p'.parent? id = p.parent? id := by
  unfold Plan.parent?
  rw [Plan.get?_add_of_mem ha hj, hj]
  rcases h.parent_before j (h.mem_of_get? hj) with hnull | ⟨parent, hparent, hin, -⟩
  · simp [hnull]
  · obtain ⟨k, hk⟩ := (h.mem_ids_iff parent).mp hin
    simp [hparent, hk, Plan.get?_add_of_mem ha hk]

theorem Plan.IsForest.parent?_add_of_ne {p p' : Plan} (h : p.IsForest) {i : Identifier}
    (ha : p.add i = .ok p') {id : Text} (hid : id ≠ i.uniqueId) : p'.parent? id = p.parent? id := by
  cases hj : p.get? id with
  | some j => exact h.parent?_add ha hj
  | none =>
    unfold Plan.parent?
    rw [Plan.get?_add ha, if_neg hid, hj]
    rfl

namespace View

/-! ### Nodes of a view -/

/-- The node that stands for a parent: the root for null, else the node of the member. -/
def nodeAt? (v : View) : Value → Option NodeId
  | .null => some v.root
  | .string id => v.nodeFor? id
  | _ => none

/-- The nodes of the mapped members that declare a parent, in the order of the plan. -/
def nodesUnder (v : View) (p : Plan) (parent : Value) : List NodeId :=
  (p.idsUnder parent).filterMap v.nodeFor?

/-- The root and the nodes of the mapped members. -/
def owned (v : View) : List NodeId := v.root :: v.mapped.map Prod.snd

/-- The view with one more member at the end of the mapping. -/
def mapLast (v : View) (id : Text) (n : NodeId) : View := { v with mapped := v.mapped ++ [(id, n)] }

theorem mem_keys_iff (v : View) (id : Text) : id ∈ v.mapped.keys ↔ ∃ n, v.nodeFor? id = some n :=
  v.mapped.mem_keys_iff id

theorem nodeFor?_eq_none_iff (v : View) (id : Text) : v.nodeFor? id = none ↔ id ∉ v.mapped.keys :=
  v.mapped.get?_eq_none_iff id

theorem nodeFor?_mapLast {v : View} {id : Text} (hid : id ∉ v.mapped.keys) (n : NodeId) (x : Text) :
    (v.mapLast id n).nodeFor? x = if x = id then some n else v.nodeFor? x :=
  Table.get?_concat n hid x

theorem owned_mapLast (v : View) (id : Text) (n : NodeId) :
    (v.mapLast id n).owned = v.owned ++ [n] := by
  simp [owned, mapLast]

theorem nodeAt?_mapLast {v : View} {id : Text} (hid : id ∉ v.mapped.keys) (n : NodeId) {u : Value}
    {m : NodeId} (hu : v.nodeAt? u = some m) : (v.mapLast id n).nodeAt? u = some m := by
  cases u with
  | null => exact hu
  | string x =>
    have hx : v.nodeFor? x = some m := hu
    have hne : x ≠ id := by
      rintro rfl
      exact hid ((v.mem_keys_iff x).mpr ⟨m, hx⟩)
    show (v.mapLast id n).nodeFor? x = some m
    rw [nodeFor?_mapLast hid, if_neg hne, hx]
  | bool | int | number | list | object => simp [nodeAt?] at hu

/-- The view shows the plan restricted to the mapped members: every node carries the label and the
id of its member, hangs below the node of the parent, which is older, and has the nodes of the mapped
children for its children. -/
structure Mirrors (v : View) (name : Text) (p : Plan) (s : NodeStore) : Prop where
  keys_nodup : v.mapped.keys.Nodup
  owned_nodup : v.owned.Nodup
  root_node : s.get? v.root = some ⟨.suite name, none, none, v.nodesUnder p .null⟩
  node : ∀ id n, v.nodeFor? id = some n → ∃ i label parent, p.get? id = some i ∧
    i.label p = .ok label ∧ v.nodeAt? i.parent = some parent ∧ parent < n ∧
    s.get? n = some ⟨label, some id, some parent, v.nodesUnder p (.string id)⟩

namespace Mirrors

variable {v : View} {name : Text} {p : Plan} {s : NodeStore}

theorem mem_mapped (_ : v.Mirrors name p s) {id : Text} {n : NodeId} (hn : v.nodeFor? id = some n) :
    n ∈ v.mapped.map Prod.snd :=
  List.mem_map_of_mem (Table.mem_of_get? hn)

theorem mem_owned (h : v.Mirrors name p s) {u : Value} {n : NodeId} (hn : v.nodeAt? u = some n) :
    n ∈ v.owned := by
  cases u with
  | null => exact List.mem_cons.mpr (.inl (Option.some.inj hn).symm)
  | string id => exact List.mem_cons_of_mem _ (h.mem_mapped hn)
  | bool | int | number | list | object => simp [nodeAt?] at hn

theorem nodeFor?_of_mem (h : v.Mirrors name p s) {n : NodeId} (hn : n ∈ v.mapped.map Prod.snd) :
    ∃ id, v.nodeFor? id = some n := by
  obtain ⟨⟨id, m⟩, he, rfl⟩ := List.mem_map.mp hn
  exact ⟨id, Table.get?_of_mem h.keys_nodup he⟩

theorem mem_owned_iff (h : v.Mirrors name p s) (n : NodeId) :
    n ∈ v.owned ↔ ∃ u, v.nodeAt? u = some n := by
  constructor
  · intro hn
    rcases List.mem_cons.mp hn with rfl | hm
    · exact ⟨.null, rfl⟩
    · obtain ⟨id, hid⟩ := h.nodeFor?_of_mem hm
      exact ⟨.string id, hid⟩
  · rintro ⟨u, hu⟩
    exact h.mem_owned hu

theorem nodeFor?_injective (h : v.Mirrors name p s) {x y : Text} {n : NodeId}
    (hx : v.nodeFor? x = some n) (hy : v.nodeFor? y = some n) : x = y := by
  have hvalues : (v.mapped.map Prod.snd).Nodup := h.owned_nodup.of_cons
  have he := List.inj_on_of_nodup_map hvalues (Table.mem_of_get? hx) (Table.mem_of_get? hy) rfl
  exact (Prod.mk.inj he).1

theorem nodeFor?_ne_root (h : v.Mirrors name p s) {id : Text} {n : NodeId}
    (hn : v.nodeFor? id = some n) : n ≠ v.root := by
  rintro rfl
  exact (List.nodup_cons.mp h.owned_nodup).1 (h.mem_mapped hn)

/-- Different parents have different nodes. -/
theorem nodeAt?_injective (h : v.Mirrors name p s) {u w : Value} {n : NodeId}
    (hu : v.nodeAt? u = some n) (hw : v.nodeAt? w = some n) : u = w := by
  cases u with
  | null =>
    cases w with
    | null => rfl
    | string y => exact absurd (Option.some.inj hu).symm (h.nodeFor?_ne_root hw)
    | bool | int | number | list | object => simp [nodeAt?] at hw
  | string x =>
    cases w with
    | null => exact absurd (Option.some.inj hw).symm (h.nodeFor?_ne_root hu)
    | string y => rw [h.nodeFor?_injective hu hw]
    | bool | int | number | list | object => simp [nodeAt?] at hw
  | bool | int | number | list | object => simp [nodeAt?] at hu

/-! ### What stands in the store -/

theorem childrenOf_eq (h : v.Mirrors name p s) {u : Value} {n : NodeId}
    (hn : v.nodeAt? u = some n) : s.childrenOf n = v.nodesUnder p u := by
  unfold NodeStore.childrenOf
  cases u with
  | null =>
    obtain rfl : v.root = n := Option.some.inj hn
    rw [h.root_node]
    rfl
  | string id =>
    obtain ⟨i, label, parent, -, -, -, -, hget⟩ := h.node id n hn
    rw [hget]
    rfl
  | bool | int | number | list | object => simp [nodeAt?] at hn

theorem lt_size (h : v.Mirrors name p s) {u : Value} {n : NodeId} (hn : v.nodeAt? u = some n) :
    n < s.size := by
  cases u with
  | null =>
    obtain rfl : v.root = n := Option.some.inj hn
    exact NodeStore.lt_size_of_get? h.root_node
  | string id =>
    obtain ⟨i, label, parent, -, -, -, -, hget⟩ := h.node id n hn
    exact NodeStore.lt_size_of_get? hget
  | bool | int | number | list | object => simp [nodeAt?] at hn

theorem owned_lt (h : v.Mirrors name p s) {n : NodeId} (hn : n ∈ v.owned) : n < s.size := by
  obtain ⟨u, hu⟩ := (h.mem_owned_iff n).mp hn
  exact h.lt_size hu

theorem root_le (h : v.Mirrors name p s) {u : Value} {n : NodeId} (hn : v.nodeAt? u = some n) :
    v.root ≤ n := by
  -- every node is younger than its parent, up to the root
  induction n using Nat.strongRecOn generalizing u with
  | ind n ih =>
    cases u with
    | null => exact Nat.le_of_eq (Option.some.inj hn)
    | string id =>
      obtain ⟨i, -, parent, -, -, hparent, hlt, -⟩ := h.node id n hn
      exact Nat.le_of_lt (Nat.lt_of_le_of_lt (ih parent hlt hparent) hlt)
    | bool | int | number | list | object => simp [nodeAt?] at hn

theorem mem_ids (h : v.Mirrors name p s) {id : Text} (hid : id ∈ v.mapped.keys) : id ∈ p.ids := by
  obtain ⟨n, hn⟩ := (v.mem_keys_iff id).mp hid
  obtain ⟨i, -, -, hi, -⟩ := h.node id n hn
  exact (p.members.mem_keys_iff id).mpr ⟨i, hi⟩

theorem parent_mapped (h : v.Mirrors name p s) {id parent : Text} (hid : id ∈ v.mapped.keys)
    (hp : p.ParentOf parent id) : parent ∈ v.mapped.keys := by
  obtain ⟨n, hn⟩ := (v.mem_keys_iff id).mp hid
  obtain ⟨i, -, m, hi, -, hm, -⟩ := h.node id n hn
  obtain ⟨j, hj, hjp⟩ := hp
  obtain rfl : i = j := Option.some.inj (hi.symm.trans hj)
  rw [hjp] at hm
  exact (v.mem_keys_iff parent).mpr ⟨m, hm⟩

/-- A member whose parent is not mapped is not mapped either. -/
theorem not_mapped_of_reach (h : v.Mirrors name p s) {x y : Text} (hx : x ∉ v.mapped.keys)
    (hxy : Relation.ReflTransGen p.ParentOf x y) : y ∉ v.mapped.keys := by
  induction hxy with
  | refl => exact hx
  | tail _ hstep ih => exact fun hy => ih (h.parent_mapped hy hstep)

end Mirrors

end View

end SuiteView
