import SuiteView.Proofs.Target

/-!
# From nodes back to members

A view is asked which member a node stands for. It answers by the node itself, not by what the node
carries: a node of another view, or one that is made by hand with the stable id of a member, counts as
equal to the node that is mapped and is unknown all the same. Main statement: the two lookups of a view
undo each other on the nodes that it has mapped, and the reverse one knows no other node.
-/

namespace SuiteView

namespace View.Mirrors

variable {v : View} {name : Text} {p : Plan} {s : NodeStore}

/-! ### One view -/

theorem identifierFor?_eq_some_iff (h : v.Mirrors name p s) (hf : p.IsForest) (n : NodeId)
    (i : Identifier) : v.identifierFor? p s n = some i ↔
      v.nodeFor? i.uniqueId = some n ∧ p.get? i.uniqueId = some i := by
  constructor
  · intro hfound
    obtain ⟨id, -, hid⟩ := Option.bind_eq_some_iff.mp hfound
    split at hid
    · rename_i hn
      rw [hf.uniqueId_of_get? hid]
      exact ⟨hn, hid⟩
    · cases hid
  · rintro ⟨hn, hi⟩
    rw [identifierFor?, h.stableIdOf?_node hn, Option.bind_some, if_pos hn, hi]

/-- A node is known if it is mapped, as the member to whose id it is mapped. -/
theorem identifierFor?_node (h : v.Mirrors name p s) (hf : p.IsForest) {id : Text} {n : NodeId}
    (hn : v.nodeFor? id = some n) : ∃ i, v.identifierFor? p s n = some i ∧ i.uniqueId = id := by
  obtain ⟨i, -, -, hi, -⟩ := h.node id n hn
  obtain rfl := hf.uniqueId_of_get? hi
  exact ⟨i, (h.identifierFor?_eq_some_iff hf n i).mpr ⟨hn, hi⟩, rfl⟩

theorem identifierFor?_eq_none_iff (h : v.Mirrors name p s) (hf : p.IsForest) (n : NodeId) :
    v.identifierFor? p s n = none ↔ ∀ id, v.nodeFor? id ≠ some n := by
  constructor
  · intro hnone id hn
    obtain ⟨i, hi, -⟩ := h.identifierFor?_node hf hn
    rw [hnone] at hi
    cases hi
  · intro hunmapped
    cases hfound : v.identifierFor? p s n with
    | none => rfl
    | some i => exact absurd ((h.identifierFor?_eq_some_iff hf n i).mp hfound).1 (hunmapped _)

theorem identifierFor?_of_not_owned (h : v.Mirrors name p s) (hf : p.IsForest) {n : NodeId}
    (hn : n ∉ v.owned) : v.identifierFor? p s n = none :=
  (h.identifierFor?_eq_none_iff hf n).mpr fun _ hid => hn (h.mem_owned (u := .string _) hid)

/-- The root goes by itself, so it is equal to no node that has a stable id. -/
theorem root_not_same {w : View} {name' : Text} (h : v.Mirrors name p s) (h' : w.Mirrors name' p s)
    {id : Text} {m : NodeId} (hm : w.nodeFor? id = some m) : s.same v.root m = false := by
  rw [NodeStore.same, h.keyOf_root, h'.keyOf_node hm]
  exact decide_eq_false NodeStore.Key.noConfusion

end View.Mirrors

namespace Session

/-! ### Nodes made by hand -/

/-- What goes on around the views: a step of the session, or a node that is made by hand. -/
inductive Move where
  | step (op : Op)
  | make (node : Node)

def withNode (σ : Session) (node : Node) : Session := { σ with nodes := σ.nodes.push node }

def move (σ : Session) : Move → Session
  | .step op => σ.step op
  | .make node => σ.withNode node

def play (σ : Session) (moves : List Move) : Session := moves.foldl move σ

/-- The node is there, and no view has it for its root or has mapped it. -/
structure Loose (σ : Session) (n : NodeId) (node : Node) : Prop where
  stands : σ.nodes.get? n = some node
  unowned : ∀ v ∈ σ.views, n ∉ v.owned

variable {σ : Session}

theorem play_append (σ : Session) (moves later : List Move) :
    σ.play (moves ++ later) = (σ.play moves).play later :=
  List.foldl_append ..

theorem nodes_withNode_of_lt (node : Node) {n : NodeId} (hn : n < σ.nodes.size) :
    (σ.withNode node).nodes.get? n = σ.nodes.get? n := by
  show (σ.nodes.push node).get? n = _
  rw [NodeStore.get?_push, if_neg (Nat.ne_of_lt hn)]

namespace Sound

theorem withNode (h : σ.Sound) (node : Node) : (σ.withNode node).Sound where
  forest := h.forest
  mirrors k v hv := by
    obtain ⟨name, hm⟩ := h.mirrors k v hv
    exact ⟨name, hm.of_frame fun n hn => nodes_withNode_of_lt node (hm.owned_lt hn)⟩
  apart := h.apart

theorem move (h : σ.Sound) (m : Move) : (σ.move m).Sound := by
  cases m with
  | step op => exact h.step op
  | make node => exact h.withNode node

theorem play (h : σ.Sound) (moves : List Move) : (σ.play moves).Sound := by
  induction moves generalizing σ with
  | nil => exact h
  | cons m moves ih => exact ih (h.move m)

/- A view takes nodes of its own making: what it owns and was there before the step, it owned before. -/
theorem owned_of_lt (h : σ.Sound) (op : Op) {w : View} (hw : w ∈ (σ.step op).views) {n : NodeId}
    (hn : n ∈ w.owned) (hlt : n < σ.nodes.size) : ∃ v ∈ σ.views, n ∈ v.owned := by
  cases op with
  | add i =>
    have hviews : (σ.step (.add i)).views = σ.views := by
      simp only [Session.step]
      split <;> rfl
    exact ⟨w, hviews ▸ hw, hn⟩
  | openView name =>
    simp only [Session.step] at hw
    cases hb : Bridge.create σ.plan σ.nodes name with
    | error cause =>
      rw [hb] at hw
      exact ⟨w, hw, hn⟩
    | ok b =>
      rw [hb] at hw
      rcases List.mem_append.mp hw with hold | hnew
      · exact ⟨w, hold, hn⟩
      · obtain rfl := List.mem_singleton.mp hnew
        have hg := Bridge.create_grown h.forest hb
        have hroot : b.view.root = σ.nodes.size := hg.root_eq
        obtain ⟨u, hu⟩ := (hg.mirrors.mem_owned_iff n).mp hn
        exact absurd hlt (Nat.not_lt.mpr (hroot ▸ hg.mirrors.root_le hu))
  | insert k i parent =>
    have hlen : (σ.step (.insert k i parent)).views.length = σ.views.length := by
      simp only [Session.step]
      split
      · exact List.length_set
      · rfl
    cases h.effect (.insert k i parent) with
    | planOnly _ _ views => exact ⟨w, views ▸ hw, hn⟩
    | opened v _ _ views =>
      rw [views, List.length_append] at hlen
      exact absurd hlen (Nat.succ_ne_self _)
    | inserted j v i above label view _ _ _ views =>
      rw [views] at hw
      rcases List.mem_or_eq_of_mem_set hw with hold | rfl
      · exact ⟨w, hold, hn⟩
      · rw [View.owned_mapLast] at hn
        rcases List.mem_append.mp hn with hold | hnew
        · exact ⟨v, List.mem_of_getElem? view, hold⟩
        · exact absurd hlt (Nat.not_lt.mpr (Nat.le_of_eq (List.mem_singleton.mp hnew).symm))

theorem loose_step (h : σ.Sound) (op : Op) {n : NodeId} {node : Node} (hn : σ.Loose n node) :
    (σ.step op).Loose n node := by
  have hlt := NodeStore.lt_size_of_get? hn.stands
  refine ⟨?_, ?_⟩
  · rw [← hn.stands]
    cases h.effect op with
    | planOnly _ nodes => rw [nodes]
    | opened _ _ nodes => exact nodes n hlt
    | inserted k v i above label view _ parent nodes =>
      obtain ⟨name, hm⟩ := h.mirrors k v view
      have hne : n ≠ above := by
        rintro rfl
        exact hn.unowned v (List.mem_of_getElem? view) (hm.mem_owned parent)
      rw [nodes]
      exact σ.nodes.get?_withChild_of_ne (hm.lt_size parent) hlt hne label _
  · intro w hw hmem
    obtain ⟨v, hv, hold⟩ := h.owned_of_lt op hw hmem hlt
    exact hn.unowned v hv hold

theorem loose_play (h : σ.Sound) (moves : List Move) {n : NodeId} {node : Node}
    (hn : σ.Loose n node) : (σ.play moves).Loose n node := by
  induction moves generalizing σ with
  | nil => exact hn
  | cons m moves ih =>
    refine ih (h.move m) ?_
    cases m with
    | step op => exact h.loose_step op hn
    | make other =>
      have hlt := NodeStore.lt_size_of_get? hn.stands
      exact ⟨(nodes_withNode_of_lt other hlt).trans hn.stands, hn.unowned⟩

/-- A node that is made by hand belongs to no view. -/
theorem loose_withNode (h : σ.Sound) (node : Node) :
    (σ.withNode node).Loose σ.nodes.size node where
  stands := by
    show (σ.nodes.push node).get? σ.nodes.size = _
    rw [NodeStore.get?_push, if_pos rfl]
  unowned v hv hmem := by
    obtain ⟨name, hm⟩ := h.mirrors_of_mem hv
    exact Nat.lt_irrefl _ (hm.owned_lt hmem)

end Sound

/-! ### All views -/

/-- A view knows the nodes that it has mapped and no others, each as the member that the node carries
the id of; this id leads back to the node, and no two ids lead to one node. -/
structure Identifies (σ : Session) (v : View) : Prop where
  known_iff : ∀ n, (∃ i, v.identifierFor? σ.plan σ.nodes n = some i) ↔
    ∃ id, v.nodeFor? id = some n
  known : ∀ n i, v.identifierFor? σ.plan σ.nodes n = some i →
    σ.nodes.stableIdOf? n = some i.uniqueId ∧ σ.plan.get? i.uniqueId = some i ∧
      v.nodeFor? i.uniqueId = some n
  mapped : ∀ id n, v.nodeFor? id = some n →
    ∃ i, v.identifierFor? σ.plan σ.nodes n = some i ∧ i.uniqueId = id
  injective : ∀ x y n, v.nodeFor? x = some n → v.nodeFor? y = some n → x = y

/-- Two views have nodes of their own: those for the same id count as equal, and still none of the one
view is known to the other. -/
structure Apart (σ : Session) (v w : View) : Prop where
  equal : ∀ id n m, v.nodeFor? id = some n → w.nodeFor? id = some m →
    n ≠ m ∧ σ.nodes.same n m = true
  unknown : ∀ id m, w.nodeFor? id = some m → v.identifierFor? σ.plan σ.nodes m = none

theorem Sound.identifies (h : σ.Sound) {v : View} (hv : v ∈ σ.views) : σ.Identifies v := by
  obtain ⟨name, hm⟩ := h.mirrors_of_mem hv
  have hback := fun id n (hn : v.nodeFor? id = some n) => hm.identifierFor?_node h.forest hn
  refine ⟨?_, ?_, hback, fun x y n => hm.nodeFor?_injective⟩
  · intro n
    constructor
    · rintro ⟨i, hi⟩
      exact ⟨i.uniqueId, ((hm.identifierFor?_eq_some_iff h.forest n i).mp hi).1⟩
    · rintro ⟨id, hid⟩
      obtain ⟨i, hi, -⟩ := hback id n hid
      exact ⟨i, hi⟩
  · intro n i hi
    obtain ⟨hn, hget⟩ := (hm.identifierFor?_eq_some_iff h.forest n i).mp hi
    exact ⟨hm.stableIdOf?_node hn, hget, hn⟩

theorem Sound.views_apart (h : σ.Sound) {j k : Nat} {v w : View} (hne : j ≠ k)
    (hv : σ.views[j]? = some v) (hw : σ.views[k]? = some w) : σ.Apart v w := by
  obtain ⟨name, hm⟩ := h.mirrors j v hv
  obtain ⟨name', hm'⟩ := h.mirrors k w hw
  have hdisjoint := h.apart j k v w hne hv hw
  constructor
  · intro id n m hn hnm
    refine ⟨?_, ?_⟩
    · rintro rfl
      exact hdisjoint (hm.mem_owned (u := .string id) hn) (hm'.mem_owned (u := .string id) hnm)
    · rw [NodeStore.same, hm.keyOf_node hn, hm'.keyOf_node hnm]
      exact decide_eq_true rfl
  · intro id m hmapped
    refine hm.identifierFor?_of_not_owned h.forest fun hmem => ?_
    exact hdisjoint hmem (hm'.mem_owned (u := .string id) hmapped)

/-- However a session goes, and whatever nodes are made by hand in between: each view knows exactly the
nodes that it has mapped, and what is mapped in one view is unknown to the others. Roots are known to no
view and equal to no mapped node. A node made by hand stays as it is and unknown, whatever id it has. -/
theorem play_identifies (s : NodeStore) (moves : List Move) :
    (∀ v ∈ ((start s).play moves).views, ((start s).play moves).Identifies v) ∧
    (∀ (j k : Nat) (v w : View), j ≠ k → ((start s).play moves).views[j]? = some v →
      ((start s).play moves).views[k]? = some w → ((start s).play moves).Apart v w) ∧
    (∀ v ∈ ((start s).play moves).views, ∀ w ∈ ((start s).play moves).views,
      w.identifierFor? ((start s).play moves).plan ((start s).play moves).nodes v.root = none ∧
      ∀ id m, w.nodeFor? id = some m → ((start s).play moves).nodes.same v.root m = false) ∧
    ∀ before node later, moves = before ++ .make node :: later →
      ((start s).play moves).nodes.get? ((start s).play before).nodes.size = some node ∧
      ∀ v ∈ ((start s).play moves).views, v.identifierFor? ((start s).play moves).plan
        ((start s).play moves).nodes ((start s).play before).nodes.size = none := by
  have hs := (start_sound s).play moves
  refine ⟨fun v hv => hs.identifies hv, fun j k v w hne hv hw => hs.views_apart hne hv hw, ?_, ?_⟩
  · intro v hv w hw
    obtain ⟨name, hm⟩ := hs.mirrors_of_mem hv
    obtain ⟨name', hm'⟩ := hs.mirrors_of_mem hw
    refine ⟨?_, fun id m => hm.root_not_same hm'⟩
    refine (hm'.identifierFor?_eq_none_iff hs.forest _).mpr fun id hid => ?_
    have hkey := hm'.keyOf_node hid
    rw [hm.keyOf_root] at hkey
    cases hkey
  · rintro before node later rfl
    have hbefore := (start_sound s).play before
    rw [play_append] at hs ⊢
    have hloose := (hbefore.withNode node).loose_play later (hbefore.loose_withNode node)
    refine ⟨hloose.stands, fun v hv => ?_⟩
    obtain ⟨name, hm⟩ := hs.mirrors_of_mem hv
    exact hm.identifierFor?_of_not_owned hs.forest (hloose.unowned v hv)

/- Two views whose roots are named like the member `c`, and a node that is made in its likeness. -/
def lookAlikes : List Move :=
  [.step (.add ⟨[.char 'c'], [.char 'C'], .container, none, .null⟩),
   .step (.openView [.char 'c']),
   .step (.openView [.char 'c']),
   .make ⟨.suite [.char 'C'], some [.char 'c'], none, []⟩]

theorem lookAlikes_identified : ∃ σ v w c, σ = (start .empty).play lookAlikes ∧
    σ.views = [v, w] ∧ v.nodeFor? [.char 'c'] = some 1 ∧ w.nodeFor? [.char 'c'] = some 3 ∧
    σ.plan.get? [.char 'c'] = some c ∧
    (List.range 5).map (v.identifierFor? σ.plan σ.nodes) = [none, some c, none, none, none] ∧
    (List.range 5).map (σ.nodes.same 1) = [false, true, false, true, true] ∧
    σ.Identifies v ∧ σ.Apart v w ∧ σ.nodes.same v.root 3 = false ∧
    w.identifierFor? σ.plan σ.nodes 4 = none := by
  obtain ⟨hid, hapart, hroot, hmade⟩ := play_identifies .empty lookAlikes
  have hv : ((start .empty).play lookAlikes).views[0]? = some ⟨0, [([.char 'c'], 1)]⟩ := rfl
  have hw : ((start .empty).play lookAlikes).views[1]? = some ⟨2, [([.char 'c'], 3)]⟩ := rfl
  have hv' := List.mem_of_getElem? hv
  have hw' := List.mem_of_getElem? hw
  exact ⟨_, _, _, _, rfl, rfl, rfl, rfl, rfl, rfl, rfl, hid _ hv',
    hapart 0 1 _ _ Nat.zero_ne_one hv hw, (hroot _ hv' _ hw').2 [.char 'c'] 3 rfl,
    (hmade (lookAlikes.take 3) _ [] rfl).2 _ hw'⟩

end Session

end SuiteView
