import SuiteView.Proofs.Plan.Interleaving
import SuiteView.Proofs.View.Growth

/-!
# Views on interleaved plans

Opening a view follows the siblings from the roots downwards and never asks in which order the members
of different parents came. So the views that are opened on two interleaved plans fail for the same
reason, or they show the same tree, map the same members in the same order, and list the same leaves
for every predicate that goes by what a node shows.
-/

namespace SuiteView

/-- Both runs fail for the same reason, or both succeed with results that are related. -/
inductive SameOutcome {ε α β : Type} (R : α → β → Prop) : Except ε α → Except ε β → Prop where
  | failed (cause : ε) : SameOutcome R (.error cause) (.error cause)
  | done {a : α} {b : β} (related : R a b) : SameOutcome R (.ok a) (.ok b)

namespace SameOutcome

variable {ε α β γ δ : Type} {R : α → β → Prop} {S : γ → δ → Prop}

theorem refl (x : Except ε α) : SameOutcome Eq x x := by
  cases x with
  | error cause => exact .failed cause
  | ok a => exact .done rfl

theorem bind {x : Except ε α} {y : Except ε β} {f : α → Except ε γ} {g : β → Except ε δ}
    (h : SameOutcome R x y) (hnext : ∀ a b, R a b → SameOutcome S (f a) (g b)) :
    SameOutcome S (x >>= f) (y >>= g) := by
  cases h with
  | failed cause => exact .failed cause
  | done hab => exact hnext _ _ hab

theorem mono {S : α → β → Prop} {x : Except ε α} {y : Except ε β} (h : SameOutcome R x y)
    (hrelated : ∀ a b, R a b → S a b) : SameOutcome S x y := by
  cases h with
  | failed cause => exact .failed cause
  | done hab => exact .done (hrelated _ _ hab)

theorem imp {S : α → β → Prop} {x : Except ε α} {y : Except ε β} (h : SameOutcome R x y)
    (hrelated : ∀ a b, x = .ok a → y = .ok b → S a b) : SameOutcome S x y := by
  cases h with
  | failed cause => exact .failed cause
  | done _ => exact .done (hrelated _ _ rfl rfl)

theorem foldlM {f : α → γ → Except ε α} {g : β → γ → Except ε β}
    (hstep : ∀ a b, R a b → ∀ x, SameOutcome R (f a x) (g b x)) (xs : List γ) {a : α} {b : β}
    (h : R a b) : SameOutcome R (xs.foldlM f a) (xs.foldlM g b) := by
  induction xs generalizing a b with
  | nil => exact .done h
  | cons x xs ih =>
    rw [List.foldlM_cons, List.foldlM_cons]
    exact (hstep a b h x).bind fun _ _ hab => ih hab

end SameOutcome

/-- The answer of a predicate that sees nothing of a node but its label and its stable id. -/
def NodeStore.seen (s : NodeStore) (sees : Label → Option Text → Bool) (n : NodeId) : Bool :=
  (s.get? n).any fun node => sees node.label node.stableId

theorem NodeStore.SameFace.seen_eq {s t : NodeStore} {n m : NodeId} (h : s.SameFace t n m)
    (sees : Label → Option Text → Bool) : s.seen sees n = t.seen sees m := by
  obtain ⟨x, y, hx, hy, hlabel, hid⟩ := h
  simp only [NodeStore.seen, hx, hy, Option.any_some, hlabel, hid]

namespace View

variable {v w : View} {name name' : Text} {p q : Plan} {s t : NodeStore}

/-- A mirror of the one plan is a mirror of the other. -/
theorem Mirrors.of_sameForest (h : v.Mirrors name q s) (hsame : p.SameForest q) :
    v.Mirrors name p s := by
  have hunder : ∀ u, v.nodesUnder q u = v.nodesUnder p u := fun u => by
    rw [nodesUnder, nodesUnder, hsame.under_eq]
  refine ⟨h.keys_nodup, h.owned_nodup, ?_, ?_⟩
  · rw [← hunder]
    exact h.root_node
  · intro id n hn
    obtain ⟨i, label, parent, hi, hlabel, hparent, hlt, hget⟩ := h.node id n hn
    rw [hsame.get?_eq] at hi
    rw [Identifier.label_congr (hsame.parent?_eq i.uniqueId)] at hlabel
    rw [hunder] at hget
    exact ⟨i, label, parent, hi, hlabel, hparent, hlt, hget⟩

/-- Views with the same mapping order find the same matches when their nodes match in pairs. -/
theorem Mirrors.matching_eq (hv : v.Mirrors name p s) (hw : w.Mirrors name' p t)
    (hkeys : w.mapped.keys = v.mapped.keys) {holds holds' : NodeId → Bool}
    (hpairs : ∀ id n m, v.nodeFor? id = some n → w.nodeFor? id = some m → holds n = holds' m) :
    w.matching holds' = v.matching holds := by
  rw [hv.matching_eq_filter, hw.matching_eq_filter, hkeys]
  refine List.filter_congr fun id hid => ?_
  obtain ⟨n, hn⟩ := (v.mem_keys_iff id).mp hid
  obtain ⟨m, hm⟩ := (w.mem_keys_iff id).mp (hkeys ▸ hid)
  rw [hn, hm, Option.any_some, Option.any_some, hpairs id n m hn hm]

theorem Mirrors.leaves_eq (hv : v.Mirrors name p s) (hw : w.Mirrors name' p t)
    (hkeys : w.mapped.keys = v.mapped.keys) {holds holds' : NodeId → Bool}
    (hpairs : ∀ id n m, v.nodeFor? id = some n → w.nodeFor? id = some m → holds n = holds' m) :
    w.leaves p holds' = v.leaves p holds := by
  rw [leaves, leaves, leafIds, leafIds, hv.matching_eq hw hkeys hpairs]

theorem leaves_of_sameForest (v : View) (h : p.SameForest q) (holds : NodeId → Bool) :
    v.leaves q holds = v.leaves p holds := by
  rw [leaves, leaves, leafIds, leafIds, h.lookup_eq]
  simp only [h.descendantIds_eq]

end View

namespace Bridge

/-- The views map the same members in the same order, each to a node with the same tree below it, and
what a predicate selects by label and stable id has the same leaves. -/
structure ShowsAlike (b c : Bridge) : Prop where
  tree : b.nodes.SameTree c.nodes b.view.root c.view.root
  order : c.view.mapped.keys = b.view.mapped.keys
  nodes : ∀ id n m, b.view.nodeFor? id = some n → c.view.nodeFor? id = some m →
    b.nodes.SameTree c.nodes n m
  leaves : ∀ sees, c.view.leaves c.plan (c.nodes.seen sees) = b.view.leaves b.plan (b.nodes.seen sees)

variable {p q : Plan} {name : Text}

/-! ### Side by side -/

theorem attach_sameOutcome (h : p.SameForest q) {b c : Bridge} (hplans : b.plan = p ∧ c.plan = q)
    (i : Identifier) (n m : NodeId) :
    SameOutcome (fun r r' => r.1.plan = p ∧ r'.1.plan = q) (b.attach i n) (c.attach i m) := by
  have hlabel : i.label c.plan = i.label b.plan := by
    rw [hplans.1, hplans.2, Identifier.label_congr (h.parent?_eq i.uniqueId)]
  unfold attach
  rw [hlabel]
  cases i.label b.plan with
  | error cause => exact .failed cause
  | ok label => exact .done hplans

/- The node numbers differ, so only the plans are compared: the recursion looks at nothing else. -/
theorem build_sameOutcome (h : p.SameForest q) (fuel : Nat) {b c : Bridge}
    (hplans : b.plan = p ∧ c.plan = q) (i : Identifier) (n m : NodeId) :
    SameOutcome (fun b c => b.plan = p ∧ c.plan = q) (build fuel b n i) (build fuel c m i) := by
  induction fuel generalizing b c i n m with
  | zero => exact .done hplans
  | succ fuel ih =>
    rw [build, build]
    refine (attach_sameOutcome h hplans i n m).bind fun r r' hr => ?_
    have hchildren : r'.1.plan.children i.uniqueId = r.1.plan.children i.uniqueId := by
      rw [hr.1, hr.2, h.children_eq]
    show SameOutcome _ ((r.1.plan.children i.uniqueId).foldlM _ r.1)
      ((r'.1.plan.children i.uniqueId).foldlM _ r'.1)
    rw [hchildren]
    exact SameOutcome.foldlM (fun _ _ hab child => ih hab child r.2 r'.2) _ hr

/- The names of the roots may differ, too: no other node is named after them. -/
theorem create_sameOutcome (h : p.SameForest q) (s t : NodeStore) (name : Text) {name' : Text} :
    SameOutcome (fun b c => b.plan = p ∧ c.plan = q) (create p s name) (create q t name') := by
  rw [create, create, h.roots_eq, h.size_eq]
  exact SameOutcome.foldlM (fun _ _ hab i => build_sameOutcome h p.size hab i s.size t.size) _
    ⟨rfl, rfl⟩

/-! ### Two opened views -/

theorem create_showsAlike (h : p.SameForest q) {s t : NodeStore} {b c : Bridge}
    (hb : create p s name = .ok b) (hc : create q t name = .ok c) : b.ShowsAlike c := by
  have hgb := create_grown h.left hb
  have hgc := create_grown h.right hc
  have hplan : b.plan = p := hgb.plan_eq
  have hplan' : c.plan = q := hgc.plan_eq
  have hm : b.view.Mirrors name p b.nodes := hplan ▸ hgb.mirrors
  have hm' : c.view.Mirrors name p c.nodes := (hplan' ▸ hgc.mirrors).of_sameForest h
  have horder : c.view.mapped.keys = b.view.mapped.keys := by
    rw [create_keys h.right hc, create_keys h.left hb, h.preorderIds_eq]
  have hkeys : b.view.SameKeys c.view := fun id => by rw [horder]
  refine ⟨?_, horder, ?_, ?_⟩
  · exact hm.sameTree hm' h.left hkeys (u := .null) rfl rfl
  · intro id n m hn hm₁
    exact hm.sameTree hm' h.left hkeys (u := .string id) hn hm₁
  · intro sees
    rw [hplan, hplan', c.view.leaves_of_sameForest h]
    exact hm.leaves_eq hm' horder fun id n m hn hm₁ => (hm.sameFace hm' hn hm₁).seen_eq sees

/-- A view opens exactly on the plans whose members can all be named. -/
theorem create_ok_iff (hf : p.IsForest) (s : NodeStore) (name : Text) :
    (∃ b, create p s name = .ok b) ↔ ∀ i ∈ p.toList, i.kind = .container ∨ i.IsLocated := by
  constructor
  · intro hopened i hi
    obtain ⟨b, hb⟩ := hopened
    have hg := create_grown hf hb
    have hplan : b.plan = p := hg.plan_eq
    have hmapped : i.uniqueId ∈ b.view.mapped.keys := by
      rw [create_keys hf hb]
      exact hf.mem_preorderIds ((p.members.mem_keys_iff _).mpr ⟨i, hf.get?_uniqueId hi⟩)
    obtain ⟨n, hn⟩ := (b.view.mem_keys_iff _).mp hmapped
    obtain ⟨j, label, -, hj, hlabel, -⟩ := hg.mirrors.node _ n hn
    rw [hplan, hf.get?_uniqueId hi] at hj
    obtain rfl := Option.some.inj hj
    exact (i.exists_label_iff _).mp ⟨label, hlabel⟩
  · intro hnameable
    exact create_ok (fun i hi => (i.exists_label_iff p).mpr (hnameable i hi)) s name

/-- Plans of interleaved lists give the same answers, and views opened on them show the same or fail
for the same reason; they fail exactly if a test among the members cannot be named. -/
theorem create_interleaved {is js : List Identifier} (h : Plan.Interleaves is js) {p q : Plan}
    (hp : Plan.ofList is = .ok p) (hq : Plan.ofList js = .ok q) (s t : NodeStore) (name : Text) :
    p.AnswersAlike q ∧ SameOutcome ShowsAlike (create p s name) (create q t name) ∧
      ((∃ b, create p s name = .ok b) ↔ ∀ i ∈ is, i.kind = .container ∨ i.IsLocated) := by
  have hsame := h.sameForest hp hq
  refine ⟨⟨hsame.roots_eq, hsame.children_eq, hsame.parent?_eq, hsame.descendants_eq, ?_⟩, ?_, ?_⟩
  · rw [Plan.toList_ofList hp, Plan.toList_ofList hq]
    exact h.perm.symm
  · exact (create_sameOutcome hsame s t name).imp fun b c hb hc => create_showsAlike hsame hb hc
  · rw [create_ok_iff hsame.left, Plan.toList_ofList hp]

def byLevel : List Identifier :=
  [⟨[.char 'a'], [.char 'A'], .container, none, .null⟩,
   ⟨[.char 'b'], [.char 'B'], .container, none, .null⟩,
   ⟨[.char 't'], [.char 'T'], .test, none, .string [.char 'a']⟩,
   ⟨[.char 'u'], [.char 'U'], .test, none, .string [.char 'b']⟩]

/- The same members, every suite with its test behind it. -/
def bySuite : List Identifier :=
  [⟨[.char 'a'], [.char 'A'], .container, none, .null⟩,
   ⟨[.char 't'], [.char 'T'], .test, none, .string [.char 'a']⟩,
   ⟨[.char 'b'], [.char 'B'], .container, none, .null⟩,
   ⟨[.char 'u'], [.char 'U'], .test, none, .string [.char 'b']⟩]

theorem byLevel_interleaved : ∃ p q, Plan.ofList byLevel = .ok p ∧ Plan.ofList bySuite = .ok q ∧
    p.ids ≠ q.ids ∧ p.AnswersAlike q ∧
    SameOutcome ShowsAlike (create p .empty [.char 'r']) (create q .empty [.char 'r']) ∧
    ∃ b, create p .empty [.char 'r'] = .ok b := by
  have hinterleaves : Plan.Interleaves byLevel bySuite := ⟨by decide, by decide⟩
  have hlocated : ∀ i ∈ byLevel, i.location = none := by decide
  obtain ⟨halike, houtcome, hopens⟩ :=
    create_interleaved hinterleaves rfl rfl .empty .empty [.char 'r']
  have hopened := hopens.mpr fun i hi => .inr (Identifier.isLocated_of_none (hlocated i hi))
  exact ⟨_, _, rfl, rfl, by decide, halike, houtcome, hopened⟩

end Bridge

end SuiteView
