import SuiteView.Proofs.Identity
import SuiteView.Proofs.View.Admission
import SuiteView.Proofs.View.Interleaving
import SuiteView.View.Replay

/-!
# Views under different names

A view is given a name for its root, which is then the one node without a stable id. Nothing else is
named after it, and no question about the members looks at it. So two views of one plan that map the same
members in the same order give the same answers whatever their names are, and an insertion comes to the
same in both.
-/

namespace SuiteView

/-! ### The same answers -/

theorem View.any_mapped (v : View) (holds : NodeId → Bool) :
    (v.mapped.any fun entry => holds entry.2) = !(v.matching holds).isEmpty := by
  rw [matching, Table.keys, List.isEmpty_map, Bool.eq_iff_iff, List.any_eq_true]
  simp

namespace View.Mirrors

variable {v w : View} {name name' : Text} {p : Plan} {s t : NodeStore}

theorem identifierFor?_eq (hv : v.Mirrors name p s) (hw : w.Mirrors name' p t) (hf : p.IsForest)
    {id : Text} {n m : NodeId} (hn : v.nodeFor? id = some n) (hm : w.nodeFor? id = some m) :
    w.identifierFor? p t m = v.identifierFor? p s n := by
  obtain ⟨i, hi, rfl⟩ := hv.identifierFor?_node hf hn
  have hget := ((hv.identifierFor?_eq_some_iff hf n i).mp hi).2
  rw [hi, hw.identifierFor?_eq_some_iff hf]
  exact ⟨hm, hget⟩

end View.Mirrors

namespace Bridge

/-- Two views of one plan that map the same members in the same order; their names may differ. -/
structure Twins (name name' : Text) (b c : Bridge) : Prop where
  forest : b.plan.IsForest
  plan_eq : c.plan = b.plan
  left : b.view.Mirrors name b.plan b.nodes
  right : c.view.Mirrors name' c.plan c.nodes
  keys_eq : c.view.mapped.keys = b.view.mapped.keys

variable {name name' : Text} {b c : Bridge}

/-- Both views open, as twins, or neither does. -/
theorem create_twins {p : Plan} (hf : p.IsForest) (s t : NodeStore) (name name' : Text) :
    SameOutcome (Twins name name') (create p s name) (create p t name') :=
  (create_sameOutcome (.refl hf) s t name).imp fun b c hb hc => by
    have hgb := create_grown hf hb
    have hgc := create_grown hf hc
    have hplan : b.plan = p := hgb.plan_eq
    have hplan' : c.plan = p := hgc.plan_eq
    refine ⟨hplan ▸ hf, hplan'.trans hplan.symm, hgb.mirrors, hgc.mirrors, ?_⟩
    rw [create_keys hf hc, create_keys hf hb]

/-- What comes of an insertion that fails: nothing, or a member of the plan that cannot be named. -/
theorem insertUnder_failed {i : Identifier} {parent : Value} {e : InsertError}
    (h : (b.insertUnder i parent).2 = .error e) :
    ((b.insertUnder i parent).1 = b ∧ ∀ cause, e ≠ .naming cause) ∨
      ∃ p cause, e = .naming cause ∧ b.plan.add i = .ok p ∧
        (b.insertUnder i parent).1 = b.withPlan p := by
  rcases b.insertUnder_cases i parent with
    ⟨e', hins, hne⟩ | ⟨q, above, p, -, -, -, ha, ⟨cause, -, hins⟩ | ⟨b', n, -, hins⟩⟩
  · rw [hins] at h ⊢
    obtain rfl := Except.error.inj h
    exact .inl ⟨rfl, hne⟩
  · rw [hins] at h ⊢
    exact .inr ⟨p, cause, (Except.error.inj h).symm, ha, rfl⟩
  · rw [hins] at h
    cases h

namespace Twins

theorem right_mirrors (h : Twins name name' b c) : c.view.Mirrors name' b.plan c.nodes :=
  h.plan_eq ▸ h.right

theorem sameKeys (h : Twins name name' b c) : b.view.SameKeys c.view := fun id => by rw [h.keys_eq]

theorem maps_iff (h : Twins name name' b c) (parent : Value) :
    c.view.Maps parent ↔ b.view.Maps parent := by
  rw [View.Maps, View.Maps, h.keys_eq]

theorem leaves_eq (h : Twins name name' b c) {f : Filter} (hfree : f.nodeFree = true) :
    c.view.leaves b.plan (f.holds c.nodes) = b.view.leaves b.plan (f.holds b.nodes) :=
  h.left.leaves_eq h.right_mirrors h.keys_eq fun _ _ _ hn hm =>
    Filter.holds_of_sameFace (h.left.sameFace h.right_mirrors hn hm) f hfree

/-! ### Insertions -/

theorem insertUnder_outcome (h : Twins name name' b c) (i : Identifier) (parent : Value) :
    SameOutcome (fun _ _ => True) (b.insertUnder i parent).2 (c.insertUnder i parent).2 := by
  have hmaps := h.maps_iff parent
  have hids : c.plan.ids = b.plan.ids := congrArg Plan.ids h.plan_eq
  have hverdict := insertUnder_verdict h.left i parent
  generalize (b.insertUnder i parent).2 = result at hverdict ⊢
  cases hverdict with
  | unusable key =>
    rw [insertUnder_of_unusable key]
    exact .failed _
  | unmapped key unmapped =>
    rw [insertUnder_of_unmapped key (mt hmaps.mp unmapped)]
    exact .failed _
  | misplaced maps other =>
    rw [insertUnder_of_misplaced (hmaps.mpr maps) other]
    exact .failed _
  | duplicate maps declared taken =>
    rw [insertUnder_of_duplicate (hmaps.mpr maps) declared (hids ▸ taken)]
    exact .failed _
  | unnamed got maps declared free test location =>
    rw [insertUnder_of_unnamed h.right (hmaps.mpr maps) declared (hids ▸ free) test location]
    exact .failed _
  | accepted n maps declared free nameable =>
    obtain ⟨m, hm⟩ := insertUnder_of_nameable h.right (hmaps.mpr maps) declared (hids ▸ free) nameable
    rw [hm]
    exact .done trivial

theorem withPlan (h : Twins name name' b c) {i : Identifier} {p q : Plan}
    (hp : b.plan.add i = .ok p) (hq : c.plan.add i = .ok q) :
    Twins name name' (b.withPlan p) (c.withPlan q) := by
  have hsame : q = p := by
    rw [h.plan_eq, hp] at hq
    exact (Except.ok.inj hq).symm
  subst hsame
  exact ⟨h.forest.add hp, rfl, h.left.of_add h.forest hp,
    h.right_mirrors.of_add h.forest hp, h.keys_eq⟩

/- Only a fault in naming leaves a trace, and what it leaves is the same plan on both sides. -/
theorem insertUnder_failed (h : Twins name name' b c) {i : Identifier} {parent : Value}
    {e : InsertError} (hb : (b.insertUnder i parent).2 = .error e)
    (hc : (c.insertUnder i parent).2 = .error e) :
    Twins name name' (b.insertUnder i parent).1 (c.insertUnder i parent).1 := by
  rcases Bridge.insertUnder_failed hb with ⟨hkept, hne⟩ | ⟨p, cause, rfl, hp, hadded⟩
  · rcases Bridge.insertUnder_failed hc with ⟨hkept', -⟩ | ⟨q, cause, rfl, -, -⟩
    · rw [hkept, hkept']
      exact h
    · exact absurd rfl (hne cause)
  · rcases Bridge.insertUnder_failed hc with ⟨-, hne⟩ | ⟨q, cause', -, hq, hadded'⟩
    · exact absurd rfl (hne cause)
    · rw [hadded, hadded']
      exact h.withPlan hp hq

theorem insertUnder_done (h : Twins name name' b c) {i : Identifier} {parent : Value} {n m : NodeId}
    (hb : (b.insertUnder i parent).2 = .ok n) (hc : (c.insertUnder i parent).2 = .ok m) :
    Twins name name' (b.insertUnder i parent).1 (c.insertUnder i parent).1 ∧
      (b.insertUnder i parent).1.view.nodeFor? i.uniqueId = some n ∧
      (c.insertUnder i parent).1.view.nodeFor? i.uniqueId = some m := by
  obtain ⟨_, _, -, rfl, hinb, hmb⟩ := insertUnder_ok h.forest h.left (Prod.ext rfl hb)
  obtain ⟨_, _, -, rfl, hinc, hmc⟩ :=
    insertUnder_ok (h.plan_eq ▸ h.forest) h.right (Prod.ext rfl hc)
  have hplan : (c.insertUnder i parent).1.plan = (b.insertUnder i parent).1.plan := by
    have hadd := hinc.plan
    rw [h.plan_eq, hinb.plan] at hadd
    exact (Except.ok.inj hadd).symm
  have hkeys := hinb.keys
  rw [← h.keys_eq, ← hinc.keys] at hkeys
  refine ⟨⟨h.forest.add hinb.plan, hplan, hmb, hmc, hkeys.symm⟩, ?_, ?_⟩
  · rw [hinb.nodeFor? h.left, if_pos rfl]
  · rw [hinc.nodeFor? h.right, if_pos rfl]

/-- Twins stay twins, and where a member is inserted, both have mapped it. -/
theorem insertUnder (h : Twins name name' b c) (i : Identifier) (parent : Value) :
    Twins name name' (b.insertUnder i parent).1 (c.insertUnder i parent).1 ∧
      SameOutcome (fun n m => (b.insertUnder i parent).1.view.nodeFor? i.uniqueId = some n ∧
        (c.insertUnder i parent).1.view.nodeFor? i.uniqueId = some m)
        (b.insertUnder i parent).2 (c.insertUnder i parent).2 := by
  have houtcome := h.insertUnder_outcome i parent
  generalize hb : (b.insertUnder i parent).2 = result at houtcome ⊢
  generalize hc : (c.insertUnder i parent).2 = result' at houtcome ⊢
  cases houtcome with
  | failed e => exact ⟨h.insertUnder_failed hb hc, .failed e⟩
  | done _ =>
    obtain ⟨htwins, hn, hm⟩ := h.insertUnder_done hb hc
    exact ⟨htwins, .done ⟨hn, hm⟩⟩

/-- The replays end alike, after as many entries. -/
theorem replay (h : Twins name name' b c)
    (reads : List (Except Manifest.Error (Identifier × Text))) :
    Twins name name' (b.replay reads).1 (c.replay reads).1 ∧
      (c.replay reads).2 = (b.replay reads).2 := by
  induction reads generalizing b c with
  | nil => exact ⟨h, rfl⟩
  | cons read rest ih =>
    cases read with
    | error cause => exact ⟨h, rfl⟩
    | ok late =>
      obtain ⟨i, parent⟩ := late
      obtain ⟨hafter, houtcome⟩ := h.insertUnder i (.string parent)
      change Twins name name' (b.insert i parent).1 (c.insert i parent).1 at hafter
      change SameOutcome _ (b.insert i parent).2 (c.insert i parent).2 at houtcome
      unfold Bridge.replay
      generalize b.insert i parent = r at hafter houtcome ⊢
      generalize c.insert i parent = r' at hafter houtcome ⊢
      obtain ⟨b', result⟩ := r
      obtain ⟨c', result'⟩ := r'
      cases houtcome with
      | failed cause => exact ⟨hafter, rfl⟩
      | done _ => exact ih hafter

end Twins

end Bridge

end SuiteView
