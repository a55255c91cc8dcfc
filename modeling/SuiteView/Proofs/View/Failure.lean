import SuiteView.Proofs.Session

/-!
# What a failed insertion leaves behind

Every refusal comes before the first write. Naming the new node comes after the plan has taken the
member, so a test with a location of no use ends up in the plan without a node, and its id is taken
from then on.
-/

namespace SuiteView

namespace Bridge

variable {name : Text} {b : Bridge}

/-- Nothing is wrong with the call but the location of the test. -/
structure Loses (b : Bridge) (i : Identifier) (parent : Value) : Prop where
  is_test : i.kind = .test
  not_located : ¬ i.IsLocated
  under_mapped : ∃ q, parent = .string q ∧ i.parent = .string q ∧ q ∈ b.view.mapped.keys
  free : i.uniqueId ∉ b.plan.ids

theorem loses_of_naming_error {i : Identifier} {q : Text} {above : NodeId} {p : Plan}
    {cause : NamingError} (hq : i.parent = .string q) (habove : b.view.nodeFor? q = some above)
    (ha : b.plan.add i = .ok p) (hcause : i.label p = .error cause) :
    b.Loses i (.string q) := by
  obtain ⟨htest, got, hgot, -⟩ := (i.label_error_iff p cause).mp hcause
  exact ⟨htest, fun hloc => hloc got hgot, ⟨q, rfl, hq, (b.view.mem_keys_iff q).mpr ⟨above, habove⟩⟩,
    (Plan.add_cases ha).1⟩

/-- Such a call fails in naming, with the member in the plan. -/
theorem insertUnder_of_loses (hm : b.view.Mirrors name b.plan b.nodes) {i : Identifier}
    {parent : Value} (h : b.Loses i parent) :
    ∃ p got, i.location = some (.unsupported got) ∧ b.plan.add i = .ok p ∧
      b.insertUnder i parent =
        (b.withPlan p, .error (.naming (.unsupportedLocation i.uniqueId got))) := by
  obtain ⟨q, rfl, hq, hmapped⟩ := h.under_mapped
  obtain ⟨above, habove⟩ := (b.view.mem_keys_iff q).mp hmapped
  obtain ⟨got, hgot⟩ : ∃ got, i.location = some (.unsupported got) := by
    by_contra hnone
    exact h.not_located fun got hgot => hnone ⟨got, hgot⟩
  have ha := Plan.add_of_free h.free hq (hm.mem_ids hmapped)
  have hlabel := (i.label_error_iff (b.plan.addChild q i) _).mpr ⟨h.is_test, got, hgot, rfl⟩
  have hattach := attach_of_error (b := b.withPlan (b.plan.addChild q i)) hlabel above
  refine ⟨_, got, hgot, ha, ?_⟩
  rw [insertUnder_of_add hq habove ha, hattach]

/-- A taken id is refused, whatever else the member brings. -/
theorem insertUnder_of_taken {j : Identifier} {q : Text} (hmapped : q ∈ b.view.mapped.keys)
    (hq : j.parent = .string q) (htaken : j.uniqueId ∈ b.plan.ids) :
    b.insertUnder j (.string q) = (b, .error (.plan (.duplicateId j.uniqueId))) := by
  obtain ⟨above, habove⟩ := (b.view.mem_keys_iff q).mp hmapped
  show b.insert j q = _
  unfold insert
  simp only [habove, hq, ne_eq, not_true_eq_false, if_false, Plan.add_of_taken htaken]

/-- A failed insertion never touches the nodes or the view. It leaves the plan alone exactly if it
does not lose its member; if it does, the plan has grown by the member, and the same insertion with
any other location is refused. -/
theorem failed_insert (hm : b.view.Mirrors name b.plan b.nodes) {i : Identifier} {parent : Value}
    {b' : Bridge} {e : InsertError} (h : b.insertUnder i parent = (b', .error e)) :
    b'.nodes = b.nodes ∧ b'.view = b.view ∧ (b'.plan = b.plan ↔ ¬ b.Loses i parent) ∧
      (b.Loses i parent → b.plan.add i = .ok b'.plan ∧
        ∀ j : Identifier, j.uniqueId = i.uniqueId → j.parent = i.parent →
          b'.insertUnder j parent = (b', .error (.plan (.duplicateId i.uniqueId)))) := by
  by_cases hlost : b.Loses i parent
  · obtain ⟨p, got, -, ha, hins⟩ := insertUnder_of_loses hm hlost
    rw [hins] at h
    obtain ⟨rfl, -⟩ := Prod.mk.inj h
    have hgrown : i.uniqueId ∈ p.ids := by
      rw [Plan.ids_add ha]
      exact List.mem_append_right _ (List.mem_singleton_self _)
    have hchanged : (b.withPlan p).plan ≠ b.plan := fun he => hlost.free (he ▸ hgrown)
    refine ⟨rfl, rfl, iff_of_false hchanged (not_not_intro hlost), fun _ => ⟨ha, ?_⟩⟩
    intro j hid hparent
    obtain ⟨q, rfl, hq, hmapped⟩ := hlost.under_mapped
    rw [← hid] at hgrown ⊢
    exact insertUnder_of_taken (b := b.withPlan p) hmapped (hparent.trans hq) hgrown
  · rcases b.insertUnder_cases i parent with
      ⟨e', hins, -⟩ | ⟨q, above, p, rfl, hq, habove, ha, ⟨cause, hcause, -⟩ | ⟨b₁, n, -, hins⟩⟩
    · rw [hins] at h
      obtain ⟨rfl, -⟩ := Prod.mk.inj h
      exact ⟨rfl, rfl, iff_of_true rfl hlost, fun hl => absurd hl hlost⟩
    · exact absurd (loses_of_naming_error hq habove ha hcause) hlost
    · rw [hins] at h
      cases (Prod.mk.inj h).2

end Bridge

namespace Session

/-- In every view of every session, a failed insertion is without a trace unless the call is one that
loses its member; then the same insertion with any other location is refused. -/
theorem run_failed_insert (s : NodeStore) (ops : List Op) (v : View)
    (hv : v ∈ ((start s).run ops).views) (i : Identifier) (parent : Value) (b : Bridge)
    (e : Bridge.InsertError)
    (h : (((start s).run ops).bridge v).insertUnder i parent = (b, .error e)) :
    b.nodes = ((start s).run ops).nodes ∧ b.view = v ∧
      (b.plan = ((start s).run ops).plan ↔ ¬ (((start s).run ops).bridge v).Loses i parent) ∧
      ((((start s).run ops).bridge v).Loses i parent →
        ((start s).run ops).plan.add i = .ok b.plan ∧
        ∀ j : Identifier, j.uniqueId = i.uniqueId → j.parent = i.parent →
          b.insertUnder j parent = (b, .error (.plan (.duplicateId i.uniqueId)))) := by
  obtain ⟨name, hm⟩ := (run_sound s ops).mirrors_of_mem hv
  exact Bridge.failed_insert (b := ((start s).run ops).bridge v) hm h

/-- A plan of one container, and a view on it. -/
def oneSuite : List Op :=
  [.add ⟨[.char 'a'], [.char 'A'], .container, none, .null⟩, .openView [.char 'r']]

def unnamed : Identifier :=
  ⟨[.char 't'], [.char 'T'], .test, some (.unsupported (.int 5)), .string [.char 'a']⟩

theorem unnamed_failed_insert : ∃ v ∈ ((start .empty).run oneSuite).views, ∃ b e,
    (((start .empty).run oneSuite).bridge v).insertUnder unnamed (.string [.char 'a']) =
      (b, .error e) ∧ (b.plan = ((start .empty).run oneSuite).plan ↔
        ¬ (((start .empty).run oneSuite).bridge v).Loses unnamed (.string [.char 'a'])) := by
  have hlast : ((start .empty).run oneSuite).views[0]? = some ⟨0, [([.char 'a'], 1)]⟩ := rfl
  have hv := List.mem_of_getElem? hlast
  exact ⟨_, hv, _, _, rfl, (run_failed_insert .empty oneSuite _ hv unnamed _ _ _ rfl).2.2.1⟩

/-- The call fails, and the test stays in the plan; without it, the same test could be inserted under
a location of use, after it no more. -/
theorem unnamed_leaves_trace : ∃ v ∈ ((start .empty).run oneSuite).views, ∃ b e,
    (((start .empty).run oneSuite).bridge v).insertUnder unnamed (.string [.char 'a']) =
      (b, .error e) ∧
    ((start .empty).run oneSuite).plan.ids = [[.char 'a']] ∧
    b.plan.ids = [[.char 'a'], [.char 't']] ∧
    ((((start .empty).run oneSuite).bridge v).insertUnder
      { unnamed with location := none } (.string [.char 'a'])).2 = .ok 2 ∧
    (b.insertUnder { unnamed with location := none } (.string [.char 'a'])).2 =
      .error (.plan (.duplicateId [.char 't'])) := by
  have hlast : ((start .empty).run oneSuite).views[0]? = some ⟨0, [([.char 'a'], 1)]⟩ := rfl
  exact ⟨_, List.mem_of_getElem? hlast, _, _, rfl, rfl, rfl, rfl, rfl⟩

/-! ### No way back -/

variable {σ : Session}

theorem Sound.step_get? (h : σ.Sound) (op : Op) {id : Text} {i : Identifier}
    (hi : σ.plan.get? id = some i) : (σ.step op).plan.get? id = some i := by
  cases op with
  | add j =>
    simp only [Session.step]
    cases ha : σ.plan.add j with
    | ok p => exact Plan.get?_add_of_mem ha hi
    | error cause => exact hi
  | openView name =>
    simp only [Session.step]
    cases hb : Bridge.create σ.plan σ.nodes name with
    | ok b =>
      have hplan : b.plan = σ.plan := (Bridge.create_grown h.forest hb).plan_eq
      show b.plan.get? id = some i
      rw [hplan, hi]
    | error cause => exact hi
  | insert k j parent =>
    simp only [Session.step]
    cases hv : σ.views[k]? with
    | none => exact hi
    | some v =>
      rcases (σ.bridge v).insertUnder_plan j parent with hsame | ha
      · show ((σ.bridge v).insertUnder j parent).1.plan.get? id = some i
        rw [hsame]
        exact hi
      · exact Plan.get?_add_of_mem ha hi

theorem Sound.run_get? (h : σ.Sound) (ops : List Op) {id : Text} {i : Identifier}
    (hi : σ.plan.get? id = some i) : (σ.run ops).plan.get? id = some i := by
  induction ops generalizing σ with
  | nil => exact hi
  | cons op ops ih => exact ih (h.step op) (h.step_get? op hi)

/-- A test that cannot be named is never shown, by no view that there is and by none that will be. -/
theorem Sound.never_mapped (h : σ.Sound) {i : Identifier} (hi : σ.plan.get? i.uniqueId = some i)
    (htest : i.kind = .test) (hloc : ¬ i.IsLocated) (ops : List Op) (v : View)
    (hv : v ∈ (σ.run ops).views) : i.uniqueId ∉ v.mapped.keys := by
  intro hmapped
  obtain ⟨name, hm⟩ := (h.run ops).mirrors_of_mem hv
  obtain ⟨n, hn⟩ := (v.mem_keys_iff _).mp hmapped
  obtain ⟨j, label, -, hj, hlabel, -⟩ := hm.node _ n hn
  obtain rfl : i = j := Option.some.inj ((h.run_get? ops hi).symm.trans hj)
  apply hloc
  intro got hgot
  rw [(i.label_error_iff _ _).mpr ⟨htest, got, hgot, rfl⟩] at hlabel
  cases hlabel

end Session

end SuiteView
