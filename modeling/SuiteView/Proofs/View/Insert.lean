import SuiteView.Proofs.View.Build

/-!
# Inserting a member

An insertion either refuses before anything is written, or it adds the member to the plan and then
names its node. Naming fails for tests with an unsupported location, and only for these.
-/

namespace SuiteView

/-! ### Which members have a label -/

/-- The location, if there is one, is a class or a method. -/
def Identifier.IsLocated (i : Identifier) : Prop := ∀ got, i.location ≠ some (.unsupported got)

theorem Identifier.isLocated_of_none {i : Identifier} (h : i.location = none) : i.IsLocated := by
  intro got hgot
  rw [h] at hgot
  cases hgot

theorem Identifier.label_error_iff (i : Identifier) (p : Plan) (cause : NamingError) :
    i.label p = .error cause ↔ i.kind = .test ∧
      ∃ got, i.location = some (.unsupported got) ∧ cause = .unsupportedLocation i.uniqueId got := by
  unfold label
  cases hk : i.kind with
  | container => simp
  | test =>
    unfold resolve groupName caseName
    cases hl : i.location with
    | none => simp [bind, Except.bind, pure, Except.pure]
    | some l =>
      cases l with
      | ofClass c => simp [bind, Except.bind, pure, Except.pure]
      | ofMethod c m ps => simp [bind, Except.bind, pure, Except.pure]
      | unsupported got => simp [bind, Except.bind, eq_comm]

theorem Identifier.label_ok {i : Identifier} (h : i.IsLocated) (p : Plan) :
    ∃ label, i.label p = .ok label := by
  cases hl : i.label p with
  | ok label => exact ⟨label, rfl⟩
  | error cause =>
    obtain ⟨-, got, hgot, -⟩ := (i.label_error_iff p cause).mp hl
    exact absurd hgot (h got)

/-- A node can be named for a container, and for a test whose location, if there is one, is a class or
a method. -/
theorem Identifier.exists_label_iff (i : Identifier) (p : Plan) :
    (∃ label, i.label p = .ok label) ↔ i.kind = .container ∨ i.IsLocated := by
  constructor
  · intro hnamed
    obtain ⟨label, hlabel⟩ := hnamed
    by_contra hneither
    obtain ⟨hkind, hloc⟩ := not_or.mp hneither
    have htest : i.kind = .test := by
      cases hk : i.kind with
      | container => exact absurd hk hkind
      | test => rfl
    obtain ⟨got, hgot⟩ : ∃ got, i.location = some (.unsupported got) := by
      by_contra hnone
      exact hloc fun got hgot => hnone ⟨got, hgot⟩
    rw [(i.label_error_iff p _).mpr ⟨htest, got, hgot, rfl⟩] at hlabel
    cases hlabel
  · intro hnameable
    cases hlabel : i.label p with
    | ok label => exact ⟨label, rfl⟩
    | error cause =>
      obtain ⟨htest, got, hgot, -⟩ := (i.label_error_iff p cause).mp hlabel
      rcases hnameable with hkind | hloc
      · rw [hkind] at htest
        cases htest
      · exact absurd hgot (hloc got)

namespace Bridge

/-! ### What an insertion does -/

/-- The bridge with another plan behind the same view. -/
def withPlan (b : Bridge) (p : Plan) : Bridge := ⟨p, b.nodes, b.view⟩

/-- Once the plan has taken the member, naming its node decides. -/
theorem insertUnder_of_add {b : Bridge} {i : Identifier} {q : Text} {above : NodeId} {p : Plan}
    (hq : i.parent = .string q) (habove : b.view.nodeFor? q = some above)
    (ha : b.plan.add i = .ok p) :
    b.insertUnder i (.string q) =
      match (b.withPlan p).attach i above with
      | .error cause => (b.withPlan p, .error (.naming cause))
      | .ok (b', n) => (b', .ok n) := by
  show b.insert i q = _
  unfold insert
  simp only [habove, hq, ne_eq, not_true_eq_false, if_false, ha]
  rfl

theorem insert_refused_or_added (b : Bridge) (i : Identifier) (q : Text) :
    (∃ e, b.insert i q = (b, .error e) ∧ ∀ cause, e ≠ .naming cause) ∨
      ∃ above p, i.parent = .string q ∧ b.view.nodeFor? q = some above ∧ b.plan.add i = .ok p := by
  cases habove : b.view.nodeFor? q with
  | none =>
    refine .inl ⟨.unmappedParent q i.uniqueId, ?_, fun _ h => InsertError.noConfusion h⟩
    unfold insert
    rw [habove]
  | some above =>
    by_cases hdecl : i.parent = .string q
    · cases hadd : b.plan.add i with
      | error cause =>
        refine .inl ⟨.plan cause, ?_, fun _ h => InsertError.noConfusion h⟩
        unfold insert
        simp only [habove, hdecl, ne_eq, not_true_eq_false, if_false, hadd]
      | ok p => exact .inr ⟨above, p, hdecl, rfl, rfl⟩
    · refine .inl ⟨.declaredParent i.uniqueId i.parent q, ?_, fun _ h => InsertError.noConfusion h⟩
      unfold insert
      simp only [habove, ne_eq, hdecl, not_false_eq_true, if_true]

/-- An insertion is refused with nothing changed, or the plan takes the member; then naming fails and
the view stays behind, or the node is attached. -/
theorem insertUnder_cases (b : Bridge) (i : Identifier) (parent : Value) :
    (∃ e, b.insertUnder i parent = (b, .error e) ∧ ∀ cause, e ≠ .naming cause) ∨
      ∃ q above p, parent = .string q ∧ i.parent = .string q ∧ b.view.nodeFor? q = some above ∧
        b.plan.add i = .ok p ∧
        ((∃ cause, i.label p = .error cause ∧
            b.insertUnder i parent = (b.withPlan p, .error (.naming cause))) ∨
          ∃ b' n, (b.withPlan p).attach i above = .ok (b', n) ∧
            b.insertUnder i parent = (b', .ok n)) := by
  cases hkey : parent.key with
  | foreign =>
    refine .inl ⟨.unmappedParent parent.text i.uniqueId, ?_, fun _ h => InsertError.noConfusion h⟩
    unfold insertUnder
    rw [hkey]
  | unusable =>
    refine .inl ⟨.plan (.unusableParent parent i.uniqueId), ?_, fun _ h => InsertError.noConfusion h⟩
    unfold insertUnder
    rw [hkey]
  | text q =>
    obtain rfl : parent = .string q := by
      cases parent <;> simp [Value.key] at hkey
      rw [hkey]
    rcases b.insert_refused_or_added i q with hrefused | ⟨above, p, hdecl, habove, hadd⟩
    · exact .inl hrefused
    · refine .inr ⟨q, above, p, rfl, hdecl, habove, hadd, ?_⟩
      have hins := insertUnder_of_add hdecl habove hadd
      cases hlabel : i.label p with
      | error cause =>
        rw [attach_of_error (b := b.withPlan p) hlabel] at hins
        exact .inl ⟨cause, rfl, hins⟩
      | ok label =>
        obtain ⟨r, hattach⟩ : ∃ r, (b.withPlan p).attach i above = .ok r := by
          unfold attach withPlan
          rw [hlabel]
          exact ⟨_, rfl⟩
        rw [hattach] at hins
        exact .inr ⟨r.1, r.2, hattach, hins⟩

theorem attach_plan {b b' : Bridge} {i : Identifier} {above n : NodeId}
    (h : b.attach i above = .ok (b', n)) : b'.plan = b.plan := by
  unfold attach at h
  cases hlabel : i.label b.plan with
  | error cause =>
    rw [hlabel] at h
    cases h
  | ok label =>
    rw [hlabel] at h
    exact (congrArg Bridge.plan (Prod.mk.inj (Except.ok.inj h)).1).symm

/-- Whatever comes of it, an insertion leaves the plan alone or adds the member to it. -/
theorem insertUnder_plan (b : Bridge) (i : Identifier) (parent : Value) :
    (b.insertUnder i parent).1.plan = b.plan ∨
      b.plan.add i = .ok (b.insertUnder i parent).1.plan := by
  rcases b.insertUnder_cases i parent with
    ⟨e, hins, -⟩ | ⟨q, above, p, -, -, -, ha, ⟨cause, -, hins⟩ | ⟨b', n, hattach, hins⟩⟩
  · rw [hins]
    exact .inl rfl
  · rw [hins]
    exact .inr ha
  · have hplan : b'.plan = p := attach_plan hattach
    rw [hins, hplan]
    exact .inr ha

/-! ### Insertion into a mirror -/

variable {name : Text} {b : Bridge}

theorem awaits_of_add (hm : b.view.Mirrors name b.plan b.nodes) {i : Identifier} {p : Plan}
    (ha : b.plan.add i = .ok p) : b.view.Awaits p i.parent [i.uniqueId] where
  is_tail := ⟨b.plan.idsUnder i.parent, by rw [Plan.idsUnder_add ha, if_pos rfl]⟩
  not_mapped id hid hmem := by
    rw [List.mem_singleton.mp hid] at hmem
    exact (Plan.add_cases ha).1 (hm.mem_ids hmem)

/-- A successful insertion maps the member alone, as the last child of its parent. -/
theorem attach_grown (hf : b.plan.IsForest) (hm : b.view.Mirrors name b.plan b.nodes)
    {i : Identifier} {p : Plan} {q : Text} {above n : NodeId} {b' : Bridge}
    (hparent : i.parent = .string q) (habove : b.view.nodeFor? q = some above)
    (ha : b.plan.add i = .ok p) (h : (b.withPlan p).attach i above = .ok (b', n)) :
    Grown name (b.withPlan p) b' [i.uniqueId] ∧ n = b.nodes.size ∧
      ∃ label, b' = (b.withPlan p).withNode i above label := by
  have hw := awaits_of_add hm ha
  have hi : p.get? i.uniqueId = some i := by rw [Plan.get?_add ha, if_pos rfl]
  have hfree := hw.not_mapped i.uniqueId (List.mem_cons_self ..)
  cases hlabel : i.label p with
  | error cause =>
    rw [attach_of_error (b := b.withPlan p) hlabel] at h
    cases h
  | ok label =>
    rw [attach_of_label (b := b.withPlan p) hfree hlabel] at h
    obtain ⟨rfl, rfl⟩ := Prod.mk.inj (Except.ok.inj h)
    have hat : b.view.nodeAt? i.parent = some above := by
      rw [hparent]
      exact habove
    exact ⟨withNode_grown (b := b.withPlan p) (hf.add ha) (hm.of_add hf ha) hi hw hat hlabel, rfl,
      label, rfl⟩

/-- What an insertion that succeeds has done: the plan has the member, and the view has mapped it last,
to a fresh node below the node of its parent. -/
structure Inserted (b : Bridge) (i : Identifier) (q : Text) (above : NodeId) (b' : Bridge) : Prop where
  parent : i.parent = .string q
  under : b.view.nodeFor? q = some above
  plan : b.plan.add i = .ok b'.plan
  view : b'.view = b.view.mapLast i.uniqueId b.nodes.size
  nodes : ∃ label, b'.nodes = b.nodes.withChild above label (some i.uniqueId)

theorem insertUnder_ok (hf : b.plan.IsForest) (hm : b.view.Mirrors name b.plan b.nodes)
    {i : Identifier} {parent : Value} {b' : Bridge} {n : NodeId}
    (h : b.insertUnder i parent = (b', .ok n)) :
    ∃ q above, parent = .string q ∧ n = b.nodes.size ∧ b.Inserted i q above b' ∧
      b'.view.Mirrors name b'.plan b'.nodes := by
  rcases b.insertUnder_cases i parent with
    ⟨e, hins, -⟩ | ⟨q, above, p, hq, hparent, habove, ha, ⟨cause, -, hins⟩ | ⟨b₁, n₁, hattach, hins⟩⟩
  · rw [hins] at h
    cases (Prod.mk.inj h).2
  · rw [hins] at h
    cases (Prod.mk.inj h).2
  · rw [hins] at h
    obtain ⟨rfl, hn⟩ := Prod.mk.inj h
    obtain ⟨hgrown, hsize, label, rfl⟩ := attach_grown hf hm hparent habove ha hattach
    exact ⟨q, above, hq, (Except.ok.inj hn).symm.trans hsize,
      ⟨hparent, habove, ha, rfl, label, rfl⟩, hgrown.mirrors⟩

theorem Inserted.not_mapped {i : Identifier} {q : Text} {above : NodeId} {b' : Bridge}
    (h : b.Inserted i q above b') (hm : b.view.Mirrors name b.plan b.nodes) :
    i.uniqueId ∉ b.view.mapped.keys := fun hid => (Plan.add_cases h.plan).1 (hm.mem_ids hid)

theorem Inserted.nodeFor? {i : Identifier} {q : Text} {above : NodeId} {b' : Bridge}
    (h : b.Inserted i q above b') (hm : b.view.Mirrors name b.plan b.nodes) (x : Text) :
    b'.view.nodeFor? x = if x = i.uniqueId then some b.nodes.size else b.view.nodeFor? x := by
  rw [h.view, View.nodeFor?_mapLast (h.not_mapped hm)]

theorem Inserted.keys {i : Identifier} {q : Text} {above : NodeId} {b' : Bridge}
    (h : b.Inserted i q above b') :
    b'.view.mapped.keys = b.view.mapped.keys ++ [i.uniqueId] := by
  rw [h.view]
  exact Table.keys_append ..

end Bridge

end SuiteView
