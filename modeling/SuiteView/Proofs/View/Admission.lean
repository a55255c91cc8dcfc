import SuiteView.Proofs.View.Failure

/-!
# Which insertions are admitted

An insertion asks in a fixed order: whether the parent is mapped, whether the member names this parent,
whether its id is free, and whether its node can be named. It succeeds when all four hold, and otherwise
the first that fails decides the error. The plan would also refuse a parent that it does not have, but
what is mapped is in the plan, so this question never comes up.
-/

namespace SuiteView

/-- The value is an id that the view has mapped. -/
def View.Maps (v : View) (parent : Value) : Prop := ∃ q ∈ v.mapped.keys, parent = .string q

namespace Bridge

/-- The id of the member that a structural error carries; errors in the kind of a value carry none. -/
def InsertError.carried? : InsertError → Option Text
  | .unmappedParent _ id | .declaredParent id _ _ => some id
  | .plan (.duplicateId id) | .plan (.missingParent _ id) => some id
  | .plan (.unusableParent _ _) | .naming _ => none

variable {name : Text} {b : Bridge} {i : Identifier} {parent : Value}

/-! ### One condition after the other -/

theorem insertUnder_of_unusable (h : parent.key = .unusable) :
    b.insertUnder i parent = (b, .error (.plan (.unusableParent parent i.uniqueId))) := by
  unfold insertUnder
  rw [h]

theorem insertUnder_of_unmapped (hkey : parent.key ≠ .unusable) (h : ¬ b.view.Maps parent) :
    b.insertUnder i parent = (b, .error (.unmappedParent parent.text i.uniqueId)) := by
  cases parent with
  | string q =>
    have hnone : b.view.nodeFor? q = none :=
      (b.view.nodeFor?_eq_none_iff q).mpr fun hq => h ⟨q, hq, rfl⟩
    show b.insert i q = _
    unfold insert
    rw [hnone]
    rfl
  | null | bool | int | number => rfl
  | list | object => exact absurd rfl hkey

theorem insertUnder_of_misplaced (hmaps : b.view.Maps parent) (h : i.parent ≠ parent) :
    b.insertUnder i parent =
      (b, .error (.declaredParent i.uniqueId i.parent parent.text)) := by
  obtain ⟨q, hq, rfl⟩ := hmaps
  obtain ⟨above, habove⟩ := (b.view.mem_keys_iff q).mp hq
  show b.insert i q = _
  unfold insert
  simp only [habove, ne_eq, h, not_false_eq_true, if_true]
  rfl

theorem insertUnder_of_duplicate (hmaps : b.view.Maps parent) (hdecl : i.parent = parent)
    (h : i.uniqueId ∈ b.plan.ids) :
    b.insertUnder i parent = (b, .error (.plan (.duplicateId i.uniqueId))) := by
  obtain ⟨q, hq, rfl⟩ := hmaps
  exact insertUnder_of_taken hq hdecl h

theorem insertUnder_of_unnamed (hm : b.view.Mirrors name b.plan b.nodes)
    (hmaps : b.view.Maps parent) (hdecl : i.parent = parent) (hfree : i.uniqueId ∉ b.plan.ids)
    (htest : i.kind = .test) {got : Value} (h : i.location = some (.unsupported got)) :
    (b.insertUnder i parent).2 = .error (.naming (.unsupportedLocation i.uniqueId got)) := by
  obtain ⟨q, hq, rfl⟩ := hmaps
  have hlost : b.Loses i (.string q) := ⟨htest, fun hloc => hloc got h, ⟨q, rfl, hdecl, hq⟩, hfree⟩
  obtain ⟨p, got', hgot', -, hins⟩ := insertUnder_of_loses hm hlost
  obtain rfl : got = got' := Location.unsupported.inj (Option.some.inj (h.symm.trans hgot'))
  rw [hins]

theorem insertUnder_of_nameable (hm : b.view.Mirrors name b.plan b.nodes)
    (hmaps : b.view.Maps parent) (hdecl : i.parent = parent) (hfree : i.uniqueId ∉ b.plan.ids)
    (h : i.kind = .container ∨ i.IsLocated) : ∃ n, (b.insertUnder i parent).2 = .ok n := by
  obtain ⟨q, hq, rfl⟩ := hmaps
  obtain ⟨above, habove⟩ := (b.view.mem_keys_iff q).mp hq
  have ha := Plan.add_of_free hfree hdecl (hm.mem_ids hq)
  obtain ⟨label, hlabel⟩ := (i.exists_label_iff (b.plan.addChild q i)).mpr h
  have hattach := attach_of_label (b := b.withPlan (b.plan.addChild q i))
    (fun hmem => hfree (hm.mem_ids hmem)) hlabel above
  rw [insertUnder_of_add hdecl habove ha, hattach]
  exact ⟨_, rfl⟩

/-! ### Every call -/

/-- What comes of a call, each outcome with the conditions under which it comes. -/
inductive Verdict (b : Bridge) (i : Identifier) (parent : Value) :
    Except InsertError NodeId → Prop where
  | unusable (key : parent.key = .unusable) :
      Verdict b i parent (.error (.plan (.unusableParent parent i.uniqueId)))
  | unmapped (key : parent.key ≠ .unusable) (unmapped : ¬ b.view.Maps parent) :
      Verdict b i parent (.error (.unmappedParent parent.text i.uniqueId))
  | misplaced (maps : b.view.Maps parent) (other : i.parent ≠ parent) :
      Verdict b i parent (.error (.declaredParent i.uniqueId i.parent parent.text))
  | duplicate (maps : b.view.Maps parent) (declared : i.parent = parent)
      (taken : i.uniqueId ∈ b.plan.ids) :
      Verdict b i parent (.error (.plan (.duplicateId i.uniqueId)))
  | unnamed (got : Value) (maps : b.view.Maps parent) (declared : i.parent = parent)
      (free : i.uniqueId ∉ b.plan.ids) (test : i.kind = .test)
      (location : i.location = some (.unsupported got)) :
      Verdict b i parent (.error (.naming (.unsupportedLocation i.uniqueId got)))
  | accepted (n : NodeId) (maps : b.view.Maps parent) (declared : i.parent = parent)
      (free : i.uniqueId ∉ b.plan.ids) (nameable : i.kind = .container ∨ i.IsLocated) :
      Verdict b i parent (.ok n)

theorem insertUnder_verdict (hm : b.view.Mirrors name b.plan b.nodes) (i : Identifier)
    (parent : Value) : b.Verdict i parent (b.insertUnder i parent).2 := by
  by_cases hkey : parent.key = .unusable
  · rw [insertUnder_of_unusable hkey]
    exact .unusable hkey
  by_cases hmaps : b.view.Maps parent
  swap
  · rw [insertUnder_of_unmapped hkey hmaps]
    exact .unmapped hkey hmaps
  by_cases hdecl : i.parent = parent
  swap
  · rw [insertUnder_of_misplaced hmaps hdecl]
    exact .misplaced hmaps hdecl
  by_cases htaken : i.uniqueId ∈ b.plan.ids
  · rw [insertUnder_of_duplicate hmaps hdecl htaken]
    exact .duplicate hmaps hdecl htaken
  cases hlabel : i.label b.plan with
  | ok label =>
    have hnameable := (i.exists_label_iff b.plan).mp ⟨label, hlabel⟩
    obtain ⟨n, hn⟩ := insertUnder_of_nameable hm hmaps hdecl htaken hnameable
    rw [hn]
    exact .accepted n hmaps hdecl htaken hnameable
  | error cause =>
    obtain ⟨htest, got, hgot, -⟩ := (i.label_error_iff b.plan cause).mp hlabel
    rw [insertUnder_of_unnamed hm hmaps hdecl htaken htest hgot]
    exact .unnamed got hmaps hdecl htaken htest hgot

theorem verdict_of_result (hm : b.view.Mirrors name b.plan b.nodes)
    {result : Except InsertError NodeId} (h : (b.insertUnder i parent).2 = result) :
    b.Verdict i parent result := by
  rw [← h]
  exact insertUnder_verdict hm i parent

theorem insertUnder_ok_iff (hm : b.view.Mirrors name b.plan b.nodes) :
    (∃ n, (b.insertUnder i parent).2 = .ok n) ↔
      b.view.Maps parent ∧ i.parent = parent ∧ i.uniqueId ∉ b.plan.ids ∧
        (i.kind = .container ∨ i.IsLocated) := by
  constructor
  · intro hok
    obtain ⟨n, hn⟩ := hok
    cases verdict_of_result hm hn with
    | accepted _ maps declared free nameable => exact ⟨maps, declared, free, nameable⟩
  · intro hall
    obtain ⟨maps, declared, free, nameable⟩ := hall
    exact insertUnder_of_nameable hm maps declared free nameable

theorem insertUnder_unusable_iff (hm : b.view.Mirrors name b.plan b.nodes) :
    (b.insertUnder i parent).2 = .error (.plan (.unusableParent parent i.uniqueId)) ↔
      parent.key = .unusable := by
  constructor
  · intro herror
    cases verdict_of_result hm herror with
    | unusable key => exact key
  · intro hkey
    rw [insertUnder_of_unusable hkey]

theorem insertUnder_unmapped_iff (hm : b.view.Mirrors name b.plan b.nodes) :
    (b.insertUnder i parent).2 = .error (.unmappedParent parent.text i.uniqueId) ↔
      parent.key ≠ .unusable ∧ ¬ b.view.Maps parent := by
  constructor
  · intro herror
    cases verdict_of_result hm herror with
    | unmapped key unmapped => exact ⟨key, unmapped⟩
  · intro hunmapped
    rw [insertUnder_of_unmapped hunmapped.1 hunmapped.2]

theorem insertUnder_misplaced_iff (hm : b.view.Mirrors name b.plan b.nodes) :
    (b.insertUnder i parent).2 = .error (.declaredParent i.uniqueId i.parent parent.text) ↔
      b.view.Maps parent ∧ i.parent ≠ parent := by
  constructor
  · intro herror
    cases verdict_of_result hm herror with
    | misplaced maps other => exact ⟨maps, other⟩
  · intro hother
    rw [insertUnder_of_misplaced hother.1 hother.2]

theorem insertUnder_duplicate_iff (hm : b.view.Mirrors name b.plan b.nodes) :
    (b.insertUnder i parent).2 = .error (.plan (.duplicateId i.uniqueId)) ↔
      b.view.Maps parent ∧ i.parent = parent ∧ i.uniqueId ∈ b.plan.ids := by
  constructor
  · intro herror
    cases verdict_of_result hm herror with
    | duplicate maps declared taken => exact ⟨maps, declared, taken⟩
  · intro htaken
    rw [insertUnder_of_duplicate htaken.1 htaken.2.1 htaken.2.2]

theorem insertUnder_unnamed_iff (hm : b.view.Mirrors name b.plan b.nodes) (got : Value) :
    (b.insertUnder i parent).2 = .error (.naming (.unsupportedLocation i.uniqueId got)) ↔
      b.view.Maps parent ∧ i.parent = parent ∧ i.uniqueId ∉ b.plan.ids ∧ i.kind = .test ∧
        i.location = some (.unsupported got) := by
  constructor
  · intro herror
    cases verdict_of_result hm herror with
    | unnamed _ maps declared free test location => exact ⟨maps, declared, free, test, location⟩
  · intro hunnamed
    obtain ⟨maps, declared, free, test, location⟩ := hunnamed
    exact insertUnder_of_unnamed hm maps declared free test location

/-- Every error carries the id of the member and comes before the first write, unless it is about the
kind of a value: a parent that is no key, or a location. -/
theorem insertUnder_error_cases (hm : b.view.Mirrors name b.plan b.nodes) {e : InsertError}
    (h : (b.insertUnder i parent).2 = .error e) :
    (e.carried? = some i.uniqueId ∧ (b.insertUnder i parent).1 = b) ∨
      parent.key = .unusable ∨ ∃ got, i.location = some (.unsupported got) ∧
        e = .naming (.unsupportedLocation i.uniqueId got) := by
  cases verdict_of_result hm h with
  | unusable key => exact .inr (.inl key)
  | unmapped key unmapped =>
    rw [insertUnder_of_unmapped key unmapped]
    exact .inl ⟨rfl, rfl⟩
  | misplaced maps other =>
    rw [insertUnder_of_misplaced maps other]
    exact .inl ⟨rfl, rfl⟩
  | duplicate maps declared taken =>
    rw [insertUnder_of_duplicate maps declared taken]
    exact .inl ⟨rfl, rfl⟩
  | unnamed got _ _ _ _ location => exact .inr (.inr ⟨got, location, rfl⟩)

theorem insertUnder_ne_missing (hm : b.view.Mirrors name b.plan b.nodes) (q : Value) (id : Text) :
    (b.insertUnder i parent).2 ≠ .error (.plan (.missingParent q id)) := by
  intro herror
  cases verdict_of_result hm herror

/-- Which calls succeed, and which error the others end with: the first condition that fails decides.
Errors about the structure carry the id of the member and leave everything as it was, and none of them
says that the plan lacks the parent. -/
structure Admits (b : Bridge) (i : Identifier) (parent : Value) : Prop where
  succeeds_iff : (∃ n, (b.insertUnder i parent).2 = .ok n) ↔
    b.view.Maps parent ∧ i.parent = parent ∧ i.uniqueId ∉ b.plan.ids ∧
      (i.kind = .container ∨ i.IsLocated)
  unusable_iff : (b.insertUnder i parent).2 = .error (.plan (.unusableParent parent i.uniqueId)) ↔
    parent.key = .unusable
  unmapped_iff : (b.insertUnder i parent).2 = .error (.unmappedParent parent.text i.uniqueId) ↔
    parent.key ≠ .unusable ∧ ¬ b.view.Maps parent
  misplaced_iff :
    (b.insertUnder i parent).2 = .error (.declaredParent i.uniqueId i.parent parent.text) ↔
      b.view.Maps parent ∧ i.parent ≠ parent
  duplicate_iff : (b.insertUnder i parent).2 = .error (.plan (.duplicateId i.uniqueId)) ↔
    b.view.Maps parent ∧ i.parent = parent ∧ i.uniqueId ∈ b.plan.ids
  unnamed_iff : ∀ got,
    (b.insertUnder i parent).2 = .error (.naming (.unsupportedLocation i.uniqueId got)) ↔
      b.view.Maps parent ∧ i.parent = parent ∧ i.uniqueId ∉ b.plan.ids ∧ i.kind = .test ∧
        i.location = some (.unsupported got)
  error_cases : ∀ e, (b.insertUnder i parent).2 = .error e →
    (e.carried? = some i.uniqueId ∧ (b.insertUnder i parent).1 = b) ∨
      parent.key = .unusable ∨ ∃ got, i.location = some (.unsupported got) ∧
        e = .naming (.unsupportedLocation i.uniqueId got)
  never_missing : ∀ q id, (b.insertUnder i parent).2 ≠ .error (.plan (.missingParent q id))

theorem admits (hm : b.view.Mirrors name b.plan b.nodes) (i : Identifier) (parent : Value) :
    b.Admits i parent where
  succeeds_iff := insertUnder_ok_iff hm
  unusable_iff := insertUnder_unusable_iff hm
  unmapped_iff := insertUnder_unmapped_iff hm
  misplaced_iff := insertUnder_misplaced_iff hm
  duplicate_iff := insertUnder_duplicate_iff hm
  unnamed_iff := insertUnder_unnamed_iff hm
  error_cases _ := insertUnder_error_cases hm
  never_missing := insertUnder_ne_missing hm

end Bridge

namespace Session

/-- In every view of every session an insertion succeeds exactly if its parent is mapped and named by
the member, the id is free in the plan, and the node can be named; otherwise the first of these that
fails decides the error. -/
theorem run_admits (s : NodeStore) (ops : List Op) (v : View)
    (hv : v ∈ ((start s).run ops).views) (i : Identifier) (parent : Value) :
    (((start s).run ops).bridge v).Admits i parent := by
  obtain ⟨name, hm⟩ := (run_sound s ops).mirrors_of_mem hv
  exact Bridge.admits (b := ((start s).run ops).bridge v) hm i parent

/- In the second view `t` is a member without a node: nothing comes below it, and its id is taken. -/
theorem twoViews_admits : ∃ v ∈ ((start .empty).run twoViews).views,
    [.char 't'] ∈ ((start .empty).run twoViews).plan.ids ∧ ¬ v.Maps (.string [.char 't']) ∧
    ((((start .empty).run twoViews).bridge v).insertUnder
      ⟨[.char 'n'], [.char 'N'], .test, none, .string [.char 't']⟩ (.string [.char 't'])).2 =
        .error (.unmappedParent [.char 't'] [.char 'n']) ∧
    ((((start .empty).run twoViews).bridge v).insertUnder
      ⟨[.char 't'], [.char 'N'], .test, some (.unsupported .null), .string [.char 'c']⟩
        (.string [.char 'c'])).2 = .error (.plan (.duplicateId [.char 't'])) := by
  have hlast : ((start .empty).run twoViews).views[1]? =
      some ⟨2, [([.char 'c'], 3), ([.char 'u'], 4)]⟩ := rfl
  have hv := List.mem_of_getElem? hlast
  have htaken : [.char 't'] ∈ ((start .empty).run twoViews).plan.ids := by decide
  have hgone : ¬ View.Maps ⟨2, [([.char 'c'], 3), ([.char 'u'], 4)]⟩ (.string [.char 't']) := by
    rintro ⟨q, hq, he⟩
    rw [← Value.string.inj he] at hq
    revert hq
    decide
  have hunder := run_admits .empty twoViews _ hv
    ⟨[.char 'n'], [.char 'N'], .test, none, .string [.char 't']⟩ (.string [.char 't'])
  have hagain := run_admits .empty twoViews _ hv
    ⟨[.char 't'], [.char 'N'], .test, some (.unsupported .null), .string [.char 'c']⟩
    (.string [.char 'c'])
  exact ⟨_, hv, htaken, hgone, hunder.unmapped_iff.mpr ⟨nofun, hgone⟩,
    hagain.duplicate_iff.mpr ⟨⟨[.char 'c'], by decide, rfl⟩, rfl, htaken⟩⟩

end Session

end SuiteView
