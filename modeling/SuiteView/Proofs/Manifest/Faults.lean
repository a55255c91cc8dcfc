import SuiteView.Proofs.Manifest.Acceptance

/-!
# Faults of documents

A document that gives no plan is refused, and so is a late entry that cannot be read. There is one way
around the refusals: the parent that a top-level entry names is taken as it comes, and a list or an
object cannot even be looked up. Such a parent stops the plan where it is the first fault.
-/

namespace SuiteView

theorem Plan.add_unusable_iff (p : Plan) (i : Identifier) (parent : Value) (id : Text) :
    p.add i = .error (.unusableParent parent id) ↔
      i.uniqueId ∉ p.ids ∧ i.uniqueId = id ∧ i.parent = parent ∧ parent.key = .unusable := by
  rw [← p.mem_ids_iff_contains]
  unfold Plan.add
  by_cases hid : p.contains i.uniqueId = true
  · simp [hid]
  · rw [if_neg hid]
    cases hparent : i.parent with
    | null =>
      simp only [reduceCtorEq, false_iff]
      rintro ⟨-, -, rfl, hkey⟩
      cases hkey
    | string q =>
      have hne : (if p.contains q = true then Except.ok (p.addChild q i) else
          Except.error (PlanError.missingParent (.string q) i.uniqueId)) ≠
            Except.error (.unusableParent parent id) := by
        split <;> simp
      simp only [hne, false_iff]
      rintro ⟨-, -, rfl, hkey⟩
      cases hkey
    | bool | int | number =>
      simp only [Except.error.injEq, reduceCtorEq, false_iff]
      rintro ⟨-, -, rfl, hkey⟩
      cases hkey
    | list | object =>
      simp only [Except.error.injEq, PlanError.unusableParent.injEq]
      constructor
      · rintro ⟨rfl, rfl⟩
        exact ⟨hid, rfl, rfl, rfl⟩
      · rintro ⟨-, rfl, rfl, -⟩
        exact ⟨rfl, rfl⟩

namespace Manifest

/-- A fault for which a document is refused. A parent that cannot be looked up is none. -/
def Error.IsRefusal : Error → Prop
  | .plan (.unusableParent _ _) => False
  | _ => True

theorem Error.isRefusal_or (e : Error) :
    e.IsRefusal ∨ ∃ parent id, e = .plan (.unusableParent parent id) := by
  cases e with
  | plan cause =>
    cases cause with
    | unusableParent parent id => exact .inr ⟨parent, id, rfl⟩
    | duplicateId | missingParent => exact .inl trivial
  | planNotList | entry | dynamicNotList | dynamicNotObject | dynamicWithoutParent
  | dynamicParentNotString => exact .inl trivial

/-- The first fault of the document is a top-level entry that can be read and has a free id, but names
a list or an object as its parent. -/
def UnusableParentAt (entries : List Value) (k : Nat) (parent : Value) (id : Text) : Prop :=
  ∃ p fields i, PlanBefore entries [k] p ∧ entries[k]? = some (.object fields) ∧
    parseEntry (.object fields) .null = .ok i ∧ i.uniqueId = id ∧ id ∉ p.ids ∧
    field fields "parent_id" .null = parent ∧ parent.key = .unusable

variable {m : Manifest} {entries : List Value}

theorem planBefore_readingAt? {position a : Position} {p : Plan}
    (h : PlanBefore entries position p) (ha : Before a position) {e : Value}
    (he : entryAt? entries a = some e) : ∃ i, readingAt? .null entries a = some (.ok i) := by
  obtain ⟨before, is, -, hmem, hgive, -⟩ := h
  obtain ⟨i, -, hi⟩ := hgive.exists_member ((hmem a).mpr ⟨ha, e, he⟩)
  exact ⟨i, hi⟩

theorem firstFault_unusable_iff (position : Position) (parent : Value) (id : Text) :
    FirstFault entries position (.plan (.unusableParent parent id)) ↔
      ∃ k, position = [k] ∧ UnusableParentAt entries k parent id := by
  constructor
  · intro h
    obtain ⟨p, e, i, hplan, he, hread, hadd⟩ : ∃ p e i, PlanBefore entries position p ∧
        entryAt? entries position = some e ∧
        parseEntry e (enclosing .null entries position) = .ok i ∧
        p.add i = .error (.unusableParent parent id) := by
      cases h with
      | refused hplan he hread hadd => exact ⟨_, _, _, hplan, he, hread, hadd⟩
    obtain ⟨hfree, rfl, hparent, hkey⟩ := (p.add_unusable_iff i parent id).mp hadd
    have hat := (readingAt?_eq_some_iff ..).mpr ⟨e, he, hread⟩
    rcases position_cases position with rfl | ⟨k, rfl⟩ | ⟨above, k, habove, rfl⟩
    · cases he
    · obtain ⟨fields, hfields, hown⟩ := parent_top hat
      obtain rfl := Option.some.inj (he.symm.trans hfields)
      exact ⟨k, rfl, p, fields, i, hplan, hfields, hread, rfl, hfree, hown.symm.trans hparent, hkey⟩
    · -- below an entry that has been read the parent is its id, and an id can be looked up
      obtain ⟨e', he'⟩ := entryAt?_above habove he
      obtain ⟨j, hj⟩ := planBefore_readingAt? hplan (Before.of_child above k) he'
      rw [← hparent, parent_below habove hat hj] at hkey
      cases hkey
  · rintro ⟨k, rfl, p, fields, i, hplan, hfields, hread, rfl, hfree, rfl, hkey⟩
    have hparent : i.parent = field fields "parent_id" .null :=
      ((parseEntry_ok_iff fields .null i).mp hread).parent.symm
    exact .refused hplan hfields hread
      ((p.add_unusable_iff i _ _).mpr ⟨hfree, rfl, hparent, hkey⟩)

theorem plan_unusable_iff (parent : Value) (id : Text) :
    m.plan = .error (.plan (.unusableParent parent id)) ↔ ∃ entries k,
      field m "plan" (.list []) = .list entries ∧ UnusableParentAt entries k parent id := by
  constructor
  · intro h
    obtain ⟨entries, hentries⟩ := (field_list_or_planNotList m).resolve_right
      fun ⟨got, hgot⟩ => by
        rw [h] at hgot
        cases hgot
    obtain ⟨position, hfault⟩ := (plan_error_iff_firstFault hentries _).mp h
    obtain ⟨k, -, hat⟩ := (firstFault_unusable_iff position parent id).mp hfault
    exact ⟨entries, k, hentries, hat⟩
  · rintro ⟨entries, k, hentries, hat⟩
    exact (plan_error_iff_firstFault hentries _).mpr
      ⟨[k], (firstFault_unusable_iff [k] parent id).mpr ⟨k, rfl, hat⟩⟩

/-! ### Late entries -/

theorem readLate_isRefusal {v : Value} {e : Error} (h : readLate v = .error e) : e.IsRefusal := by
  unfold readLate at h
  split at h
  · dsimp only at h
    split at h
    · obtain rfl := Except.error.inj h
      trivial
    · split at h
      · split at h
        · obtain rfl := Except.error.inj h
          trivial
        · cases h
      · obtain rfl := Except.error.inj h
        trivial
  · obtain rfl := Except.error.inj h
    trivial

theorem lateEntries_isRefusal {e : Error} (h : .error e ∈ m.lateEntries) : e.IsRefusal := by
  unfold lateEntries at h
  split at h
  · obtain ⟨v, -, hv⟩ := List.mem_map.mp h
    exact readLate_isRefusal hv
  · obtain rfl := Except.error.inj (List.mem_singleton.mp h)
    trivial

end Manifest

end SuiteView
