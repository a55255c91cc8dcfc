import Mathlib.Data.List.Forall2
import SuiteView.Proofs.Manifest.Reading
import SuiteView.Proofs.Plan.Forest

/-!
# Members at positions

The readings of a document either all give members, which then make the plan, or there is a first one
that stops the plan. A member is traced back to the position of its entry, which decides its parent:
the entry around it, or at the top level the entry itself.
-/

namespace SuiteView

/-! ### Folds that may stop -/

section Folds

variable {α β ε : Type} (f : β → α → Except ε β)

theorem foldlM_cons_ok_iff (x : α) (xs : List α) (b b' : β) :
    (x :: xs).foldlM f b = .ok b' ↔ ∃ c, f b x = .ok c ∧ xs.foldlM f c = .ok b' := by
  rw [List.foldlM_cons]
  cases f b x <;> simp [bind, Except.bind]

/-- A fold ends in an error if one step fails and all steps before it succeed. -/
theorem foldlM_error_iff (xs : List α) (b : β) (e : ε) :
    xs.foldlM f b = .error e ↔ ∃ before x after c, xs = before ++ x :: after ∧
      before.foldlM f b = .ok c ∧ f c x = .error e := by
  constructor
  · intro h
    induction xs generalizing b with
    | nil => cases h
    | cons x xs ih =>
      cases hx : f b x with
      | error e' =>
        rw [List.foldlM_cons, hx] at h
        obtain rfl : e' = e := Except.error.inj h
        exact ⟨[], x, xs, b, rfl, rfl, hx⟩
      | ok c =>
        rw [List.foldlM_cons, hx] at h
        obtain ⟨before, y, after, d, rfl, hbefore, hy⟩ := ih c h
        exact ⟨x :: before, y, after, d, rfl, (foldlM_cons_ok_iff f ..).mpr ⟨c, hx, hbefore⟩, hy⟩
  · rintro ⟨before, x, after, c, rfl, hbefore, hx⟩
    rw [List.foldlM_append, hbefore]
    show (x :: after).foldlM f c = _
    rw [List.foldlM_cons, hx]
    rfl

end Folds

theorem prefix_of_map_eq {α β γ : Type} {f : α → γ} {g : β → γ} {xs : List α} {ys : List β}
    (h : xs.map f = ys.map g) {before : List β} {y : β} (hy : before ++ [y] <+: ys) :
    ∃ xs' x, xs' ++ [x] <+: xs ∧ xs'.map f = before.map g ∧ f x = g y := by
  obtain ⟨after, rfl⟩ := hy
  rw [List.map_append, List.map_append] at h
  obtain ⟨front, after', rfl, hfront, -⟩ := List.map_eq_append_iff.mp h
  obtain ⟨xs', last, rfl, hxs', hlast⟩ := List.map_eq_append_iff.mp hfront
  obtain ⟨x, rfl, hx⟩ := List.map_eq_singleton_iff.mp hlast
  exact ⟨xs', x, List.prefix_append _ after', hxs', hx⟩

namespace Manifest

/-! ### From readings to plans -/

theorem addEntry_ok_iff (p p' : Plan) (read : Except EntryError Identifier) :
    addEntry p read = .ok p' ↔ ∃ i, read = .ok i ∧ p.add i = .ok p' := by
  cases read with
  | error cause => simp [addEntry]
  | ok i => cases ha : p.add i <;> simp [addEntry, ha]

theorem addEntry_error_iff (p : Plan) (read : Except EntryError Identifier) (e : Error) :
    addEntry p read = .error e ↔ (∃ cause, read = .error cause ∧ e = .entry cause) ∨
      ∃ i cause, read = .ok i ∧ p.add i = .error cause ∧ e = .plan cause := by
  cases read with
  | error cause => simp [addEntry, eq_comm]
  | ok i => cases ha : p.add i <;> simp [addEntry, ha, eq_comm]

theorem foldlM_addEntry_ok_iff (reads : List (Except EntryError Identifier)) (p p' : Plan) :
    reads.foldlM addEntry p = .ok p' ↔
      ∃ is : List Identifier, reads = is.map .ok ∧ is.foldlM Plan.add p = .ok p' := by
  induction reads generalizing p with
  | nil => simp [pure, Except.pure]
  | cons read reads ih =>
    rw [foldlM_cons_ok_iff]
    constructor
    · rintro ⟨q, hq, hrest⟩
      obtain ⟨i, rfl, ha⟩ := (addEntry_ok_iff ..).mp hq
      obtain ⟨is, rfl, his⟩ := (ih q).mp hrest
      exact ⟨i :: is, rfl, (foldlM_cons_ok_iff ..).mpr ⟨q, ha, his⟩⟩
    · rintro ⟨is, heq, his⟩
      obtain ⟨i, is, rfl, rfl, rfl⟩ := List.map_eq_cons_iff.mp heq.symm
      obtain ⟨q, ha, his⟩ := (foldlM_cons_ok_iff ..).mp his
      exact ⟨q, (addEntry_ok_iff ..).mpr ⟨i, rfl, ha⟩, (ih q).mpr ⟨is, rfl, his⟩⟩

variable {m : Manifest} {entries : List Value}

theorem field_list_or_planNotList (m : Manifest) :
    (∃ entries, field m "plan" (.list []) = .list entries) ∨
      ∃ got, m.plan = .error (.planNotList got) := by
  unfold plan
  split
  · rename_i entries hentries
    exact .inl ⟨entries, hentries⟩
  · exact .inr ⟨_, rfl⟩

theorem plan_ok_iff (h : field m "plan" (.list []) = .list entries) (p : Plan) :
    m.plan = .ok p ↔
      ∃ is : List Identifier, readings .null entries = is.map .ok ∧ Plan.ofList is = .ok p := by
  rw [plan_eq_foldlM h]
  exact foldlM_addEntry_ok_iff ..

theorem plan_error_iff (h : field m "plan" (.list []) = .list entries) (e : Error) :
    m.plan = .error e ↔ ∃ (is : List Identifier) (read : Except EntryError Identifier) (after : _)
      (p : Plan), readings .null entries = is.map .ok ++ read :: after ∧ Plan.ofList is = .ok p ∧
        addEntry p read = .error e := by
  rw [plan_eq_foldlM h, foldlM_error_iff]
  constructor
  · rintro ⟨before, read, after, p, heq, hbefore, hread⟩
    obtain ⟨is, rfl, his⟩ := (foldlM_addEntry_ok_iff ..).mp hbefore
    exact ⟨is, read, after, p, heq, his, hread⟩
  · rintro ⟨is, read, after, p, heq, his, hread⟩
    exact ⟨is.map .ok, read, after, p, heq, (foldlM_addEntry_ok_iff ..).mpr ⟨is, rfl, his⟩, hread⟩

/-! ### Members at positions -/

/-- The entries at these positions can be read, and they give these members. -/
def Give (entries : List Value) (order : List Position) (is : List Identifier) : Prop :=
  order.map (readingAt? .null entries) = is.map fun i => some (.ok i)

theorem readingAt?_eq_some_iff (outer : Value) (entries : List Value) (position : Position)
    (read : Except EntryError Identifier) : readingAt? outer entries position = some read ↔
      ∃ e, entryAt? entries position = some e ∧
        parseEntry e (enclosing outer entries position) = read :=
  Option.map_eq_some_iff

theorem idAt_of_readingAt? {outer : Value} {position : Position} {i : Identifier}
    (h : readingAt? outer entries position = some (.ok i)) :
    idAt entries position = .string i.uniqueId := by
  obtain ⟨e, he, hread⟩ := (readingAt?_eq_some_iff ..).mp h
  rw [idAt, he]
  exact idOf_of_parseEntry hread

theorem idAt_eq {position : Position} {e : Value} (h : entryAt? entries position = some e) :
    idAt entries position = idOf e := by
  rw [idAt, h]
  rfl

theorem enclosing_concat (outer : Value) {above : Position} (habove : above ≠ []) (k : Nat) :
    enclosing outer entries (above ++ [k]) = idAt entries above := by
  rw [enclosing, List.dropLast_concat]
  cases above with
  | nil => exact absurd rfl habove
  | cons l above => rfl

theorem entryAt?_above {above : Position} (habove : above ≠ []) {k : Nat} {e : Value}
    (h : entryAt? entries (above ++ [k]) = some e) : ∃ e', entryAt? entries above = some e' := by
  rw [entryAt?_concat entries habove] at h
  obtain ⟨e', he', -⟩ := Option.bind_eq_some_iff.mp h
  exact ⟨e', he'⟩

/-- At the top level an entry names its parent itself. -/
theorem parent_top {k : Nat} {i : Identifier} (h : readingAt? .null entries [k] = some (.ok i)) :
    ∃ fields, entries[k]? = some (.object fields) ∧ i.parent = field fields "parent_id" .null := by
  obtain ⟨e, he, hread⟩ := (readingAt?_eq_some_iff ..).mp h
  obtain ⟨fields, rfl, hgives⟩ := parseEntry_object hread
  exact ⟨fields, he, hgives.parent.symm⟩

theorem parent_below {above : Position} (habove : above ≠ []) {k : Nat} {i j : Identifier}
    (h : readingAt? .null entries (above ++ [k]) = some (.ok i))
    (hj : readingAt? .null entries above = some (.ok j)) : i.parent = .string j.uniqueId := by
  obtain ⟨e, -, hread⟩ := (readingAt?_eq_some_iff ..).mp h
  obtain ⟨fields, rfl, hgives⟩ := parseEntry_object hread
  have hparent := hgives.parent
  rw [enclosing_concat .null habove, idAt_of_readingAt? hj] at hparent
  exact hparent.symm

theorem exists_parseEntry_iff (e outer : Value) :
    (∃ i, parseEntry e outer = .ok i) ↔ ∃ i, parseEntry e .null = .ok i := by
  cases e with
  | object fields =>
    rw [parseEntry_under]
    cases parseEntry (.object fields) .null <;> simp [Except.map]
  | null | bool | int | number | string | list => rfl

theorem map_readingAt?_positions (outer : Value) (entries : List Value) :
    (positions entries).map (readingAt? outer entries) = (readings outer entries).map some := by
  rw [readings, List.map_filterMap_some_eq_filter_map_isSome, List.filter_eq_self.mpr]
  intro read hread
  obtain ⟨position, hposition, rfl⟩ := List.mem_map.mp hread
  obtain ⟨e, he⟩ := (mem_positions_iff entries position).mp hposition
  rw [readingAt?, he]
  rfl

namespace Give

variable {order before : List Position} {is : List Identifier}

theorem of_readings (h : readings .null entries = is.map .ok) :
    Give entries (positions entries) is := by
  rw [Give, map_readingAt?_positions, h, List.map_map]
  rfl

theorem exists_position (h : Give entries order is) {i : Identifier} (hi : i ∈ is) :
    ∃ position ∈ order, readingAt? .null entries position = some (.ok i) := by
  have hmem : some (.ok i) ∈ order.map (readingAt? .null entries) := by
    rw [h]
    exact List.mem_map_of_mem hi
  exact List.mem_map.mp hmem

theorem exists_member (h : Give entries order is) {position : Position} (hp : position ∈ order) :
    ∃ i ∈ is, readingAt? .null entries position = some (.ok i) := by
  have hmem : readingAt? .null entries position ∈ is.map fun i => some (.ok i) := by
    rw [← h]
    exact List.mem_map_of_mem hp
  obtain ⟨i, hi, heq⟩ := List.mem_map.mp hmem
  exact ⟨i, hi, heq.symm⟩

theorem forall₂ (h : Give entries order is) :
    List.Forall₂ (fun position i => readingAt? .null entries position = some (.ok i)) order is := by
  have heq : List.Forall₂ (· = ·) (order.map (readingAt? .null entries))
      (is.map fun i => some (.ok i)) := by
    rw [List.forall₂_eq_eq_eq]
    exact h
  exact List.forall₂_map_right_iff.mp (List.forall₂_map_left_iff.mp heq)

theorem ids_eq (h : Give entries order is) :
    order.map (idAt entries) = (is.map (·.uniqueId)).map .string := by
  rw [List.map_map, ← List.forall₂_eq_eq_eq, List.forall₂_map_left_iff, List.forall₂_map_right_iff]
  exact h.forall₂.imp fun _ _ => idAt_of_readingAt?

theorem split_order (h : Give entries order is) {is' : List Identifier} {i : Identifier}
    (hi : is' ++ [i] <+: is) : ∃ before position, before ++ [position] <+: order ∧
      Give entries before is' ∧ readingAt? .null entries position = some (.ok i) := by
  obtain ⟨before, position, hpre, hbefore, hposition⟩ := prefix_of_map_eq h hi
  exact ⟨before, position, hpre, hbefore, hposition⟩

theorem split_members (h : Give entries order is) {position : Position}
    (hp : before ++ [position] <+: order) : ∃ is' i, is' ++ [i] <+: is ∧
      Give entries before is' ∧ readingAt? .null entries position = some (.ok i) := by
  obtain ⟨is', i, hpre, hbefore, hposition⟩ := prefix_of_map_eq h.symm hp
  exact ⟨is', i, hpre, hbefore.symm, hposition.symm⟩

end Give

theorem give_of_plan {p : Plan} (hp : m.plan = .ok p) : ∃ entries,
    field m "plan" (.list []) = .list entries ∧ Give entries (positions entries) p.toList ∧
      p.IsForest := by
  obtain ⟨entries, hentries⟩ := (field_list_or_planNotList m).resolve_right fun ⟨got, hgot⟩ => by
    rw [hp] at hgot
    cases hgot
  obtain ⟨is, hreads, hlist⟩ := (plan_ok_iff hentries p).mp hp
  refine ⟨entries, hentries, ?_, Plan.isForest_ofList hlist⟩
  rw [Plan.toList_ofList hlist]
  exact .of_readings hreads

end Manifest

end SuiteView
