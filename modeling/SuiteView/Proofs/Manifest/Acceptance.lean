import Mathlib.Data.List.Nodup
import Mathlib.Data.Set.List
import SuiteView.Proofs.Manifest.Outcome

/-!
# Which documents are accepted

A document gives a plan if all its entries can be read, their ids are distinct, and every parent that
a top-level entry names comes before it. Otherwise there is a first fault: an entry that cannot be
read, or that the plan of all entries before it refuses. Its error is the error of the document, and
no entry behind it has a part in that.
-/

namespace SuiteView.Manifest

variable {m : Manifest} {entries : List Value}

/-! ### Accepted documents -/

/-- All entries can be read, their ids are distinct, and an entry at the top level names no parent
or one that comes before it. -/
structure Acceptable (entries : List Value) : Prop where
  readable : ∀ position e, entryAt? entries position = some e → ∃ i, parseEntry e .null = .ok i
  distinct : ∀ a b e f, entryAt? entries a = some e → entryAt? entries b = some f →
    idOf e = idOf f → a = b
  parents : ∀ k fields, entries[k]? = some (.object fields) →
    field fields "parent_id" .null = .null ∨ ∃ a e, Before a [k] ∧ entryAt? entries a = some e ∧
      field fields "parent_id" .null = idOf e

namespace Acceptable

theorem exists_members (h : Acceptable entries) :
    ∃ is : List Identifier, readings .null entries = is.map .ok := by
  have hok : ∀ read ∈ readings .null entries, read ∈ Set.range Except.ok := by
    intro read hread
    obtain ⟨position, -, hposition⟩ := List.mem_filterMap.mp hread
    obtain ⟨e, he, rfl⟩ := (readingAt?_eq_some_iff ..).mp hposition
    obtain ⟨i, hi⟩ := (exists_parseEntry_iff e _).mpr (h.readable position e he)
    exact ⟨i, hi.symm⟩
  obtain ⟨is, his⟩ := (Set.range_list_map Except.ok).ge hok
  exact ⟨is, his.symm⟩

/-- The members of an acceptable document make a plan. -/
theorem exists_plan (h : Acceptable entries) {is : List Identifier}
    (hgive : Give entries (positions entries) is) : ∃ p, Plan.ofList is = .ok p := by
  have horder := positions_inOrder entries
  refine (Plan.exists_ofList_iff is).mpr ⟨?_, ?_⟩
  · have hids : ((positions entries).map (idAt entries)).Nodup := by
      refine horder.nodup.map_on fun a ha b hb heq => ?_
      obtain ⟨e, he⟩ := (horder.mem_iff a).mp ha
      obtain ⟨f, hf⟩ := (horder.mem_iff b).mp hb
      rw [idAt_eq he, idAt_eq hf] at heq
      exact h.distinct a b e f he hf heq
    rw [hgive.ids_eq] at hids
    exact hids.of_map
  · intro is' i hi
    obtain ⟨before, position, hp, hbefore, hread⟩ := hgive.split_order hi
    have hmem := horder.mem_before_iff hp
    -- a position is at the top level or below an entry, which then comes before it
    obtain ⟨e, he, -⟩ := (readingAt?_eq_some_iff ..).mp hread
    have hparent : i.parent = .null ∨ ∃ a ∈ before, i.parent = idAt entries a := by
      rcases position_cases position with rfl | ⟨k, rfl⟩ | ⟨above, k, habove, rfl⟩
      · cases he
      · obtain ⟨fields, hfields, hown⟩ := parent_top hread
        rcases h.parents k fields hfields with hnull | ⟨a, e', hlt, he', hid⟩
        · exact .inl (hown.trans hnull)
        · exact .inr ⟨a, (hmem a).mpr ⟨hlt, e', he'⟩, by rw [hown, hid, idAt_eq he']⟩
      · obtain ⟨e', he'⟩ := entryAt?_above habove he
        have hin := (hmem above).mpr ⟨Before.of_child above k, e', he'⟩
        obtain ⟨j, -, hj⟩ := hbefore.exists_member hin
        exact .inr ⟨above, hin, by rw [parent_below habove hread hj, idAt_of_readingAt? hj]⟩
    refine hparent.imp_right ?_
    rintro ⟨a, ha, hid⟩
    obtain ⟨j, hj, hread'⟩ := hbefore.exists_member ha
    exact ⟨j.uniqueId, List.mem_map_of_mem hj, hid.trans (idAt_of_readingAt? hread')⟩

/-- The members of a document can only make a plan if the document is acceptable. -/
theorem of_plan {is : List Identifier} {p : Plan} (hgive : Give entries (positions entries) is)
    (hp : Plan.ofList is = .ok p) : Acceptable entries := by
  have horder := positions_inOrder entries
  obtain ⟨hnodup, hparents⟩ := (Plan.exists_ofList_iff is).mp ⟨p, hp⟩
  have hids : ((positions entries).map (idAt entries)).Nodup := by
    rw [hgive.ids_eq]
    exact hnodup.map fun _ _ => Value.string.inj
  refine ⟨?_, ?_, ?_⟩
  · intro position e he
    obtain ⟨i, -, hread⟩ := hgive.exists_member ((horder.mem_iff position).mpr ⟨e, he⟩)
    obtain ⟨e', he', hparse⟩ := (readingAt?_eq_some_iff ..).mp hread
    obtain rfl := Option.some.inj (he.symm.trans he')
    exact (exists_parseEntry_iff e _).mp ⟨i, hparse⟩
  · intro a b e f he hf heq
    rw [← idAt_eq he, ← idAt_eq hf] at heq
    exact List.inj_on_of_nodup_map hids ((horder.mem_iff a).mpr ⟨e, he⟩)
      ((horder.mem_iff b).mpr ⟨f, hf⟩) heq
  · intro k fields hfields
    obtain ⟨before, after, hsplit⟩ := List.append_of_mem ((horder.mem_iff [k]).mpr ⟨_, hfields⟩)
    have hpre : before ++ [[k]] <+: positions entries := ⟨after, by rw [hsplit]; simp⟩
    obtain ⟨is', i, hi, hbefore, hread⟩ := hgive.split_members hpre
    obtain ⟨fields', hfields', hown⟩ := parent_top hread
    obtain rfl := Value.object.inj (Option.some.inj (hfields.symm.trans hfields'))
    rw [← hown]
    refine (hparents is' i hi).imp_right ?_
    rintro ⟨q, hq, hparent⟩
    obtain ⟨j, hj, rfl⟩ := List.mem_map.mp hq
    obtain ⟨a, ha, hread'⟩ := hbefore.exists_position hj
    obtain ⟨hlt, e, he⟩ := (horder.mem_before_iff hpre a).mp ha
    refine ⟨a, e, hlt, he, ?_⟩
    rw [hparent, ← idAt_eq he, idAt_of_readingAt? hread']

end Acceptable

theorem exists_plan_iff (h : field m "plan" (.list []) = .list entries) :
    (∃ p, m.plan = .ok p) ↔ Acceptable entries := by
  constructor
  · rintro ⟨p, hp⟩
    obtain ⟨is, hreads, hlist⟩ := (plan_ok_iff h p).mp hp
    exact .of_plan (.of_readings hreads) hlist
  · intro ha
    obtain ⟨is, hreads⟩ := ha.exists_members
    obtain ⟨p, hlist⟩ := ha.exists_plan (.of_readings hreads)
    exact ⟨p, (plan_ok_iff h p).mpr ⟨is, hreads, hlist⟩⟩

/-! ### First faults -/

/-- The plan of all entries that come before a position. -/
def PlanBefore (entries : List Value) (position : Position) (p : Plan) : Prop :=
  ∃ before is, before.Pairwise Before ∧
    (∀ a, a ∈ before ↔ Before a position ∧ ∃ e, entryAt? entries a = some e) ∧
    Give entries before is ∧ Plan.ofList is = .ok p

/-- The entries before a position make a plan, but the entry there cannot be read or is refused by
that plan. -/
inductive FirstFault (entries : List Value) (position : Position) : Error → Prop
  | unreadable {p : Plan} {e : Value} {cause : EntryError} (hplan : PlanBefore entries position p)
      (hentry : entryAt? entries position = some e)
      (hread : parseEntry e (enclosing .null entries position) = .error cause) :
      FirstFault entries position (.entry cause)
  | refused {p : Plan} {e : Value} {i : Identifier} {cause : PlanError}
      (hplan : PlanBefore entries position p) (hentry : entryAt? entries position = some e)
      (hread : parseEntry e (enclosing .null entries position) = .ok i)
      (hadd : p.add i = .error cause) : FirstFault entries position (.plan cause)

theorem firstFault_iff (entries : List Value) (position : Position) (e : Error) :
    FirstFault entries position e ↔ ∃ p read, PlanBefore entries position p ∧
      readingAt? .null entries position = some read ∧ addEntry p read = .error e := by
  constructor
  · intro h
    cases h with
    | unreadable hplan hentry hread =>
      exact ⟨_, _, hplan, (readingAt?_eq_some_iff ..).mpr ⟨_, hentry, hread⟩, rfl⟩
    | refused hplan hentry hread hadd =>
      refine ⟨_, _, hplan, (readingAt?_eq_some_iff ..).mpr ⟨_, hentry, hread⟩, ?_⟩
      simp only [addEntry, hadd]
  · rintro ⟨p, read, hplan, hat, hadd⟩
    obtain ⟨v, hentry, hread⟩ := (readingAt?_eq_some_iff ..).mp hat
    rcases (addEntry_error_iff p read e).mp hadd with ⟨cause, rfl, rfl⟩ | ⟨i, cause, rfl, ha, rfl⟩
    · exact .unreadable hplan hentry hread
    · exact .refused hplan hentry hread ha

theorem planBefore_iff_split {position : Position} {e : Value}
    (he : entryAt? entries position = some e) (p : Plan) : PlanBefore entries position p ↔
      ∃ before is, before ++ [position] <+: positions entries ∧ Give entries before is ∧
        Plan.ofList is = .ok p := by
  have horder := positions_inOrder entries
  have hasc : ∀ {before}, before ++ [position] <+: positions entries →
      before.Pairwise Before := fun {before} hpre =>
    horder.ascending.sublist ((List.prefix_append before [position]).trans hpre).sublist
  constructor
  · rintro ⟨before, is, hbefore, hmem, hgive, hp⟩
    obtain ⟨before', after, hsplit⟩ := List.append_of_mem ((horder.mem_iff position).mpr ⟨e, he⟩)
    have hpre : before' ++ [position] <+: positions entries := ⟨after, by rw [hsplit]; simp⟩
    obtain rfl : before = before' := hbefore.eq_of_mem_iff (hasc hpre) fun a => by
      rw [hmem, horder.mem_before_iff hpre]
    exact ⟨before, is, hpre, hgive, hp⟩
  · rintro ⟨before, is, hpre, hgive, hp⟩
    exact ⟨before, is, hasc hpre, horder.mem_before_iff hpre, hgive, hp⟩

theorem plan_error_iff_firstFault (h : field m "plan" (.list []) = .list entries) (e : Error) :
    m.plan = .error e ↔ ∃ position, FirstFault entries position e := by
  have hmap := map_readingAt?_positions .null entries
  have hmapOk : ∀ is : List Identifier, (is.map Except.ok).map some =
      is.map fun i => some (.ok i : Except EntryError Identifier) := fun is => List.map_map
  rw [plan_error_iff h]
  constructor
  · rintro ⟨is, read, after, p, hreads, hp, hadd⟩
    have hpre : is.map .ok ++ [read] <+: readings .null entries := ⟨after, by rw [hreads]; simp⟩
    obtain ⟨before, position, hpos, hbefore, hat⟩ := prefix_of_map_eq hmap hpre
    rw [hmapOk] at hbefore
    obtain ⟨v, hentry, -⟩ := (readingAt?_eq_some_iff ..).mp hat
    have hplan := (planBefore_iff_split hentry p).mpr ⟨before, is, hpos, hbefore, hp⟩
    exact ⟨position, (firstFault_iff ..).mpr ⟨p, read, hplan, hat, hadd⟩⟩
  · rintro ⟨position, hfault⟩
    obtain ⟨p, read, hplan, hat, hadd⟩ := (firstFault_iff ..).mp hfault
    obtain ⟨v, hentry, -⟩ := (readingAt?_eq_some_iff ..).mp hat
    obtain ⟨before, is, hpos, hgive, hp⟩ := (planBefore_iff_split hentry p).mp hplan
    obtain ⟨reads, read', ⟨after, hreads⟩, hbefore, hread⟩ := prefix_of_map_eq hmap.symm hpos
    rw [hat] at hread
    obtain rfl := Option.some.inj hread
    rw [hgive, ← hmapOk] at hbefore
    obtain rfl := List.map_injective_iff.mpr (Option.some_injective _) hbefore
    exact ⟨is, read', after, p, by rw [← hreads]; simp, hp, hadd⟩

/-! ### Behind a fault -/

/-- Two entries that differ at most in what is nested in them, and not in whether anything is. -/
def SameHead (e e' : Value) : Prop :=
  ∃ fields fields' below below', e = .object fields ∧ e' = .object fields' ∧
    (∀ name : Text, name ≠ "children" → Table.get? fields name = Table.get? fields' name) ∧
    field fields "children" (.list []) = .list below ∧
    field fields' "children" (.list []) = .list below' ∧ (below = [] ↔ below' = [])

/-- Two documents with the same entries before a position, apart from what is nested in these, and
with entries there that give the same. -/
structure SameUpTo (entries entries' : List Value) (position : Position) : Prop where
  before : ∀ a, Before a position → (entryAt? entries a = none ∧ entryAt? entries' a = none) ∨
    ∃ e e', entryAt? entries a = some e ∧ entryAt? entries' a = some e' ∧ SameHead e e'
  reading : readingAt? .null entries position = readingAt? .null entries' position

theorem SameHead.parseEntry_ok {e e' outer : Value} {i : Identifier} (h : SameHead e e')
    (hi : parseEntry e outer = .ok i) : parseEntry e' outer = .ok i := by
  obtain ⟨fields, fields', below, below', rfl, rfl, hsame, hbelow, hbelow', hempty⟩ := h
  have hg := (parseEntry_ok_iff fields outer i).mp hi
  have hfield : ∀ (name : Text) (default : Value), name ≠ "children" →
      field fields' name default = field fields name default := by
    intro name default hname
    rw [field, field, hsame name hname]
  have hkind : kindOf fields' below' = kindOf fields below := by
    have hisEmpty : below'.isEmpty = below.isEmpty := by
      rw [Bool.eq_iff_iff, List.isEmpty_iff, List.isEmpty_iff, hempty]
    rw [kindOf, kindOf, hfield _ _ (by decide), hisEmpty]
  have hparent : parentOf fields' outer = parentOf fields outer := by
    unfold parentOf
    rw [hfield _ _ (by decide)]
  refine (parseEntry_ok_iff fields' outer i).mpr ?_
  refine ⟨?_, hg.id_ne, ?_, ?_, ?_, ?_, ?_⟩
  · rw [hfield _ _ (by decide)]
    exact hg.id
  · rw [nested_object hbelow', hbelow']
  · rw [hfield _ _ (by decide)]
    exact hg.location
  · rw [hfield _ _ (by decide)]
    exact hg.displayName
  · have hold := hg.kind
    rw [nested_object hbelow] at hold
    rw [nested_object hbelow', hkind, hold]
  · rw [hparent, hg.parent]

theorem SameHead.idOf_eq {e e' : Value} (h : SameHead e e') : idOf e = idOf e' := by
  obtain ⟨fields, fields', -, -, rfl, rfl, hsame, -⟩ := h
  rw [idOf, idOf, field, field, hsame _ (by decide)]

namespace SameUpTo

variable {entries' : List Value} {position : Position}

theorem idAt_eq (h : SameUpTo entries entries' position) {a : Position} (ha : Before a position) :
    idAt entries a = idAt entries' a := by
  rw [idAt, idAt]
  rcases h.before a ha with ⟨hnone, hnone'⟩ | ⟨e, e', he, he', hsame⟩
  · rw [hnone, hnone']
  · rw [he, he', Option.map_some, Option.map_some, hsame.idOf_eq]

theorem enclosing_eq (h : SameUpTo entries entries' position) {a : Position}
    (ha : Before a position) : enclosing .null entries a = enclosing .null entries' a := by
  rcases position_cases a with rfl | ⟨k, rfl⟩ | ⟨above, k, habove, rfl⟩
  · rfl
  · rfl
  · rw [enclosing_concat .null habove, enclosing_concat .null habove,
      h.idAt_eq ((Before.of_child above k).trans ha)]

theorem readingAt?_eq (h : SameUpTo entries entries' position) {a : Position}
    (ha : Before a position) {i : Identifier} (hi : readingAt? .null entries a = some (.ok i)) :
    readingAt? .null entries' a = some (.ok i) := by
  obtain ⟨e, he, hread⟩ := (readingAt?_eq_some_iff ..).mp hi
  rw [h.enclosing_eq ha] at hread
  rcases h.before a ha with ⟨hnone, -⟩ | ⟨f, f', hf, hf', hsame⟩
  · rw [he] at hnone
    cases hnone
  · obtain rfl := Option.some.inj (he.symm.trans hf)
    exact (readingAt?_eq_some_iff ..).mpr ⟨f', hf', hsame.parseEntry_ok hread⟩

theorem planBefore (h : SameUpTo entries entries' position) {p : Plan}
    (hp : PlanBefore entries position p) : PlanBefore entries' position p := by
  obtain ⟨before, is, hasc, hmem, hgive, hlist⟩ := hp
  have hthere : ∀ a, Before a position →
      ((∃ e, entryAt? entries a = some e) ↔ ∃ e, entryAt? entries' a = some e) := by
    intro a ha
    rcases h.before a ha with ⟨hnone, hnone'⟩ | ⟨e, e', he, he', -⟩
    · simp [hnone, hnone']
    · simp [he, he']
  refine ⟨before, is, hasc, ?_, ?_, hlist⟩
  · intro a
    rw [hmem]
    exact and_congr_right (hthere a)
  · rw [Give, ← hgive]
    refine List.map_congr_left fun a ha => ?_
    obtain ⟨i, -, hi⟩ := hgive.exists_member ha
    rw [hi, h.readingAt?_eq ((hmem a).mp ha).1 hi]

theorem firstFault (h : SameUpTo entries entries' position) {e : Error}
    (he : FirstFault entries position e) : FirstFault entries' position e := by
  obtain ⟨p, read, hplan, hat, hadd⟩ := (firstFault_iff ..).mp he
  exact (firstFault_iff ..).mpr ⟨p, read, h.planBefore hplan, h.reading ▸ hat, hadd⟩

end SameUpTo

/-- A document gives a plan exactly if it is acceptable, and else the error of its first fault;
whatever is different behind the first fault, the error is the same. -/
theorem plan_outcome (h : field m "plan" (.list []) = .list entries) :
    ((∃ p, m.plan = .ok p) ↔ Acceptable entries) ∧
      (∀ e, m.plan = .error e ↔ ∃ position, FirstFault entries position e) ∧
      ∀ position e (m' : Manifest) entries', FirstFault entries position e →
        field m' "plan" (.list []) = .list entries' → SameUpTo entries entries' position →
        m'.plan = .error e := by
  refine ⟨exists_plan_iff h, plan_error_iff_firstFault h, ?_⟩
  intro position e m' entries' hfault h' hsame
  exact (plan_error_iff_firstFault h' e).mpr ⟨position, hsame.firstFault hfault⟩

/- The suite `a` holds a test of the same id, and behind it stands an entry that cannot be read. -/
def twiceEntries : List Value :=
  [.object [("id", .string "a"), ("children", .list [.object [("id", .string "a")]])],
   .object [("id", .int 7)]]

def twice : Manifest := [("plan", .list twiceEntries)]

theorem twice_outcome : field twice "plan" (.list []) = .list twiceEntries ∧
    ¬ Acceptable twiceEntries ∧ ∃ position,
      FirstFault twiceEntries position (.plan (.duplicateId "a")) ∧
      ∀ (m' : Manifest) entries', field m' "plan" (.list []) = .list entries' →
        SameUpTo twiceEntries entries' position → m'.plan = .error (.plan (.duplicateId "a")) := by
  have hfield : field twice "plan" (.list []) = .list twiceEntries := rfl
  have hplan : twice.plan = .error (.plan (.duplicateId "a")) := rfl
  obtain ⟨haccept, hfault, hlater⟩ := plan_outcome hfield
  refine ⟨hfield, ?_, ?_⟩
  · intro ha
    obtain ⟨p, hp⟩ := haccept.mpr ha
    rw [hplan] at hp
    cases hp
  · obtain ⟨position, hposition⟩ := (hfault _).mp hplan
    exact ⟨position, hposition, fun m' entries' => hlater position _ m' entries' hposition⟩

end SuiteView.Manifest
