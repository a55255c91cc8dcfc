import SuiteView.Proofs.Manifest.Acceptance
import SuiteView.Proofs.Plan.Branch

/-!
# Documents in pre-order

The plan of a document holds its members in the order of the document. An entry below another always
continues the last branch of the plan, for everything since the entry around it lies below that. An
entry at the top level may name a parent anywhere before it, and only where it names one on the last
branch does the plan stay in pre-order.
-/

namespace SuiteView.Manifest

variable {entries : List Value}

/-- Every entry at the top level that names a parent names the entry that stands just before it in the
document, or one above that. -/
def FollowsBranch (entries : List Value) : Prop :=
  ∀ k fields p, entries[k]? = some (.object fields) → PlanBefore entries [k] p →
    p.Continues (field fields "parent_id" .null)

/-! ### Entries below an entry -/

/-- What comes after an entry and before an entry nested in it lies below it. -/
theorem Before.prefix_of_between {above position : Position} {k : Nat}
    (hafter : Before above position) (hbefore : Before position (above ++ [k])) :
    above <+: position := by
  induction above generalizing position with
  | nil => exact List.nil_prefix
  | cons a above ih =>
    cases hafter with
    | rel hlt =>
      cases hbefore with
      | rel hgt => omega
      | cons _ => omega
    | cons hrest =>
      cases hbefore with
      | rel hgt => omega
      | cons hrest' => exact (List.prefix_cons_inj a).mpr (ih hrest hrest')

/-- The entries before a position, the members that they give, and the plan of these. -/
structure Holds (entries : List Value) (position : Position) (before : List Position)
    (is : List Identifier) (p : Plan) : Prop where
  ascending : before.Pairwise Before
  mem_iff : ∀ a, a ∈ before ↔ Before a position ∧ ∃ e, entryAt? entries a = some e
  give : Give entries before is
  plan : Plan.ofList is = .ok p

namespace Holds

variable {position : Position} {before : List Position} {is : List Identifier} {p : Plan}

theorem of_prefix (hpre : before ++ [position] <+: positions entries) (hgive : Give entries before is)
    (hplan : Plan.ofList is = .ok p) : Holds entries position before is p where
  ascending :=
    ((positions_inOrder entries).ascending.sublist
      ((List.prefix_append before [position]).trans hpre).sublist)
  mem_iff := (positions_inOrder entries).mem_before_iff hpre
  give := hgive
  plan := hplan

theorem get? (h : Holds entries position before is p) {a : Position} (ha : a ∈ before)
    {i : Identifier} (hi : readingAt? .null entries a = some (.ok i)) :
    p.get? i.uniqueId = some i := by
  obtain ⟨j, hj, hread⟩ := h.give.exists_member ha
  obtain rfl : i = j := Except.ok.inj (Option.some.inj (hi.symm.trans hread))
  have hmem : i ∈ p.toList := by
    rw [Plan.toList_ofList h.plan]
    exact hj
  exact (Plan.isForest_ofList h.plan).get?_uniqueId hmem

/- The induction goes down from the entry above, one nested entry at a time. -/
theorem below (h : Holds entries position before is p) {above : Position} (habove : above ≠ [])
    {j : Identifier} (hj : readingAt? .null entries above = some (.ok j)) (path : List Nat)
    (hmem : above ++ path ∈ before) {i : Identifier}
    (hi : readingAt? .null entries (above ++ path) = some (.ok i)) :
    Relation.ReflTransGen p.ParentOf j.uniqueId i.uniqueId := by
  induction path using List.reverseRecOn generalizing i with
  | nil =>
    rw [List.append_nil] at hi
    obtain rfl : i = j := Except.ok.inj (Option.some.inj (hi.symm.trans hj))
    exact .refl
  | append_singleton path l ih =>
    rw [← List.append_assoc] at hmem hi
    have hne : above ++ path ≠ [] := List.append_ne_nil_of_left_ne_nil habove path
    obtain ⟨hlt, e, he⟩ := (h.mem_iff _).mp hmem
    have hin : above ++ path ∈ before :=
      (h.mem_iff _).mpr ⟨(Before.of_child _ l).trans hlt, entryAt?_above hne he⟩
    obtain ⟨j', -, hj'⟩ := h.give.exists_member hin
    have hparent : i.parent = .string j'.uniqueId := parent_below hne hi hj'
    have hget : p.get? i.uniqueId = some i := h.get? hmem hi
    exact (ih hin hj').tail ⟨i, hget, hparent⟩

/-- A nested entry continues the branch on which the plan ends. -/
theorem continues (h : Holds entries position before is p) {above : Position} (habove : above ≠ [])
    {k : Nat} (hposition : position = above ++ [k]) {j : Identifier}
    (hin : above ∈ before) (hj : readingAt? .null entries above = some (.ok j)) :
    p.Continues (.string j.uniqueId) := by
  refine .inr ⟨j.uniqueId, rfl, ?_⟩
  obtain ⟨front, last, hlast⟩ := (List.eq_nil_or_concat before).resolve_left (List.ne_nil_of_mem hin)
  rw [List.concat_eq_append] at hlast
  have hmem : last ∈ before := by simp [hlast]
  have hprefix : above <+: last := by
    have hasc := h.ascending
    rw [hlast] at hin hasc
    rcases List.mem_append.mp hin with hfront | hself
    · have hafter := (List.pairwise_append.mp hasc).2.2 above hfront last (List.mem_cons_self ..)
      have hbefore := ((h.mem_iff last).mp hmem).1
      rw [hposition] at hbefore
      exact hafter.prefix_of_between hbefore
    · have hsame := List.mem_singleton.mp hself
      exact hsame ▸ List.prefix_refl _
  obtain ⟨path, hpath⟩ := hprefix
  obtain ⟨i, -, hi⟩ := h.give.exists_member hmem
  have hids : p.ids.getLast? = some i.uniqueId := by
    have hgive := h.give
    rw [Give, hlast, List.map_append, List.map_singleton, hi] at hgive
    obtain ⟨is', final, rfl, -, hfinal⟩ := List.map_eq_append_iff.mp hgive.symm
    obtain ⟨i', rfl, hi'⟩ := List.map_eq_singleton_iff.mp hfinal
    obtain rfl : i' = i := Except.ok.inj (Option.some.inj hi')
    rw [Plan.ids_ofList h.plan, List.map_append, List.map_singleton, List.getLast?_concat]
  rw [← hpath] at hmem hi
  exact ⟨i.uniqueId, hids, h.below habove hj path hmem hi⟩

end Holds

/-! ### Plans in pre-order -/

theorem Give.unique {order : List Position} {is is' : List Identifier} (h : Give entries order is)
    (h' : Give entries order is') : is = is' := by
  have hinj : Function.Injective fun i : Identifier => some (Except.ok (ε := EntryError) i) :=
    fun _ _ he => Except.ok.inj (Option.some.inj he)
  exact List.map_injective_iff.mpr hinj (h.symm.trans h')

/-- The plan of a document is in pre-order exactly if the document follows its last branch. -/
theorem plan_preorderIds_iff {m : Manifest} {p : Plan}
    (hentries : field m "plan" (.list []) = .list entries) (hp : m.plan = .ok p) :
    p.preorderIds = p.ids ↔ FollowsBranch entries := by
  obtain ⟨is, hreads, hlist⟩ := (plan_ok_iff hentries p).mp hp
  have hgive : Give entries (positions entries) is := .of_readings hreads
  rw [Plan.preorderIds_ofList_iff hlist]
  constructor
  · intro hall k fields p₀ hfields hbefore
    have hentry : entryAt? entries [k] = some (.object fields) := hfields
    obtain ⟨before, is₀, hpre, hgive₀, hlist₀⟩ := (planBefore_iff_split hentry p₀).mp hbefore
    obtain ⟨is', i, hi, hgive', hread⟩ := hgive.split_members hpre
    obtain rfl := hgive₀.unique hgive'
    obtain ⟨fields', hfields', hown⟩ := parent_top hread
    obtain rfl := Value.object.inj (Option.some.inj (hfields.symm.trans hfields'))
    rw [← hown]
    exact hall is₀ i p₀ hi hlist₀
  · intro hfollows is' i p₀ hi hlist₀
    obtain ⟨before, position, hpre, hgive₀, hread⟩ := hgive.split_order hi
    have hholds := Holds.of_prefix hpre hgive₀ hlist₀
    obtain ⟨e, he, -⟩ := (readingAt?_eq_some_iff ..).mp hread
    rcases position_cases position with rfl | ⟨k, rfl⟩ | ⟨above, k, habove, rfl⟩
    · cases he
    · obtain ⟨fields, hfields, hown⟩ := parent_top hread
      rw [hown]
      exact hfollows k fields p₀ hfields
        ((planBefore_iff_split he p₀).mpr ⟨before, is', hpre, hgive₀, hlist₀⟩)
    · obtain ⟨e', he'⟩ := entryAt?_above habove he
      have hin : above ∈ before := (hholds.mem_iff above).mpr ⟨Before.of_child above k, e', he'⟩
      obtain ⟨j, -, hj⟩ := hgive₀.exists_member hin
      rw [parent_below habove hread hj]
      exact hholds.continues habove rfl hin hj

end SuiteView.Manifest
