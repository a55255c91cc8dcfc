import SuiteView.Proofs.Manifest.Acceptance

/-!
# Documents become forests

The plan of a document holds one member for every entry, in the order of the document. An entry that
is nested in another one becomes its child, whatever parent it names itself; an entry at the top level
becomes a root or the child of the parent that it names. So a document whose top-level entries name no
parent comes back entry by entry from the roots of its plan.
-/

namespace SuiteView

/-- A member stands where its parent puts it: among the roots, or among the children of a member. -/
def Plan.Hangs (p : Plan) (i : Identifier) : Prop :=
  (i.parent = .null ∧ i ∈ p.roots ∧ p.parent? i.uniqueId = none) ∨
    ∃ j ∈ p.toList, i.parent = .string j.uniqueId ∧ i ∈ p.children j.uniqueId ∧
      p.parent? i.uniqueId = some j

theorem Plan.IsForest.hangs {p : Plan} (h : p.IsForest) {i : Identifier} (hi : i ∈ p.toList) :
    p.Hangs i := by
  have hget := h.get?_uniqueId hi
  rcases h.parent_before i hi with hnull | ⟨q, hq, hin, -⟩
  · refine .inl ⟨hnull, ?_, ?_⟩
    · simp [h.roots_eq, hi, hnull]
    · simp [Plan.parent?, hget, hnull]
  · obtain ⟨j, hj⟩ := (h.mem_ids_iff q).mp hin
    obtain rfl := h.uniqueId_of_get? hj
    refine .inr ⟨j, h.mem_of_get? hj, hq, ?_, ?_⟩
    · simp [h.children_eq, hi, hq]
    · simp [Plan.parent?, hget, hq, hj]

namespace Manifest

/-! ### One member for each entry -/

/-- What a member has of the entry at a position. Everything but the parent is what the entry gives by
itself. The parent is the entry around it; at the top level it is the one that the entry names. -/
structure StandsFor (entries : List Value) (position : Position) (i : Identifier) : Prop where
  own : ∃ e j, entryAt? entries position = some e ∧ parseEntry e .null = .ok j ∧
    i = { j with parent := i.parent }
  top : ∀ k fields, position = [k] → entries[k]? = some (.object fields) →
    i.parent = field fields "parent_id" .null
  inside : ∀ above k e, position = above ++ [k] → entryAt? entries above = some e →
    i.parent = idOf e

theorem parseEntry_own {e outer : Value} {i : Identifier} (h : parseEntry e outer = .ok i) :
    ∃ j, parseEntry e .null = .ok j ∧ i = { j with parent := i.parent } := by
  obtain ⟨fields, rfl, -⟩ := parseEntry_object h
  rw [parseEntry_under] at h
  cases hnull : parseEntry (.object fields) .null with
  | error cause =>
    rw [hnull] at h
    cases h
  | ok j =>
    rw [hnull] at h
    obtain rfl := Except.ok.inj h
    exact ⟨j, rfl, rfl⟩

variable {m : Manifest} {entries : List Value}

theorem Give.standsFor {is : List Identifier} (hgive : Give entries (positions entries) is)
    {position : Position} {i : Identifier}
    (h : readingAt? .null entries position = some (.ok i)) : StandsFor entries position i where
  own := by
    obtain ⟨e, he, hread⟩ := (readingAt?_eq_some_iff ..).mp h
    obtain ⟨j, hj, hi⟩ := parseEntry_own hread
    exact ⟨e, j, he, hj, hi⟩
  top := by
    rintro k fields rfl hfields
    obtain ⟨fields', hfields', hparent⟩ := parent_top h
    obtain rfl := Value.object.inj (Option.some.inj (hfields.symm.trans hfields'))
    exact hparent
  inside := by
    rintro above k e rfl he
    have habove : above ≠ [] := by
      rintro rfl
      cases he
    obtain ⟨j, -, hj⟩ := hgive.exists_member ((mem_positions_iff entries above).mpr ⟨e, he⟩)
    rw [parent_below habove h hj, ← idAt_of_readingAt? hj, idAt_eq he]

theorem plan_standsFor {p : Plan} (hp : m.plan = .ok p) :
    ∃ entries order, field m "plan" (.list []) = .list entries ∧ InOrder entries order ∧
      List.Forall₂ (StandsFor entries) order p.toList ∧ ∀ i ∈ p.toList, p.Hangs i := by
  obtain ⟨entries, hentries, hgive, hforest⟩ := give_of_plan hp
  exact ⟨entries, positions entries, hentries, positions_inOrder entries,
    hgive.forall₂.imp fun _ _ => hgive.standsFor, fun _ => hforest.hangs⟩

/-! ### The nested forest -/

/-- The members are those that the entries of a list give, in their order, and the children of each
come in the same way of what is nested in its entry. -/
inductive Reproduces (p : Plan) : (outer : Value) → List Value → List Identifier → Prop
  | nil {outer : Value} : Reproduces p outer [] []
  | cons {outer e : Value} {rest : List Value} {i : Identifier} {is : List Identifier}
      (hread : parseEntry e outer = .ok i)
      (hbelow : Reproduces p (.string i.uniqueId) (nested e) (p.children i.uniqueId))
      (hrest : Reproduces p outer rest is) : Reproduces p outer (e :: rest) (i :: is)

def under (parent : Value) (is : List Identifier) : List Identifier :=
  is.filter fun i => i.parent = parent

theorem under_eq_nil {parent : Value} {is : List Identifier} (h : ∀ i ∈ is, i.parent ≠ parent) :
    under parent is = [] := by
  simpa [under] using h

theorem under_append (parent : Value) (is is' : List Identifier) :
    under parent (is ++ is') = under parent is ++ under parent is' :=
  List.filter_append ..

theorem under_cons_of_eq {parent : Value} {i : Identifier} (h : i.parent = parent)
    (is : List Identifier) : under parent (i :: is) = i :: under parent is := by
  simp [under, h]

theorem under_cons_of_ne {parent : Value} {i : Identifier} (h : i.parent ≠ parent)
    (is : List Identifier) : under parent (i :: is) = under parent is := by
  simp [under, h]

/-- All entries of a list take the parent that is around them. -/
def TakesOuter (outer : Value) (entries : List Value) : Prop :=
  ∀ e ∈ entries, ∀ i, parseEntry e outer = .ok i → i.parent = outer

theorem takesOuter_string (q : Text) (entries : List Value) :
    TakesOuter (.string q) entries := by
  intro e _ i hi
  obtain ⟨fields, rfl, hgives⟩ := parseEntry_object hi
  exact hgives.parent.symm

theorem readings_cons_ok {outer e : Value} {rest : List Value} {is : List Identifier}
    (h : readings outer (e :: rest) = is.map .ok) : ∃ i below later,
      is = i :: (below ++ later) ∧ parseEntry e outer = .ok i ∧
      readings (.string i.uniqueId) (nested e) = below.map .ok ∧
      readings outer rest = later.map .ok := by
  rw [readings_cons] at h
  obtain ⟨i, is, rfl, hi, his⟩ := List.map_eq_cons_iff.mp h.symm
  obtain ⟨below, later, rfl, hbelow, hlater⟩ := List.map_eq_append_iff.mp his
  rw [idOf_of_parseEntry hi.symm] at hbelow
  exact ⟨i, below, later, rfl, hi.symm, hbelow.symm, hlater.symm⟩

theorem parent_of_readings {outer : Value} {is : List Identifier} (hown : TakesOuter outer entries)
    (h : readings outer entries = is.map .ok) :
    ∀ i ∈ is, i.parent = outer ∨ ∃ j ∈ is, i.parent = .string j.uniqueId := by
  induction entries using positions.induct generalizing outer is with
  | case1 =>
    obtain rfl : is = [] := by simpa [readings, positions] using h
    simp
  | case2 e rest ihnested ihrest =>
    obtain ⟨i, below, later, rfl, hi, hbelow, hlater⟩ := readings_cons_ok h
    have hparent := hown e (List.mem_cons_self ..) i hi
    have hdown := ihnested (takesOuter_string _ _) hbelow
    have hafter := ihrest (fun e' he' => hown e' (List.mem_cons_of_mem _ he')) hlater
    intro j hj
    rcases List.mem_cons.mp hj with rfl | hj
    · exact .inl hparent
    · rcases List.mem_append.mp hj with hj | hj
      · rcases hdown j hj with hp | ⟨j', hj', hp⟩
        · exact .inr ⟨i, List.mem_cons_self .., hp⟩
        · exact .inr ⟨j', by simp [hj'], hp⟩
      · refine (hafter j hj).imp_right ?_
        rintro ⟨j', hj', hp⟩
        exact ⟨j', by simp [hj'], hp⟩

theorem under_readings_eq_nil {outer parent : Value} {is : List Identifier}
    (hown : TakesOuter outer entries) (h : readings outer entries = is.map .ok)
    (houter : parent ≠ outer) (hnone : ∀ j ∈ is, parent ≠ .string j.uniqueId) :
    under parent is = [] := by
  refine under_eq_nil fun i hi => ?_
  rcases parent_of_readings hown h i hi with hp | ⟨j, hj, hp⟩
  · rw [hp]
    exact houter.symm
  · rw [hp]
    exact (hnone j hj).symm

/-- A plan reproduces the entries of a list if its children are the members that they give. -/
theorem reproduces_of_readings {p : Plan} {outer : Value} {is : List Identifier}
    (hown : TakesOuter outer entries) (h : readings outer entries = is.map .ok)
    (hnodup : (is.map (·.uniqueId)).Nodup) (houter : ∀ j ∈ is, outer ≠ .string j.uniqueId)
    (hchildren : ∀ j ∈ is, p.children j.uniqueId = under (.string j.uniqueId) is) :
    Reproduces p outer entries (under outer is) := by
  induction entries using positions.induct generalizing outer is with
  | case1 =>
    obtain rfl : is = [] := by simpa [readings, positions] using h
    exact .nil
  | case2 e rest ihnested ihrest =>
    obtain ⟨i, below, later, rfl, hi, hbelow, hlater⟩ := readings_cons_ok h
    have hown' := takesOuter_string i.uniqueId (nested e)
    have hownRest : TakesOuter outer rest := fun e' he' => hown e' (List.mem_cons_of_mem _ he')
    -- the member, those below it and those behind it have no id in common, nor the one around
    rw [List.forall_mem_cons, List.forall_mem_append] at houter hchildren
    obtain ⟨hi_outer, hbelow_outer, hlater_outer⟩ := houter
    obtain ⟨hi_children, hbelow_children, hlater_children⟩ := hchildren
    rw [List.map_cons, List.map_append, List.nodup_cons, List.nodup_append, List.mem_append,
      not_or] at hnodup
    obtain ⟨⟨hi_below, hi_later⟩, hbelow_nodup, hlater_nodup, hapart⟩ := hnodup
    have hne_below : ∀ j ∈ below, Value.string i.uniqueId ≠ .string j.uniqueId := fun j hj he =>
      hi_below (List.mem_map.mpr ⟨j, hj, (Value.string.inj he).symm⟩)
    have hne_later : ∀ j ∈ later, Value.string i.uniqueId ≠ .string j.uniqueId := fun j hj he =>
      hi_later (List.mem_map.mpr ⟨j, hj, (Value.string.inj he).symm⟩)
    have hne : ∀ x ∈ below, ∀ y ∈ later, Value.string x.uniqueId ≠ .string y.uniqueId :=
      fun x hx y hy he => hapart _ (List.mem_map_of_mem hx) _ (List.mem_map_of_mem hy)
        (Value.string.inj he)
    -- so each of the three stands alone under its own parent
    have hparent := hown e (List.mem_cons_self ..) i hi
    have hsplit : ∀ parent, outer ≠ parent →
        under parent (i :: (below ++ later)) = under parent below ++ under parent later := by
      intro parent hp
      rw [under_cons_of_ne (hparent ▸ hp), under_append]
    have hroots : under outer (i :: (below ++ later)) = i :: under outer later := by
      rw [under_cons_of_eq hparent, under_append,
        under_readings_eq_nil hown' hbelow hi_outer hbelow_outer, List.nil_append]
    have hkids : p.children i.uniqueId = under (.string i.uniqueId) below := by
      rw [hi_children, hsplit _ hi_outer,
        under_readings_eq_nil hownRest hlater hi_outer.symm hne_later, List.append_nil]
    rw [hroots]
    refine .cons hi ?_ ?_
    · rw [hkids]
      refine ihnested hown' hbelow hbelow_nodup hne_below fun j hj => ?_
      rw [hbelow_children j hj, hsplit _ (hbelow_outer j hj),
        under_readings_eq_nil hownRest hlater (hbelow_outer j hj).symm (hne j hj), List.append_nil]
    · refine ihrest hownRest hlater hlater_nodup hlater_outer fun j hj => ?_
      rw [hlater_children j hj, hsplit _ (hlater_outer j hj),
        under_readings_eq_nil hown' hbelow (hne_later j hj).symm fun x hx => (hne x hx j hj).symm,
        List.nil_append]

/-- All entries can be read, their ids are distinct, and none at the top level names a parent. -/
structure IsForest (entries : List Value) : Prop where
  readable : ∀ position e, entryAt? entries position = some e → ∃ i, parseEntry e .null = .ok i
  distinct : ∀ a b e f, entryAt? entries a = some e → entryAt? entries b = some f →
    idOf e = idOf f → a = b
  top : ∀ (k : Nat) fields, entries[k]? = some (.object fields) →
    field fields "parent_id" .null = .null

theorem IsForest.acceptable (h : IsForest entries) : Acceptable entries :=
  ⟨h.readable, h.distinct, fun k fields hfields => .inl (h.top k fields hfields)⟩

theorem plan_reproduces (h : field m "plan" (.list []) = .list entries) (hentries : IsForest entries) :
    ∃ p, m.plan = .ok p ∧ Reproduces p .null entries p.roots := by
  obtain ⟨p, hp⟩ := (exists_plan_iff h).mpr hentries.acceptable
  obtain ⟨is, hreads, hlist⟩ := (plan_ok_iff h p).mp hp
  have hforest := Plan.isForest_ofList hlist
  have hown : TakesOuter .null entries := by
    intro e he i hi
    obtain ⟨fields, rfl, hgives⟩ := parseEntry_object hi
    obtain ⟨k, hk⟩ := List.getElem?_of_mem he
    exact hgives.parent.symm.trans (hentries.top k fields hk)
  have hnodup : (is.map (·.uniqueId)).Nodup := Plan.ids_ofList hlist ▸ hforest.ids_nodup
  have hchildren : ∀ j ∈ is, p.children j.uniqueId = under (.string j.uniqueId) is := fun j _ => by
    rw [hforest.children_eq, Plan.toList_ofList hlist]
    rfl
  have hroots : p.roots = under .null is := by
    rw [hforest.roots_eq, Plan.toList_ofList hlist]
    rfl
  refine ⟨p, hp, ?_⟩
  rw [hroots]
  exact reproduces_of_readings hown hreads hnodup (fun _ _ => Value.noConfusion) hchildren

/-- Every plan of a document holds its entries in their order, each where its parent puts it; and
every forest of entries has a plan, whose roots and children are that forest. -/
theorem plan_nests (m : Manifest) :
    (∀ p, m.plan = .ok p → ∃ entries order, field m "plan" (.list []) = .list entries ∧
      InOrder entries order ∧ List.Forall₂ (StandsFor entries) order p.toList ∧
      ∀ i ∈ p.toList, p.Hangs i) ∧
    ∀ entries, field m "plan" (.list []) = .list entries → IsForest entries →
      ∃ p, m.plan = .ok p ∧ Reproduces p .null entries p.roots :=
  ⟨fun _ => plan_standsFor, fun _ => plan_reproduces⟩

/- The inner suite names a parent that does not exist. -/
def threeLevels : List Value :=
  [.object [("id", .string "a"), ("children", .list
    [.object [("id", .string "b"), ("parent_id", .string "z"), ("children", .list
      [.object [("id", .string "c")]])],
     .object [("id", .string "d"), ("kind", .string "container")]])],
   .object [("id", .string "e"), ("parent_id", .null)]]

theorem threeLevels_isForest : IsForest threeLevels := by
  have hplan : ∃ p, Manifest.plan [("plan", .list threeLevels)] = .ok p := ⟨_, rfl⟩
  have ha : Acceptable threeLevels := (exists_plan_iff rfl).mp hplan
  refine ⟨ha.readable, ha.distinct, ?_⟩
  intro k fields hfields
  match k, hfields with
  | 0, rfl => rfl
  | 1, rfl => rfl

theorem threeLevels_nests : ∃ p, Manifest.plan [("plan", .list threeLevels)] = .ok p ∧
    (∃ entries order, InOrder entries order ∧ List.Forall₂ (StandsFor entries) order p.toList) ∧
    Reproduces p .null threeLevels p.roots := by
  obtain ⟨hmembers, hforest⟩ := plan_nests [("plan", .list threeLevels)]
  obtain ⟨p, hp, hreproduces⟩ := hforest threeLevels rfl threeLevels_isForest
  obtain ⟨entries, order, -, horder, hstand, -⟩ := hmembers p hp
  exact ⟨p, hp, ⟨entries, order, horder, hstand⟩, hreproduces⟩

end Manifest

end SuiteView
