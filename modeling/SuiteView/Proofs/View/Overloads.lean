import SuiteView.Proofs.Filter.Pattern
import SuiteView.Proofs.Session

/-!
# Overloads

The case of a method is its signature: the name, and the types between parentheses if there are any. As
long as no name holds an opening parenthesis and no type a comma, a signature can be taken apart again:
the name ends at the first opening parenthesis, and the commas behind it part the types. Main statement:
overloads of a method have different cases, and a case without wildcards selects one of them.
-/

namespace SuiteView

/-! ### Signatures -/

/-- Two texts that go on differently behind the first of a mark agree before and behind it. -/
theorem append_mark_injective {α : Type} {mark : α} {front front' back back' : List α}
    (hfront : mark ∉ front) (hfront' : mark ∉ front')
    (h : front ++ mark :: back = front' ++ mark :: back') : front = front' ∧ back = back' := by
  induction front generalizing front' with
  | nil =>
    cases front' with
    | nil => exact ⟨rfl, (List.cons.inj h).2⟩
    | cons c front' =>
      obtain rfl : mark = c := (List.cons.inj h).1
      exact absurd (List.mem_cons_self ..) hfront'
  | cons c front ih =>
    cases front' with
    | nil =>
      obtain rfl : c = mark := (List.cons.inj h).1
      exact absurd (List.mem_cons_self ..) hfront
    | cons d front' =>
      obtain ⟨rfl, hrest⟩ := List.cons.inj h
      obtain ⟨hsame, hback⟩ := ih (fun hc => hfront (List.mem_cons_of_mem _ hc))
        (fun hc => hfront' (List.mem_cons_of_mem _ hc)) hrest
      exact ⟨congrArg _ hsame, hback⟩

/-- Types without commas can be told apart between commas. -/
theorem join_types_injective {types types' : List Text} (hne : types ≠ []) (hne' : types' ≠ [])
    (htypes : ∀ t ∈ types, .char ',' ∉ t) (htypes' : ∀ t ∈ types', .char ',' ∉ t)
    (h : Text.join "," types = Text.join "," types') : types = types' := by
  have hsplit := congrArg (List.splitOn (.char ',')) h
  change List.splitOn (.char ',') (List.intercalate [.char ','] types) =
    List.splitOn (.char ',') (List.intercalate [.char ','] types') at hsplit
  rwa [List.splitOn_intercalate _ htypes hne, List.splitOn_intercalate _ htypes' hne'] at hsplit

theorem methodSignature_nil (methodName : Text) : methodSignature methodName [] = methodName := rfl

theorem methodSignature_of_ne_nil (methodName : Text) {types : List Text} (h : types ≠ []) :
    methodSignature methodName types =
      methodName ++ .char '(' :: (Text.join "," types ++ [.char ')']) := by
  have hempty : types.isEmpty = false := by simpa using h
  rw [methodSignature, hempty]
  simp [Text.ofString]

/-- A signature with types has an opening parenthesis, so it is no bare name. -/
theorem methodSignature_ne_name {name name' : Text} {types : List Text} (hne : types ≠ [])
    (hname' : .char '(' ∉ name') : methodSignature name types ≠ name' := by
  rintro rfl
  rw [methodSignature_of_ne_nil name hne] at hname'
  exact hname' (List.mem_append_right _ (List.mem_cons_self ..))

theorem methodSignature_injective {name name' : Text} {types types' : List Text}
    (hname : .char '(' ∉ name) (hname' : .char '(' ∉ name') (htypes : ∀ t ∈ types, .char ',' ∉ t)
    (htypes' : ∀ t ∈ types', .char ',' ∉ t)
    (h : methodSignature name types = methodSignature name' types') :
    name = name' ∧ types = types' := by
  by_cases hne : types = []
  · subst hne
    by_cases hne' : types' = []
    · subst hne'
      exact ⟨h, rfl⟩
    · exact absurd h.symm (methodSignature_ne_name hne' hname)
  · by_cases hne' : types' = []
    · subst hne'
      exact absurd h (methodSignature_ne_name hne hname')
    · rw [methodSignature_of_ne_nil name hne, methodSignature_of_ne_nil name' hne'] at h
      obtain ⟨hsame, hback⟩ := append_mark_injective hname hname' h
      exact ⟨hsame, join_types_injective hne hne' htypes htypes' (List.append_cancel_right hback)⟩

/-! ### Tests of methods -/

/-- The member is a test of a method whose name holds no opening parenthesis and whose types hold no
comma. -/
structure Identifier.TestsMethod (i : Identifier) (className methodName : Text)
    (types : List Text) : Prop where
  test : i.kind = .test
  location : i.location = some (.ofMethod className methodName types)
  name : .char '(' ∉ methodName
  types : ∀ t ∈ types, .char ',' ∉ t

namespace Identifier.TestsMethod

variable {i j : Identifier} {className className' methodName methodName' : Text}
  {types types' : List Text}

theorem resolve (h : i.TestsMethod className methodName types) (p : Plan) :
    i.resolve p = .ok (className, methodSignature methodName types) := by
  unfold Identifier.resolve groupName caseName
  rw [h.location]
  rfl

theorem label (h : i.TestsMethod className methodName types) (p : Plan) :
    i.label p = .ok (.test className (methodSignature methodName types)) := by
  unfold Identifier.label
  rw [h.test, h.resolve p]
  rfl

theorem same_of_signature (h : i.TestsMethod className methodName types)
    (h' : j.TestsMethod className' methodName' types')
    (hsame : methodSignature methodName types = methodSignature methodName' types') :
    methodName = methodName' ∧ types = types' :=
  methodSignature_injective h.name h'.name h.types h'.types hsame

end Identifier.TestsMethod

/-- Without wildcards a pattern for the case selects the tests of this case. -/
theorem Filter.caseName_holds_plain {s : NodeStore} {n : NodeId} {node : Node}
    (hnode : s.get? n = some node) {group caseName pattern : Text}
    (hlabel : node.label = .test group caseName)
    (hplain : ∀ c ∈ pattern, c ≠ .char '*' ∧ c ≠ .char '?' ∧ c ≠ .char '[') :
    (Filter.caseName pattern).holds s n = true ↔ caseName = pattern := by
  rw [Filter.caseName_holds_iff hnode, hlabel]
  have hcut : Pattern.accepts pattern caseName = true ↔ caseName = pattern := by
    rw [Pattern.accepts_iff_cuts fun c hc => (hplain c hc).2.2]
    exact Pattern.cuts_iff_eq (fun c hc => ⟨(hplain c hc).1, (hplain c hc).2.1⟩) caseName
  constructor
  · rintro ⟨group', caseName', hsame, haccepts⟩
    obtain ⟨-, rfl⟩ := Label.test.inj hsame
    exact hcut.mp haccepts
  · intro hsame
    exact ⟨group, caseName, rfl, hcut.mpr hsame⟩

namespace Session

/-- Tests of methods that resolve to the same names are tests of the same method with the same types.
In the views of a session a case that such a test resolves to, if it holds no wildcard, selects among the
tests of methods those of this method with these types. -/
theorem overloads_apart :
    (∀ (i j : Identifier) (p q : Plan) (className className' methodName methodName' : Text)
        (types types' : List Text) (group caseName : Text),
      i.TestsMethod className methodName types → j.TestsMethod className' methodName' types' →
      i.resolve p = .ok (group, caseName) → j.resolve q = .ok (group, caseName) →
      className = className' ∧ methodName = methodName' ∧ types = types') ∧
    ∀ (s : NodeStore) (ops : List Op) (v : View), v ∈ ((start s).run ops).views →
      ∀ (i j : Identifier) (p : Plan) (className className' methodName methodName' : Text)
        (types types' : List Text) (group caseName : Text) (n : NodeId),
      i.TestsMethod className methodName types → j.TestsMethod className' methodName' types' →
      i.resolve p = .ok (group, caseName) →
      (∀ c ∈ caseName, c ≠ .char '*' ∧ c ≠ .char '?' ∧ c ≠ .char '[') →
      ((start s).run ops).plan.get? j.uniqueId = some j → v.nodeFor? j.uniqueId = some n →
      ((Filter.caseName caseName).holds ((start s).run ops).nodes n = true ↔
        methodName' = methodName ∧ types' = types) := by
  constructor
  · intro i j p q className className' methodName methodName' types types' group caseName hi hj hnames
      hnames'
    obtain ⟨rfl, rfl⟩ := Prod.mk.inj (Except.ok.inj ((hi.resolve p).symm.trans hnames))
    obtain ⟨hclass, hcase⟩ := Prod.mk.inj (Except.ok.inj ((hj.resolve q).symm.trans hnames'))
    exact ⟨hclass.symm, hi.same_of_signature hj hcase.symm⟩
  · intro s ops v hv i j p className className' methodName methodName' types types' group caseName n
      hi hj hnames hplain hget hn
    obtain ⟨-, rfl⟩ := Prod.mk.inj (Except.ok.inj ((hi.resolve p).symm.trans hnames))
    obtain ⟨name, hm⟩ := (run_sound s ops).mirrors_of_mem hv
    obtain ⟨k, label, parent, hk, hlabel, -, -, hnode⟩ := hm.node j.uniqueId n hn
    obtain rfl : k = j := Option.some.inj (hk.symm.trans hget)
    obtain rfl := Except.ok.inj ((hj.label _).symm.trans hlabel)
    rw [Filter.caseName_holds_plain hnode rfl hplain]
    constructor
    · intro hsame
      exact hj.same_of_signature hi hsame
    · rintro ⟨rfl, rfl⟩
      rfl

/- A method without parameters, and an overload whose only type has no name. -/
def bare : Identifier := ⟨"a", "A", .test, some (.ofMethod "C" "f" []), .null⟩

def unnamedType : Identifier := ⟨"b", "B", .test, some (.ofMethod "C" "f" [""]), .null⟩

theorem unnamedType_apart : ∃ v ∈ ((start .empty).run
      [.add bare, .add unnamedType, .openView "r"]).views,
    bare.resolve .empty ≠ unnamedType.resolve .empty ∧
    unnamedType.resolve .empty = .ok ("C", "f()") ∧ v.nodeFor? "a" = some 1 ∧ v.nodeFor? "b" = some 2 ∧
    (Filter.caseName "f()").holds
      ((start .empty).run [.add bare, .add unnamedType, .openView "r"]).nodes 1 = false ∧
    (Filter.caseName "f()").holds
      ((start .empty).run [.add bare, .add unnamedType, .openView "r"]).nodes 2 = true := by
  have hview : ((start .empty).run [.add bare, .add unnamedType, .openView "r"]).views[0]? =
      some ⟨0, [("a", 1), ("b", 2)]⟩ := rfl
  have hv := List.mem_of_getElem? hview
  have hbare : bare.TestsMethod "C" "f" [] := ⟨rfl, rfl, by decide, by decide⟩
  have hunnamed : unnamedType.TestsMethod "C" "f" [""] := ⟨rfl, rfl, by decide, by decide⟩
  have hnames : unnamedType.resolve .empty = .ok ("C", "f()") := rfl
  obtain ⟨hapart, hselects⟩ := overloads_apart
  have hother := hselects .empty _ _ hv unnamedType bare .empty _ _ _ _ _ _ _ _ 1 hunnamed hbare hnames
    (by decide) rfl rfl
  have hself := hselects .empty _ _ hv unnamedType unnamedType .empty _ _ _ _ _ _ _ _ 2 hunnamed hunnamed
    hnames (by decide) rfl rfl
  refine ⟨_, hv, ?_, hnames, rfl, rfl, ?_, hself.mpr ⟨rfl, rfl⟩⟩
  · intro hsame
    obtain ⟨-, -, htypes⟩ := hapart bare unnamedType .empty .empty _ _ _ _ _ _ _ _ hbare hunnamed
      (hsame.trans hnames) hnames
    cases htypes
  · rw [← Bool.not_eq_true, hother]
    rintro ⟨-, htypes⟩
    cases htypes

end Session

end SuiteView
