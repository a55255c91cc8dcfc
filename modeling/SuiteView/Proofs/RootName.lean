import SuiteView.Proofs.Listing
import SuiteView.Proofs.Report.Renamed
import SuiteView.Proofs.View.Twins

/-!
# The name of the root

The root of a view takes part in every walk and stands at the top of every report. Its name is shown
there and nowhere else. Main statement: two views that are opened on a plan under different names cannot
be told apart otherwise, whatever is inserted and selected, and what a run prints and how it ends does
not depend on the label that it gives the root.
-/

namespace SuiteView

/-! ### Two views side by side -/

namespace Bridge

/-- The two views go by these names, and nothing else tells them apart: they map the same members in the
same order, to nodes with the same trees, list the same leaves for every filter but those for a node, take
and refuse the same insertions, and their reports differ in the name of the root. -/
structure DifferInName (name name' : Text) (b c : Bridge) : Prop where
  plan_eq : c.plan = b.plan
  order : c.view.mapped.keys = b.view.mapped.keys
  roots : ∃ children children', b.nodes.get? b.view.root = some ⟨.suite name, none, none, children⟩ ∧
    c.nodes.get? c.view.root = some ⟨.suite name', none, none, children'⟩ ∧
    List.Forall₂ (b.nodes.SameTree c.nodes) children children'
  nodes : ∀ id n m, b.view.nodeFor? id = some n → c.view.nodeFor? id = some m →
    b.nodes.SameTree c.nodes n m ∧
      c.view.identifierFor? c.plan c.nodes m = b.view.identifierFor? b.plan b.nodes n
  leaves : ∀ f : Filter, f.nodeFree = true →
    c.view.leaves c.plan (f.holds c.nodes) = b.view.leaves b.plan (f.holds b.nodes)
  tests : ∀ id, View.testsBelow c.plan id = View.testsBelow b.plan id
  insertion : ∀ i parent, SameOutcome (fun n m =>
    (b.insertUnder i parent).1.view.nodeFor? i.uniqueId = some n ∧
      (c.insertUnder i parent).1.view.nodeFor? i.uniqueId = some m)
    (b.insertUnder i parent).2 (c.insertUnder i parent).2
  report : ∀ selection time, ∃ r r' rest, b.view.report b.nodes selection time = r ∧
    c.view.report c.nodes selection time = r' ∧ r' = { r with tree := r'.tree } ∧
    r.tree.document = .mapping (("name", .text name) :: rest) ∧
    r'.tree.document = .mapping (("name", .text name') :: rest)

variable {name name' : Text} {b c : Bridge}

theorem Twins.differInName (h : Twins name name' b c) : DifferInName name name' b c := by
  have hw := h.right_mirrors
  refine ⟨h.plan_eq, h.keys_eq, ?_, ?_, ?_, fun id => by rw [h.plan_eq],
    fun i parent => (h.insertUnder i parent).2, ?_⟩
  · exact ⟨_, _, h.left.root_node, hw.root_node, h.left.sameTree_under hw h.forest h.sameKeys .null⟩
  · intro id n m hn hm
    rw [h.plan_eq]
    exact ⟨h.left.sameTree_member hw h.forest h.sameKeys hn hm,
      h.left.identifierFor?_eq hw h.forest hn hm⟩
  · intro f hfree
    rw [h.plan_eq]
    exact h.leaves_eq hfree
  · intro selection time
    have hroot : (b.view.report b.nodes selection time).tree.label = .suite name := by
      show (Entry.ofNode b.nodes _ b.view.root).label = _
      rw [h.left.ofNode_eq h.forest _ (List.mem_cons_self ..) h.left.root_node]
      rfl
    obtain ⟨rest, hdocument, hrenamed⟩ := Entry.document_renamed hroot name'
    refine ⟨_, _, rest, rfl, h.left.report_renamed hw h.forest h.keys_eq selection time, rfl,
      hdocument, hrenamed⟩

end Bridge

/-- A view on a plan, and the selection that its reports show. -/
structure Exhibit where
  bridge : Bridge
  selection : Option Selection

namespace Exhibit

/-- What changes an exhibit: a member is added behind the back of the view or inserted through it, or a
selection is made. -/
inductive Call where
  | add (i : Identifier)
  | insert (i : Identifier) (parent : Value)
  | select (selection : Selection)

/-- A call that fails keeps what it changed before it failed. -/
def call (x : Exhibit) : Call → Exhibit
  | .add i =>
    match x.bridge.plan.add i with
    | .ok p => { x with bridge := x.bridge.withPlan p }
    | .error _ => x
  | .insert i parent => { x with bridge := (x.bridge.insertUnder i parent).1 }
  | .select selection => { x with selection := some selection }

def after (x : Exhibit) (calls : List Call) : Exhibit := calls.foldl call x

/-- Two exhibits of twins with one selection. -/
structure Twins (name name' : Text) (x y : Exhibit) : Prop where
  bridges : x.bridge.Twins name name' y.bridge
  selection_eq : y.selection = x.selection

theorem Twins.call {name name' : Text} {x y : Exhibit} (h : Twins name name' x y) (c : Call) :
    Twins name name' (x.call c) (y.call c) := by
  cases c with
  | add i =>
    have hadd : y.bridge.plan.add i = x.bridge.plan.add i := by rw [h.bridges.plan_eq]
    rw [Exhibit.call, Exhibit.call, hadd]
    cases hx : x.bridge.plan.add i with
    | ok p => exact ⟨h.bridges.withPlan hx (hadd.trans hx), h.selection_eq⟩
    | error cause => exact h
  | insert i parent => exact ⟨(h.bridges.insertUnder i parent).1, h.selection_eq⟩
  | select selection => exact ⟨h.bridges, rfl⟩

theorem Twins.after {name name' : Text} {x y : Exhibit} (h : Twins name name' x y)
    (calls : List Call) : Twins name name' (x.after calls) (y.after calls) := by
  induction calls generalizing x y with
  | nil => exact h
  | cons c calls ih => exact ih (h.call c)

end Exhibit

/-! ### Runs -/

namespace FileTree

/-- Whether a file can be written does not depend on what is written. -/
theorem writeText_outcome (t : FileTree) (p : Path) (text text' : String) :
    (t.writeText p text).2 = (t.writeText p text').2 := by
  unfold writeText
  split
  · rename_i t' _ _
    unfold write
    split
    · rfl
    · split <;> rfl
  · rfl

end FileTree

namespace CommandLine

open Bridge (Twins)

variable {name name' : Text} {b c : Bridge}

theorem prepareView_twins (m : Manifest) (label label' : Text) (replays : Bool) :
    SameOutcome (Twins label label') (prepareView m label replays) (prepareView m label' replays) := by
  unfold prepareView
  cases hplan : m.plan with
  | error cause => exact .failed _
  | ok p =>
    obtain ⟨-, -, -, hf⟩ := Manifest.give_of_plan hplan
    have hcreate := Bridge.create_twins hf .empty .empty label label'
    dsimp only
    generalize Bridge.create p .empty label = opened at hcreate ⊢
    generalize Bridge.create p .empty label' = opened' at hcreate ⊢
    cases hcreate with
    | failed cause => exact .failed _
    | @done b c htwins =>
      cases replays with
      | false => exact .done htwins
      | true =>
        obtain ⟨hafter, hresult⟩ := htwins.replay m.lateEntries
        simp only [if_true]
        generalize b.replay m.lateEntries = r at hafter hresult ⊢
        generalize c.replay m.lateEntries = r' at hafter hresult ⊢
        obtain ⟨b', result⟩ := r
        obtain ⟨c', result'⟩ := r'
        obtain rfl : result' = result := hresult
        cases result' with
        | error cause => exact .failed _
        | ok _ => exact .done hafter

namespace Options

def withLabel (o : Options) (label : Option (Operand Text)) : Options := { o with rootLabel := label }

end Options

variable {o : Options}

theorem prepare_twins (files : FileTree) (o : Options) (label : Option (Operand Text)) :
    SameOutcome (fun x y => y.1 = x.1 ∧ ∃ name name', Twins name name' x.2 y.2)
      (prepare files o) (prepare files (o.withLabel label)) := by
  have hsettings : settingsOf files (o.withLabel label) = settingsOf files o := rfl
  have hmanifest : manifestOf files (o.withLabel label) = manifestOf files o := rfl
  rw [prepare, prepare, hsettings, hmanifest]
  refine (SameOutcome.refl _).bind ?_
  rintro settings _ rfl
  refine (SameOutcome.refl _).bind ?_
  rintro m _ rfl
  exact (prepareView_twins m _ _ _).bind fun b c h => .done ⟨rfl, _, _, h⟩

/-! ### Listings of twins -/

theorem criteria_nodeFree {criterion : Criterion} (h : criterion ∈ o.criteria) :
    criterion.toFilter.nodeFree = true := by
  rw [Options.criteria, List.mem_append, List.mem_append] at h
  rcases h with (hgroup | hcase) | hids
  · obtain ⟨operand, -, rfl⟩ := List.mem_map.mp hgroup
    cases operand <;> rfl
  · obtain ⟨operand, -, rfl⟩ := List.mem_map.mp hcase
    cases operand <;> rfl
  · split at hids
    · cases hids
    · obtain rfl := List.mem_singleton.mp hids
      rfl

theorem filter?_nodeFree {f : Filter} (h : o.filter? = some f) : f.nodeFree = true := by
  unfold Options.filter? at h
  split at h
  · cases h
  · obtain rfl := Option.some.inj h
    rw [Filter.nodeFree, Filter.allNodeFree_iff]
    intro f hf
    obtain ⟨criterion, hcriterion, rfl⟩ := List.mem_map.mp hf
    exact criteria_nodeFree hcriterion

theorem breaksOn_of_sameFace {s t : NodeStore} {n m : NodeId} (h : s.SameFace t n m)
    {criteria : List Criterion} (hfree : ∀ c ∈ criteria, c.toFilter.nodeFree = true) :
    breaksOn s n criteria = breaksOn t m criteria := by
  induction criteria with
  | nil => rfl
  | cons c rest ih =>
    obtain ⟨hfirst, hrest⟩ := List.forall_mem_cons.mp hfree
    have hkind : s.isTest n = t.isTest m := by
      obtain ⟨x, y, hx, hy, hlabel, -⟩ := h
      rw [NodeStore.isTest, NodeStore.isTest, hx, hy, Option.map_some, Option.map_some, hlabel]
    have hbreaks : c.breaksOn s n = c.breaksOn t m := by
      cases c with
      | filter f => rfl
      | groupNothing => rfl
      | caseNothing => exact hkind
    rw [breaksOn, breaksOn, hbreaks, Filter.holds_of_sameFace h _ hfirst, ih hrest]

theorem listed_twins (h : Twins name name' b c) (o : Options) (label : Option (Operand Text)) :
    listed c (o.withLabel label) = listed b o := by
  have hbreaks : (c.view.mapped.any fun entry => breaksOn c.nodes entry.2 o.criteria) =
      b.view.mapped.any fun entry => breaksOn b.nodes entry.2 o.criteria := by
    have hmatching := h.left.matching_eq h.right_mirrors h.keys_eq fun _ _ _ hn hm =>
      breaksOn_of_sameFace (h.left.sameFace h.right_mirrors hn hm) fun _ hc =>
        criteria_nodeFree (o := o) hc
    rw [c.view.any_mapped fun n => breaksOn c.nodes n o.criteria,
      b.view.any_mapped fun n => breaksOn b.nodes n o.criteria, hmatching]
  have hlisting : listing c o.filter? = listing b o.filter? := by
    cases hfilter : o.filter? with
    | none => rw [listing, listing, h.plan_eq]
    | some f =>
      have hleaves := h.leaves_eq (filter?_nodeFree hfilter)
      rw [listing, listing, h.plan_eq]
      exact congrArg (Listing.mk (some f)) hleaves
  have hcriteria : (o.withLabel label).criteria = o.criteria := rfl
  have hfilter : (o.withLabel label).filter? = o.filter? := rfl
  have hids : (o.withLabel label).ids = o.ids := rfl
  rw [listed, listed, hcriteria, hfilter, hids, hbreaks, hlisting]

theorem memberLine_twins (h : Twins name name' b c) (i : Identifier) :
    memberLine c i = memberLine b i := by
  have hlabel : ((c.view.nodeFor? i.uniqueId).bind c.nodes.get?).map (·.label.display) =
      ((b.view.nodeFor? i.uniqueId).bind b.nodes.get?).map (·.label.display) := by
    cases hn : b.view.nodeFor? i.uniqueId with
    | none =>
      have hm : c.view.nodeFor? i.uniqueId = none := by
        rw [View.nodeFor?_eq_none_iff, h.keys_eq, ← View.nodeFor?_eq_none_iff]
        exact hn
      rw [hm]
      rfl
    | some n =>
      obtain ⟨m, hm⟩ := (c.view.mem_keys_iff _).mp
        ((h.sameKeys _).mp ((b.view.mem_keys_iff _).mpr ⟨n, hn⟩))
      obtain ⟨x, y, hx, hy, hlabel, -⟩ := h.left.sameFace h.right_mirrors hn hm
      rw [hm, Option.bind_some, Option.bind_some, hx, hy, Option.map_some, Option.map_some, hlabel]
  rw [memberLine, memberLine, hlabel]

theorem finish_same (files : FileTree) (o : Options) (label : Option (Operand Text))
    (settings : Settings) (b c : Bridge) (l : Listing) (time : Timestamp) :
    (finish files (o.withLabel label) settings c l time).1 = (finish files o settings b l time).1 ∧
      (finish files (o.withLabel label) settings c l time).2.1 =
        (finish files o settings b l time).2.1 := by
  have hpath : reportPath (o.withLabel label) settings = reportPath o settings := rfl
  unfold finish
  rw [hpath]
  split
  · exact ⟨rfl, rfl⟩
  · exact ⟨rfl, rfl⟩
  · rename_i path _
    have houtcome := files.writeText_outcome path (c.view.report c.nodes l.selection time).yaml
      (b.view.report b.nodes l.selection time).yaml
    generalize files.writeText path (c.view.report c.nodes l.selection time).yaml = r at houtcome ⊢
    generalize files.writeText path (b.view.report b.nodes l.selection time).yaml = r' at houtcome ⊢
    obtain ⟨files₁, result⟩ := r
    obtain ⟨files₂, result'⟩ := r'
    obtain rfl : result = result' := houtcome
    cases result with
    | error cause => exact ⟨rfl, rfl⟩
    | ok _ => exact ⟨rfl, rfl⟩

/-- Two runs that end alike and print the same; the files that they leave may differ. -/
structure Run.SaysSame (r r' : Run) : Prop where
  status_eq : r'.status = r.status
  stdout_eq : r'.stdout = r.stdout
  stderr_eq : r'.stderr = r.stderr

theorem runOptions_withLabel (files : FileTree) (o : Options) (label : Option (Operand Text))
    (time : Timestamp) :
    (runOptions files o time).SaysSame (runOptions files (o.withLabel label) time) := by
  have hprepare := prepare_twins files o label
  unfold runOptions
  generalize prepare files o = prepared at hprepare ⊢
  generalize prepare files (o.withLabel label) = prepared' at hprepare ⊢
  cases hprepare with
  | failed cause => cases cause <;> exact ⟨rfl, rfl, rfl⟩
  | @done x y htwins =>
    obtain ⟨settings, b⟩ := x
    obtain ⟨settings', c⟩ := y
    obtain ⟨hsettings, name, name', h⟩ := htwins
    obtain rfl : settings' = settings := hsettings
    simp only [listed_twins h]
    cases listed b o with
    | error cause => exact ⟨rfl, rfl, rfl⟩
    | ok l =>
      obtain ⟨hstatus, hwritten⟩ := finish_same files o label settings' b c l time
      have hmembers : l.members.map (memberLine c) = l.members.map (memberLine b) :=
        List.map_congr_left fun i _ => memberLine_twins h i
      refine ⟨hstatus, ?_, rfl⟩
      simp only [hmembers, hwritten]

end CommandLine

/-- Views that are opened on a plan under two names fail for the same reason, or differ in their names
alone, whatever is added, inserted and selected. Runs whose options differ in the label of the root alone
end alike and print the same. -/
theorem root_name_only_shown (is : List Identifier) (s t : NodeStore) (name name' : Text) :
    SameOutcome (fun b c => ∀ selection calls, ∃ x y : Exhibit,
        x = Exhibit.after ⟨b, selection⟩ calls ∧ y = Exhibit.after ⟨c, selection⟩ calls ∧
        x.bridge.DifferInName name name' y.bridge ∧ y.selection = x.selection)
      (Bridge.create (Plan.empty.afterAdding is) s name)
      (Bridge.create (Plan.empty.afterAdding is) t name') ∧
    ∀ files arguments arguments' o label time, CommandLine.Options.parse arguments = .ok o →
      CommandLine.Options.parse arguments' = .ok { o with rootLabel := label } →
      (CommandLine.run files arguments time).SaysSame (CommandLine.run files arguments' time) := by
  constructor
  · refine (Bridge.create_twins (Plan.isForest_afterAdding is) s t name name').mono
      fun b c htwins selection calls => ?_
    have hopened : Exhibit.Twins name name' ⟨b, selection⟩ ⟨c, selection⟩ := ⟨htwins, rfl⟩
    have hafter := hopened.after calls
    exact ⟨_, _, rfl, rfl, hafter.bridges.differInName, hafter.selection_eq⟩
  · intro files arguments arguments' o label time hparse hparse'
    rw [CommandLine.run_of_parse hparse, CommandLine.run_of_parse hparse']
    exact CommandLine.runOptions_withLabel files o label time

/- Under `a` comes `w`, which is then refused and selected. -/
def insertTwice : List Exhibit.Call :=
  [.insert ⟨[.char 'w'], [.char 'W'], .test, none, .string [.char 'a']⟩ (.string [.char 'a']),
   .insert ⟨[.char 'w'], [.char 'W'], .test, none, .string [.char 'a']⟩ (.string [.char 'a']),
   .select ⟨[[.char 'w']], [.char 'x']⟩]

/-- The one view is named like a member, and so is the root of the second run. -/
theorem likeMember_only_shown : ∃ b c x y,
    Bridge.create (Plan.empty.afterAdding Bridge.byLevel) .empty [.char 'a'] = .ok b ∧
    Bridge.create (Plan.empty.afterAdding Bridge.byLevel) .empty [.char 'r'] = .ok c ∧
    x = Exhibit.after ⟨b, none⟩ insertTwice ∧ y = Exhibit.after ⟨c, none⟩ insertTwice ∧
    x.bridge.view.mapped.keys = [[.char 'a'], [.char 't'], [.char 'b'], [.char 'u'], [.char 'w']] ∧
    x.bridge.DifferInName [.char 'a'] [.char 'r'] y.bridge ∧
    y.selection = some ⟨[[.char 'w']], [.char 'x']⟩ ∧
    CommandLine.Options.parse ["--plan", "m.json"] = .ok CommandLine.onlyPlan ∧
    (CommandLine.run CommandLine.singleFiles ["--plan", "m.json"]
      ⟨2024, 1, 2, 3, 4, 5, 678901⟩).SaysSame
      (CommandLine.run CommandLine.singleFiles ["--plan", "m.json", "--root-label", "a"]
        ⟨2024, 1, 2, 3, 4, 5, 678901⟩) := by
  obtain ⟨hviews, hruns⟩ :=
    root_name_only_shown Bridge.byLevel .empty .empty [.char 'a'] [.char 'r']
  have hb : Bridge.create (Plan.empty.afterAdding Bridge.byLevel) .empty [.char 'a'] = .ok _ := rfl
  have hc : Bridge.create (Plan.empty.afterAdding Bridge.byLevel) .empty [.char 'r'] = .ok _ := rfl
  have hparse : CommandLine.Options.parse ["--plan", "m.json"] = .ok CommandLine.onlyPlan := by rfl
  rw [hb, hc] at hviews
  cases hviews with
  | done hcalls =>
    obtain ⟨x, y, hx, hy, hdiffer, hselection⟩ := hcalls none insertTwice
    subst hx
    subst hy
    exact ⟨_, _, _, _, hb, hc, rfl, rfl, rfl, hdiffer, rfl, hparse,
      hruns _ _ ["--plan", "m.json", "--root-label", "a"] _ (some (.value "a")) _ hparse (by rfl)⟩

end SuiteView
