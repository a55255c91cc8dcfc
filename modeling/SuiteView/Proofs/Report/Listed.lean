import SuiteView.Proofs.Files.Writing
import SuiteView.Proofs.Listing
import SuiteView.Proofs.Report.Selection

/-!
# Listing and report

A run that ends with 0 has listed members of the plan and, where it was asked to, written a report.
Without filters both tell of all tests; with filters both tell of the leaves among the nodes that the
filters select. The listing goes by the plan and the report by the tree, and every line names its
member as the tree does.
-/

namespace SuiteView

namespace Filter

theorem holdAll_iff (s : NodeStore) (n : NodeId) (filters : List Filter) :
    holdAll s n filters = true ↔ ∀ f ∈ filters, f.holds s n = true := by
  induction filters with
  | nil => simp [holdAll]
  | cons f filters ih => simp [holdAll, ih]

end Filter

namespace CommandLine

variable {files : FileTree} {o : Options} {settings : Settings} {b : Bridge}

/-! ### What the filter options select -/

/-- The member is mapped to a node whose group matches every group pattern and whose case every case
pattern, and its id is among the ids if any are given. -/
def Satisfies (b : Bridge) (o : Options) (id : Text) : Prop :=
  ∃ n node, b.view.nodeFor? id = some n ∧ b.nodes.get? n = some node ∧
    (∀ operand ∈ o.groups, ∃ pattern, operand = .value pattern ∧
      Pattern.accepts pattern node.label.group = true) ∧
    (∀ operand ∈ o.cases, ∃ pattern caseName, operand = .value pattern ∧
      node.label.case? = some caseName ∧ Pattern.accepts pattern caseName = true) ∧
    (o.ids = [] ∨ .value id ∈ o.ids)

theorem ofGroup_holds_iff {s : NodeStore} {n : NodeId} {node : Node} (hget : s.get? n = some node)
    (operand : Operand Text) : (Criterion.ofGroup operand).toFilter.holds s n = true ↔
      ∃ pattern, operand = .value pattern ∧ Pattern.accepts pattern node.label.group = true := by
  cases operand with
  | nothing => simp [Criterion.ofGroup, Criterion.toFilter, Filter.holds]
  | value pattern => simp [Criterion.ofGroup, Criterion.toFilter, Filter.holds, hget]

theorem ofCase_holds_iff {s : NodeStore} {n : NodeId} {node : Node} (hget : s.get? n = some node)
    (operand : Operand Text) : (Criterion.ofCase operand).toFilter.holds s n = true ↔
      ∃ pattern caseName, operand = .value pattern ∧ node.label.case? = some caseName ∧
        Pattern.accepts pattern caseName = true := by
  cases operand with
  | nothing => simp [Criterion.ofCase, Criterion.toFilter, Filter.holds]
  | value pattern =>
    cases hcase : node.label.case? <;>
      simp [Criterion.ofCase, Criterion.toFilter, Filter.holds, hget, hcase]

theorem ids_holds_iff {s : NodeStore} {n : NodeId} {id : Text} (hid : s.stableIdOf? n = some id)
    (operands : List (Operand Text)) :
    (Filter.ids (operands.filterMap Operand.value?)).holds s n = true ↔ .value id ∈ operands := by
  have hvalue : ∀ operand : Operand Text, operand.value? = some id ↔ operand = .value id := by
    intro operand
    cases operand <;> simp [Operand.value?]
  simp [Filter.holds, hid, List.mem_filterMap, hvalue]

theorem criteria_hold_iff {s : NodeStore} {n : NodeId} {node : Node} {id : Text}
    (hget : s.get? n = some node) (hid : node.stableId = some id) :
    (Filter.all (o.criteria.map Criterion.toFilter)).holds s n = true ↔
      (∀ operand ∈ o.groups, ∃ pattern, operand = .value pattern ∧
        Pattern.accepts pattern node.label.group = true) ∧
      (∀ operand ∈ o.cases, ∃ pattern caseName, operand = .value pattern ∧
        node.label.case? = some caseName ∧ Pattern.accepts pattern caseName = true) ∧
      (o.ids = [] ∨ .value id ∈ o.ids) := by
  have hstable : s.stableIdOf? n = some id := by simp [NodeStore.stableIdOf?, hget, hid]
  have hids : (∀ c ∈ (if o.ids.isEmpty then [] else
      [Criterion.filter (.ids (o.ids.filterMap Operand.value?))]), c.toFilter.holds s n = true) ↔
      o.ids = [] ∨ .value id ∈ o.ids := by
    cases hempty : o.ids with
    | nil => simp
    | cons operand operands =>
      have hholds := ids_holds_iff hstable (operand :: operands)
      simp [Criterion.toFilter, hholds]
  rw [Filter.holds, Filter.holdAll_iff, Options.criteria]
  simp only [List.forall_mem_map, List.forall_mem_append, ofGroup_holds_iff hget,
    ofCase_holds_iff hget, hids, and_assoc]

/-- The matches of the filter are the members that satisfy the options. -/
theorem matches_iff_satisfies {name : Text} (hm : b.view.Mirrors name b.plan b.nodes) (id : Text) :
    b.view.Matches ((Filter.all (o.criteria.map Criterion.toFilter)).holds b.nodes) id ↔
      Satisfies b o id := by
  constructor
  · rintro ⟨n, hn, hholds⟩
    obtain ⟨i, label, parent, -, -, -, -, hget⟩ := hm.node id n hn
    exact ⟨n, _, hn, hget, (criteria_hold_iff hget rfl).mp hholds⟩
  · rintro ⟨n, node, hn, hget, hsatisfies⟩
    obtain ⟨i, label, parent, -, -, -, -, hat⟩ := hm.node id n hn
    obtain rfl := Option.some.inj (hget.symm.trans hat)
    exact ⟨n, hn, (criteria_hold_iff hget rfl).mpr hsatisfies⟩

/-! ### Prepared views -/

/-- A prepared view mirrors its plan and maps all of it: the entries of the manifest, and behind them
the late entries that were replayed. -/
structure Prepared (m : Manifest) (label : Text) (replays : Bool) (b : Bridge) (p : Plan)
    (late : List (Identifier × Text)) : Prop where
  plan_eq : m.plan = .ok p
  late_eq : if replays = true then m.lateEntries = late.map .ok else late = []
  forest : b.plan.IsForest
  mirrors : b.view.Mirrors label b.plan b.nodes
  toList_eq : b.plan.toList = p.toList ++ late.map Prod.fst
  mapped : ∀ id ∈ b.plan.ids, id ∈ b.view.mapped.keys

theorem prepareView_prepared {m : Manifest} {label : Text} {replays : Bool} {b : Bridge}
    (h : prepareView m label replays = .ok b) : ∃ p late, Prepared m label replays b p late := by
  obtain ⟨p, b₀, late, hplan, hcreate, hlate, hreads⟩ := prepareView_ok h
  obtain ⟨entries, -, -, hf⟩ := Manifest.give_of_plan hplan
  have hp : b₀.plan = p := (Bridge.create_grown hf hcreate).plan_eq
  refine ⟨p, late, hplan, hreads, hlate.forest, hlate.mirrors, hp ▸ hlate.toList, ?_⟩
  intro id hid
  rw [hlate.ids, hp, List.mem_append] at hid
  rw [hlate.keys, Bridge.create_keys hf hcreate, List.mem_append]
  exact hid.imp_left hf.mem_preorderIds

/-! ### Listings and reports -/

/-- Without filters the members listed are the tests of the manifest and of the late entries, and the
report counts as many and has no selection. -/
structure TellsTests (m : Manifest) (replays : Bool) (l : Listing) (r : Report) : Prop where
  members : ∃ p late, m.plan = .ok p ∧
    (if replays = true then m.lateEntries = late.map .ok else late = []) ∧
    l.members = (p.toList ++ late.map Prod.fst).filter Identifier.isTest
  nodup : (l.members.map (·.uniqueId)).Nodup
  header : l.header = (["Tests in plan: " ++ toString l.members.length] : List Text)
  tests : r.at? ["report", "summary", "tests"] = some (.count l.members.length)
  no_selection : r.at? ["report", "summary", "selected"] = none ∧ r.at? ["report", "selection"] = none

/-- With filters the members listed are those that satisfy the options and have none below them that
does, and the report selects and marks the same. -/
structure TellsSelected (b : Bridge) (o : Options) (l : Listing) (r : Report) : Prop where
  mem_iff : ∀ id, id ∈ l.members.map (·.uniqueId) ↔
    Satisfies b o id ∧ ∀ x, b.plan.Below id x → ¬ Satisfies b o x
  nodup : (l.members.map (·.uniqueId)).Nodup
  header : ∃ filter, l.filter = some filter ∧
    l.header =
      (["Filter: " ++ filter.describe, "Selected leaves: " ++ toString l.members.length] : List Text)
  selected : r.at? ["report", "summary", "selected"] = some (.count l.members.length)
  ids : r.at? ["report", "selection", "ids"] =
    some (.sequence (l.members.map fun i => .text i.uniqueId))
  marks : r.Marks b.view (l.members.map (·.uniqueId))
  marked_count : r.tree.all.countP Entry.isSelected = l.members.length

/-- The line of every member shows the name of the one entry that has its id. -/
structure NamesAlike (b : Bridge) (l : Listing) (r : Report) : Prop where
  once : (r.tree.all.filterMap Entry.stableId).Nodup
  line : ∀ i ∈ l.members, ∃ e ∈ r.tree.all, ∃ shown,
    e.document.field? "stable_id" = some (.text i.uniqueId) ∧
    e.document.field? "name" = some (.text shown) ∧
    memberLine b i = "  [" ++ i.kind.name ++ "] " ++ shown ++ "  (" ++ i.uniqueId ++ ")"

section

variable {m : Manifest} {label : Text} {replays : Bool} {p : Plan}
  {late : List (Identifier × Text)} {time : Timestamp}

theorem Prepared.tellsTests (h : Prepared m label replays b p late) :
    TellsTests m replays (listing b none)
      (b.view.report b.nodes (listing b none).selection time) where
  members := ⟨p, late, h.plan_eq, h.late_eq, by rw [← h.toList_eq]; rfl⟩
  nodup := by
    have hids : (b.plan.toList.map (·.uniqueId)).Nodup := h.forest.ids_eq ▸ h.forest.ids_nodup
    exact (List.filter_sublist.map _).nodup hids
  header := rfl
  tests := by
    have htotal := (h.mirrors.testsCounted h.forest h.mapped).total
    rw [Report.at_tests]
    show some (Yaml.Document.count (b.nodes.testCount b.view.root)) = _
    rw [htotal, List.countP_eq_length_filter]
    rfl
  no_selection := ⟨rfl, rfl⟩

theorem Prepared.tellsSelected (h : Prepared m label replays b p late)
    (hcriteria : o.criteria ≠ []) :
    TellsSelected b o (listing b o.filter?)
      (b.view.report b.nodes (listing b o.filter?).selection time) := by
  have hfilter : o.filter? = some (.all (o.criteria.map Criterion.toFilter)) := by
    simp [Options.filter?, hcriteria]
  have hleaves := h.mirrors.leavesExact h.forest
    ((Filter.all (o.criteria.map Criterion.toFilter)).holds b.nodes)
  have hmarks := h.mirrors.report_marks h.forest (listing b o.filter?).selection time
  rw [hfilter] at hmarks ⊢
  refine ⟨?_, hleaves.nodup, ⟨_, rfl, rfl⟩, ?_, ?_, hmarks, ?_⟩
  · intro id
    simp only [← matches_iff_satisfies h.mirrors]
    exact hleaves.mem_iff id
  · rw [Report.at_selected]
    simp [View.report, Listing.selection, listing]
  · rw [Report.at_ids]
    simp [View.report, Listing.selection, listing]
  · rw [hmarks.marked_count, hmarks.marked_once.length_eq]
    refine (Session.length_filter_mapped h.mirrors.keys_nodup hleaves.nodup ?_).trans ?_
    · exact hleaves.in_order.subset
    · exact List.length_map ..

theorem Prepared.mem_plan (h : Prepared m label replays b p late) {filter : Option Filter}
    {i : Identifier} (hi : i ∈ (listing b filter).members) : i ∈ b.plan.toList := by
  cases filter with
  | none => exact (List.mem_filter.mp hi).1
  | some filter =>
    obtain ⟨id, -, hid⟩ := List.mem_filterMap.mp hi
    exact h.forest.mem_of_get? hid

theorem Prepared.namesAlike (h : Prepared m label replays b p late) {filter : Option Filter} :
    NamesAlike b (listing b filter)
      (b.view.report b.nodes (listing b filter).selection time) where
  once := ((h.mirrors.report_marks h.forest _ time).shown_once.nodup_iff).mpr h.mirrors.keys_nodup
  line := by
    intro i hi
    have hget := h.forest.get?_uniqueId (h.mem_plan hi)
    have hkey := h.mapped i.uniqueId ((h.forest.mem_ids_iff _).mpr ⟨i, hget⟩)
    have honce := (h.mirrors.report_marks h.forest (listing b filter).selection time).shown_once
    obtain ⟨e, he, hid⟩ := List.mem_filterMap.mp (honce.mem_iff.mpr hkey)
    obtain ⟨n, node, hn, hnode, hlabel⟩ := h.mirrors.report_labels h.forest _ time he hid
    refine ⟨e, he, e.label.display, e.document_stableId_iff _ |>.mpr hid, e.document_name, ?_⟩
    rw [memberLine, hn, Option.bind_some, hnode, hlabel]
    rfl

end

/-! ### Runs that end with 0 -/

/-- What a run has left behind its listing: nothing where no report is asked for, else a line that names
the file of the report and the file itself, which holds the report unless its path leads to a sink. -/
inductive Written (files : FileTree) (o : Options) (settings : Settings) (r : Report) :
    List Text → FileTree → Prop
  | nothing (hpath : reportPath o settings = .ok none) : Written files o settings r [] files
  | report {path : Path} {files' : FileTree} (hpath : reportPath o settings = .ok (some path))
      (hwrite : files.writeText path r.yaml = (files', .ok ()))
      (hstands : files'.isSink path = false → ∃ place, files'.locate path = .ok place ∧
        files'.item? place = some (.file (Text.encode r.yaml))) :
      Written files o settings r ["Report written to: " ++ path.text] files'

theorem finish_written {l : Listing} {time : Timestamp} {code : Nat}
    (h : (finish files o settings b l time).1 = .ok code) :
    Written files o settings (b.view.report b.nodes l.selection time)
      (finish files o settings b l time).2.1 (finish files o settings b l time).2.2 := by
  unfold finish at h ⊢
  split at h
  · cases h
  · rename_i hpath
    exact .nothing hpath
  · rename_i path hpath
    split at h
    · cases h
    · rename_i files' hwrite
      exact .report hpath hwrite (FileTree.writeText_stands hwrite)

theorem runOptions_done {time : Timestamp} (h : (runOptions files o time).status = .ok 0) :
    ∃ settings b l written, prepare files o = .ok (settings, b) ∧ listed b o = .ok l ∧
      (runOptions files o time).stdout =
        lines (l.header ++ l.members.map (memberLine b) ++ written) ∧
      Written files o settings (b.view.report b.nodes l.selection time) written
        (runOptions files o time).files := by
  unfold runOptions at h ⊢
  split at h
  · cases h
  · cases h
  · rename_i settings b hprepare
    split at h
    · cases h
    · rename_i l hlisted
      exact ⟨settings, b, l, _, hprepare, hlisted, rfl, finish_written h⟩

theorem settingsOf_of_prepare (h : prepare files o = .ok (settings, b)) :
    settingsOf files o = .ok settings := by
  unfold prepare at h
  cases hsettings : settingsOf files o with
  | error cause =>
    rw [hsettings] at h
    cases h
  | ok s =>
    rw [hsettings] at h
    simp only [Except.mapError, bind, Except.bind] at h
    split at h
    · cases h
    · split at h
      · cases h
      · exact congrArg Except.ok (Prod.mk.inj (Except.ok.inj h)).1

theorem listed_ok {l : Listing} (h : listed b o = .ok l) : l = listing b o.filter? := by
  unfold listed at h
  split at h
  · cases h
  · split at h
    · cases h
    · exact (Except.ok.inj h).symm

theorem criteria_eq_nil_iff : o.criteria = [] ↔ o.groups = [] ∧ o.cases = [] ∧ o.ids = [] := by
  simp [Options.criteria]

/-- A run that ends with 0 prints a listing that tells the same as the report of its view, which it has
written if it was asked to. -/
theorem run_tells (files : FileTree) (arguments : List String) (o : Options) (time : Timestamp)
    (hparse : Options.parse arguments = .ok o)
    (hstatus : (run files arguments time).status = .ok 0) :
    ∃ settings m b l r written, settingsOf files o = .ok settings ∧ manifestOf files o = .ok m ∧
      prepareView m (rootLabel o settings) (settings.replaysLateEntries && !o.noDynamic) = .ok b ∧
      (run files arguments time).stdout =
        lines (l.header ++ l.members.map (memberLine b) ++ written) ∧
      Written files o settings r written (run files arguments time).files ∧
      (o.groups = [] ∧ o.cases = [] ∧ o.ids = [] →
        TellsTests m (settings.replaysLateEntries && !o.noDynamic) l r) ∧
      (¬ (o.groups = [] ∧ o.cases = [] ∧ o.ids = []) → TellsSelected b o l r) ∧
      NamesAlike b l r := by
  rw [run_of_parse hparse] at hstatus ⊢
  obtain ⟨settings, b, l, written, hprepare, hlisted, hstdout, hwritten⟩ := runOptions_done hstatus
  obtain ⟨m, hmanifest, hview⟩ := prepare_ok hprepare
  obtain ⟨p, late, hprepared⟩ := prepareView_prepared hview
  obtain rfl := listed_ok hlisted
  refine ⟨settings, m, b, _, _, written, settingsOf_of_prepare hprepare, hmanifest, hview, hstdout,
    hwritten, ?_, ?_, hprepared.namesAlike⟩
  · intro hnone
    have hfilter : o.filter? = none := by simp [Options.filter?, criteria_eq_nil_iff.mpr hnone]
    rw [hfilter]
    exact hprepared.tellsTests
  · intro hsome
    exact hprepared.tellsSelected fun hnil => hsome (criteria_eq_nil_iff.mp hnil)

/- A run on a single test that keeps any case and asks for a report. -/
def starAndReport : Options :=
  ⟨.value (.ofText "m.json"), none, none, [], [.value "*"], [], false,
    some (.value (.ofText "r.yaml"))⟩

def singleBridge : Bridge where
  plan := ⟨[("a", ⟨"a", "a", .test, none, .null⟩)], [("a", [])], ["a"]⟩
  nodes := ⟨#[⟨.suite "planbridge", none, none, [1]⟩, ⟨.test unrooted "a", some "a", some 0, []⟩]⟩
  view := ⟨0, [("a", 1)]⟩

theorem single_prepare : prepare singleFiles starAndReport = .ok (.defaults, singleBridge) := by
  rw [prepare_of_noConfig rfl, manifestOf]
  simp only [starAndReport, single_load]
  rfl

theorem single_writeText (text : String) :
    ∃ files, singleFiles.writeText (.ofText "r.yaml") text = (files, .ok ()) := by
  have hparent : singleFiles.ensureDirectories (Path.parent (.ofText "r.yaml")) =
      (singleFiles, .ok ()) := by with_unfolding_all rfl
  have hplace : singleFiles.locate (.ofText "r.yaml") = .ok [[114, 46, 121, 97, 109, 108]] := by
    with_unfolding_all rfl
  have hfree : singleFiles.item? [[114, 46, 121, 97, 109, 108]] = none := by rfl
  rw [FileTree.writeText, hparent]
  simp only [FileTree.write, hplace, hfree]
  exact ⟨_, rfl⟩

theorem single_tells :
    Options.parse ["--plan", "m.json", "--case", "*", "--output", "r.yaml"] = .ok starAndReport ∧
    (run singleFiles ["--plan", "m.json", "--case", "*", "--output", "r.yaml"]
      ⟨2024, 1, 2, 3, 4, 5, 678901⟩).status = .ok 0 ∧
    ∃ b l r, TellsSelected b starAndReport l r ∧ NamesAlike b l r := by
  have hparse : Options.parse ["--plan", "m.json", "--case", "*", "--output", "r.yaml"] =
      .ok starAndReport := by rfl
  have hlisted : listed singleBridge starAndReport =
      .ok (listing singleBridge starAndReport.filter?) := by rfl
  have hpath : reportPath starAndReport .defaults = .ok (some (.ofText "r.yaml")) := by rfl
  have hstatus : (run singleFiles ["--plan", "m.json", "--case", "*", "--output", "r.yaml"]
      ⟨2024, 1, 2, 3, 4, 5, 678901⟩).status = .ok 0 := by
    obtain ⟨files, hfiles⟩ := single_writeText (singleBridge.view.report singleBridge.nodes
      (listing singleBridge starAndReport.filter?).selection ⟨2024, 1, 2, 3, 4, 5, 678901⟩).yaml
    rw [run_of_parse hparse, runOptions, single_prepare]
    simp only [hlisted, finish, hpath, hfiles]
  obtain ⟨settings, m, b, l, r, written, -, -, -, -, -, -, hselected, halike⟩ :=
    run_tells singleFiles _ starAndReport ⟨2024, 1, 2, 3, 4, 5, 678901⟩ hparse hstatus
  exact ⟨hparse, hstatus, b, l, r, hselected (by simp [starAndReport]), halike⟩

end CommandLine

end SuiteView
