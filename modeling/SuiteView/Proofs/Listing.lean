import SuiteView.Proofs.Ending
import SuiteView.Proofs.Filter.Pattern
import SuiteView.Proofs.Manifest.Branch
import SuiteView.Proofs.View.Replayed

/-!
# Two listings of the same tests

Without filters a run lists the tests in the order of the plan, with filters in the order of the
mapping. Late entries come last in both. The entries of the document come in the order of the document
in the one and in pre-order in the other, and these agree as long as the document follows its last
branch.
-/

namespace SuiteView

namespace CommandLine

open Manifest (field FollowsBranch positions idAt)

/-- The filter of the option `--case *`. -/
def anyCase : Filter := .all [.caseName "*"]

theorem anyCase_holds (s : NodeStore) (n : NodeId) : anyCase.holds s n = s.isTest n := by
  rw [anyCase, Filter.holds, Filter.holdAll, Filter.holdAll, Filter.holds, Bool.and_true,
    NodeStore.isTest]
  cases s.get? n with
  | none => rfl
  | some node =>
    cases hlabel : node.label with
    | suite name => simp [hlabel, Label.case?, Label.isTest]
    | test group caseName => simp [hlabel, Label.case?, Label.isTest, Pattern.accepts_star]

/-! ### Two orders -/

/-- The plan and the mapping of a prepared view: the members of the document in the order of the
document and in pre-order, and behind them the same late members. -/
structure Orders (m : Manifest) (replays : Bool) (b : Bridge) (entries : List Value) (p : Plan)
    (late : List (Identifier × Text)) : Prop where
  entries_eq : field m "plan" (.list []) = .list entries
  plan_eq : m.plan = .ok p
  late_eq : if replays = true then m.lateEntries = late.map .ok else late = []
  document : p.ids.map .string = (positions entries).map (idAt entries)
  ids : b.plan.ids = p.ids ++ late.map fun entry => entry.1.uniqueId
  keys : b.view.mapped.keys = p.preorderIds ++ late.map fun entry => entry.1.uniqueId
  preorder_iff : p.ids = p.preorderIds ↔ FollowsBranch entries
  same_iff : b.plan.ids = b.view.mapped.keys ↔ FollowsBranch entries

theorem prepareView_ok {m : Manifest} {label : Text} {replays : Bool} {b : Bridge}
    (h : prepareView m label replays = .ok b) : ∃ p b₀ late, m.plan = .ok p ∧
      Bridge.create p .empty label = .ok b₀ ∧ Bridge.Replayed label b₀ b late ∧
      if replays = true then m.lateEntries = late.map .ok else late = [] := by
  unfold prepareView at h
  cases hplan : m.plan with
  | error cause =>
    rw [hplan] at h
    cases h
  | ok p =>
    obtain ⟨entries, -, -, hf⟩ := Manifest.give_of_plan hplan
    rw [hplan] at h
    cases hcreate : Bridge.create p .empty label with
    | error cause => simp [hcreate] at h
    | ok b₀ =>
      have hgrown := Bridge.create_grown hf hcreate
      have hp : b₀.plan = p := hgrown.plan_eq
      have hf₀ : b₀.plan.IsForest := hp ▸ hf
      simp only [hcreate] at h
      cases replays with
      | false =>
        obtain rfl : b₀ = b := Except.ok.inj h
        exact ⟨p, b₀, [], rfl, hcreate, ⟨hf₀, hgrown.mirrors, by simp, by simp, by simp⟩, rfl⟩
      | true =>
        cases hreplay : b₀.replay m.lateEntries with
        | mk b₁ result =>
          cases result with
          | error cause => simp [hreplay] at h
          | ok _ =>
            simp only [hreplay, if_true] at h
            obtain rfl : b₁ = b := Except.ok.inj h
            obtain ⟨late, hreads, hlate⟩ := Bridge.replay_ok hf₀ hgrown.mirrors hreplay
            exact ⟨p, b₀, late, rfl, hcreate, hlate, hreads⟩

theorem prepareView_orders {m : Manifest} {label : Text} {replays : Bool} {b : Bridge}
    (h : prepareView m label replays = .ok b) :
    ∃ entries p late, Orders m replays b entries p late := by
  obtain ⟨p, b₀, late, hplan, hcreate, hlate, hreads⟩ := prepareView_ok h
  obtain ⟨entries, hentries, hgive, hf⟩ := Manifest.give_of_plan hplan
  have hgrown := Bridge.create_grown hf hcreate
  have hp : b₀.plan = p := hgrown.plan_eq
  have hids := hlate.ids
  have hkeys := hlate.keys
  rw [hp] at hids
  rw [Bridge.create_keys hf hcreate] at hkeys
  have hpreorder : p.ids = p.preorderIds ↔ FollowsBranch entries :=
    eq_comm.trans (Manifest.plan_preorderIds_iff hentries hplan)
  refine ⟨entries, p, late, hentries, hplan, hreads, ?_, hids, hkeys, hpreorder, ?_⟩
  · rw [hf.ids_eq]
    exact hgive.ids_eq.symm
  · rw [hids, hkeys, List.append_cancel_right_eq]
    exact hpreorder

/-! ### Two listings -/

/-- With the filter for any case the tests come in the order of the mapping, without filter in the
order of the plan. -/
theorem listing_members {m : Manifest} {label : Text} {replays : Bool} {b : Bridge}
    (h : prepareView m label replays = .ok b) (hleaves : View.TestsAreLeaves b.plan) :
    (listing b (some anyCase)).members =
        (b.plan.lookup b.view.mapped.keys).filter Identifier.isTest ∧
      (listing b none).members = (b.plan.lookup b.plan.ids).filter Identifier.isTest := by
  obtain ⟨p, b₀, late, hplan, hcreate, hlate, hreads⟩ := prepareView_ok h
  constructor
  · exact hlate.mirrors.leaves_isTest hlate.forest hleaves (anyCase_holds b.nodes)
  · rw [hlate.forest.lookup_ids_eq]
    rfl

theorem Orders.listings {m : Manifest} {label : Text} {replays : Bool} {b : Bridge}
    {entries : List Value} {p : Plan} {late : List (Identifier × Text)}
    (ho : Orders m replays b entries p late) (h : prepareView m label replays = .ok b)
    (hleaves : View.TestsAreLeaves b.plan) :
    (listing b (some anyCase)).members.Perm (listing b none).members ∧
      (FollowsBranch entries → (listing b (some anyCase)).members = (listing b none).members) := by
  obtain ⟨-, -, hf⟩ := Manifest.give_of_plan ho.plan_eq |>.choose_spec
  obtain ⟨hfiltered, hplain⟩ := listing_members h hleaves
  rw [hfiltered, hplain]
  constructor
  · have hperm : b.view.mapped.keys.Perm b.plan.ids := by
      rw [ho.ids, ho.keys]
      exact hf.preorderIds_perm.append_right _
    exact (hperm.filterMap b.plan.get?).filter Identifier.isTest
  · intro hfollows
    rw [ho.same_iff.mpr hfollows]

/-! ### Two runs -/

/-- A run prints a listing, its header first, and behind it at most the file of the report. -/
def Prints (r : Run) (b : Bridge) (l : Listing) : Prop :=
  ∃ written, r.stdout = lines (l.header ++ l.members.map (memberLine b) ++ written) ∧
    (written = [] ∨ ∃ path : Path, written = ["Report written to: " ++ path.text])

variable {files : FileTree} {o : Options} {settings : Settings} {b : Bridge}

theorem prepare_ok (h : prepare files o = .ok (settings, b)) : ∃ m, manifestOf files o = .ok m ∧
    prepareView m (rootLabel o settings) (settings.replaysLateEntries && !o.noDynamic) = .ok b := by
  unfold prepare at h
  cases hsettings : settingsOf files o with
  | error cause =>
    rw [hsettings] at h
    cases h
  | ok s =>
    cases hm : manifestOf files o with
    | error cause =>
      rw [hsettings, hm] at h
      cases h
    | ok m =>
      rw [hsettings, hm] at h
      cases hview : prepareView m (rootLabel o s) (s.replaysLateEntries && !o.noDynamic) with
      | error cause =>
        simp [Except.mapError, bind, Except.bind, hview] at h
      | ok b' =>
        simp only [Except.mapError, bind, Except.bind, hview, pure, Except.pure] at h
        obtain ⟨rfl, rfl⟩ := Prod.mk.inj (Except.ok.inj h)
        exact ⟨m, rfl, hview⟩

theorem runOptions_prints (hprepare : prepare files o = .ok (settings, b)) {l : Listing}
    (hlisted : listed b o = .ok l) (time : Timestamp) :
    Prints (runOptions files o time) b l := by
  have hrun : (runOptions files o time).stdout = lines (l.header ++ l.members.map (memberLine b) ++
      (finish files o settings b l time).2.1) := by
    rw [runOptions_of_toList (toList_of_listed hprepare hlisted)]
    rfl
  refine ⟨_, hrun, ?_⟩
  unfold finish
  split
  · exact .inl rfl
  · exact .inl rfl
  · rename_i path hpath
    split
    · exact .inl rfl
    · exact .inr ⟨path, rfl⟩

theorem listed_anyCase (hgroups : o.groups = []) (hcases : o.cases = [.value "*"])
    (hids : o.ids = []) : listed b o = .ok (listing b (some anyCase)) := by
  have hcriteria : o.criteria = [.filter (.caseName "*")] := by
    simp [Options.criteria, hgroups, hcases, hids, Criterion.ofCase]
  simp [listed, Options.filter?, hids, hcriteria, breaksOn, Criterion.breaksOn, Criterion.toFilter,
    anyCase]

/-- The plan lists the document in its order and the mapping in pre-order, each followed by the late
members; the two agree exactly if the document follows its last branch. A run that keeps any case
prints the same tests as a run without filters, and in the same order if the two agree. -/
theorem listings_agree :
    (∀ m label replays b, prepareView m label replays = .ok b →
      ∃ entries p late, Orders m replays b entries p late ∧ (View.TestsAreLeaves b.plan →
        (listing b (some anyCase)).members.Perm (listing b none).members ∧
        (FollowsBranch entries →
          (listing b (some anyCase)).members = (listing b none).members))) ∧
    ∀ files arguments arguments' o time settings b, Options.parse arguments = .ok o →
      o.groups = [] → o.cases = [] → o.ids = [] →
      Options.parse arguments' = .ok { o with cases := [.value "*"] } →
      prepare files o = .ok (settings, b) →
      (∃ m, manifestOf files o = .ok m ∧ prepareView m (rootLabel o settings)
        (settings.replaysLateEntries && !o.noDynamic) = .ok b) ∧
      Prints (run files arguments time) b (listing b none) ∧
      Prints (run files arguments' time) b (listing b (some anyCase)) := by
  constructor
  · intro m label replays b h
    obtain ⟨entries, p, late, ho⟩ := prepareView_orders h
    exact ⟨entries, p, late, ho, ho.listings h⟩
  · intro files arguments arguments' o time settings b hparse hgroups hcases hids hparse' hprepare
    refine ⟨prepare_ok hprepare, ?_, ?_⟩
    · rw [run_of_parse hparse]
      exact runOptions_prints hprepare (listed_plain hgroups hcases hids) time
    · rw [run_of_parse hparse']
      exact runOptions_prints (o := { o with cases := [.value "*"] }) hprepare
        (listed_anyCase hgroups rfl hids) time

/- The second entry names the first, which stands just before it. -/
def followed : Manifest :=
  [("plan", .list
    [.object [("id", .string "a"), ("kind", .string "container")],
     .object [("id", .string "b"), ("parent_id", .string "a")]]),
   ("dynamic", .list [.object [("id", .string "c"), ("parent_id", .string "a")]])]

/- The last entry names the first, but another stands between them. -/
def scattered : Manifest :=
  [("plan", .list
    [.object [("id", .string "a"), ("kind", .string "container")], .object [("id", .string "b")],
     .object [("id", .string "c"), ("parent_id", .string "a")]])]

/- The plan of this file is `[{"id":"a"}]`. -/
def singleText : List UInt8 :=
  [123, 34, 112, 108, 97, 110, 34, 58, 91, 123, 34, 105, 100, 34, 58, 34, 97, 34, 125, 93, 125]

def singleFiles : FileTree :=
  ⟨[([], .directory), ([[109, 46, 106, 115, 111, 110]], .file singleText)], []⟩

theorem single_load : Manifest.load singleFiles (.ofText "m.json") =
    .ok [("plan", .list [.object [("id", .string "a")]])] := by
  with_unfolding_all rfl

theorem followed_listings : (∃ b, prepareView followed "r" true = .ok b ∧
      b.plan.ids = ["a", "b", "c"] ∧ b.plan.ids = b.view.mapped.keys ∧
      (listing b (some anyCase)).members = (listing b none).members) ∧
    ∃ b, Prints (run singleFiles ["--plan", "m.json"] ⟨2024, 1, 2, 3, 4, 5, 678901⟩) b
        (listing b none) ∧
      Prints (run singleFiles ["--plan", "m.json", "--case", "*"] ⟨2024, 1, 2, 3, 4, 5, 678901⟩) b
        (listing b (some anyCase)) := by
  obtain ⟨hviews, hruns⟩ := listings_agree
  constructor
  · obtain ⟨b, hb⟩ : ∃ b, prepareView followed "r" true = .ok b := ⟨_, rfl⟩
    have hids : b.plan.ids = ["a", "b", "c"] ∧ b.view.mapped.keys = ["a", "b", "c"] ∧
        View.TestsAreLeaves b.plan := by
      obtain rfl := Except.ok.inj hb
      refine ⟨rfl, rfl, ?_⟩
      unfold View.TestsAreLeaves
      decide
    obtain ⟨entries, p, late, ho, hlistings⟩ := hviews followed "r" true b hb
    have hsame : b.plan.ids = b.view.mapped.keys := hids.1.trans hids.2.1.symm
    exact ⟨b, hb, hids.1, hsame, (hlistings hids.2.2).2 (ho.same_iff.mp hsame)⟩
  · obtain ⟨b, hb⟩ : ∃ b, prepare singleFiles onlyPlan = .ok (.defaults, b) := by
      rw [prepare_of_noConfig rfl, manifestOf]
      simp only [onlyPlan, single_load]
      exact ⟨_, rfl⟩
    obtain ⟨-, hplain, hany⟩ := hruns singleFiles ["--plan", "m.json"]
      ["--plan", "m.json", "--case", "*"] onlyPlan ⟨2024, 1, 2, 3, 4, 5, 678901⟩ .defaults b rfl
      rfl rfl rfl rfl hb
    exact ⟨b, hplain, hany⟩

theorem scattered_listings : ∃ b, prepareView scattered "r" true = .ok b ∧
    View.TestsAreLeaves b.plan ∧ b.plan.ids = ["a", "b", "c"] ∧
    b.view.mapped.keys = ["a", "c", "b"] ∧
    (listing b none).members.map (·.uniqueId) = ["b", "c"] ∧
    (listing b (some anyCase)).members.map (·.uniqueId) = ["c", "b"] := by
  refine ⟨_, rfl, ?_, rfl, rfl, rfl, rfl⟩
  unfold View.TestsAreLeaves
  decide

end CommandLine

end SuiteView
