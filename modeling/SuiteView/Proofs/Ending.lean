import SuiteView.Proofs.Manifest.Faults
import SuiteView.Proofs.Stream
import SuiteView.Proofs.View.Insert

/-!
# How runs end

A run without settings file and report ends with code 0 or 1, whatever the manifest file holds, as
long as its switches are given values. There are two ways in which a manifest breaks it off: its first
fault is a top-level entry that names a list or an object as its parent, or a line of the listing holds
half of a surrogate pair that standard output does not write.
-/

namespace SuiteView

namespace Manifest

/-! ### Members of a document can be named -/

theorem parseLocation_ne_unsupported {v got : Value} :
    parseLocation v ≠ .ok (some (.unsupported got)) := by
  intro h
  unfold parseLocation at h
  split at h
  · cases h
  · split at h
    · split at h
      · cases h
      · split at h
        · cases h
        · split at h
          · cases h
          · unfold methodLocation at h
            split at h
            · split at h <;> cases h
            · cases h
        · cases h
    · cases h
  · cases h

theorem isLocated_of_parseEntry {e outer : Value} {i : Identifier}
    (h : parseEntry e outer = .ok i) : i.IsLocated := by
  obtain ⟨fields, rfl, hgives⟩ := parseEntry_object h
  intro got hgot
  have hlocation := hgives.location
  rw [hgot] at hlocation
  exact parseLocation_ne_unsupported hlocation

theorem isLocated_of_plan {m : Manifest} {p : Plan} (hp : m.plan = .ok p) {i : Identifier}
    (hi : i ∈ p.toList) : i.IsLocated := by
  obtain ⟨entries, -, hgive, -⟩ := give_of_plan hp
  obtain ⟨position, -, hread⟩ := hgive.exists_position hi
  obtain ⟨e, -, hparse⟩ := (readingAt?_eq_some_iff ..).mp hread
  exact isLocated_of_parseEntry hparse

theorem isLocated_of_readLate {v : Value} {i : Identifier} {parent : Text}
    (h : readLate v = .ok (i, parent)) : i.IsLocated := by
  unfold readLate at h
  split at h
  · dsimp only at h
    split at h
    · cases h
    · split at h
      · split at h
        · cases h
        · rename_i j hj
          obtain rfl := (Prod.mk.inj (Except.ok.inj h)).1
          exact isLocated_of_parseEntry hj
      · cases h
  · cases h

theorem isLocated_of_lateEntries {m : Manifest} {i : Identifier} {parent : Text}
    (h : .ok (i, parent) ∈ m.lateEntries) : i.IsLocated := by
  unfold lateEntries at h
  split at h
  · obtain ⟨v, -, hv⟩ := List.mem_map.mp h
    exact isLocated_of_readLate hv
  · cases List.mem_singleton.mp h

end Manifest

/-! ### Late members are inserted or refused -/

namespace Bridge

theorem insert_error_refused {b : Bridge} {i : Identifier} {q : Text} {e : InsertError}
    (hi : i.IsLocated) (h : (b.insert i q).2 = .error e) :
    CommandLine.lateEnding (.insert e) = .refused (.lateEntry (.insert e)) := by
  unfold insert at h
  split at h
  · obtain rfl := Except.error.inj h
    rfl
  · split at h
    · obtain rfl := Except.error.inj h
      rfl
    · rename_i hdeclared
      have hparent : i.parent = .string q := by simpa using hdeclared
      split at h
      · rename_i cause hadd
        obtain rfl := Except.error.inj h
        cases cause with
        | duplicateId | missingParent => rfl
        | unusableParent parent id =>
          obtain ⟨-, -, rfl, hkey⟩ := (b.plan.add_unusable_iff i parent id).mp hadd
          rw [hparent] at hkey
          cases hkey
      · rename_i p hadd
        dsimp only at h
        obtain ⟨label, hlabel⟩ := i.label_ok hi p
        split at h
        · rename_i cause hattach
          simp only [attach, hlabel] at hattach
          cases hattach
        · cases h

theorem replay_error_refused {reads : List (Except Manifest.Error (Identifier × Text))} {b : Bridge}
    (hreads : ∀ i parent, .ok (i, parent) ∈ reads → i.IsLocated) {cause : ReplayError}
    (h : (b.replay reads).2 = .error cause) :
    CommandLine.lateEnding cause = .refused (.lateEntry cause) := by
  induction reads generalizing b with
  | nil => cases h
  | cons read rest ih =>
    cases read with
    | error e =>
      obtain rfl := Except.error.inj h
      rfl
    | ok late =>
      obtain ⟨i, parent⟩ := late
      have hi := hreads i parent (List.mem_cons_self ..)
      unfold replay at h
      split at h
      · rename_i b' e hinsert
        obtain rfl := Except.error.inj h
        exact insert_error_refused hi (by rw [hinsert])
      · exact ih (fun j q hj => hreads j q (List.mem_cons_of_mem _ hj)) h

end Bridge

namespace CommandLine

/-! ### Preparing -/

theorem planEnding_of_isRefusal {e : Manifest.Error} (h : e.IsRefusal) :
    planEnding e = .refused (.plan e) := by
  cases e with
  | plan cause =>
    cases cause with
    | unusableParent parent id => exact h.elim
    | duplicateId | missingParent => rfl
  | planNotList | entry | dynamicNotList | dynamicNotObject | dynamicWithoutParent
  | dynamicParentNotString => rfl

theorem prepareView_cases (m : Manifest) (label : Text) (replays : Bool) :
    (∃ b, prepareView m label replays = .ok b) ∨
      (∃ cause, prepareView m label replays = .error (.refused cause)) ∨
      ∃ parent id, m.plan = .error (.plan (.unusableParent parent id)) ∧
        prepareView m label replays = .error (.broken (.plan (.unusableParent parent id))) := by
  unfold prepareView
  cases hplan : m.plan with
  | error e =>
    rcases e.isRefusal_or with hrefusal | ⟨parent, id, rfl⟩
    · exact .inr (.inl ⟨.plan e, congrArg Except.error (planEnding_of_isRefusal hrefusal)⟩)
    · exact .inr (.inr ⟨parent, id, rfl, rfl⟩)
  | ok p =>
    have hlabel : ∀ i ∈ p.toList, ∃ l, i.label p = .ok l := fun i hi =>
      i.label_ok (Manifest.isLocated_of_plan hplan hi) p
    obtain ⟨b, hb⟩ := Bridge.create_ok hlabel .empty label
    simp only [hb]
    cases replays with
    | false => exact .inl ⟨b, rfl⟩
    | true =>
      have hlate : ∀ i parent, .ok (i, parent) ∈ m.lateEntries → i.IsLocated :=
        fun _ _ => Manifest.isLocated_of_lateEntries
      rcases hreplay : b.replay m.lateEntries with ⟨b', result⟩
      cases result with
      | ok _ => exact .inl ⟨b', rfl⟩
      | error cause =>
        have hrefused := Bridge.replay_error_refused hlate (congrArg Prod.snd hreplay)
        exact .inr (.inl ⟨.lateEntry cause, congrArg Except.error hrefused⟩)

/-- For what a run without settings file and report breaks off on a stream: a parent that cannot be
looked up, a switch that is given nothing where a path or a pattern is needed, or a line of the listing
that the stream does not write. -/
inductive Breaks (out : Stdout) (files : FileTree) (o : Options) : Interruption → Prop
  | parent {path : Path} {m : Manifest} {entries : List Value} {k : Nat} {parent : Value} {id : Text}
      (hplan : o.plan = .value path) (hload : Manifest.load files path = .ok m)
      (hentries : Manifest.field m "plan" (.list []) = .list entries)
      (hat : Manifest.UnusableParentAt entries k parent id) :
      Breaks out files o (.broken (.plan (.unusableParent parent id)))
  | noPlan (hplan : o.plan = .nothing) : Breaks out files o (.broken (.noPath "read_text"))
  | noPattern {b : Bridge} (hprepare : prepare files o = .ok (.defaults, b))
      (hlisted : listed b o = .error .noPattern)
      (hnothing : .nothing ∈ o.groups ∨ .nothing ∈ o.cases ∨ .nothing ∈ o.ids) :
      Breaks out files o (.broken .noPattern)
  | unprintable {b : Bridge} {l : Listing} {before : List Text} {position : Nat} {halves : Text}
      (hlist : toList? files o = some (.defaults, b, l))
      (hstops : out.StopsAt (l.lines b) before position halves) :
      Breaks out files o (.unprintable position halves)

variable {out : Stdout} {files : FileTree} {o : Options} {time : Timestamp}

theorem prepare_of_noConfig (hconfig : o.configFile = none) : prepare files o =
    (manifestOf files o).bind fun m => (prepareView m (rootLabel o .defaults)
      (Settings.defaults.replaysLateEntries && !o.noDynamic)).map (Prod.mk Settings.defaults) := by
  have hsettings : settingsOf files o = .ok .defaults := by
    unfold settingsOf
    rw [hconfig]
    rfl
  unfold prepare
  rw [hsettings]
  rfl

theorem prepare_of_noPlan (hconfig : o.configFile = none) (hplan : o.plan = .nothing) :
    prepare files o = .error (.broken (.noPath "read_text")) := by
  rw [prepare_of_noConfig hconfig, manifestOf, hplan]
  rfl

theorem prepare_of_load (hconfig : o.configFile = none) {path : Path} (hplan : o.plan = .value path)
    {m : Manifest} (hload : Manifest.load files path = .ok m) : prepare files o =
      (prepareView m (rootLabel o .defaults)
        (Settings.defaults.replaysLateEntries && !o.noDynamic)).map (Prod.mk Settings.defaults) := by
  rw [prepare_of_noConfig hconfig, manifestOf, hplan]
  simp only [hload]
  rfl

theorem prepare_of_unusable (hconfig : o.configFile = none) {path : Path}
    (hplan : o.plan = .value path) {m : Manifest} (hload : Manifest.load files path = .ok m)
    {parent : Value} {id : Text} (h : m.plan = .error (.plan (.unusableParent parent id))) :
    prepare files o = .error (.broken (.plan (.unusableParent parent id))) := by
  have hview : ∀ label replays, prepareView m label replays =
      .error (.broken (.plan (.unusableParent parent id))) := by
    intro label replays
    rw [prepareView, h]
    rfl
  rw [prepare_of_load hconfig hplan hload, hview]
  rfl

theorem prepare_cases (out : Stdout) (files : FileTree) (hconfig : o.configFile = none) :
    (∃ b, prepare files o = .ok (.defaults, b)) ∨
      (∃ cause, prepare files o = .error (.refused cause)) ∨
      ∃ cause, prepare files o = .error (.broken cause) ∧ Breaks out files o (.broken cause) := by
  cases hplan : o.plan with
  | nothing => exact .inr (.inr ⟨_, prepare_of_noPlan hconfig hplan, .noPlan hplan⟩)
  | value path =>
    cases hload : Manifest.load files path with
    | error cause =>
      have hrefused : prepare files o = .error (.refused (.manifest path cause)) := by
        rw [prepare_of_noConfig hconfig, manifestOf, hplan]
        simp only [hload]
        rfl
      exact .inr (.inl ⟨_, hrefused⟩)
    | ok m =>
      have hview := prepare_of_load hconfig hplan hload
      rcases prepareView_cases m (rootLabel o .defaults)
        (Settings.defaults.replaysLateEntries && !o.noDynamic) with
        ⟨b, hb⟩ | ⟨cause, hcause⟩ | ⟨parent, id, hunusable, -⟩
      · rw [hb] at hview
        exact .inl ⟨b, hview⟩
      · rw [hcause] at hview
        exact .inr (.inl ⟨cause, hview⟩)
      · obtain ⟨entries, k, hentries, hat⟩ := (Manifest.plan_unusable_iff parent id).mp hunusable
        have hbreaks : Breaks out files o (.broken (.plan (.unusableParent parent id))) :=
          .parent hplan hload hentries hat
        exact .inr (.inr ⟨_, prepare_of_unusable hconfig hplan hload hunusable, hbreaks⟩)

/-! ### Listing -/

theorem exists_breaksOn {t : NodeStore} {n : NodeId} {criteria : List Criterion}
    (h : breaksOn t n criteria = true) : ∃ c ∈ criteria, c.breaksOn t n = true := by
  induction criteria with
  | nil => cases h
  | cons c rest ih =>
    rw [breaksOn, Bool.or_eq_true, Bool.and_eq_true] at h
    rcases h with hc | ⟨-, hrest⟩
    · exact ⟨c, List.mem_cons_self .., hc⟩
    · obtain ⟨d, hd, hbreaks⟩ := ih hrest
      exact ⟨d, List.mem_cons_of_mem _ hd, hbreaks⟩

/-- A criterion that breaks on a node comes of a switch that is given nothing. -/
theorem nothing_of_breaksOn {t : NodeStore} {n : NodeId} {c : Criterion} (hc : c ∈ o.criteria)
    (h : c.breaksOn t n = true) : .nothing ∈ o.groups ∨ .nothing ∈ o.cases := by
  rw [Options.criteria, List.mem_append, List.mem_append] at hc
  rcases hc with (hgroup | hcase) | hids
  · obtain ⟨operand, hoperand, rfl⟩ := List.mem_map.mp hgroup
    cases operand with
    | nothing => exact .inl hoperand
    | value pattern => cases h
  · obtain ⟨operand, hoperand, rfl⟩ := List.mem_map.mp hcase
    cases operand with
    | nothing => exact .inr hoperand
    | value pattern => cases h
  · split at hids
    · cases hids
    · obtain rfl := List.mem_singleton.mp hids
      cases h

theorem listed_cases (o : Options) (b : Bridge) : (∃ l, listed b o = .ok l) ∨
    listed b o = .error .noPattern ∧
      (.nothing ∈ o.groups ∨ .nothing ∈ o.cases ∨ .nothing ∈ o.ids) := by
  unfold listed
  split
  · rename_i hids
    exact .inr ⟨rfl, .inr (.inr (List.contains_iff_mem.mp hids))⟩
  · split
    · rename_i hany
      obtain ⟨entry, -, hentry⟩ := List.any_eq_true.mp hany
      obtain ⟨c, hc, hbreaks⟩ := exists_breaksOn hentry
      exact .inr ⟨rfl, (nothing_of_breaksOn hc hbreaks).imp_right .inl⟩
    · exact .inl ⟨_, rfl⟩

theorem listed_plain {b : Bridge} (hgroups : o.groups = []) (hcases : o.cases = [])
    (hids : o.ids = []) : listed b o = .ok (listing b none) := by
  have hcriteria : o.criteria = [] := by simp [Options.criteria, hgroups, hcases, hids]
  simp [listed, Options.filter?, hids, hcriteria, breaksOn]

theorem finish_of_noOutput (houtput : ∀ path, o.output ≠ some (.value path)) (b : Bridge)
    (l : Listing) (time : Timestamp) :
    finish files o .defaults b l time = (.ok 0, [], files) := by
  have hpath : reportPath o .defaults = .ok none := by
    unfold reportPath
    split
    · rename_i path hvalue
      exact absurd hvalue (houtput path)
    · rfl
  unfold finish
  rw [hpath]

/-! ### Endings -/

theorem runOptionsOn_status (out : Stdout) (files : FileTree) (hconfig : o.configFile = none)
    (houtput : ∀ path, o.output ≠ some (.value path)) (time : Timestamp) :
    ((runOptionsOn out files o time).status = .ok 0 ∨
        (runOptionsOn out files o time).status = .ok 1) ∨
      ∃ cause, (runOptionsOn out files o time).status = .error cause ∧ Breaks out files o cause := by
  rcases prepare_cases out files hconfig with
    ⟨b, hb⟩ | ⟨cause, hcause⟩ | ⟨cause, hcause, hbreaks⟩
  · rcases listed_cases o b with ⟨l, hl⟩ | ⟨hl, hnothing⟩
    · have hlist := toList_of_listed hb hl
      rcases out.print_cases (l.lines b) with hwrites | ⟨before, position, halves, hstops⟩
      · rw [runOptionsOn_of_writes hlist hwrites (finish_of_noOutput houtput b l time)]
        exact .inl (.inl rfl)
      · rw [runOptionsOn_of_stopsAt hlist hstops]
        exact .inr ⟨_, rfl, .unprintable hlist hstops⟩
    · rw [runOptionsOn_of_notListed hb hl]
      exact .inr ⟨_, rfl, .noPattern hb hl hnothing⟩
  · rw [runOptionsOn_of_refused hcause]
    exact .inl (.inr rfl)
  · rw [runOptionsOn_of_broken hcause]
    exact .inr ⟨_, rfl, hbreaks⟩

theorem Breaks.status {cause : Interruption} (h : Breaks out files o cause)
    (hconfig : o.configFile = none) : (runOptionsOn out files o time).status = .error cause := by
  cases h with
  | parent hplan hload hentries hat =>
    have hunusable := (Manifest.plan_unusable_iff _ _).mpr ⟨_, _, hentries, hat⟩
    rw [runOptionsOn_of_broken (prepare_of_unusable hconfig hplan hload hunusable)]
  | noPlan hplan => rw [runOptionsOn_of_broken (prepare_of_noPlan hconfig hplan)]
  | noPattern hprepare hlisted => rw [runOptionsOn_of_notListed hprepare hlisted]
  | unprintable hlist hstops => rw [runOptionsOn_of_stopsAt hlist hstops]

/-- A plan or a late entry is refused for every fault but one: the first fault of the plan is a
top-level entry whose parent is a list or an object. A run without settings file and report ends with
0 or 1 unless something breaks it off: that fault, a line that standard output does not write, or a
switch that was given nothing. -/
theorem manifest_faults (m : Manifest) (out : Stdout) (files : FileTree) (arguments : List String)
    (o : Options) (time : Timestamp) (hparse : Options.parse arguments = .ok o)
    (hconfig : o.configFile = none) (houtput : ∀ path, o.output ≠ some (.value path)) :
    (∀ e, m.plan = .error e ∧ ¬ e.IsRefusal ↔ ∃ entries k parent id,
      e = .plan (.unusableParent parent id) ∧
      Manifest.field m "plan" (.list []) = .list entries ∧
      Manifest.UnusableParentAt entries k parent id) ∧
    (∀ e, .error e ∈ m.lateEntries → e.IsRefusal) ∧
    (((runOn out files arguments time).status = .ok 0 ∨
        (runOn out files arguments time).status = .ok 1) ∨
      ∃ cause, (runOn out files arguments time).status = .error cause) ∧
    ∀ cause, (runOn out files arguments time).status = .error cause ↔ Breaks out files o cause := by
  have hstatus := runOptionsOn_status out files hconfig houtput time
  rw [runOn_of_parse hparse]
  refine ⟨?_, fun _ => Manifest.lateEntries_isRefusal, ?_, ?_⟩
  · intro e
    constructor
    · intro h
      obtain ⟨parent, id, rfl⟩ := e.isRefusal_or.resolve_left h.2
      obtain ⟨entries, k, hentries, hat⟩ := (Manifest.plan_unusable_iff parent id).mp h.1
      exact ⟨entries, k, parent, id, rfl, hentries, hat⟩
    · intro h
      obtain ⟨entries, k, parent, id, rfl, hentries, hat⟩ := h
      exact ⟨(Manifest.plan_unusable_iff parent id).mpr ⟨entries, k, hentries, hat⟩, not_false⟩
  · exact hstatus.imp_right fun ⟨cause, hcause, _⟩ => ⟨cause, hcause⟩
  · intro cause
    constructor
    · intro h
      -- A run ends in one way only, so what broke it off is the cause that was found.
      rw [h] at hstatus
      obtain ⟨found, hfound, hbreaks⟩ := hstatus.resolve_left (by simp)
      obtain rfl := Except.error.inj hfound
      exact hbreaks
    · intro h
      exact h.status hconfig

/- The plan of this manifest is `[{"id":"a","parent_id":[]}]`. -/
def listParent : Manifest :=
  [("plan", .list [.object [("id", .string "a"), ("parent_id", .list [])]])]

def listParentText : List UInt8 :=
  [123, 34, 112, 108, 97, 110, 34, 58, 91, 123, 34, 105, 100, 34, 58, 34, 97, 34, 44, 34, 112, 97,
   114, 101, 110, 116, 95, 105, 100, 34, 58, 91, 93, 125, 93, 125]

def listParentFiles : FileTree :=
  ⟨[([], .directory), ([[109, 46, 106, 115, 111, 110]], .file listParentText)], []⟩

theorem listParent_load : Manifest.load listParentFiles (.ofText "m.json") = .ok listParent := by
  with_unfolding_all rfl

def onlyPlan : Options := ⟨.value (.ofText "m.json"), none, none, [], [], [], false, none⟩

theorem listParent_breaks : listParent.plan = .error (.plan (.unusableParent (.list []) "a")) ∧
    ¬ (Manifest.Error.plan (.unusableParent (.list []) "a")).IsRefusal ∧
    (run listParentFiles ["--plan", "m.json"] ⟨2024, 1, 2, 3, 4, 5, 678901⟩).status =
      .error (.plan (.unusableParent (.list []) "a")) := by
  have hparse : Options.parse ["--plan", "m.json"] = .ok onlyPlan := by rfl
  have hplan : listParent.plan = .error (.plan (.unusableParent (.list []) "a")) := by rfl
  refine ⟨hplan, not_false, ?_⟩
  have hprepare := @prepare_of_unusable listParentFiles onlyPlan rfl _ rfl _ listParent_load _ _ hplan
  rw [run_of_parse hparse, runOptions, hprepare]

/- The plan of this file is `[{"id":"\ud800"}]`. -/
def halfText : List UInt8 :=
  [123, 34, 112, 108, 97, 110, 34, 58, 91, 123, 34, 105, 100, 34, 58, 34, 92, 117, 100, 56, 48, 48, 34,
   125, 93, 125]

def halfFiles : FileTree :=
  ⟨[([], .directory), ([[109, 46, 106, 115, 111, 110]], .file halfText)], []⟩

theorem half_load : Manifest.load halfFiles (.ofText "m.json") =
    .ok [("plan", .list [.object [("id", .string [.surrogate 0])]])] := by
  with_unfolding_all rfl

/- What stands behind the name in the line of the member. -/
def halfTail : Text := ("(<unrooted>)  (" : Text) ++ .surrogate 0 :: (")" : Text)

def halfLines : List Text :=
  ["Tests in plan: 1", ("  [test] " : Text) ++ .surrogate 0 :: halfTail]

theorem half_toList :
    ∃ b l, toList? halfFiles onlyPlan = some (.defaults, b, l) ∧ l.lines b = halfLines := by
  obtain ⟨b, hb, hlines⟩ : ∃ b, prepare halfFiles onlyPlan = .ok (.defaults, b) ∧
      (listing b none).lines b = halfLines := by
    rw [prepare_of_load rfl rfl half_load]
    exact ⟨_, rfl, rfl⟩
  exact ⟨b, listing b none, toList_of_listed hb (listed_plain rfl rfl rfl), hlines⟩

/- The strict stream writes the first line of the listing and stops at the second. -/
theorem half_breaks : Breaks .strict halfFiles onlyPlan (.unprintable 9 [.surrogate 0]) := by
  obtain ⟨b, l, hlist, hlines⟩ := half_toList
  have hstops : Stdout.strict.StopsAt (l.lines b) ["Tests in plan: 1"] 9 [.surrogate 0] := by
    rw [hlines]
    exact @Stdout.StopsAt.intro .strict ["Tests in plan: 1"] [] "  [test] " halfTail 0 (by decide)
      (by decide) rfl
  exact .unprintable hlist hstops

theorem listParent_faults : Options.parse ["--plan", "m.json"] = .ok onlyPlan ∧
    (∃ cause, (runOn .everyText listParentFiles ["--plan", "m.json"]
      ⟨2024, 1, 2, 3, 4, 5, 678901⟩).status = .error (.broken cause) ∧
      Breaks .everyText listParentFiles onlyPlan (.broken cause)) ∧
    (runOn .strict halfFiles ["--plan", "m.json"] ⟨2024, 1, 2, 3, 4, 5, 678901⟩).status =
      .error (.unprintable 9 [.surrogate 0]) := by
  have hparse : Options.parse ["--plan", "m.json"] = .ok onlyPlan := by rfl
  obtain ⟨hrefusal, -, -, hexact⟩ := manifest_faults listParent .everyText listParentFiles
    ["--plan", "m.json"] onlyPlan ⟨2024, 1, 2, 3, 4, 5, 678901⟩ hparse rfl nofun
  obtain ⟨entries, k, parent, id, -, hentries, hat⟩ :=
    (hrefusal (.plan (.unusableParent (.list []) "a"))).mp ⟨rfl, not_false⟩
  have hbreaks : Breaks .everyText listParentFiles onlyPlan
      (.broken (.plan (.unusableParent parent id))) := .parent rfl listParent_load hentries hat
  obtain ⟨-, -, -, hhalf⟩ := manifest_faults listParent .strict halfFiles
    ["--plan", "m.json"] onlyPlan ⟨2024, 1, 2, 3, 4, 5, 678901⟩ hparse rfl nofun
  exact ⟨hparse, ⟨_, (hexact _).mpr hbreaks, hbreaks⟩, (hhalf _).mpr half_breaks⟩

end CommandLine

end SuiteView
