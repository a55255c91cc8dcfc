import SuiteView.Proofs.Ending

/-!
# Refused runs

A run ends with code 1 if its manifest is refused, and for nothing else: the file gives no manifest,
the manifest gives no plan, or its late entries are replayed and one of them cannot be read or
inserted. The members that were inserted before it are lost with the view. Such a run complains in
one message and leaves no other trace.
-/

namespace SuiteView

namespace Bridge

/-! ### Replays that end early -/

/-- A fault for which a late entry is refused. A parent that cannot be looked up and a member that
cannot be named are none. -/
def ReplayError.IsRefusal : ReplayError → Prop
  | .manifest cause => cause.IsRefusal
  | .insert (.plan (.unusableParent _ _)) => False
  | .insert (.naming _) => False
  | .insert _ => True

/-- A view refuses what was read of a late entry: there was nothing to read, or the member that was
read is not inserted. -/
inductive RefusesEntry (b : Bridge) : Except Manifest.Error (Identifier × Text) → ReplayError → Prop
  | unread (cause : Manifest.Error) : RefusesEntry b (.error cause) (.manifest cause)
  | notInserted {i : Identifier} {parent : Text} {cause : InsertError}
      (h : (b.insert i parent).2 = .error cause) : RefusesEntry b (.ok (i, parent)) (.insert cause)

theorem replay_append (reads rest : List (Except Manifest.Error (Identifier × Text))) (b : Bridge) :
    b.replay (reads ++ rest) =
      match b.replay reads with
      | (b, .error cause) => (b, .error cause)
      | (b, .ok _) => b.replay rest := by
  induction reads generalizing b with
  | nil => rfl
  | cons read reads ih =>
    cases read with
    | error cause => rfl
    | ok late =>
      obtain ⟨i, parent⟩ := late
      rw [List.cons_append, replay, replay]
      rcases b.insert i parent with ⟨b', _ | node⟩
      · rfl
      · exact ih b'

theorem replay_cons_error {b : Bridge} {read : Except Manifest.Error (Identifier × Text)}
    {cause : ReplayError} (h : b.RefusesEntry read cause)
    (rest : List (Except Manifest.Error (Identifier × Text))) :
    (b.replay (read :: rest)).2 = .error cause := by
  cases h with
  | unread => rfl
  | notInserted h =>
    rename_i i parent cause
    rw [replay]
    rcases hinsert : b.insert i parent with ⟨b', result⟩
    rw [hinsert] at h
    obtain rfl : result = .error cause := h
    rfl

/-- A replay ends early at the first entry that the view refuses, with all entries before it
inserted. -/
theorem replay_error_iff {b : Bridge} {reads : List (Except Manifest.Error (Identifier × Text))}
    {cause : ReplayError} : (b.replay reads).2 = .error cause ↔
      ∃ done read rest b', reads = done ++ read :: rest ∧ b.replay done = (b', .ok ()) ∧
        b'.RefusesEntry read cause := by
  constructor
  · intro h
    induction reads generalizing b with
    | nil => cases h
    | cons read reads ih =>
      cases read with
      | error e =>
        obtain rfl := Except.error.inj h
        exact ⟨[], .error e, reads, b, rfl, rfl, .unread e⟩
      | ok late =>
        obtain ⟨i, parent⟩ := late
        rw [replay] at h
        rcases hinsert : b.insert i parent with ⟨b', result⟩
        rw [hinsert] at h
        cases result with
        | error e =>
          obtain rfl := Except.error.inj h
          exact ⟨[], .ok (i, parent), reads, b, rfl, rfl, .notInserted (by rw [hinsert])⟩
        | ok node =>
          obtain ⟨done, read, rest, b'', rfl, hdone, hrefused⟩ := ih h
          refine ⟨.ok (i, parent) :: done, read, rest, b'', rfl, ?_, hrefused⟩
          rw [replay, hinsert]
          exact hdone
  · rintro ⟨done, read, rest, b', rfl, hdone, hrefused⟩
    rw [replay_append, hdone]
    exact replay_cons_error hrefused rest

end Bridge

namespace CommandLine

open Manifest (field)

/-! ### Endings -/

theorem planEnding_refused_iff {e : Manifest.Error} {cause : Refusal} :
    planEnding e = .refused cause ↔ e.IsRefusal ∧ cause = .plan e := by
  constructor
  · intro h
    rcases e.isRefusal_or with hrefusal | ⟨parent, id, rfl⟩
    · rw [planEnding_of_isRefusal hrefusal] at h
      exact ⟨hrefusal, (Ending.refused.inj h).symm⟩
    · cases h
  · rintro ⟨hrefusal, rfl⟩
    exact planEnding_of_isRefusal hrefusal

theorem lateEnding_of_isRefusal {e : Bridge.ReplayError} (h : e.IsRefusal) :
    lateEnding e = .refused (.lateEntry e) := by
  cases e with
  | manifest cause => rfl
  | insert cause =>
    cases cause with
    | unmappedParent | declaredParent => rfl
    | plan cause =>
      cases cause with
      | duplicateId | missingParent => rfl
      | unusableParent => exact h.elim
    | naming cause => exact h.elim

theorem isRefusal_of_lateEnding {e : Bridge.ReplayError} {cause : Refusal}
    (hread : ∀ fault, e = .manifest fault → fault.IsRefusal) (h : lateEnding e = .refused cause) :
    e.IsRefusal ∧ cause = .lateEntry e := by
  have hrefusal : e.IsRefusal := by
    cases e with
    | manifest fault => exact hread fault rfl
    | insert fault =>
      cases fault with
      | unmappedParent | declaredParent => trivial
      | plan fault =>
        cases fault with
        | duplicateId | missingParent => trivial
        | unusableParent => cases h
      | naming fault => cases h
  rw [lateEnding_of_isRefusal hrefusal] at h
  exact ⟨hrefusal, (Ending.refused.inj h).symm⟩

/-! ### What is refused -/

/-- The late entries of a manifest are refused on top of a view: they are no list, or one of them is
refused after the ones before it were inserted. -/
inductive RefusesLate (m : Manifest) (b : Bridge) : Bridge.ReplayError → Prop
  | notList (hlist : ∀ entries, field m "dynamic" (.list []) ≠ .list entries) :
      RefusesLate m b (.manifest (.dynamicNotList (field m "dynamic" (.list []))))
  | entry {entries done rest : List Value} {v : Value} {b' : Bridge} {cause : Bridge.ReplayError}
      (hlist : field m "dynamic" (.list []) = .list entries) (hentries : entries = done ++ v :: rest)
      (hdone : b.replay (done.map Manifest.readLate) = (b', .ok ()))
      (hrefused : b'.RefusesEntry (Manifest.readLate v) cause) (hcause : cause.IsRefusal) :
      RefusesLate m b cause

/-- What a manifest is refused for: it gives no plan, or its late entries are replayed and refused. -/
inductive RefusesManifest (m : Manifest) (label : Text) (replays : Bool) : Refusal → Prop
  | plan {cause : Manifest.Error} (hplan : m.plan = .error cause) (hcause : cause.IsRefusal) :
      RefusesManifest m label replays (.plan cause)
  | late {p : Plan} {b : Bridge} {cause : Bridge.ReplayError} (hplan : m.plan = .ok p)
      (hcreate : Bridge.create p .empty label = .ok b) (hreplays : replays = true)
      (hlate : RefusesLate m b cause) : RefusesManifest m label replays (.lateEntry cause)

/-- What a run is refused for under its settings: the file gives no manifest, or the manifest is
refused. -/
inductive Refuses (files : FileTree) (o : Options) (settings : Settings) : Refusal → Prop
  | load {path : Path} {cause : Manifest.LoadError} (hplan : o.plan = .value path)
      (hload : Manifest.load files path = .error cause) :
      Refuses files o settings (.manifest path cause)
  | manifest {path : Path} {m : Manifest} {cause : Refusal} (hplan : o.plan = .value path)
      (hload : Manifest.load files path = .ok m)
      (hrefused : RefusesManifest m (rootLabel o settings)
        (settings.replaysLateEntries && !o.noDynamic) cause) : Refuses files o settings cause

theorem lateEntries_of_list {m : Manifest} {entries : List Value}
    (h : field m "dynamic" (.list []) = .list entries) :
    m.lateEntries = entries.map Manifest.readLate := by
  rw [Manifest.lateEntries, h]

theorem lateEntries_of_notList {m : Manifest}
    (h : ∀ entries, field m "dynamic" (.list []) ≠ .list entries) :
    m.lateEntries = [.error (.dynamicNotList (field m "dynamic" (.list [])))] := by
  unfold Manifest.lateEntries
  split
  · rename_i entries hentries
    exact absurd hentries (h entries)
  · rfl

theorem refusesLate_iff {m : Manifest} {b : Bridge} {e : Bridge.ReplayError} :
    RefusesLate m b e ↔ (b.replay m.lateEntries).2 = .error e ∧ e.IsRefusal := by
  constructor
  · intro h
    cases h with
    | notList hlist =>
      rw [lateEntries_of_notList hlist]
      exact ⟨rfl, trivial⟩
    | entry hlist hentries hdone hrefused hcause =>
      rw [lateEntries_of_list hlist, hentries, List.map_append, List.map_cons]
      exact ⟨Bridge.replay_error_iff.mpr ⟨_, _, _, _, rfl, hdone, hrefused⟩, hcause⟩
  · rintro ⟨h, hcause⟩
    by_cases hlist : ∃ entries, field m "dynamic" (.list []) = .list entries
    · obtain ⟨entries, hlist⟩ := hlist
      rw [lateEntries_of_list hlist] at h
      obtain ⟨done', read, rest', b', hreads, hdone, hrefused⟩ := Bridge.replay_error_iff.mp h
      obtain ⟨done, others, rfl, rfl, hothers⟩ := List.map_eq_append_iff.mp hreads
      obtain ⟨v, rest, rfl, rfl, -⟩ := List.map_eq_cons_iff.mp hothers
      exact .entry hlist rfl hdone hrefused hcause
    · have hnot : ∀ entries, field m "dynamic" (.list []) ≠ .list entries := fun entries hentries =>
        hlist ⟨entries, hentries⟩
      rw [lateEntries_of_notList hnot] at h
      obtain rfl := Except.error.inj h
      exact .notList hnot

theorem prepareView_refused_iff {m : Manifest} {label : Text} {replays : Bool} {cause : Refusal} :
    prepareView m label replays = .error (.refused cause) ↔
      RefusesManifest m label replays cause := by
  constructor
  · intro h
    unfold prepareView at h
    cases hplan : m.plan with
    | error e =>
      rw [hplan] at h
      obtain ⟨hcause, rfl⟩ := planEnding_refused_iff.mp (Except.error.inj h)
      exact .plan hplan hcause
    | ok p =>
      rw [hplan] at h
      cases hcreate : Bridge.create p .empty label with
      | error e => simp [hcreate] at h
      | ok b =>
        simp only [hcreate] at h
        cases replays with
        | false => cases h
        | true =>
          rcases hreplay : b.replay m.lateEntries with ⟨b', result⟩
          cases result with
          | ok _ => simp [hreplay] at h
          | error e =>
            simp only [hreplay, if_true] at h
            have hlate : (b.replay m.lateEntries).2 = .error e := by rw [hreplay]
            have hread : ∀ fault, e = .manifest fault → fault.IsRefusal := by
              rintro fault rfl
              obtain ⟨done, read, rest, b'', hreads, -, hrefused⟩ := Bridge.replay_error_iff.mp hlate
              cases hrefused with
              | unread =>
                have hmem : .error fault ∈ m.lateEntries := by
                  rw [hreads]
                  exact List.mem_append_right _ (List.mem_cons_self ..)
                exact Manifest.lateEntries_isRefusal hmem
            obtain ⟨hcause, rfl⟩ := isRefusal_of_lateEnding hread (Except.error.inj h)
            exact .late hplan hcreate rfl (refusesLate_iff.mpr ⟨hlate, hcause⟩)
  · intro h
    unfold prepareView
    cases h with
    | plan hplan hcause =>
      rw [hplan]
      exact congrArg Except.error (planEnding_of_isRefusal hcause)
    | late hplan hcreate hreplays hlate =>
      rename_i p b e
      obtain ⟨hreplay, hcause⟩ := refusesLate_iff.mp hlate
      rw [hplan]
      simp only [hcreate, hreplays, if_true]
      rcases hresult : b.replay m.lateEntries with ⟨b', result⟩
      rw [hresult] at hreplay
      obtain rfl : result = .error e := hreplay
      exact congrArg Except.error (lateEnding_of_isRefusal hcause)

variable {files : FileTree} {o : Options}

theorem prepare_eq {settings : Settings} (h : settingsOf files o = .ok settings) :
    prepare files o = (manifestOf files o).bind fun m =>
      (prepareView m (rootLabel o settings) (settings.replaysLateEntries && !o.noDynamic)).map
        (Prod.mk settings) := by
  rw [prepare, h]
  rfl

theorem prepare_refused_iff {cause : Refusal} : prepare files o = .error (.refused cause) ↔
    ∃ settings, settingsOf files o = .ok settings ∧ Refuses files o settings cause := by
  constructor
  · intro h
    cases hsettings : settingsOf files o with
    | error e => simp [prepare, hsettings, Except.mapError, bind, Except.bind] at h
    | ok settings =>
      refine ⟨settings, rfl, ?_⟩
      rw [prepare_eq hsettings, manifestOf] at h
      cases hplan : o.plan with
      | nothing => simp [hplan, Except.bind] at h
      | value path =>
        cases hload : Manifest.load files path with
        | error e =>
          simp only [hplan, hload, Except.mapError, Except.bind, Except.error.injEq,
            Ending.refused.injEq] at h
          subst h
          exact .load hplan hload
        | ok m =>
          simp only [hplan, hload, Except.mapError, Except.bind] at h
          cases hview : prepareView m (rootLabel o settings)
            (settings.replaysLateEntries && !o.noDynamic) with
          | error ending =>
            rw [hview] at h
            obtain rfl : ending = .refused cause := Except.error.inj h
            exact .manifest hplan hload (prepareView_refused_iff.mp hview)
          | ok b =>
            rw [hview] at h
            cases h
  · rintro ⟨settings, hsettings, hrefuses⟩
    rw [prepare_eq hsettings, manifestOf]
    cases hrefuses with
    | load hplan hload => simp [hplan, hload, Except.mapError, Except.bind]
    | manifest hplan hload hrefused =>
      have hview := prepareView_refused_iff.mpr hrefused
      simp [hplan, hload, hview, Except.mapError, Except.bind, Except.map]

/-! ### Refused runs -/

theorem Refusal.message_error (cause : Refusal) : ∃ rest, cause.message = "Error" ++ rest := by
  unfold Refusal.message
  split
  · exact ⟨": Plan manifest not found: " ++ _, rfl⟩
  · exact ⟨": Cannot read plan manifest " ++ _ ++ _ ++ _, rfl⟩
  · exact ⟨": Invalid JSON in plan manifest: " ++ _, rfl⟩
  · exact ⟨": " ++ _, rfl⟩
  · exact ⟨" building plan: " ++ _, rfl⟩
  · exact ⟨" inserting dynamic test: " ++ _, rfl⟩

theorem finish_status {settings : Settings} {b : Bridge} {l : Listing} {time : Timestamp}
    {code : Nat} (h : (finish files o settings b l time).1 = .ok code) : code = 0 := by
  unfold finish at h
  split at h
  · cases h
  · exact (Except.ok.inj h).symm
  · split at h
    · cases h
    · exact (Except.ok.inj h).symm

theorem runOptions_refused {time : Timestamp} {cause : Refusal}
    (h : prepare files o = .error (.refused cause)) :
    runOptions files o time = ⟨.ok 1, "", lines [cause.message], files⟩ := by
  rw [runOptions, h]

theorem runOptions_code {time : Timestamp} {code : Nat}
    (h : (runOptions files o time).status = .ok code) :
    code = 0 ∨ code = 1 ∧ ∃ cause, prepare files o = .error (.refused cause) := by
  unfold runOptions at h
  split at h
  · rename_i cause hprepare
    exact .inr ⟨(Except.ok.inj h).symm, cause, hprepare⟩
  · cases h
  · split at h
    · cases h
    · exact .inl (finish_status h)

/-- A run ends with 0 or 1, unless something breaks it off, and with 1 exactly for what is refused.
Then it has complained in one message, printed nothing else, and left the files alone. -/
theorem run_refused (files : FileTree) (arguments : List String) (o : Options) (time : Timestamp)
    (hparse : Options.parse arguments = .ok o) :
    (∀ code, (run files arguments time).status = .ok code → code = 0 ∨ code = 1) ∧
    ((run files arguments time).status = .ok 1 ↔
      ∃ settings cause, settingsOf files o = .ok settings ∧ Refuses files o settings cause) ∧
    ((run files arguments time).status = .ok 1 →
      (run files arguments time).stdout = "" ∧ (run files arguments time).files = files ∧
      ∃ settings cause message, settingsOf files o = .ok settings ∧
        Refuses files o settings cause ∧ cause.message = "Error" ++ message ∧
        (run files arguments time).stderr = lines ["Error" ++ message]) := by
  rw [run_of_parse hparse]
  have hcode : (runOptions files o time).status = .ok 1 →
      ∃ cause, prepare files o = .error (.refused cause) := fun h =>
    ((runOptions_code h).resolve_left (by decide)).2
  refine ⟨fun code h => (runOptions_code h).imp_right And.left, ?_, ?_⟩
  · constructor
    · intro h
      obtain ⟨cause, hcause⟩ := hcode h
      obtain ⟨settings, hsettings, hrefuses⟩ := prepare_refused_iff.mp hcause
      exact ⟨settings, cause, hsettings, hrefuses⟩
    · rintro ⟨settings, cause, hsettings, hrefuses⟩
      rw [runOptions_refused (prepare_refused_iff.mpr ⟨settings, hsettings, hrefuses⟩)]
  · intro h
    obtain ⟨cause, hcause⟩ := hcode h
    obtain ⟨settings, hsettings, hrefuses⟩ := prepare_refused_iff.mp hcause
    obtain ⟨message, hmessage⟩ := cause.message_error
    rw [runOptions_refused hcause]
    exact ⟨rfl, rfl, settings, cause, message, hsettings, hrefuses, hmessage, by rw [hmessage]⟩

/- The manifest of this file is `{"plan":[],"dynamic":{}}`. -/
def unlistedText : List UInt8 :=
  [123, 34, 112, 108, 97, 110, 34, 58, 91, 93, 44, 34, 100, 121, 110, 97, 109, 105, 99, 34, 58, 123,
   125, 125]

def unlistedFiles : FileTree :=
  ⟨[([], .directory), ([[109, 46, 106, 115, 111, 110]], .file unlistedText)], []⟩

def unlisted : Manifest := [("plan", .list []), ("dynamic", .object [])]

theorem unlisted_load : Manifest.load unlistedFiles (.ofText "m.json") = .ok unlisted := by
  with_unfolding_all rfl

/-- A run is refused although its manifest gives a plan and no late entry is there to be refused. -/
theorem unlisted_refused : Options.parse ["--plan", "m.json"] = .ok onlyPlan ∧
    Manifest.load unlistedFiles (.ofText "m.json") = .ok unlisted ∧ unlisted.plan = .ok .empty ∧
    (¬ ∃ entries v, field unlisted "dynamic" (.list []) = .list entries ∧ v ∈ entries) ∧
    (run unlistedFiles ["--plan", "m.json"] ⟨2024, 1, 2, 3, 4, 5, 678901⟩).status = .ok 1 := by
  have hparse : Options.parse ["--plan", "m.json"] = .ok onlyPlan := by rfl
  have hlist : ∀ entries, field unlisted "dynamic" (.list []) ≠ .list entries := nofun
  refine ⟨hparse, unlisted_load, rfl, ?_, ?_⟩
  · rintro ⟨entries, v, hentries, -⟩
    exact hlist entries hentries
  · have hrefuses : Refuses unlistedFiles onlyPlan .defaults
        (.lateEntry (.manifest (.dynamicNotList (.object [])))) :=
      .manifest rfl unlisted_load (.late rfl rfl rfl (.notList hlist))
    rw [run_of_parse hparse, runOptions_refused (prepare_refused_iff.mpr ⟨_, rfl, hrefuses⟩)]

/- The plan of this file is `[{"id":"a","kind":"container"}]`, and twice in its late entries stands
`{"id":"b","parent_id":"a"}`. -/
def secondLateText : List UInt8 :=
  [123, 34, 112, 108, 97, 110, 34, 58, 91, 123, 34, 105, 100, 34, 58, 34, 97, 34, 44, 34, 107, 105,
   110, 100, 34, 58, 34, 99, 111, 110, 116, 97, 105, 110, 101, 114, 34, 125, 93, 44, 34, 100, 121,
   110, 97, 109, 105, 99, 34, 58, 91, 123, 34, 105, 100, 34, 58, 34, 98, 34, 44, 34, 112, 97, 114,
   101, 110, 116, 95, 105, 100, 34, 58, 34, 97, 34, 125, 44, 123, 34, 105, 100, 34, 58, 34, 98, 34,
   44, 34, 112, 97, 114, 101, 110, 116, 95, 105, 100, 34, 58, 34, 97, 34, 125, 93, 125]

def secondLateFiles : FileTree :=
  ⟨[([], .directory), ([[109, 46, 106, 115, 111, 110]], .file secondLateText)], []⟩

def lateTest : Value := .object [("id", .string "b"), ("parent_id", .string "a")]

def secondLate : Manifest :=
  [("plan", .list [.object [("id", .string "a"), ("kind", .string "container")]]),
   ("dynamic", .list [lateTest, lateTest])]

theorem secondLate_load :
    Manifest.load secondLateFiles (.ofText "m.json") = .ok secondLate := by
  with_unfolding_all rfl

def planAndReport : Options :=
  ⟨.value (.ofText "m.json"), none, none, [], [], [], false, some (.value (.ofText "r.yaml"))⟩

/-- The first late entry is inserted and the second refused; the report that was asked for is not
written. -/
theorem secondLate_refused :
    Options.parse ["--plan", "m.json", "--output", "r.yaml"] = .ok planAndReport ∧
    ∃ r : Run, r = run secondLateFiles ["--plan", "m.json", "--output", "r.yaml"]
        ⟨2024, 1, 2, 3, 4, 5, 678901⟩ ∧
      r.status = .ok 1 ∧ r.stdout = "" ∧ r.files = secondLateFiles := by
  have hparse : Options.parse ["--plan", "m.json", "--output", "r.yaml"] = .ok planAndReport := by
    rfl
  obtain ⟨-, hstatus, hclean⟩ := run_refused secondLateFiles
    ["--plan", "m.json", "--output", "r.yaml"] planAndReport ⟨2024, 1, 2, 3, 4, 5, 678901⟩ hparse
  have hlate : RefusesManifest secondLate "planbridge" true
      (.lateEntry (.insert (.plan (.duplicateId "b")))) :=
    .late rfl rfl rfl
      (@RefusesLate.entry _ _ _ [lateTest] [] lateTest _ _ rfl rfl rfl (.notInserted rfl) trivial)
  have hone := hstatus.mpr ⟨.defaults, _, rfl, .manifest rfl secondLate_load hlate⟩
  obtain ⟨hstdout, hfiles, -⟩ := hclean hone
  exact ⟨hparse, _, rfl, hone, hstdout, hfiles⟩

end CommandLine

end SuiteView
