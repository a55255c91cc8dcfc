import SuiteView.Proofs.Files.Writing
import SuiteView.Proofs.Json.Plain
import SuiteView.Proofs.Json.ReadBack
import SuiteView.Proofs.Settings.Copies
import SuiteView.Proofs.Settings.Loading

/-!
# Saving settings

Settings that were opened from a file, and changed since, hold JSON values and have the names of the
defaults in front. The file that is saved for them therefore opens as the same settings, with every
field in its place. What is done to a copy of the fields that was handed out shows neither in the
settings nor in the file.
-/

namespace SuiteView

theorem Text.ofString_isJoined (s : String) : (Text.ofString s).IsJoined := by
  have hchar : ∀ c ∈ Text.ofString s, ¬ c.IsHigh := by
    intro c hc hhigh
    obtain ⟨x, _, rfl⟩ := List.mem_map.mp hc
    obtain ⟨offset, hoffset, _⟩ := hhigh
    cases hoffset
  exact List.isChain_iff_getElem.mpr fun i hi hpair => hchar _ (List.getElem_mem _) hpair.1

namespace Settings

/-- JSON values under different names, those of the defaults in front. -/
structure IsRegular (s : Settings) : Prop where
  front : defaults.fields.keys <+: s.fields.keys
  names : s.fields.keys.Nodup
  fields : ∀ field ∈ s.fields, Json.IsField field

theorem IsRegular.isJson {s : Settings} (h : s.IsRegular) : (Value.object s.fields).IsJson :=
  .object h.names (fun field hfield => (h.fields field hfield).1) fun field hfield =>
    (h.fields field hfield).2

/-! ### Opening -/

theorem defaults_isRegular : defaults.IsRegular where
  front := List.prefix_rfl
  names := by decide
  fields field hfield := by
    simp only [defaults, List.mem_cons, List.not_mem_nil, or_false] at hfield
    rcases hfield with rfl | rfl | rfl
    · exact ⟨Text.ofString_isJoined _, .string (Text.ofString_isJoined _)⟩
    · exact ⟨Text.ofString_isJoined _, .bool true⟩
    · exact ⟨Text.ofString_isJoined _, .null⟩

theorem ofFields_isRegular {fields : Table Value} (h : (Value.object fields).IsJson) :
    (ofFields fields).IsRegular := by
  cases h with
  | object hnames hjoined hvalues =>
    refine ⟨?_, Table.keys_foldl_put_nodup fields defaults_isRegular.names, fun field hfield => ?_⟩
    · rw [(ofFields_overrides hnames).names]
      exact List.prefix_append _ _
    · rcases Table.mem_foldl_put hfield with hdefault | hgiven
      · exact defaults_isRegular.fields field hdefault
      · exact ⟨hjoined field hgiven, hvalues field hgiven⟩

theorem readDocument_isJson {t : FileTree} {p : Path} {v : Value}
    (h : t.readDocument p = .ok v) : v.IsJson := by
  unfold FileTree.readDocument at h
  split at h
  · cases h
  · unfold documentValue at h
    split at h
    · cases h
    · dsimp only at h
      split at h
      · cases h
      next hread =>
        cases h
        exact Json.read_isJson hread

theorem load_isRegular {t : FileTree} {p : Path} {s : Settings} (h : load t (some p) = .ok s) :
    s.IsRegular := by
  simp only [load, loadFrom] at h
  split at h
  · cases h
  · cases h
    exact defaults_isRegular
  · cases hdocument : t.readDocument p with
    | ok v =>
      rw [hdocument] at h
      cases h
      cases v with
      | object fields => exact ofFields_isRegular (readDocument_isJson hdocument)
      | _ => exact defaults_isRegular
    | error cause =>
      rw [hdocument] at h
      unfold ofDocument at h
      split at h
      next hok => cases hok
      · cases h
        exact defaults_isRegular
      · cases h
        exact defaults_isRegular
      · cases h

/-! ### Changing -/

theorem IsRegular.set {s : Settings} (h : s.IsRegular) {name : Text} {v : Value}
    (hname : name.IsJoined) (hv : v.IsJson) : (s.set name v).IsRegular := by
  unfold Settings.set
  split
  · exact h
  · refine ⟨?_, Table.keys_put_nodup h.names _ _, fun field hfield => ?_⟩
    · rw [Table.keys_put]
      split
      · exact h.front
      · exact h.front.trans (List.prefix_append _ _)
    · rcases Table.mem_put hfield with hold | rfl
      · exact h.fields field hold
      · exact ⟨hname, hv⟩

theorem IsRegular.setKnown {s : Settings} (h : s.IsRegular) {rootLabel replay reportFile : Value}
    (hlabel : rootLabel.IsJson) (hreplay : replay.IsJson) (hfile : reportFile.IsJson) :
    (s.setKnown rootLabel replay reportFile).IsRegular :=
  ((h.set (Text.ofString_isJoined _) hlabel).set (Text.ofString_isJoined _) hreplay).set
    (Text.ofString_isJoined _) hfile

/-! ### Saving and opening again -/

theorem IsRegular.ofFields_eq {s : Settings} (h : s.IsRegular) : ofFields s.fields = s :=
  congrArg Settings.mk (Table.foldl_put_eq_self h.front h.names)

theorem fileText_isText (s : Settings) : IsTextOf (Text.encode s.fileText)
    (Json.writeAt 0 (.object s.fields) ++ ['\n']) := by
  have hlist : s.fileText.toList = Json.writeAt 0 (.object s.fields) ++ ['\n'] := by
    simp [fileText, Json.write]
  have hplain := List.all_eq_true.mp (Json.writeAt_isPlain 0 (.object s.fields))
  refine ⟨s.fileText, rfl, ?_⟩
  rw [hlist, Text.normalizeNewlines_eq_self]
  intro hreturn
  rcases List.mem_append.mp hreturn with hbody | hend
  · exact absurd (hplain _ hbody) (by decide)
  · exact absurd (List.mem_singleton.mp hend) (by decide)

theorem save_ok {s : Settings} {t t' : FileTree} {p : Path} (h : s.save t (some p) = (t', .ok ())) :
    Json.cutAt 0 (.object s.fields) = none ∧ t.writeText p s.fileText = (t', .ok ()) := by
  unfold save at h
  cases hcut : Json.cutAt 0 (.object s.fields) with
  | none =>
    refine ⟨rfl, ?_⟩
    simp only [hcut] at h
    rcases hwrite : t.writeText p s.fileText with ⟨written, outcome⟩
    rw [hwrite] at h
    cases outcome with
    | ok done =>
      cases h
      rfl
    | error cause => cases h
  | some written =>
    simp only [hcut] at h
    split at h <;> cases h

theorem IsRegular.load_saved {s : Settings} (h : s.IsRegular) {t t' : FileTree} {p : Path}
    (hsave : s.save t (some p) = (t', .ok ())) (hsink : t'.isSink p = false) :
    load t' (some p) = .ok s := by
  obtain ⟨hcut, hwrite⟩ := save_ok hsave
  obtain ⟨place, hplace, hfile⟩ := FileTree.writeText_stands hwrite hsink
  have hread := Json.read_write h.isJson hcut
  rw [load_eq hplace hfile, documentValue_of_text s.fileText_isText, hread]
  exact congrArg _ h.ofFields_eq

end Settings

/-! ### Settings in use -/

namespace OpenSettings

open Settings

/-- The values that are set are JSON values; what is assigned to copies may be anything. -/
def Action.IsJson : Action → Prop
  | .set rootLabel replay reportFile => rootLabel.IsJson ∧ replay.IsJson ∧ reportFile.IsJson
  | .config | .assign _ _ _ => True

theorem Action.effect_isRegular {a : Action} (ha : a.IsJson) {s : Settings} (h : s.IsRegular) :
    (a.effect s).IsRegular := by
  cases a with
  | set rootLabel replay reportFile => exact h.setKnown ha.1 ha.2.1 ha.2.2
  | config => exact h
  | assign copy name v => exact h

theorem effects_isRegular {actions : List Action} (hjson : ∀ a ∈ actions, a.IsJson) {s : Settings}
    (h : s.IsRegular) : (actions.foldl (fun s a => a.effect s) s).IsRegular := by
  induction actions generalizing s with
  | nil => exact h
  | cons a rest ih =>
    have ha := Action.effect_isRegular (hjson a (List.mem_cons_self ..)) h
    exact ih (fun b hb => hjson b (List.mem_cons_of_mem _ hb)) ha

/-- Settings that were opened, used and saved open as the same again, and they are what was set,
whatever was assigned to copies. -/
theorem run_saved {t₀ t t' : FileTree} {p : Path} {s : Settings} {actions : List Action}
    (hopen : load t₀ (some p) = .ok s) (hjson : ∀ a ∈ actions, a.IsJson)
    (hsave : ((start s).run actions).settings.save t (some p) = (t', .ok ()))
    (hsink : t'.isSink p = false) :
    load t' (some p) = .ok ((start s).run actions).settings ∧
      ((start s).run actions).settings = actions.foldl (fun s a => a.effect s) s := by
  have hrun := run_settings (start_apart s) actions
  have hregular := effects_isRegular hjson (load_isRegular hopen)
  rw [start_settings] at hrun
  rw [hrun] at hsave ⊢
  exact ⟨hregular.load_saved hsave hsink, rfl⟩

/-- A label with an escape and an astral character, and a list in the place of a path. -/
def relabel : List Action :=
  [.set (.string "\\😀") .null (.list [.number .nan, .object []]), .config,
    .assign 0 rootLabelField .null]

theorem relabel_isJson : ∀ a ∈ relabel, a.IsJson := by
  intro a ha
  simp only [relabel, List.mem_cons, List.not_mem_nil, or_false] at ha
  rcases ha with rfl | rfl | rfl
  · refine ⟨.string (Text.ofString_isJoined _), .null, .list fun v hv => ?_⟩
    simp only [List.mem_cons, List.not_mem_nil, or_false] at hv
    rcases hv with rfl | rfl
    · exact .number trivial
    · exact .object List.nodup_nil (fun _ h => nomatch h) fun _ h => nomatch h
  · trivial
  · trivial

theorem lone_save {s : Settings} (h : Json.cutAt 0 (.object s.fields) = none)
    (content : List UInt8) : s.save (lone content) (some (.ofText "c")) =
      ((lone content).put [[99]] (.file (Text.encode s.fileText)), .ok ()) := by
  have hparent : (lone content).ensureDirectories (Path.ofText "c").parent =
      (lone content, .ok ()) := by with_unfolding_all rfl
  have hfile : (lone content).item? [[99]] = some (.file content) := rfl
  simp only [save, h, FileTree.writeText, hparent, FileTree.write, lone_locate, hfile,
    FileTree.step]
  rfl

theorem relabel_saved : load (lone oneFieldText) (some (.ofText "c")) = .ok oneField ∧
    (∀ a ∈ relabel, a.IsJson) ∧
    ∃ t', ((start oneField).run relabel).settings.save (lone oneFieldText) (some (.ofText "c")) =
        (t', .ok ()) ∧
      t'.isSink (.ofText "c") = false ∧
      load t' (some (.ofText "c")) = .ok ⟨[(rootLabelField, .string "\\😀"),
        (replayField, .bool true), (reportFileField, .list [.number .nan, .object []]),
        (Text.ofString "a", .string "b")]⟩ := by
  have hcut : Json.cutAt 0 (.object ((start oneField).run relabel).settings.fields) = none := rfl
  have hsave := lone_save hcut oneFieldText
  have hsink (content : List UInt8) : ((lone oneFieldText).put [[99]] (.file content)).isSink
      (.ofText "c") = false := by with_unfolding_all rfl
  have hsaved := run_saved lone_oneField relabel_isJson hsave (hsink _)
  exact ⟨lone_oneField, relabel_isJson, _, hsave, hsink _, hsaved.1⟩

end OpenSettings

end SuiteView
