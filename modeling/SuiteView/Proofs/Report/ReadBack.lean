import SuiteView.Proofs.Report.Entries
import SuiteView.Proofs.Session
import SuiteView.Proofs.Yaml.ReadBack

/-!
# Written reports read back

A written report is read as the report but for its texts. A text comes back changed in two places
only: in single quotes a next-line character is lost or becomes another line end or a space, and in
entries so deep that their indentation fills a line a backslash and a space come in between an escape
and the space behind it. All other reports are read as they were.
-/

namespace SuiteView

open Yaml

/-! ### Keys -/

theorem isKey_names : ∀ name ∈ ["report", "generated_at", "summary", "mapped_nodes", "tests",
    "selected", "selection", "filter", "ids", "tree", "name", "kind", "stable_id", "test_count",
    "group", "case", "children"], isKey name = true := by decide

namespace Entry

mutual

theorem document_isKeyed (e : Entry) : e.document.IsKeyed := by
  match e with
  | .node label stableId isSelected testCount children =>
    have hchildren := documents_isKeyed children
    have hid : ((stableId.map Document.text).getD .null).IsKeyed := by
      cases stableId with
      | none => exact .null
      | some id => exact .text id
    have hkeys := isKey_names
    simp only [List.forall_mem_cons] at hkeys
    rw [document]
    refine .mapping ?_ ?_ ?_
    · cases label <;> cases isSelected <;> cases children <;> simp [kindFields]
    · cases label <;> cases isSelected <;> cases children <;> simp [kindFields, hkeys]
    · cases label <;> cases isSelected <;> cases children <;>
        simp [kindFields, hid, Document.IsKeyed.text, Document.IsKeyed.count, Document.IsKeyed.flag,
          Document.IsKeyed.sequence hchildren]
termination_by structural e

theorem documents_isKeyed (es : List Entry) : ∀ d ∈ documents es, d.IsKeyed := by
  match es with
  | [] => simp [documents]
  | e :: rest =>
    rw [documents, List.forall_mem_cons]
    exact ⟨document_isKeyed e, documents_isKeyed rest⟩
termination_by structural es

end

/-! ### Texts and where they are written -/

mutual

/-- An entry and everything below it, each with its depth. -/
def levels (depth : Nat) : Entry → List (Nat × Entry)
  | .node label stableId isSelected testCount children =>
    (depth, .node label stableId isSelected testCount children) :: levelsOf (depth + 1) children
termination_by structural e => e

def levelsOf (depth : Nat) : List Entry → List (Nat × Entry)
  | [] => []
  | e :: rest => levels depth e ++ levelsOf depth rest
termination_by structural es => es

end

/-- The names that an entry shows besides the display name. -/
def parts : Label → List Text
  | .suite _ => []
  | .test group caseName => [group, caseName]

/-- The texts that an entry shows of its own node. -/
def texts : Entry → List Text
  | .node label stableId _ _ _ => label.display :: (stableId.toList ++ parts label)

end Entry

namespace Yaml

/-- A text without next-line characters is carried wherever the indentation does not fill a line. -/
theorem carries_of_shallow {indent : Nat} {t : Text} (hindent : indent < width)
    (h : .char '\x85' ∉ t) : Carries indent t := by
  unfold Carries
  split
  · trivial
  · exact h
  · exact fun hdeep => absurd hindent (Nat.not_lt.mpr hdeep)

theorem carries_kindName (indent : Nat) (label : Label) : Carries indent label.kindName := by
  have hsuite : (Text.chars? (Text.ofString "suite")).map styleOf = some .plain := by decide
  have htest : (Text.chars? (Text.ofString "test")).map styleOf = some .plain := by decide
  cases label with
  | suite name => simp [Carries, Label.kindName, hsuite]
  | test group caseName => simp [Carries, Label.kindName, htest]

end Yaml

namespace Entry

theorem textsAfter_document (indent : Nat) (inSequence : Bool) (label : Label)
    (stableId : Option Text) (isSelected : Bool) (testCount : Nat) (children : List Entry) :
    textsAfter indent inSequence (document (.node label stableId isSelected testCount children)) =
      (indent + 4, label.display) :: (indent + 4, (label.kindName : Text)) ::
        (stableId.toList ++ parts label).map (indent + 4, ·) ++
          textsOfItems (indent + 2) (documents children) := by
  cases label <;> cases stableId <;> cases isSelected <;> cases children <;>
    simp [document, documents, kindFields, parts, textsAfter, textsOfFields, textsOfField,
      textsOfItems]

mutual

/-- The texts of an entry are written in columns that grow by two with each level. -/
theorem carries_document_iff (depth : Nat) (inSequence : Bool) (e : Entry) :
    (∀ p ∈ textsAfter (2 + 2 * depth) inSequence e.document, Carries p.1 p.2) ↔
      ∀ q ∈ e.levels depth, ∀ t ∈ q.2.texts, Carries (6 + 2 * q.1) t := by
  match e with
  | .node label stableId isSelected testCount children =>
    have hbelow := carries_documents_iff (depth + 1) children
    have hkind := carries_kindName (6 + 2 * depth) label
    have hcolumn : 2 + 2 * depth + 2 = 2 + 2 * (depth + 1) := by omega
    have htext : 2 + 2 * depth + 4 = 6 + 2 * depth := by omega
    have hown : texts (.node label stableId isSelected testCount children) =
        label.display :: (stableId.toList ++ parts label) := rfl
    rw [textsAfter_document, levels, hcolumn, htext, List.forall_mem_append, hbelow,
      List.forall_mem_cons, List.forall_mem_cons, List.forall_mem_map, List.forall_mem_cons, hown,
      List.forall_mem_cons, and_iff_right hkind]
termination_by structural e

theorem carries_documents_iff (depth : Nat) (es : List Entry) :
    (∀ p ∈ textsOfItems (2 + 2 * depth) (documents es), Carries p.1 p.2) ↔
      ∀ q ∈ levelsOf depth es, ∀ t ∈ q.2.texts, Carries (6 + 2 * q.1) t := by
  match es with
  | [] => simp [documents, textsOfItems, levelsOf]
  | e :: rest =>
    rw [documents, textsOfItems, levelsOf, List.forall_mem_append, List.forall_mem_append,
      carries_document_iff depth true e, carries_documents_iff depth rest]
termination_by structural es

end

end Entry

/-! ### Time stamps -/

namespace Timestamp

theorem fixedDigits_isDigit (width n : Nat) : ∀ c ∈ fixedDigits width n, Json.isDigit c = true := by
  have hdigit : ∀ m < 10, Json.isDigit (Char.ofNat (48 + m)) = true := by decide
  induction width generalizing n with
  | zero => simp [fixedDigits]
  | succ width ih =>
    rw [fixedDigits, List.forall_mem_append]
    refine ⟨ih _, ?_⟩
    simpa using hdigit (n % 10) (Nat.mod_lt _ (by decide))

theorem not_mem_iso (t : Timestamp) : CodePoint.char '\x85' ∉ (t.iso : Text) := by
  have hdigits (width n : Nat) : '\x85' ∉ fixedDigits width n := fun hmem =>
    absurd (fixedDigits_isDigit width n _ hmem) (by decide)
  have hfraction : '\x85' ∉ t.fraction := by
    unfold fraction
    split
    · simp
    · simp [hdigits]
  simp [Text.ofString, iso, hdigits, hfraction]

end Timestamp

/-! ### Reports -/

namespace Report

theorem fields_isKeyed (r : Report) : (Document.mapping r.fields).IsKeyed := by
  obtain ⟨time, mappedNodes, tests, selection, tree⟩ := r
  have htree := tree.document_isKeyed
  have hkeys := isKey_names
  simp only [List.forall_mem_cons] at hkeys
  have hsummary : (Document.mapping ([("mapped_nodes", .count mappedNodes), ("tests", .count tests)] ++
      selectedFields selection)).IsKeyed := by
    refine .mapping ?_ ?_ ?_ <;> cases selection <;>
      simp [selectedFields, hkeys, Document.IsKeyed.count]
  have hselection : ∀ field ∈ selectionFields selection, field.2.IsKeyed := by
    cases selection with
    | none => simp [selectionFields]
    | some selection =>
      have hids : (Document.sequence (selection.ids.map .text)).IsKeyed :=
        .sequence (by simp [Document.IsKeyed.text])
      have hfields : (Document.mapping [("filter", .text selection.description),
          ("ids", .sequence (selection.ids.map .text))]).IsKeyed := by
        refine .mapping ?_ ?_ ?_ <;> simp [hkeys, hids, Document.IsKeyed.text]
      simpa [selectionFields] using hfields
  have hreport : (Document.mapping ([("generated_at", .text time.iso),
      ("summary", .mapping ([("mapped_nodes", .count mappedNodes), ("tests", .count tests)] ++
        selectedFields selection))] ++
          selectionFields selection ++ [("tree", tree.document)])).IsKeyed := by
    refine .mapping ?_ ?_ ?_
    · cases selection <;> simp [selectionFields]
    · cases selection <;> simp [selectionFields, hkeys]
    · intro field hfield
      simp only [List.mem_append, List.mem_cons, List.not_mem_nil, or_false] at hfield
      rcases hfield with ((rfl | rfl) | hmem) | rfl
      · exact .text _
      · exact hsummary
      · exact hselection field hmem
      · exact htree
  refine .mapping ?_ ?_ ?_ <;> simp [fields, hkeys]
  exact hreport

theorem textsOfItems_map_text (indent : Nat) (ts : List Text) :
    textsOfItems indent (ts.map .text) = ts.map (indent + 2, ·) := by
  induction ts with
  | nil => rfl
  | cons t ts ih =>
    rw [List.map_cons, textsOfItems, ih]
    rfl

theorem textsOfFields_fields (r : Report) :
    textsOfFields 0 r.fields = (4, (r.generatedAt.iso : Text)) ::
      (r.selection.toList.flatMap fun s => s.description :: s.ids).map (6, ·) ++
        textsAfter 2 false r.tree.document := by
  obtain ⟨time, mappedNodes, tests, selection, tree⟩ := r
  cases selection <;>
    simp [fields, selectedFields, selectionFields, textsOfFields, textsOfField, textsAfter,
      textsOfItems_map_text]

/-- What a report holds besides the time stamp and the names of the kinds is the selection and what the
entries show. -/
theorem carries_fields_iff (r : Report) :
    (∀ p ∈ textsOfFields 0 r.fields, Carries p.1 p.2) ↔
      (∀ s ∈ r.selection, ∀ t ∈ s.description :: s.ids, Carries 6 t) ∧
        ∀ q ∈ r.tree.levels 0, ∀ t ∈ q.2.texts, Carries (6 + 2 * q.1) t := by
  have hshallow : 4 < width := by decide
  have htime := carries_of_shallow hshallow r.generatedAt.not_mem_iso
  have htree : (∀ p ∈ textsAfter 2 false r.tree.document, Carries p.1 p.2) ↔
      ∀ q ∈ r.tree.levels 0, ∀ t ∈ q.2.texts, Carries (6 + 2 * q.1) t :=
    r.tree.carries_document_iff 0 false
  rw [textsOfFields_fields, List.forall_mem_append, List.forall_mem_cons, List.forall_mem_map, htree,
    and_iff_right htime]
  cases r.selection <;> simp

/-- A written report is read as what its texts carry, so it comes back as it was just if the selection
and everything that an entry shows of its node is carried in its place. -/
theorem read_yaml (r : Report) :
    Yaml.read r.yaml = some (.mapping (carriedFields 0 r.fields)) ∧
      (Yaml.read r.yaml = some (.mapping r.fields) ↔
        (∀ s ∈ r.selection, ∀ t ∈ s.description :: s.ids, Carries 6 t) ∧
          ∀ q ∈ r.tree.levels 0, ∀ t ∈ q.2.texts, Carries (6 + 2 * q.1) t) := by
  have hne : r.fields ≠ [] := by simp [fields]
  rw [← carries_fields_iff]
  exact ⟨read_write hne r.fields_isKeyed, read_write_eq_self_iff hne r.fields_isKeyed⟩

/-- Reports whose indentation leaves room on every line come back, if no text holds a next-line
character. -/
theorem read_yaml_shallow {r : Report} (hdepth : ∀ q ∈ r.tree.levels 0, q.1 < 37)
    (htexts : ∀ q ∈ r.tree.levels 0, ∀ t ∈ q.2.texts, .char '\x85' ∉ t)
    (hselection : ∀ s ∈ r.selection, ∀ t ∈ s.description :: s.ids, .char '\x85' ∉ t) :
    Yaml.read r.yaml = some (.mapping r.fields) := by
  have hne : r.fields ≠ [] := by simp [fields]
  rw [yaml, read_write_eq_self_iff hne r.fields_isKeyed, carries_fields_iff]
  refine ⟨fun s hs t ht => carries_of_shallow (by decide) (hselection s hs t ht), fun q hq t ht => ?_⟩
  have hwidth : 6 + 2 * q.1 < width := by
    have hq' := hdepth q hq
    show _ < 80
    omega
  exact carries_of_shallow hwidth (htexts q hq t ht)

/-- A text in the tree that is not carried where it is written changes the report. -/
theorem read_yaml_ne {r : Report} {depth : Nat} {t : Text}
    (ht : ((r.tree.levels 0).any fun q => q.1 = depth && q.2.texts.contains t) = true)
    (hcarries : ¬ Carries (6 + 2 * depth) t) : Yaml.read r.yaml ≠ some (.mapping r.fields) := by
  have hne : r.fields ≠ [] := by simp [fields]
  rw [yaml, Ne, read_write_eq_self_iff hne r.fields_isKeyed, carries_fields_iff]
  rintro ⟨-, hall⟩
  simp only [List.any_eq_true, Bool.and_eq_true, decide_eq_true_eq, List.contains_iff_mem] at ht
  obtain ⟨q, hq, rfl, hmem⟩ := ht
  exact hcarries (hall q hq t hmem)

end Report

/-! ### Reports that come back changed -/

namespace Session

/-- The report of the first view at a fixed time, with no selection. -/
def reportAfter (ops : List Op) : Option Report :=
  ((start .empty).run ops).views[0]?.map fun v =>
    v.report ((start .empty).run ops).nodes none ⟨2024, 1, 2, 3, 4, 5, 678901⟩

/-- A view whose name holds a next-line character. -/
def nextLine : List Op := [.openView [.char 'a', .char '\x85', .char 'b']]

/-- Containers below one another, down to the 37th, whose name has an escape in front of a space. -/
def nested : List Op :=
  (List.range 37).map (fun k => .add ⟨[.char (Char.ofNat (0x3B1 + k))],
    if k = 36 then [.char 'a', .char '\x07', .char ' ', .char 'b'] else [.char 'c'], .container, none,
    if k = 0 then .null else .string [.char (Char.ofNat (0x3B0 + k))]⟩) ++ [.openView [.char 'v']]

theorem reports_altered :
    (∃ r, reportAfter nextLine = some r ∧ Yaml.read r.yaml ≠ some (.mapping r.fields)) ∧
      ∃ r, reportAfter nested = some r ∧ Yaml.read r.yaml ≠ some (.mapping r.fields) := by
  have hname : (reportAfter nextLine).map (fun r => (r.tree.levels 0).any fun q =>
      q.1 = 0 && q.2.texts.contains [.char 'a', .char '\x85', .char 'b']) = some true := by
    decide +kernel
  have hdeep : (reportAfter nested).map (fun r => (r.tree.levels 0).any fun q =>
      q.1 = 37 && q.2.texts.contains [.char 'a', .char '\x07', .char ' ', .char 'b']) =
        some true := by
    decide +kernel
  obtain ⟨r, hr, hfirst⟩ := Option.map_eq_some_iff.mp hname
  obtain ⟨r', hr', hlast⟩ := Option.map_eq_some_iff.mp hdeep
  refine ⟨⟨r, hr, Report.read_yaml_ne hfirst ?_⟩, r', hr', Report.read_yaml_ne hlast ?_⟩
  · have hstyle : (Text.chars? [.char 'a', .char '\x85', .char 'b']).map styleOf = some .single := by
      decide
    simp [Carries, hstyle]
  · have hstyle : (Text.chars? [.char 'a', .char '\x07', .char ' ', .char 'b']).map styleOf =
        some .double := by
      decide
    simp only [Carries, hstyle]
    intro hcarries
    exact hcarries (by decide) (.char '\x07') rfl List.infix_rfl

end Session

end SuiteView
