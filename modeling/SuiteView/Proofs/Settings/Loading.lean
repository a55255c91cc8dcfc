import SuiteView.Proofs.Json.Numbers
import SuiteView.Proofs.Json.Reads
import SuiteView.Proofs.Text.Utf8
import SuiteView.Settings

/-!
# Opening a settings file

Whatever bytes a file holds, opening it ends in one of three ways. Bytes that are no text and texts in
which an integer of too many digits is met are refused; a text that is a JSON object overrides the
defaults field by field; every other text counts as empty.
-/

namespace SuiteView

/-- The bytes are the encoding of a text that is this document once its line ends are normalised. -/
def IsTextOf (content : List UInt8) (document : List Char) : Prop :=
  ∃ s : String, content = Text.encode s ∧ document = Text.normalizeNewlines s.toList

variable {content : List UInt8} {document : List Char}

theorem IsTextOf.unique {other : List Char} (h : IsTextOf content document)
    (hother : IsTextOf content other) : document = other := by
  obtain ⟨s, rfl, rfl⟩ := h
  obtain ⟨s', hs', rfl⟩ := hother
  have hsame : s.toList = s'.toList := by
    have hdecode := Text.decode_encode s
    rw [hs', Text.decode_encode s'] at hdecode
    exact (Except.ok.inj hdecode).symm
  rw [hsame]

theorem documentValue_of_text (h : IsTextOf content document) :
    documentValue content = (Json.read document).mapError (.unreadable document) := by
  obtain ⟨s, rfl, rfl⟩ := h
  unfold documentValue
  rw [Text.decode_encode]
  cases h : Json.read (Text.normalizeNewlines s.toList) <;> simp [h, Except.mapError]

theorem documentValue_of_noText (h : ¬ ∃ document, IsTextOf content document) :
    ∃ cause, documentValue content = .error (.undecodable cause) := by
  unfold documentValue
  cases hdecode : Text.decode content with
  | error cause => exact ⟨cause, rfl⟩
  | ok cs =>
    refine absurd ⟨Text.normalizeNewlines cs, String.ofList cs, ?_, ?_⟩ h
    · exact (Text.decode_ok_iff _ _).mp hdecode
    · rw [String.toList_ofList]

namespace Settings

/-- The defaults overridden field by field: their names keep their places, and the others follow. -/
structure Overrides (s : Settings) (fields : Table Value) : Prop where
  names : s.fields.keys =
    defaults.fields.keys ++ fields.keys.filter (· ∉ defaults.fields.keys)
  value : ∀ name, s.fields.get? name = (fields.get? name).or (defaults.fields.get? name)

theorem ofFields_overrides {fields : Table Value} (h : fields.keys.Nodup) :
    (ofFields fields).Overrides fields where
  names := Table.keys_foldl_put defaults.fields h
  value := Table.get?_foldl_put defaults.fields h

/-- What opening a settings file with these bytes comes to. -/
structure OpensAs (content : List UInt8) (outcome : Except SettingsError Settings) : Prop where
  refused : (∃ cause, outcome = .error cause) ↔ (¬ ∃ document, IsTextOf content document) ∨
    ∃ document digits, IsTextOf content document ∧
      Json.read document = .error (.integerTooLong digits)
  tooLong : ∀ document digits, IsTextOf content document →
    Json.read document = .error (.integerTooLong digits) → Json.HasLongRun document
  opened : ∀ s, outcome = .ok s → ∃ document, IsTextOf content document ∧
    ((∃ fields, Json.read document = .ok (.object fields) ∧ s.Overrides fields) ∨
      ((∀ fields, Json.read document ≠ .ok (.object fields)) ∧ s = defaults))

theorem load_eq {t : FileTree} {p : Path} {place : Place} (hplace : t.locate p = .ok place)
    (hfile : t.item? place = some (.file content)) :
    load t (some p) = ofDocument (documentValue content) := by
  have hholds : t.holds p = .ok true := by simp [FileTree.holds, hplace, hfile]
  have hread : t.read p = .ok content := by simp [FileTree.read, hplace, hfile]
  simp only [load, loadFrom, hholds, FileTree.readDocument, hread]

theorem opensAs_of_noText (h : ¬ ∃ document, IsTextOf content document) :
    OpensAs content (ofDocument (documentValue content)) := by
  obtain ⟨cause, hcause⟩ := documentValue_of_noText h
  rw [hcause]
  refine ⟨⟨fun _ => .inl h, fun _ => ⟨_, rfl⟩⟩, fun document digits htext _ => ?_, fun s hs => ?_⟩
  · exact absurd ⟨document, htext⟩ h
  · cases hs

theorem opensAs_of_text (h : IsTextOf content document) :
    OpensAs content (ofDocument (documentValue content)) := by
  have htext : ∃ document, IsTextOf content document := ⟨document, h⟩
  -- it is refused just when its own document is
  have hrefused : ((¬ ∃ document, IsTextOf content document) ∨
      ∃ document digits, IsTextOf content document ∧
        Json.read document = .error (.integerTooLong digits)) ↔
      ∃ digits, Json.read document = .error (.integerTooLong digits) := by
    constructor
    · intro hcases
      rcases hcases with hno | ⟨other, digits, hother, hread⟩
      · exact absurd htext hno
      · rw [h.unique hother]
        exact ⟨digits, hread⟩
    · intro hread
      obtain ⟨digits, hread⟩ := hread
      exact .inr ⟨document, digits, h, hread⟩
  have hlong : ∀ other digits, IsTextOf content other →
      Json.read other = .error (.integerTooLong digits) → Json.HasLongRun other :=
    fun other digits _ hread => Json.hasLongRun_of_read hread
  rw [documentValue_of_text h]
  refine ⟨Iff.trans ?_ hrefused.symm, hlong, fun s hs => ⟨document, h, ?_⟩⟩
  · cases hread : Json.read document with
    | ok v => simp [Except.mapError, ofDocument]
    | error cause =>
      cases cause with
      | malformed fault position => simp [Except.mapError, ofDocument]
      | integerTooLong digits => simp [Except.mapError, ofDocument]
  · cases hread : Json.read document with
    | error cause =>
      refine .inr ⟨fun fields hfields => (by cases hfields), ?_⟩
      cases cause with
      | malformed fault position =>
        rw [hread] at hs
        exact (Except.ok.inj hs).symm
      | integerTooLong digits =>
        rw [hread] at hs
        cases hs
    | ok v =>
      rw [hread] at hs
      obtain rfl := Except.ok.inj hs
      cases v with
      | object fields =>
        have hjson := Json.read_isJson hread
        cases hjson with
        | object hnames _ _ => exact .inl ⟨fields, rfl, ofFields_overrides hnames⟩
      | _ => exact .inr ⟨fun fields hfields => (by cases hfields), rfl⟩

theorem load_file {t : FileTree} {p : Path} {place : Place} (hplace : t.locate p = .ok place)
    (hfile : t.item? place = some (.file content)) : OpensAs content (load t (some p)) := by
  rw [load_eq hplace hfile]
  by_cases h : ∃ document, IsTextOf content document
  · obtain ⟨document, h⟩ := h
    exact opensAs_of_text h
  · exact opensAs_of_noText h

/-! ### Files that are refused -/

/-- One file with a name of one letter. -/
def lone (content : List UInt8) : FileTree := ⟨[([], .directory), ([[99]], .file content)], []⟩

theorem lone_locate (content : List UInt8) : (lone content).locate (.ofText "c") = .ok [[99]] := by
  with_unfolding_all rfl

/- The text of the file is `{"a":"b"}`. -/
def oneFieldText : List UInt8 := [123, 34, 97, 34, 58, 34, 98, 34, 125]

def oneField : Settings := ofFields [(Text.ofString "a", .string (Text.ofString "b"))]

theorem lone_oneField : load (lone oneFieldText) (some (.ofText "c")) = .ok oneField := by
  with_unfolding_all rfl

theorem oneField_load : (lone oneFieldText).locate (.ofText "c") = .ok [[99]] ∧
    (lone oneFieldText).item? [[99]] = some (.file oneFieldText) ∧
    OpensAs oneFieldText (load (lone oneFieldText) (some (.ofText "c"))) ∧
    ∃ s, load (lone oneFieldText) (some (.ofText "c")) = .ok s ∧
      s.fields.keys = [rootLabelField, replayField, reportFileField, Text.ofString "a"] :=
  ⟨lone_locate _, rfl, load_file (lone_locate _) rfl, _, lone_oneField, rfl⟩

/-- A document of digits alone is an integer, and refused when it has too many of them. -/
theorem read_digits {digits : List Char} (h : Json.IsWhole digits)
    (hlong : Json.maxIntegerDigits < digits.length) :
    Json.read digits = .error (.integerTooLong (some digits.length)) := by
  obtain ⟨d, ds, hcons⟩ := List.exists_cons_of_ne_nil h.nonempty
  have hd := h.digits d (hcons ▸ List.mem_cons_self ..)
  have hskip : Json.Cursor.skipBlanks ⟨0, digits⟩ = ⟨0, digits⟩ := by
    have hblank : Json.isBlank d = false := by
      by_contra hb
      simp only [Bool.not_eq_false, Json.isBlank, Bool.or_eq_true, decide_eq_true_eq] at hb
      rcases hb with ((rfl | rfl) | rfl) | rfl <;> exact absurd hd (by decide)
    simp [Json.Cursor.skipBlanks, hcons, hblank]
  have hmark : digits.head? ≠ some '\uFEFF' := by
    intro hhead
    rw [hcons, List.head?_cons, Option.some.injEq] at hhead
    rw [hhead] at hd
    exact absurd hd (by decide)
  have hstops : Json.Stops [] := fun c hc => by cases hc
  obtain ⟨q, hnumber⟩ := Json.readNumber?_digits false 0 h hstops
  rw [if_pos hlong] at hnumber
  have hvalue : Json.readValue (2 * digits.length + 2) ⟨0, digits⟩ =
      .error (.integerTooLong (some digits.length)) := by
    have hread := Json.readValue_number (2 * digits.length + 1) false 0 h [] hnumber
    simpa only [Json.signText, Bool.false_eq_true, if_false, List.nil_append, List.append_nil]
      using hread
  unfold Json.read
  rw [if_neg hmark, hskip]
  simp only [hvalue, bind, Except.bind]

theorem ones_refused {n : Nat} (h : Json.maxIntegerDigits < n) :
    ∃ cause, load (lone (List.replicate n 49)) (some (.ofText "c")) = .error cause := by
  have hones : ∀ d ∈ List.replicate n '1', d = '1' := fun d hd => (List.mem_replicate.mp hd).2
  have htext : IsTextOf (List.replicate n 49) (List.replicate n '1') := by
    refine ⟨String.ofList (List.replicate n '1'), ?_, ?_⟩
    · rw [Text.encode_ofList]
      clear h hones
      induction n with
      | zero => rfl
      | succ n ih =>
        rw [List.replicate_succ, List.replicate_succ, List.flatMap_cons, ← ih]
        rfl
    · rw [String.toList_ofList, Text.normalizeNewlines_eq_self]
      intro hreturn
      exact absurd (hones _ hreturn) (by decide)
  have hwhole : Json.IsWhole (List.replicate n '1') := by
    refine ⟨fun d hd => ?_, ?_, fun hzero => ?_⟩
    · rw [hones d hd]
      rfl
    · rw [Ne, List.replicate_eq_nil_iff]
      omega
    · exact absurd (hones _ (List.mem_of_mem_head? hzero)) (by decide)
  have hread := read_digits hwhole (by rwa [List.length_replicate])
  have hfile : (lone (List.replicate n 49)).item? [[99]] = some (.file (List.replicate n 49)) := rfl
  rw [load_eq (lone_locate _) hfile, documentValue_of_text htext, hread]
  exact ⟨_, rfl⟩

theorem lone_refused : (∃ cause, load (lone [0xFF]) (some (.ofText "c")) = .error cause) ∧
    ∃ cause, load (lone (List.replicate 4301 49)) (some (.ofText "c")) = .error cause := by
  constructor
  · have hfile : (lone [0xFF]).item? [[99]] = some (.file [0xFF]) := rfl
    rw [load_eq (lone_locate _) hfile]
    exact ⟨_, rfl⟩
  · exact ones_refused (by decide)

end Settings

end SuiteView
