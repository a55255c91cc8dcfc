import SuiteView.Files.Document
import SuiteView.Json.Cut

/-!
# Settings

Settings are the fields of a JSON object: the label of the root, whether late entries are replayed,
the file of the report, and any further fields, which are kept as they are. A settings file overrides
the defaults field by field. A file that is missing, that cannot be opened, or that holds no JSON
object counts as empty; bytes that are no text and integers that are too long are refused, and such an
integer is not saved either. Fields may be nested to any depth when they are read, copied or saved, as
recursion is taken to be unbounded.
-/

namespace SuiteView

/-- The fields of the settings, in order. -/
structure Settings where
  fields : Table Value
deriving DecidableEq, Repr

/-- Why settings cannot be used. -/
inductive SettingsError where
  | document (cause : DocumentError)
  | reportFileNotPath (got : Value)
  | noPath
  | file (cause : FileError)
deriving DecidableEq, Repr

def SettingsError.message : SettingsError → String
  | .document cause => cause.message
  | .reportFileNotPath got =>
    "expected str, bytes or os.PathLike object, not " ++ got.typeName
  | .noPath => "No config file path specified"
  | .file cause => cause.message

namespace Settings

/-! ### Fields -/

def rootLabelField : Text := "root_label"

def replayField : Text := "replay_dynamic"

def reportFileField : Text := "report_file"

def defaultRootLabel : Text := "planbridge"

def defaults : Settings :=
  ⟨[(rootLabelField, .string defaultRootLabel), (replayField, .bool true),
    (reportFileField, .null)]⟩

def ofFields (fields : Table Value) : Settings :=
  ⟨fields.foldl (fun t field => t.put field.1 field.2) defaults.fields⟩

/-- The settings that a value holds; what is no object counts as empty. -/
def ofValue : Value → Settings
  | .object fields => ofFields fields
  | _ => defaults

def get (s : Settings) (name : Text) : Value := (s.fields.get? name).getD .null

/-- The label of the root; a value that counts as false gives the default. -/
def rootLabel (s : Settings) : Text :=
  let label := s.get rootLabelField
  if label.truthy then label.text else defaultRootLabel

def replaysLateEntries (s : Settings) : Bool :=
  ((s.fields.get? replayField).getD (.bool true)).truthy

/-- The file of the report; a value that counts as false names none. -/
def reportFile (s : Settings) : Except SettingsError (Option Path) :=
  match s.get reportFileField with
  | .string text => .ok (if text.isEmpty then none else some (.ofText text))
  | v => if v.truthy then .error (.reportFileNotPath v) else .ok none

def set (s : Settings) (name : Text) (v : Value) : Settings :=
  if v = .null then s else ⟨s.fields.put name v⟩

/-! ### Files -/

def ofDocument : Except DocumentError Value → Except SettingsError Settings
  | .ok v => .ok (ofValue v)
  | .error (.file (.fault _ _)) | .error (.unreadable _ (.malformed _ _)) => .ok defaults
  | .error cause => .error (.document cause)

def loadFrom (t : FileTree) (p : Path) : Except SettingsError Settings :=
  match t.holds p with
  | .error cause => .error (.file cause)
  | .ok false => .ok defaults
  | .ok true => ofDocument (t.readDocument p)

def load (t : FileTree) : Option Path → Except SettingsError Settings
  | none => .ok defaults
  | some p => loadFrom t p

def fileText (s : Settings) : String := Json.write (.object s.fields) ++ "\n"

/-- Writes the settings. The file keeps what was written before an integer of too many digits. -/
def save (s : Settings) (t : FileTree) : Option Path → FileTree × Except SettingsError Unit
  | none => (t, .error .noPath)
  | some p =>
    match Json.cutAt 0 (.object s.fields) with
    | none => (t.writeText p s.fileText).map id (·.mapError .file)
    | some written =>
      match t.writeText p (String.ofList written) with
      | (t, .ok ()) => (t, .error (.document (.unreadable written (.integerTooLong none))))
      | (t, .error cause) => (t, .error (.file cause))

end Settings

end SuiteView
