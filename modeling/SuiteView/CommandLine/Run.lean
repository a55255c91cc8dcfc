import SuiteView.CommandLine.Options
import SuiteView.Filter.Basic
import SuiteView.Manifest.Load
import SuiteView.Report.Basic
import SuiteView.Settings
import SuiteView.View.Replay

/-!
# Runs

A run loads the settings and the manifest, builds the plan and its view, replays the late entries,
lists the tests or what the filters select, and writes a report where one is asked for. It is a
function of the files, the arguments and the time. A manifest that is at fault is refused: the run
prints one line of complaint and ends with code 1 before anything is listed or written. Other faults
break the run off; what was printed until then stays.

Standard output is taken to accept every text here; `runOn` is the run on a stream that may refuse one.
Recursion is taken to be unbounded: a limit that a machine sets to the depth of its stack is left out,
so manifests, plans and settings may be nested to any depth.
-/

namespace SuiteView.CommandLine

/-! ### Endings -/

/-- Why a run ends with code 1. -/
inductive Refusal where
  | manifest (path : Path) (cause : Manifest.LoadError)
  | plan (cause : Manifest.Error)
  | lateEntry (cause : Bridge.ReplayError)
deriving DecidableEq, Repr

def Refusal.message : Refusal → Text
  | .manifest path (.document (.file (.fault .notFound _))) =>
    "Error: Plan manifest not found: " ++ path.text
  | .manifest path (.document (.file (.fault cause p))) =>
    "Error: Cannot read plan manifest " ++ path.text ++ ": " ++ (FileError.fault cause p).message
  | .manifest _ (.document (.unreadable document (.malformed fault position))) =>
    "Error: Invalid JSON in plan manifest: " ++
      (Json.ReadError.malformed fault position).message document
  | .manifest _ cause => "Error: " ++ cause.message
  | .plan cause => "Error building plan: " ++ cause.message
  | .lateEntry cause => "Error inserting dynamic test: " ++ cause.message

/-- Why a run breaks off. -/
inductive Breakdown where
  | noPath (action : String)
  | settings (cause : SettingsError)
  | plan (cause : PlanError)
  | naming (cause : NamingError)
  | noPattern
  | report (cause : FileError)
deriving DecidableEq, Repr

def nothing : Value := .list []

def Breakdown.message : Breakdown → Text
  | .noPath action =>
    "'" ++ nothing.typeName ++ "' object has no attribute '" ++ action ++ "'"
  | .noPattern => nothing.unusableKeyMessage
  | .settings cause => cause.message
  | .plan cause => cause.message
  | .naming cause => cause.message
  | .report cause => cause.message

/-- How a run ends early. -/
inductive Ending where
  | refused (cause : Refusal)
  | broken (cause : Breakdown)
deriving DecidableEq, Repr

/-- A parent that cannot be looked up breaks the run off; every other fault of the plan is refused. -/
def planEnding : Manifest.Error → Ending
  | .plan (.unusableParent parent id) => .broken (.plan (.unusableParent parent id))
  | cause => .refused (.plan cause)

/-- A late member that cannot be looked up or named breaks the run off; every other fault of a late
entry is refused. -/
def lateEnding : Bridge.ReplayError → Ending
  | .insert (.plan (.unusableParent parent id)) => .broken (.plan (.unusableParent parent id))
  | .insert (.naming cause) => .broken (.naming cause)
  | cause => .refused (.lateEntry cause)

/-! ### Preparing -/

/-- The label of the root: the option, unless it is empty or nothing, else the setting. -/
def rootLabel (o : Options) (settings : Settings) : Text :=
  match o.rootLabel with
  | some (.value label) => if label.isEmpty then settings.rootLabel else label
  | _ => settings.rootLabel

def settingsOf (files : FileTree) (o : Options) : Except Breakdown Settings :=
  match o.configFile with
  | some .nothing => .error (.noPath "exists")
  | some (.value path) => (Settings.load files (some path)).mapError .settings
  | none => (Settings.load files none).mapError .settings

def manifestOf (files : FileTree) (o : Options) : Except Ending Manifest :=
  match o.plan with
  | .nothing => .error (.broken (.noPath "read_text"))
  | .value path => (Manifest.load files path).mapError fun cause => .refused (.manifest path cause)

/-- The view of a manifest, with the late entries if they are to be replayed. -/
def prepareView (m : Manifest) (label : Text) (replays : Bool) : Except Ending Bridge :=
  match m.plan with
  | .error cause => .error (planEnding cause)
  | .ok plan =>
    match Bridge.create plan .empty label with
    | .error cause => .error (.broken (.naming cause))
    | .ok b =>
      if replays then
        match b.replay m.lateEntries with
        | (_, .error cause) => .error (lateEnding cause)
        | (b, .ok _) => .ok b
      else .ok b

def prepare (files : FileTree) (o : Options) : Except Ending (Settings × Bridge) := do
  let settings ← (settingsOf files o).mapError .broken
  let m ← manifestOf files o
  let b ← prepareView m (rootLabel o settings) (settings.replaysLateEntries && !o.noDynamic)
  return (settings, b)

/-! ### Filter options -/

/-- What a filter option asks for. A pattern that is nothing matches nothing, and a name that comes to
be compared with it breaks the run off. -/
inductive Criterion where
  | filter (filter : Filter)
  | groupNothing
  | caseNothing
deriving Repr

namespace Criterion

def ofGroup : Operand Text → Criterion
  | .value pattern => .filter (.group pattern)
  | .nothing => .groupNothing

def ofCase : Operand Text → Criterion
  | .value pattern => .filter (.caseName pattern)
  | .nothing => .caseNothing

def toFilter : Criterion → Filter
  | .filter f => f
  | .groupNothing => .constant ("group matches " ++ nothing.text) false
  | .caseNothing => .constant ("case matches " ++ nothing.text) false

def breaksOn (s : NodeStore) (n : NodeId) : Criterion → Bool
  | .filter _ => false
  | .groupNothing => true
  | .caseNothing => s.isTest n

end Criterion

/-- Whether a list of criteria, decided from left to right as long as they hold, breaks on a node. -/
def breaksOn (s : NodeStore) (n : NodeId) : List Criterion → Bool
  | [] => false
  | c :: rest => c.breaksOn s n || (c.toFilter.holds s n && breaksOn s n rest)

def Options.criteria (o : Options) : List Criterion :=
  o.groups.map .ofGroup ++ o.cases.map .ofCase ++
    (if o.ids.isEmpty then [] else [.filter (.ids (o.ids.filterMap Operand.value?))])

/-- The filter that the options ask for; none without filter options. -/
def Options.filter? (o : Options) : Option Filter :=
  if o.criteria.isEmpty then none else some (.all (o.criteria.map Criterion.toFilter))

/-! ### Listing -/

/-- What a run lists: all tests of the plan, or what a filter selects. -/
structure Listing where
  filter : Option Filter
  members : List Identifier
deriving Repr

def listing (b : Bridge) (filter : Option Filter) : Listing where
  filter := filter
  members :=
    match filter with
    | none => b.plan.toList.filter Identifier.isTest
    | some filter => b.view.leaves b.plan fun n => filter.holds b.nodes n

namespace Listing

/-- The selection that the report marks; none without a filter. -/
def selection (l : Listing) : Option Selection :=
  l.filter.map fun filter => ⟨l.members.map (·.uniqueId), filter.describe⟩

def header (l : Listing) : List Text :=
  let count := toString l.members.length
  match l.filter with
  | none => ["Tests in plan: " ++ count]
  | some filter => ["Filter: " ++ filter.describe, "Selected leaves: " ++ count]

def warnings (l : Listing) : List Text :=
  if l.filter.isSome && l.members.isEmpty then ["Warning: filter matched no nodes"] else []

end Listing

/-- The listing that the options ask for. An id that is nothing breaks the run off, and so does a
criterion that breaks on a mapped node. -/
def listed (b : Bridge) (o : Options) : Except Breakdown Listing :=
  if o.ids.contains .nothing then .error .noPattern
  else if b.view.mapped.any fun entry => breaksOn b.nodes entry.2 o.criteria then .error .noPattern
  else .ok (listing b o.filter?)

/-- The line of a member: its kind, the name that its node shows, and its id. -/
def memberLine (b : Bridge) (i : Identifier) : Text :=
  let name := (((b.view.nodeFor? i.uniqueId).bind b.nodes.get?).map (·.label.display)).getD
    i.displayName
  "  [" ++ i.kind.name ++ "] " ++ name ++ "  (" ++ i.uniqueId ++ ")"

/-! ### Runs -/

/-- What a run leaves behind: its exit code or what broke it off, what it printed, and the files. -/
structure Run where
  status : Except Breakdown Nat
  stdout : Text
  stderr : Text
  files : FileTree

def lines (ls : List Text) : Text := ls.flatMap (· ++ "\n")

/-- The file of the report: the option, unless it is nothing, else the setting. -/
def reportPath (o : Options) (settings : Settings) : Except SettingsError (Option Path) :=
  match o.output with
  | some (.value path) => .ok (some path)
  | _ => settings.reportFile

/-- The end of a run behind its listing: the report is written where one is asked for. -/
def finish (files : FileTree) (o : Options) (settings : Settings) (b : Bridge) (l : Listing)
    (time : Timestamp) : Except Breakdown Nat × List Text × FileTree :=
  match reportPath o settings with
  | .error cause => (.error (.settings cause), [], files)
  | .ok none => (.ok 0, [], files)
  | .ok (some path) =>
    match files.writeText path (b.view.report b.nodes l.selection time).yaml with
    | (files, .error cause) => (.error (.report cause), [], files)
    | (files, .ok ()) => (.ok 0, ["Report written to: " ++ path.text], files)

def runOptions (files : FileTree) (o : Options) (time : Timestamp) : Run :=
  match prepare files o with
  | .error (.refused cause) => ⟨.ok 1, "", lines [cause.message], files⟩
  | .error (.broken cause) => ⟨.error cause, "", "", files⟩
  | .ok (settings, b) =>
    match listed b o with
    | .error cause => ⟨.error cause, "", "", files⟩
    | .ok l =>
      let (status, written, files) := finish files o settings b l time
      ⟨status, lines (l.header ++ l.members.map (memberLine b) ++ written), lines l.warnings, files⟩

def run (files : FileTree) (arguments : List String) (time : Timestamp) : Run :=
  match Options.parse arguments with
  | .error stop => ⟨.ok stop.exitCode, stop.stdout, stop.stderr, files⟩
  | .ok o => runOptions files o time

end SuiteView.CommandLine
