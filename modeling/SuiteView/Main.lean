import Std.Time.DateTime
import SuiteView.CommandLine.Stream

/-!
# The program

The program takes a snapshot of the files that its options name, runs on it, and writes to disk what
the run wrote to the snapshot. Everything between is the function `CommandLine.runOn`, on a stream that
writes characters only.
-/

namespace SuiteView.Program

/-- The text of a name; bytes that are no text are replaced. -/
def nameText (name : FileName) : Text :=
  match Text.decode name with
  | .ok cs => cs.map .char
  | .error _ => "\uFFFD"

def placeText (place : Place) : String := (Path.mk .top (place.map nameText)).text.asString

def itemOnDisk? (place : Place) : IO (Option Item) := do
  try
    let _ ← IO.FS.realPath (placeText place ++ "/.")
    return some .directory
  catch _ =>
    try
      let content ← IO.FS.readBinFile (placeText place)
      return some (.file content.toList)
    catch _ => return none

def placesAlong (place : Place) : List FileName → List Place
  | [] => [place]
  | name :: rest =>
    place :: placesAlong (if name = FileTree.upName then place.dropLast else place ++ [name]) rest

def look (t : FileTree) (p : Path) : IO FileTree :=
  (placesAlong (t.start p) (FileTree.placeOf p.parts)).foldlM (fun t place => do
    match ← itemOnDisk? place with
    | some item => return t.put place item
    | none => return t) t

/-- The tree with what stands on disk along the paths that the options name. -/
def snapshot (t : FileTree) (o : CommandLine.Options) : IO FileTree := do
  let named := [some o.plan, o.configFile, o.output].filterMap fun operand =>
    operand.bind CommandLine.Operand.value?
  let t ← named.foldlM look t
  match (Settings.load t (o.configFile.bind CommandLine.Operand.value?)).bind Settings.reportFile with
  | .ok (some path) => look t path
  | _ => return t

def now : IO Timestamp := do
  let t ← Std.Time.Timestamp.now
  let t := Std.Time.PlainDateTime.ofWallTime (t.toWallTime .zero)
  return {
    year := t.date.year.toInt.toNat
    month := t.date.month.val.toNat
    day := t.date.day.val.toNat
    hour := t.time.hour.val.toNat
    minute := t.time.minute.val.toNat
    second := t.time.second.val.toNat
    microsecond := t.time.nanosecond.val.toNat / 1000 }

def writeToDisk (file : Place × List UInt8) : IO Unit := do
  IO.FS.createDirAll (placeText file.1.dropLast)
  IO.FS.writeBinFile (placeText file.1) ⟨file.2.toArray⟩

end SuiteView.Program

open SuiteView in
def main (arguments : List String) : IO UInt32 := do
  let directory := Path.ofText (← IO.FS.realPath ".").toString
  let empty := FileTree.ofDirectory (FileTree.placeOf directory.parts)
  let files ← match CommandLine.Options.parse arguments with
    | .ok o => Program.snapshot empty o
    | .error _ => pure empty
  let r := CommandLine.runOn .strict files arguments (← Program.now)
  (r.files.writtenSince files).forM Program.writeToDisk
  IO.print r.stdout.asString
  IO.eprint r.stderr.asString
  match r.status with
  | .ok code => return code.toUInt32
  | .error cause =>
    IO.eprintln cause.message.asString
    return 1
