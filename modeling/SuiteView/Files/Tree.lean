import SuiteView.Files.Name
import SuiteView.Files.Path

/-!
# File trees

The files that a run sees are a tree of directories, files and sinks, which take everything and give
nothing. A place in the tree is the list of names that leads there from the top. Paths are followed
name by name: every name but the last must lead to a directory, and a name of two dots leads back.
A single operation either gives the tree that results or refuses for a cause; a change of several
operations stops at the first that refuses and keeps what was done before.
-/

namespace SuiteView

/-- What stands at a place. -/
inductive Item where
  | directory
  | file (content : List UInt8)
  | sink
deriving DecidableEq, Repr

/-- The names that lead to a place from the top. -/
abbrev Place := List FileName

/-- Items by place, and the place from which relative paths start. -/
structure FileTree where
  items : List (Place × Item)
  workingDirectory : Place
deriving DecidableEq, Repr

/-- Why an operation on files is refused. -/
inductive FileFault where
  | notFound
  | alreadyExists
  | notDirectory
  | isDirectory
  | nameTooLong
deriving DecidableEq, Repr

def FileFault.number : FileFault → Nat
  | .notFound => 2
  | .alreadyExists => 17
  | .notDirectory => 20
  | .isDirectory => 21
  | .nameTooLong => 36

def FileFault.text : FileFault → String
  | .notFound => "No such file or directory"
  | .alreadyExists => "File exists"
  | .notDirectory => "Not a directory"
  | .isDirectory => "Is a directory"
  | .nameTooLong => "File name too long"

/-- A fault of a path. A path with a zero character, or with something that has no bytes, is no path of
any file. -/
inductive FileError where
  | fault (cause : FileFault) (path : Path)
  | unencodable (position : Nat) (halves : Text)
  | zeroCharacter
deriving DecidableEq, Repr

/-- Where halves of surrogate pairs stand: a single one is named, several are given by their range. -/
def halvesPlace (position : Nat) (halves : Text) : String :=
  if halves.length = 1 then "character " ++ Text.quote halves ++ " in position " ++ toString position
  else
    "characters in position " ++ toString position ++ "-" ++
      toString (position + halves.length - 1)

def FileError.message : FileError → String
  | .fault cause path =>
    "[Errno " ++ toString cause.number ++ "] " ++ cause.text ++ ": " ++ Text.quote path.text
  | .unencodable position halves =>
    "'utf-8' codec can't encode " ++ halvesPlace position halves ++ ": surrogates not allowed"
  | .zeroCharacter => "embedded null byte"

namespace FileTree

/-! ### Places -/

def item? (t : FileTree) (place : Place) : Option Item := t.items.lookup place

def put (t : FileTree) (place : Place) (item : Item) : FileTree :=
  { t with items := (place, item) :: t.items.filter fun entry => entry.1 ≠ place }

def placeOf (names : List Text) : Place := names.map FileName.ofText

def ofDirectory (place : Place) : FileTree where
  items := (List.range (place.length + 1)).map (fun n => (place.take n, .directory)) ++
    [(placeOf ["dev"], .directory), (placeOf ["dev", "null"], .sink)]
  workingDirectory := place

/-! ### Following paths -/

def maxNameBytes : Nat := 255

def maxPathBytes : Nat := 4095

def upName : FileName := FileName.ofText ".."

/-- Follows names from a place. The place that is reached may be empty. -/
def walk (t : FileTree) (place : Place) : List FileName → Except FileFault Place
  | [] => .ok place
  | name :: rest =>
    match t.item? place with
    | some .directory =>
      if name = upName then walk t place.dropLast rest
      else if maxNameBytes < name.length then .error .nameTooLong
      else walk t (place ++ [name]) rest
    | some _ => .error .notDirectory
    | none => .error .notFound

def start (t : FileTree) (p : Path) : Place :=
  if p.anchor = .here then t.workingDirectory else []

def locate (t : FileTree) (p : Path) : Except FileError Place :=
  match FileName.unencodable? 0 p.text with
  | some (position, halves) => .error (.unencodable position halves)
  | none =>
    if p.text.contains (.char '\x00') then .error .zeroCharacter
    else if maxPathBytes < (FileName.ofText p.text).length then .error (.fault .nameTooLong p)
    else
      match t.walk (t.start p) (placeOf p.parts) with
      | .ok place => .ok place
      | .error fault => .error (.fault fault p)

/-! ### Asking and reading -/

/-- Whether a path leads to an item. A path that cannot be followed leads to none, but a name that
is too long is an error. -/
def holds (t : FileTree) (p : Path) : Except FileError Bool :=
  match t.locate p with
  | .ok place => .ok (t.item? place).isSome
  | .error (.fault .nameTooLong path) => .error (.fault .nameTooLong path)
  | .error _ => .ok false

def isDirectory (t : FileTree) (p : Path) : Bool :=
  match t.locate p with
  | .ok place => t.item? place = some .directory
  | .error _ => false

def read (t : FileTree) (p : Path) : Except FileError (List UInt8) :=
  match t.locate p with
  | .error cause => .error cause
  | .ok place =>
    match t.item? place with
    | none => .error (.fault .notFound p)
    | some .directory => .error (.fault .isDirectory p)
    | some (.file content) => .ok content
    | some .sink => .ok []

/-! ### Writing -/

/-- Writes a file whose directory is there, in the stead of what the file held. -/
def write (t : FileTree) (p : Path) (content : List UInt8) : Except FileError FileTree :=
  match t.locate p with
  | .error cause => .error cause
  | .ok place =>
    match t.item? place with
    | some .directory => .error (.fault .isDirectory p)
    | some .sink => .ok t
    | _ => .ok (t.put place (.file content))

def makeDirectory (t : FileTree) (p : Path) : Except FileError FileTree :=
  match t.locate p with
  | .error cause => .error cause
  | .ok place =>
    match t.item? place with
    | none => .ok (t.put place .directory)
    | some _ => .error (.fault .alreadyExists p)

/-- Makes a directory; one that is there already is as good. -/
def ensureDirectory (t : FileTree) (p : Path) : Except FileError FileTree :=
  match t.makeDirectory p with
  | .ok t => .ok t
  | .error cause => if t.isDirectory p then .ok t else .error cause

/-- What a change of several steps leaves: the tree, also with what was done before a step failed. -/
abbrev Change := FileTree × Except FileError Unit

def step (t : FileTree) : Except FileError FileTree → Change
  | .ok changed => (changed, .ok ())
  | .error cause => (t, .error cause)

/-- Makes a directory and at most `depth` missing directories above it, the upper ones first. -/
def ensureDirectoriesUpTo (t : FileTree) : (depth : Nat) → Path → Change
  | 0, p => t.step (t.ensureDirectory p)
  | depth + 1, p =>
    match t.makeDirectory p with
    | .error (.fault .notFound path) =>
      if p.parts.isEmpty then (t, .error (.fault .notFound path))
      else
        match ensureDirectoriesUpTo t depth p.parent with
        | (t, .ok ()) => t.step (t.ensureDirectory p)
        | (t, .error cause) => (t, .error cause)
    | _ => t.step (t.ensureDirectory p)

def ensureDirectories (t : FileTree) (p : Path) : Change :=
  t.ensureDirectoriesUpTo p.parts.length p

def writeText (t : FileTree) (p : Path) (text : String) : Change :=
  match t.ensureDirectories p.parent with
  | (t, .ok ()) => t.step (t.write p (Text.encode text))
  | (t, .error cause) => (t, .error cause)

/-! ### Comparing -/

def writtenSince (t earlier : FileTree) : List (Place × List UInt8) :=
  t.items.filterMap fun (place, item) =>
    match item with
    | .file content => if earlier.item? place = some item then none else some (place, content)
    | _ => none

def namesBelow? (t : FileTree) (place : Place) : Option Place :=
  if t.workingDirectory.isPrefixOf place then some (place.drop t.workingDirectory.length) else none

/-! ### Reading after writing -/

theorem lookup_filter_ne (items : List (Place × Item)) {place other : Place} (h : other ≠ place) :
    (items.filter fun entry => entry.1 ≠ place).lookup other = items.lookup other := by
  induction items with
  | nil => rfl
  | cons entry rest ih =>
    obtain ⟨k, v⟩ := entry
    by_cases hk : k = place
    · subst hk
      have : (other == k) = false := by simpa using h
      simpa [List.lookup_cons, this] using ih
    · by_cases ho : other = k
      · subst ho
        simp [hk]
      · have : (other == k) = false := by simpa using ho
        simpa [hk, List.lookup_cons, this] using ih

theorem item?_put_self (t : FileTree) (place : Place) (item : Item) :
    (t.put place item).item? place = some item := by
  simp [put, item?]

theorem item?_put_of_ne (t : FileTree) {place other : Place} (item : Item) (h : other ≠ place) :
    (t.put place item).item? other = t.item? other := by
  have : (other == place) = false := by simpa using h
  simpa [put, item?, List.lookup_cons, this] using lookup_filter_ne t.items h

end FileTree

end SuiteView
