import SuiteView.CommandLine.Run

/-!
# Runs on a stream

`run` takes standard output to accept every text. A stream of bytes in UTF-8 writes every character,
but it may refuse halves of surrogate pairs that stand alone, as an id of the manifest can hold them. A
line is printed as a whole or not at all: the first that holds a half which the stream refuses breaks
the run off. The lines before it stay, and the report is written only when all members are listed.
Standard error replaces what it cannot write, so a complaint is always printed. The stream stays open.
-/

namespace SuiteView.CommandLine

/-- Standard output in UTF-8, by the halves of surrogate pairs that it writes. -/
structure Stdout where
  writesHalf : Fin 0x800 → Bool

/-- Why a run on a stream breaks off. -/
inductive Interruption where
  | broken (cause : Breakdown)
  | unprintable (position : Nat) (halves : Text)
deriving DecidableEq, Repr

def Interruption.message : Interruption → Text
  | .broken cause => cause.message
  | .unprintable position halves => (FileError.unencodable position halves).message

namespace Stdout

/-- The stream that writes characters only. -/
def strict : Stdout := ⟨fun _ => false⟩

/-- The stream that writes every text. -/
def everyText : Stdout := ⟨fun _ => true⟩

def writes (out : Stdout) : CodePoint → Bool
  | .char _ => true
  | .surrogate offset => out.writesHalf offset

/-- Prints lines up to the first that the stream refuses. -/
def print (out : Stdout) : List Text → List Text × Except Interruption Unit
  | [] => ([], .ok ())
  | line :: rest =>
    match line.unwritten? out.writes 0 with
    | some (position, halves) => ([], .error (.unprintable position halves))
    | none =>
      let (printed, result) := print out rest
      (line :: printed, result)

end Stdout

/-- What a run leaves behind on a stream. -/
structure StreamRun where
  status : Except Interruption Nat
  stdout : Text
  stderr : Text
  files : FileTree

/-- A run whose standard output was written. -/
def Run.onStream (r : Run) : StreamRun where
  status := r.status.mapError .broken
  stdout := r.stdout
  stderr := r.stderr
  files := r.files

/-- What a run lists, with its settings and its view, if it comes so far. -/
def toList? (files : FileTree) (o : Options) : Option (Settings × Bridge × Listing) :=
  match prepare files o with
  | .error _ => none
  | .ok (settings, b) =>
    match listed b o with
    | .error _ => none
    | .ok l => some (settings, b, l)

def Listing.lines (l : Listing) (b : Bridge) : List Text := l.header ++ l.members.map (memberLine b)

/-- Lists and then writes the report. Members are listed or a warning is given, never both, so a line
that is refused leaves standard error empty. -/
def tell (out : Stdout) (files : FileTree) (o : Options) (settings : Settings) (b : Bridge)
    (l : Listing) (time : Timestamp) : StreamRun :=
  match out.print (l.lines b) with
  | (printed, .error cause) => ⟨.error cause, lines printed, "", files⟩
  | (printed, .ok ()) =>
    let (status, written, files) := finish files o settings b l time
    let (named, result) := out.print written
    ⟨result.bind fun _ => status.mapError .broken, lines (printed ++ named), lines l.warnings, files⟩

def runOptionsOn (out : Stdout) (files : FileTree) (o : Options) (time : Timestamp) : StreamRun :=
  match toList? files o with
  | none => (runOptions files o time).onStream
  | some (settings, b, l) => tell out files o settings b l time

/-- The run of arguments on a stream. Where the arguments stop it, it prints characters only. -/
def runOn (out : Stdout) (files : FileTree) (arguments : List String) (time : Timestamp) : StreamRun :=
  match Options.parse arguments with
  | .error _ => (run files arguments time).onStream
  | .ok o => runOptionsOn out files o time

end SuiteView.CommandLine
