import SuiteView.Files.Tree
import SuiteView.Json.Reader

/-!
# JSON documents in files

A document is read from a file in three steps, each of which can fail: the bytes of the file, their
text in UTF-8 with line ends normalised, and the value that the text spells.
-/

namespace SuiteView

/-- Why a file gives no JSON value. A fault of the text is kept with the text, for its position. -/
inductive DocumentError where
  | file (cause : FileError)
  | undecodable (cause : Text.Utf8Fault)
  | unreadable (document : List Char) (cause : Json.ReadError)
deriving DecidableEq, Repr

def DocumentError.message : DocumentError → String
  | .file cause => cause.message
  | .undecodable cause => cause.message
  | .unreadable document cause => cause.message document

def documentValue (content : List UInt8) : Except DocumentError Value :=
  match Text.decode content with
  | .error cause => .error (.undecodable cause)
  | .ok cs =>
    let document := Text.normalizeNewlines cs
    match Json.read document with
    | .error cause => .error (.unreadable document cause)
    | .ok v => .ok v

def FileTree.readDocument (t : FileTree) (p : Path) : Except DocumentError Value :=
  match t.read p with
  | .error cause => .error (.file cause)
  | .ok content => documentValue content

end SuiteView
