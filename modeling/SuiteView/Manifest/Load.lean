import SuiteView.Files.Document
import SuiteView.Manifest.Basic

/-!
# Manifest files

A manifest file is a JSON document that holds an object.
-/

namespace SuiteView.Manifest

/-- Why a file gives no manifest. -/
inductive LoadError where
  | document (cause : DocumentError)
  | notObject (path : Path)
deriving DecidableEq, Repr

def LoadError.message : LoadError → Text
  | .document cause => cause.message
  | .notObject path => "Manifest " ++ path.text ++ " must contain a JSON object"

def load (t : FileTree) (p : Path) : Except LoadError Manifest :=
  match t.readDocument p with
  | .error cause => .error (.document cause)
  | .ok (.object fields) => .ok fields
  | .ok _ => .error (.notObject p)

end SuiteView.Manifest
