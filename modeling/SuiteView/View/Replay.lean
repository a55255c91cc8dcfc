import SuiteView.Manifest.Basic
import SuiteView.View.Basic

/-!
# Replaying late entries

The late entries of a manifest are inserted one after the other. The first entry that is refused,
by the reader or by the view, ends the replay; what was inserted before it stays.
-/

namespace SuiteView.Bridge

/-- Why a replay ends early. -/
inductive ReplayError where
  | manifest (cause : Manifest.Error)
  | insert (cause : InsertError)
deriving DecidableEq, Repr

def ReplayError.message : ReplayError → Text
  | .manifest cause => cause.message
  | .insert cause => cause.message

def replay (b : Bridge) :
    List (Except Manifest.Error (Identifier × Text)) → Bridge × Except ReplayError Unit
  | [] => (b, .ok ())
  | .error cause :: _ => (b, .error (.manifest cause))
  | .ok (i, parent) :: rest =>
    match b.insert i parent with
    | (b, .error cause) => (b, .error (.insert cause))
    | (b, .ok _) => replay b rest

end SuiteView.Bridge
