import SuiteView.Manifest.Entry
import SuiteView.Plan.Basic

/-!
# Manifests

A manifest is an object with two lists. Under `plan` stand nested entries, which become the forest of
the plan in pre-order; under `dynamic` stand flat entries, each naming the parent under which it
appears later. Both are read as the list of what each entry gives, in document order, so the first
fault in that list is the one that counts. The children of an entry that is refused are not read.
-/

namespace SuiteView

/-- A manifest: the fields of a JSON object. -/
abbrev Manifest := Table Value

namespace Manifest

/-- Why a manifest is refused. -/
inductive Error where
  | planNotList (got : Value)
  | entry (cause : EntryError)
  | plan (cause : PlanError)
  | dynamicNotList (got : Value)
  | dynamicNotObject (got : Value)
  | dynamicWithoutParent (uniqueId : Value)
  | dynamicParentNotString (entry : Value)
deriving DecidableEq, Repr

def Error.message : Error → Text
  | .planNotList got => "Manifest 'plan' must be a list, got " ++ got.literal
  | .entry cause => cause.message
  | .plan cause => cause.message
  | .dynamicNotList got => "Manifest 'dynamic' must be a list, got " ++ got.literal
  | .dynamicNotObject got => "Dynamic entry must be an object, got " ++ got.literal
  | .dynamicWithoutParent id => "Dynamic entry " ++ id.text ++ " is missing 'parent_id'"
  | .dynamicParentNotString got => "Dynamic entry parent_id must be a string: " ++ got.literal

/-! ### Nested entries -/

mutual

/-- What the entries of a list and everything below them give, in pre-order. -/
def readEntries (enclosing : Value) : List Value → List (Except EntryError Identifier)
  | [] => []
  | entry :: rest => readEntry enclosing entry ++ readEntries enclosing rest
termination_by structural entries => entries

def readEntry (enclosing : Value) : Value → List (Except EntryError Identifier)
  | .object fields =>
    match parseEntry (.object fields) enclosing with
    | .error cause => [.error cause]
    | .ok i => .ok i :: readChildren i.uniqueId fields
  | got => [parseEntry got enclosing]
termination_by structural entry => entry

def readChildren (uniqueId : Text) :
    List (Text × Value) → List (Except EntryError Identifier)
  | [] => []
  | field :: rest => (readChildField uniqueId field).getD (readChildren uniqueId rest)
termination_by structural fields => fields

def readChildField (uniqueId : Text) :
    Text × Value → Option (List (Except EntryError Identifier))
  | (name, .list entries) =>
    if name = "children" then some (readEntries (.string uniqueId) entries) else none
  | (name, _) => if name = "children" then some [] else none
termination_by structural field => field

end

def addEntry (p : Plan) (read : Except EntryError Identifier) : Except Error Plan :=
  match read with
  | .error cause => .error (.entry cause)
  | .ok i =>
    match p.add i with
    | .error cause => .error (.plan cause)
    | .ok p => .ok p

def plan (m : Manifest) : Except Error Plan :=
  match field m "plan" (.list []) with
  | .list entries => (readEntries .null entries).foldlM addEntry Plan.empty
  | got => .error (.planNotList got)

/-! ### Late entries -/

/-- What a late entry gives: an identifier and the parent under which it is inserted. -/
def readLate (entry : Value) : Except Error (Identifier × Text) :=
  match entry with
  | .object fields =>
    let parent := field fields "parent_id" .null
    if !parent.truthy then .error (.dynamicWithoutParent (field fields "id" (.string "?")))
    else
      match parent with
      | .string parent =>
        match parseEntry entry .null with
        | .error cause => .error (.entry cause)
        | .ok i => .ok (i, parent)
      | _ => .error (.dynamicParentNotString entry)
  | got => .error (.dynamicNotObject got)

def lateEntries (m : Manifest) : List (Except Error (Identifier × Text)) :=
  match field m "dynamic" (.list []) with
  | .list entries => entries.map readLate
  | got => [.error (.dynamicNotList got)]

end Manifest

end SuiteView
