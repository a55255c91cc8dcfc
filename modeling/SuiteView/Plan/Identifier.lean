import SuiteView.Value

/-!
# Identifiers

An identifier is the record of one member of a test plan: a container or a test, with a unique id,
a display name, the place in the code it stands for, if any, and the id of its parent. Ids, names
and kinds are checked when an identifier is made; the parent is taken as it comes, and the plan
decides whether it is of use.
-/

namespace SuiteView

/-- Whether a member of the plan can be run itself. -/
inductive Kind where
  | container
  | test
deriving DecidableEq, Repr

def Kind.name : Kind → String
  | .container => "container"
  | .test => "test"

def Kind.ofName? (name : Text) : Option Kind :=
  if name = Kind.container.name then some .container
  else if name = Kind.test.name then some .test
  else none

/-- A place in the code: a class, or a method with the types of its parameters. Anything else that
is given as a place is kept but cannot be named. -/
inductive Location where
  | ofClass (className : Text)
  | ofMethod (className methodName : Text) (parameters : List Text)
  | unsupported (value : Value)
deriving DecidableEq, Repr

/-- A member of the plan. A member whose parent is null is a root. -/
structure Identifier where
  uniqueId : Text
  displayName : Text
  kind : Kind
  location : Option Location
  parent : Value
deriving DecidableEq, Repr

/-- Why an identifier or its location cannot be made. -/
inductive IdentifierError where
  | parametersNotList (className methodName : Text) (got : Value)
  | parametersNotStrings (className methodName : Text) (got : Value)
  | emptyId
  | displayNameNotString (uniqueId : Text) (got : Value)
  | invalidKind (uniqueId : Text) (got : Value)
deriving DecidableEq, Repr

def IdentifierError.message : IdentifierError → Text
  | .parametersNotList c m got =>
    "parameter_types of " ++ c ++ "." ++ m ++ " must be a list of type names, got " ++ got.literal
  | .parametersNotStrings c m got =>
    "parameter_types of " ++ c ++ "." ++ m ++ " must contain only strings, got " ++ got.literal
  | .emptyId => "Identifier requires a non-empty unique_id"
  | .displayNameNotString id got =>
    "display_name of " ++ id ++ " must be a string, got " ++ got.literal
  | .invalidKind id got =>
    "Invalid kind " ++ got.literal ++ " for " ++ id ++ "; expected one of ['container', 'test']"

/-- A method location; the parameters must be a list of strings. -/
def Location.method (className methodName : Text) (parameters : Value) :
    Except IdentifierError Location :=
  match parameters with
  | .list items =>
    match Value.strings? items with
    | some names => .ok (.ofMethod className methodName names)
    | none => .error (.parametersNotStrings className methodName parameters)
  | _ => .error (.parametersNotList className methodName parameters)

def Kind.ofValue? : Value → Option Kind
  | .string name => Kind.ofName? name
  | _ => none

namespace Identifier

/-- Makes an identifier. The id is checked first, then the display name, then the kind. -/
def make (uniqueId displayName kind : Value) (location : Option Location) (parent : Value) :
    Except IdentifierError Identifier :=
  match uniqueId with
  | .string id =>
    if id.isEmpty then .error .emptyId
    else
      match displayName with
      | .string name =>
        match Kind.ofValue? kind with
        | some k => .ok ⟨id, name, k, location, parent⟩
        | none => .error (.invalidKind id kind)
      | _ => .error (.displayNameNotString id displayName)
  | _ => .error .emptyId

def isTest (i : Identifier) : Bool := i.kind = .test

def isContainer (i : Identifier) : Bool := i.kind = .container

def isRoot (i : Identifier) : Bool := i.parent = .null

end Identifier

theorem Kind.ofName?_name (k : Kind) : Kind.ofName? k.name = some k := by
  cases k <;> rfl

end SuiteView
