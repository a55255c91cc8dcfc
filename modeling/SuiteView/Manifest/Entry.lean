import SuiteView.Plan.Identifier

/-!
# Manifest entries

A manifest entry is an object that describes one member of the plan. Its id must be a non-empty
string and its children, if given, a list; display name, kind and location have defaults. The checks
run in a fixed order, so that an entry with several faults is always refused for the same one.
-/

namespace SuiteView.Manifest

/-- Why a location entry is refused. -/
inductive LocationError where
  | notObject (got : Value)
  | classNameNotString (entry : Value)
  | methodNameNotString (entry : Value)
  | parametersNotStrings (entry : Value)
deriving DecidableEq, Repr

def LocationError.message : LocationError → String
  | .notObject got => "Manifest location must be an object, got " ++ got.literal
  | .classNameNotString entry => "Location class_name must be a string: " ++ entry.literal
  | .methodNameNotString entry => "Location method_name must be a string: " ++ entry.literal
  | .parametersNotStrings entry =>
    "Location parameter_types must be a list of strings: " ++ entry.literal

/-- Why an entry is refused. -/
inductive EntryError where
  | notObject (got : Value)
  | missingId (entry : Value)
  | idNotString (entry : Value)
  | childrenNotList (uniqueId : Text) (got : Value)
  | location (uniqueId : Text) (cause : LocationError)
  | identifier (cause : IdentifierError)
deriving DecidableEq, Repr

def EntryError.message : EntryError → Text
  | .notObject got => "Manifest entry must be an object, got " ++ got.literal
  | .missingId entry => "Manifest entry is missing 'id': " ++ entry.literal
  | .idNotString entry => "Manifest entry id must be a string: " ++ entry.literal
  | .childrenNotList id got => "Children of " ++ id ++ " must be a list, got " ++ got.literal
  | .location id cause => "Manifest entry " ++ id ++ ": " ++ cause.message
  | .identifier cause => cause.message

def field (fields : Table Value) (name : Text) (default : Value) : Value :=
  (fields.get? name).getD default

def methodLocation (fields : Table Value) (className methodName : Text) :
    Except LocationError Location :=
  match field fields "parameter_types" (.list []) with
  | .list items =>
    match Value.strings? items with
    | some names => .ok (.ofMethod className methodName names)
    | none => .error (.parametersNotStrings (.object fields))
  | _ => .error (.parametersNotStrings (.object fields))

/-- Reads a location entry: none without a class name, a method location when a method is named,
else a class location. -/
def parseLocation : Value → Except LocationError (Option Location)
  | .null => .ok none
  | .object fields =>
    match field fields "class_name" (.string "") with
    | .string className =>
      if className.isEmpty then .ok none
      else
        match field fields "method_name" .null with
        | .null => .ok (some (.ofClass className))
        | .string methodName =>
          if methodName.isEmpty then .ok (some (.ofClass className))
          else (methodLocation fields className methodName).map some
        | _ => .error (.methodNameNotString (.object fields))
    | _ => .error (.classNameNotString (.object fields))
  | got => .error (.notObject got)

/-- The kind of an entry: the one it names, else container when it has children. -/
def kindOf (fields : Table Value) (children : List Value) : Value :=
  match field fields "kind" .null with
  | .null => .string (if children.isEmpty then Kind.test else Kind.container).name
  | kind => kind

/-- The parent of an entry: the enclosing one, else the one that the entry names. -/
def parentOf (fields : Table Value) (enclosing : Value) : Value :=
  match enclosing with
  | .null => field fields "parent_id" .null
  | _ => enclosing

/-- Reads an entry that stands under the given parent; the parent is null at the top level. -/
def parseEntry (entry enclosing : Value) : Except EntryError Identifier :=
  match entry with
  | .object fields =>
    let id := field fields "id" (.string "")
    if !id.truthy then .error (.missingId entry)
    else
      match id with
      | .string uniqueId =>
        match field fields "children" (.list []) with
        | .list children =>
          match parseLocation (field fields "location" .null) with
          | .error cause => .error (.location uniqueId cause)
          | .ok location =>
            match Identifier.make id (field fields "display_name" id) (kindOf fields children)
              location (parentOf fields enclosing) with
            | .error cause => .error (.identifier cause)
            | .ok i => .ok i
        | got => .error (.childrenNotList uniqueId got)
      | _ => .error (.idNotString entry)
  | got => .error (.notObject got)

end SuiteView.Manifest
