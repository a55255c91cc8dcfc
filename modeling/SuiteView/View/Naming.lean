import SuiteView.Plan.Basic

/-!
# Group and case names

The consumer knows two levels of names, a group and a case. A member of the plan that has a location
is named by it: the group is the class, the case is the method with the types of its parameters, or
the class again. Without a location the case is the member's display name and the group that of its
parent; only the parent is asked, never what lies further up.
-/

namespace SuiteView

/-- Why a member cannot be named: its location is neither a class nor a method. -/
inductive NamingError where
  | unsupportedLocation (uniqueId : Text) (got : Value)
deriving DecidableEq, Repr

def NamingError.message : NamingError → Text
  | .unsupportedLocation id got => "Unsupported location for " ++ id ++ ": " ++ got.literal

def unrooted : Text := "<unrooted>"

/-- A method with the types of its parameters; without parameters the bare name. -/
def methodSignature (methodName : Text) (parameters : List Text) : Text :=
  if parameters.isEmpty then methodName
  else methodName ++ "(" ++ Text.join "," parameters ++ ")"

namespace Identifier

def caseName (i : Identifier) : Except NamingError Text :=
  match i.location with
  | none => .ok i.displayName
  | some (.ofClass className) => .ok className
  | some (.ofMethod _ methodName parameters) => .ok (methodSignature methodName parameters)
  | some (.unsupported got) => .error (.unsupportedLocation i.uniqueId got)

def groupName (i : Identifier) (p : Plan) : Except NamingError Text :=
  match i.location with
  | none => .ok (((p.parent? i.uniqueId).map (·.displayName)).getD unrooted)
  | some (.ofClass className) => .ok className
  | some (.ofMethod className _ _) => .ok className
  | some (.unsupported got) => .error (.unsupportedLocation i.uniqueId got)

def resolve (i : Identifier) (p : Plan) : Except NamingError (Text × Text) := do
  let group ← i.groupName p
  let caseName ← i.caseName
  return (group, caseName)

end Identifier

end SuiteView
