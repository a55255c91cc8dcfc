import SuiteView.Plan.Identifier

/-!
# The test plan

A plan is a forest of identifiers that only grows. It keeps its members in the order in which they
were added, the ids of the children of every member, and the ids of the roots. Adding refuses an id
that is taken and a parent that is not there, and changes nothing when it refuses.
-/

namespace SuiteView

/-- A forest of identifiers. -/
structure Plan where
  members : Table Identifier
  childIds : Table (List Text)
  rootIds : List Text
deriving Repr

/-- Why a member is not added. -/
inductive PlanError where
  | duplicateId (uniqueId : Text)
  | missingParent (parent : Value) (uniqueId : Text)
  | unusableParent (parent : Value) (uniqueId : Text)
deriving DecidableEq, Repr

def PlanError.message : PlanError → Text
  | .duplicateId id => "duplicate id: " ++ id
  | .missingParent parent id => "no such parent: " ++ parent.text ++ " (for " ++ id ++ ")"
  | .unusableParent parent _ => parent.unusableKeyMessage

namespace Plan

def empty : Plan := ⟨[], [], []⟩

def size (p : Plan) : Nat := p.members.length

def ids (p : Plan) : List Text := p.members.keys

def toList (p : Plan) : List Identifier := p.members.map Prod.snd

def get? (p : Plan) (id : Text) : Option Identifier := p.members.get? id

def contains (p : Plan) (id : Text) : Bool := p.members.contains id

/-- Whether a value is an id that is taken. A value that cannot be a key at all is handed back. -/
def containsValue (p : Plan) (v : Value) : Except Value Bool :=
  match v.key with
  | .text id => .ok (p.contains id)
  | .foreign => .ok false
  | .unusable => .error v

/-- The ids of the children of a member; none for an unknown id. -/
def childIdsOf (p : Plan) (id : Text) : List Text := (p.childIds.get? id).getD []

def lookup (p : Plan) (ids : List Text) : List Identifier := ids.filterMap p.get?

def roots (p : Plan) : List Identifier := p.lookup p.rootIds

def children (p : Plan) (id : Text) : List Identifier := p.lookup (p.childIdsOf id)

/-- The parent of a member; none for roots and unknown ids. -/
def parent? (p : Plan) (id : Text) : Option Identifier :=
  (p.get? id).bind fun i =>
    match i.parent with
    | .string parent => p.get? parent
    | _ => none

def register (p : Plan) (i : Identifier) : Plan :=
  { p with
    members := p.members ++ [(i.uniqueId, i)]
    childIds := p.childIds ++ [(i.uniqueId, [])] }

def addRoot (p : Plan) (i : Identifier) : Plan :=
  let p := p.register i
  { p with rootIds := p.rootIds ++ [i.uniqueId] }

def addChild (p : Plan) (parent : Text) (i : Identifier) : Plan :=
  let p := p.register i
  { p with childIds := p.childIds.update parent (· ++ [i.uniqueId]) }

def add (p : Plan) (i : Identifier) : Except PlanError Plan :=
  if p.contains i.uniqueId then .error (.duplicateId i.uniqueId)
  else
    match i.parent with
    | .null => .ok (p.addRoot i)
    | .string parent =>
      if p.contains parent then .ok (p.addChild parent i)
      else .error (.missingParent i.parent i.uniqueId)
    | .list _ | .object _ => .error (.unusableParent i.parent i.uniqueId)
    | _ => .error (.missingParent i.parent i.uniqueId)

def ofList (is : List Identifier) : Except PlanError Plan := is.foldlM add empty

end Plan

end SuiteView
