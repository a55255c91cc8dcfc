import SuiteView.Node.Subtree
import SuiteView.Plan.Walk
import SuiteView.View.Naming

/-!
# Views

A view shows a plan as a tree of nodes below a suite of its own, the root: a suite for every
container and a test for every test, in the order of the plan, and it remembers which node stands
for which member. Opening a view builds the tree at once; `Bridge.insert` adds a single member to
the plan and to the view. An insertion that is refused leaves everything as it was, but one that
fails only in naming the new node has added the member to the plan by then.
-/

namespace SuiteView

/-- The root node of a view and the nodes of the members, in the order in which they were mapped. -/
structure View where
  root : NodeId
  mapped : Table NodeId
deriving Repr

namespace View

def size (v : View) : Nat := v.mapped.length

def nodeFor? (v : View) (id : Text) : Option NodeId := v.mapped.get? id

def identifierFor? (v : View) (p : Plan) (s : NodeStore) (n : NodeId) : Option Identifier :=
  (s.stableIdOf? n).bind fun id => if v.nodeFor? id = some n then p.get? id else none

def unseenTests (seen : List Text) : List Identifier → List Identifier
  | [] => []
  | i :: rest =>
    if i.isTest && !seen.contains i.uniqueId then i :: unseenTests (i.uniqueId :: seen) rest
    else unseenTests seen rest

def testsBelow (p : Plan) (ancestor : Text) : List Identifier :=
  unseenTests [] (p.descendants ancestor)

/-! ### Leaves -/

/-- The ids of the mapped members whose nodes satisfy a predicate, in the order of mapping. -/
def matching (v : View) (holds : NodeId → Bool) : List Text :=
  Table.keys (v.mapped.filter fun entry => holds entry.2)

/-- The ids of the matching members below which nothing matches, in the order of mapping. -/
def leafIds (v : View) (p : Plan) (holds : NodeId → Bool) : List Text :=
  let candidates := v.matching holds
  candidates.filter fun id => (p.descendantIds id).all fun below => !candidates.contains below

def leaves (v : View) (p : Plan) (holds : NodeId → Bool) : List Identifier :=
  p.lookup (v.leafIds p holds)

end View

def Identifier.label (i : Identifier) (p : Plan) : Except NamingError Label :=
  match i.kind with
  | .test => do
    let (group, caseName) ← i.resolve p
    return .test group caseName
  | .container => .ok (.suite i.displayName)

/-! ### Building -/

/-- A view on a plan, with the store that holds its nodes. -/
structure Bridge where
  plan : Plan
  nodes : NodeStore
  view : View
deriving Repr

namespace Bridge

def attach (b : Bridge) (i : Identifier) (parent : NodeId) : Except NamingError (Bridge × NodeId) := do
  let label ← i.label b.plan
  let node := b.nodes.size
  let nodes := (b.nodes.push (.detached label (some i.uniqueId))).addChild parent node
  let view := { b.view with mapped := b.view.mapped.put i.uniqueId node }
  return ({ b with nodes := nodes, view := view }, node)

/-- Attaches a member and everything below it; `fuel` bounds the depth. -/
def build : (fuel : Nat) → Bridge → (parent : NodeId) → Identifier → Except NamingError Bridge
  | 0, b, _, _ => .ok b
  | fuel + 1, b, parent, i => do
    let (b, node) ← b.attach i parent
    (b.plan.children i.uniqueId).foldlM (fun b child => build fuel b node child) b

/-- The view of a plan under a root with the given label; no branch of the plan is deeper than the
plan is large. -/
def create (p : Plan) (s : NodeStore) (label : Text) : Except NamingError Bridge :=
  let root := s.size
  let b : Bridge := ⟨p, s.push (.detached (.suite label) none), ⟨root, []⟩⟩
  p.roots.foldlM (fun b i => build p.size b root i) b

/-! ### Growing -/

/-- Why a member is not inserted. -/
inductive InsertError where
  | unmappedParent (parent uniqueId : Text)
  | declaredParent (uniqueId : Text) (declared : Value) (parent : Text)
  | plan (cause : PlanError)
  | naming (cause : NamingError)
deriving DecidableEq, Repr

def InsertError.message : InsertError → Text
  | .unmappedParent parent id => "unmapped parent: " ++ parent ++ " (for " ++ id ++ ")"
  | .declaredParent id declared parent =>
    "identifier " ++ id ++ " declares parent " ++ declared.literal ++ ", not " ++
      Text.quote parent
  | .plan cause => cause.message
  | .naming cause => cause.message

def insert (b : Bridge) (i : Identifier) (parent : Text) : Bridge × Except InsertError NodeId :=
  match b.view.nodeFor? parent with
  | none => (b, .error (.unmappedParent parent i.uniqueId))
  | some parentNode =>
    if i.parent ≠ .string parent then (b, .error (.declaredParent i.uniqueId i.parent parent))
    else
      match b.plan.add i with
      | .error cause => (b, .error (.plan cause))
      | .ok plan =>
        let grown := { b with plan := plan }
        match grown.attach i parentNode with
        | .error cause => (grown, .error (.naming cause))
        | .ok (b, node) => (b, .ok node)

/-- Inserts a member under a parent that is given as a value. What is no text is mapped to nothing. -/
def insertUnder (b : Bridge) (i : Identifier) (parent : Value) :
    Bridge × Except InsertError NodeId :=
  match parent.key with
  | .text id => b.insert i id
  | .foreign => (b, .error (.unmappedParent parent.text i.uniqueId))
  | .unusable => (b, .error (.plan (.unusableParent parent i.uniqueId)))

end Bridge

end SuiteView
