import SuiteView.Text.Quoted
import SuiteView.Value

/-!
# Nodes of the two-level tree

A node is a suite, which has a name, or a test, which has a group and a case. Nodes are objects with
an identity: they live in a store that only grows and are spoken of by their number in it. A node
may also carry a stable id, and nodes that carry the same stable id count as equal. Children are
added at the end; a node that is added a second time is listed twice and belongs to its last parent.
-/

namespace SuiteView

/-- What a node shows: the name of a suite, or the group and the case of a test. -/
inductive Label where
  | suite (name : Text)
  | test (group caseName : Text)
deriving DecidableEq, Repr

namespace Label

def kindName : Label → String
  | .suite _ => "suite"
  | .test _ _ => "test"

def group : Label → Text
  | .suite name => name
  | .test group _ => group

def case? : Label → Option Text
  | .suite _ => none
  | .test _ caseName => some caseName

def display : Label → Text
  | .suite name => name
  | .test group caseName => caseName ++ "(" ++ group ++ ")"

def isTest : Label → Bool
  | .suite _ => false
  | .test _ _ => true

end Label

/-- The number of a node in its store. -/
abbrev NodeId := Nat

/-- A node. -/
structure Node where
  label : Label
  stableId : Option Text
  parent : Option NodeId
  children : List NodeId
deriving DecidableEq, Repr

def Node.detached (label : Label) (stableId : Option Text) : Node := ⟨label, stableId, none, []⟩

def stableIdLiteral (stableId : Option Text) : String :=
  match stableId with
  | none => Value.null.literal
  | some id => Text.quote id

def Node.literal (n : Node) : String :=
  "ConsumerNode(" ++ n.label.kindName ++ ", " ++ Text.quote n.label.display ++ ", id=" ++
    stableIdLiteral n.stableId ++ ")"

/-- Why a node is not made. -/
inductive NodeError where
  | invalidKind (got : Value)
  | missingCase (stableId : Option Text)
deriving DecidableEq, Repr

def NodeError.message : NodeError → Text
  | .invalidKind got => "Invalid consumer node kind: " ++ got.literal
  | .missingCase stableId =>
    "Test node " ++ stableId.getD (Value.null.literal) ++ " requires a case name"

/-- The label of the kind that a value spells. A test needs a case; a suite drops it. -/
def Label.make (kind : Value) (stableId : Option Text) (group : Text)
    (caseName : Option Text) : Except NodeError Label :=
  if kind = .string "suite" then .ok (.suite group)
  else if kind = .string "test" then
    match caseName with
    | some c => .ok (.test group c)
    | none => .error (.missingCase stableId)
  else .error (.invalidKind kind)

/-! ### The store -/

/-- All nodes made so far. -/
structure NodeStore where
  nodes : Array Node
deriving Repr

namespace NodeStore

def empty : NodeStore := ⟨#[]⟩

def size (s : NodeStore) : Nat := s.nodes.size

def get? (s : NodeStore) (n : NodeId) : Option Node := s.nodes[n]?

def childrenOf (s : NodeStore) (n : NodeId) : List NodeId := ((s.get? n).map (·.children)).getD []

def parentOf? (s : NodeStore) (n : NodeId) : Option NodeId := (s.get? n).bind (·.parent)

def stableIdOf? (s : NodeStore) (n : NodeId) : Option Text := (s.get? n).bind (·.stableId)

def isTest (s : NodeStore) (n : NodeId) : Bool := ((s.get? n).map (·.label.isTest)).getD false

def push (s : NodeStore) (node : Node) : NodeStore := ⟨s.nodes.push node⟩

def addChild (s : NodeStore) (parent child : NodeId) : NodeStore :=
  ⟨(s.nodes.modify child fun node => { node with parent := some parent }).modify parent
    fun node => { node with children := node.children ++ [child] }⟩

/-! ### Equality -/

/-- What equality of nodes looks at: the stable id, or the node itself when it has none. -/
inductive Key where
  | stable (id : Text)
  | identity (n : NodeId)
deriving DecidableEq, Repr

def keyOf (s : NodeStore) (n : NodeId) : Key :=
  match s.stableIdOf? n with
  | some id => .stable id
  | none => .identity n

def same (s : NodeStore) (a b : NodeId) : Bool := s.keyOf a = s.keyOf b

def distinctCount (s : NodeStore) (ns : List NodeId) : Nat := (ns.map s.keyOf).eraseDups.length

/-! ### Ancestors -/

def ancestorsUpTo (s : NodeStore) : (fuel : Nat) → NodeId → List NodeId
  | 0, _ => []
  | fuel + 1, n =>
    match s.parentOf? n with
    | none => []
    | some parent => parent :: ancestorsUpTo s fuel parent

/-- The parent of a node, its parent, and so on. No node is its own ancestor, so the store bounds
their number. -/
def ancestors (s : NodeStore) (n : NodeId) : List NodeId := s.ancestorsUpTo s.size n

end NodeStore

end SuiteView
