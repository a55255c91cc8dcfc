import SuiteView.Node.Basic

/-!
# Subtrees

The nodes at and below a node are listed in pre-order by a loop over a stack: it takes the first node
of the stack and puts the node's children in front of the rest. A node that hangs below another on
several paths is listed once for each path. The number of turns is the number of paths, which is
counted first, level by level; without cycles no path is longer than the store is large.
-/

namespace SuiteView.NodeStore

def pathCount (s : NodeStore) : (depth : Nat) → NodeId → Nat
  | 0, _ => 0
  | depth + 1, n => 1 + ((s.childrenOf n).map (s.pathCount depth)).sum

/-- The nodes met in at most `fuel` turns of the loop, from a stack of nodes. -/
def walk (s : NodeStore) : (fuel : Nat) → (stack : List NodeId) → List NodeId
  | 0, _ => []
  | _, [] => []
  | fuel + 1, n :: stack => n :: walk s fuel (s.childrenOf n ++ stack)

def subtree (s : NodeStore) (n : NodeId) : List NodeId := s.walk (s.pathCount s.size n) [n]

def testCount (s : NodeStore) (n : NodeId) : Nat := (s.subtree n).countP s.isTest

end SuiteView.NodeStore
