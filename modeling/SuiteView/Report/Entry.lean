import SuiteView.Node.Subtree
import SuiteView.Yaml.Writer

/-!
# Report entries

A report shows the nodes of a tree as nested entries. An entry holds what its node shows, whether the
node is selected, the number of tests at and below it, and the entries of the node's children.
-/

namespace SuiteView

/-- A node as it stands in a report, with everything below it. -/
inductive Entry where
  | node (label : Label) (stableId : Option Text) (isSelected : Bool) (testCount : Nat)
      (children : List Entry)
deriving Repr

namespace Entry

def blank : Entry := .node (.suite "") none false 0 []

/-- The entry of a node; `depth` bounds the number of levels. -/
def ofNodeUpTo (s : NodeStore) (selected : List Text) : (depth : Nat) → NodeId → Option Entry
  | 0, _ => none
  | depth + 1, n =>
    (s.get? n).map fun node =>
      .node node.label node.stableId ((node.stableId.map selected.contains).getD false)
        (s.testCount n) (node.children.filterMap (ofNodeUpTo s selected depth))

/-- The entry of a node. Without cycles no level lies deeper than the store is large. -/
def ofNode? (s : NodeStore) (selected : List Text) (n : NodeId) : Option Entry :=
  ofNodeUpTo s selected (s.size + 1) n

/-! ### Fields -/

/-- The fields that depend on the kind of the node: the names of a test, or the number of tests of a
suite. -/
def kindFields (testCount : Nat) : Label → List (String × Yaml.Document)
  | .suite _ => [("test_count", .count testCount)]
  | .test group caseName => [("group", .text group), ("case", .text caseName)]

mutual

/-- An entry as a mapping. The mark of a selected node and the children stand only where there is
something to tell. -/
def document : Entry → Yaml.Document
  | .node label stableId isSelected testCount children =>
    .mapping
      ([("name", .text label.display), ("kind", .text label.kindName),
          ("stable_id", (stableId.map Yaml.Document.text).getD .null)] ++
        kindFields testCount label ++
        (if isSelected then [("selected", .flag true)] else []) ++
        (if children.isEmpty then [] else [("children", .sequence (documents children))]))
termination_by structural e => e

def documents : List Entry → List Yaml.Document
  | [] => []
  | e :: rest => document e :: documents rest
termination_by structural es => es

end

end Entry

end SuiteView
