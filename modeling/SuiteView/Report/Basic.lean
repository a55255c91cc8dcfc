import SuiteView.Report.Entry
import SuiteView.Report.Timestamp
import SuiteView.View.Basic

/-!
# Reports

A report shows a view at a point in time: how many nodes are mapped, how many tests there are, which
members a filter selected, and the whole tree below the root. It is written as a YAML document with
the single field `report`.
-/

namespace SuiteView

/-- What a filter selected: the ids in the order of the result, and the filter in words. -/
structure Selection where
  ids : List Text
  description : Text
deriving DecidableEq, Repr

/-- A view at a point in time. -/
structure Report where
  generatedAt : Timestamp
  mappedNodes : Nat
  tests : Nat
  selection : Option Selection
  tree : Entry
deriving Repr

def View.report (v : View) (s : NodeStore) (selection : Option Selection) (time : Timestamp) :
    Report where
  generatedAt := time
  mappedNodes := v.size
  tests := s.testCount v.root
  selection := selection
  tree := (Entry.ofNode? s ((selection.map (·.ids)).getD []) v.root).getD .blank

namespace Report

def selectedFields : Option Selection → List (String × Yaml.Document)
  | none => []
  | some selection => [("selected", .count selection.ids.length)]

def selectionFields : Option Selection → List (String × Yaml.Document)
  | none => []
  | some selection =>
    [("selection", .mapping
      [("filter", .text selection.description),
        ("ids", .sequence (selection.ids.map .text))])]

def fields (r : Report) : List (String × Yaml.Document) :=
  let summary : List (String × Yaml.Document) :=
    [("mapped_nodes", .count r.mappedNodes), ("tests", .count r.tests)] ++
      selectedFields r.selection
  [("report", .mapping
    ([("generated_at", .text r.generatedAt.iso), ("summary", .mapping summary)] ++
      selectionFields r.selection ++ [("tree", r.tree.document)]))]

def yaml (r : Report) : String := Yaml.write r.fields

end Report

end SuiteView
