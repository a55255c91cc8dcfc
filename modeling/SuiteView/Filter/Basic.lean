import SuiteView.Filter.Pattern
import SuiteView.View.Basic

/-!
# Filters

A filter decides for every node whether it is selected, and says in words what it selects. Patterns
look at the group or the case of a node, id filters at its stable id. A filter for a node takes in
the ancestors that the node has when the filter is made; later growth of the tree does not change it.
-/

namespace SuiteView

/-- A test on nodes. -/
inductive Filter where
  | group (pattern : Text)
  | caseName (pattern : Text)
  | ids (wanted : List Text)
  | node (display : Text) (selected : List NodeStore.Key)
  | constant (name : Text) (value : Bool)
  | all (filters : List Filter)
  | any (filters : List Filter)
  | negation (filter : Filter)
deriving Repr, Inhabited

namespace Filter

def ofNode (s : NodeStore) (target : NodeId) : Filter :=
  .node (((s.get? target).map (·.label.display)).getD []) ((target :: s.ancestors target).map s.keyOf)

/-! ### Deciding -/

mutual

def holds (s : NodeStore) (n : NodeId) : Filter → Bool
  | .group pattern => ((s.get? n).map fun node => Pattern.accepts pattern node.label.group).getD false
  | .caseName pattern =>
    match (s.get? n).bind (·.label.case?) with
    | some c => Pattern.accepts pattern c
    | none => false
  | .ids wanted =>
    match s.stableIdOf? n with
    | some id => wanted.contains id
    | none => false
  | .node _ selected => selected.contains (s.keyOf n)
  | .constant _ value => value
  | .all filters => holdAll s n filters
  | .any filters => holdAny s n filters
  | .negation filter => !holds s n filter
termination_by structural filter => filter

def holdAll (s : NodeStore) (n : NodeId) : List Filter → Bool
  | [] => true
  | filter :: rest => holds s n filter && holdAll s n rest
termination_by structural filters => filters

def holdAny (s : NodeStore) (n : NodeId) : List Filter → Bool
  | [] => false
  | filter :: rest => holds s n filter || holdAny s n rest
termination_by structural filters => filters

end

/-! ### Describing -/

def sortedIds (ids : List Text) : List Text := ids.eraseDups.mergeSort Text.le

def joined (separator none : Text) (descriptions : List Text) : Text :=
  let text := Text.join separator descriptions
  if text.isEmpty then none else text

mutual

def describe : Filter → Text
  | .group pattern => "group matches " ++ pattern
  | .caseName pattern => "case matches " ++ pattern
  | .ids wanted => "id in [" ++ ", ".intercalate ((sortedIds wanted).map Text.quote) ++ "]"
  | .node display _ => "Node " ++ display
  | .constant name _ => name
  | .all filters => joined " and " "all" (descriptions filters)
  | .any filters => joined " or " "none" (descriptions filters)
  | .negation filter => "not (" ++ describe filter ++ ")"
termination_by structural filter => filter

def descriptions : List Filter → List Text
  | [] => []
  | filter :: rest => describe filter :: descriptions rest
termination_by structural filters => filters

end

end Filter

end SuiteView
