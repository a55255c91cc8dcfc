import SuiteView.Plan.Basic

/-!
# Walking a plan

The descendants of a member are listed in pre-order by a loop that keeps the ids still to visit on a
stack: it takes the first id, lists its member and puts the children of the member in front of the
rest. Every member of a forest comes up once, so the size of the plan bounds the number of turns.
-/

namespace SuiteView.Plan

/-- The members met in at most `fuel` turns of the loop, from a stack of ids. -/
def walk (p : Plan) : (fuel : Nat) → (stack : List Text) → List Identifier
  | 0, _ => []
  | _, [] => []
  | fuel + 1, id :: stack => (p.get? id).toList ++ walk p fuel (p.childIdsOf id ++ stack)

def descendants (p : Plan) (id : Text) : List Identifier := p.walk p.size (p.childIdsOf id)

def descendantIds (p : Plan) (id : Text) : List Text := (p.descendants id).map (·.uniqueId)

end SuiteView.Plan
