import SuiteView.Plan.Identifier
import SuiteView.Value.Same

/-!
# Identifiers that count as the same

Identifiers are compared part by part. They can be gathered in a set as long as every part can: a
location or a parent that is a list or an object keeps an identifier out of sets.
-/

namespace SuiteView

def Location.same : Location → Location → Bool
  | .unsupported a, .unsupported b => a.same b
  | .unsupported _, _ | _, .unsupported _ => false
  | a, b => a = b

namespace Identifier

def same (i j : Identifier) : Bool :=
  i.uniqueId = j.uniqueId && i.displayName = j.displayName && i.kind = j.kind &&
    (match i.location, j.location with
      | none, none => true
      | some a, some b => a.same b
      | _, _ => false) &&
    i.parent.same j.parent

def uncheckedParts (i : Identifier) : List Value :=
  match i.location with
  | some (.unsupported got) => [got, i.parent]
  | _ => [i.parent]

def unusablePart? (i : Identifier) : Option Value :=
  i.uncheckedParts.find? fun part => part.key = .unusable

/-- The number of identifiers in a list, those that count as the same counted once, or the part that
keeps one of them out of sets. -/
def distinctCount (is : List Identifier) : Except Value Nat :=
  match is.findSome? unusablePart? with
  | some part => .error part
  | none => .ok (is.foldl (fun kept i => if kept.any (same i) then kept else kept ++ [i]) []).length

end Identifier

end SuiteView
