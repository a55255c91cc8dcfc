import SuiteView.Yaml.Scalar

/-!
# Documents in block style

A document is written with a line for every field and every item. The fields of a mapping are
indented by two columns more than the mapping around it, the items of a sequence by as much as the
field that holds it, and the first field of an item stands on the line of its dash.
-/

namespace SuiteView.Yaml

/-- What a document holds. -/
inductive Document where
  | null
  | flag (b : Bool)
  | count (n : Nat)
  | text (s : Text)
  | sequence (items : List Document)
  | mapping (fields : List (String × Document))
deriving Repr

def padding (indent : Nat) : List Char := List.replicate indent ' '

mutual

/-- What follows the colon of a field or the dash of an item, with the line end. Scalars and empty
collections stay on the line, which has `column` characters so far. -/
def writeAfter (indent column : Nat) (inSequence : Bool) : Document → List Char
  | .null => " null\n".toList
  | .flag b => (if b then " true\n" else " false\n").toList
  | .count n => ' ' :: (toString n).toList ++ ['\n']
  | .text s => ' ' :: writeText (indent + 2) (column + 1) s ++ ['\n']
  | .sequence [] => " []\n".toList
  | .sequence (item :: rest) =>
    let indent := if inSequence then indent + 2 else indent
    (if inSequence then [' '] else '\n' :: padding indent) ++
      '-' :: writeAfter indent (indent + 1) true item ++ writeItems indent rest
  | .mapping [] => " \x7b\x7d\n".toList
  | .mapping (field :: rest) =>
    (if inSequence then [' '] else '\n' :: padding (indent + 2)) ++
      writeField (indent + 2) field ++ writeFields (indent + 2) rest
termination_by structural d => d

def writeItems (indent : Nat) : List Document → List Char
  | [] => []
  | item :: rest =>
    padding indent ++ '-' :: writeAfter indent (indent + 1) true item ++ writeItems indent rest
termination_by structural items => items

def writeFields (indent : Nat) : List (String × Document) → List Char
  | [] => []
  | field :: rest => padding indent ++ writeField indent field ++ writeFields indent rest
termination_by structural fields => fields

def writeField (indent : Nat) : String × Document → List Char
  | (name, d) =>
    name.toList ++ ':' :: writeAfter indent (indent + name.toList.length + 1) false d
termination_by structural field => field

end

def write (fields : List (String × Document)) : String := String.ofList (writeFields 0 fields)

end SuiteView.Yaml
