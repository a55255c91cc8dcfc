import SuiteView.Json.Reader
import SuiteView.Json.Writer

/-!
# Where writing stops

An integer of more than 4300 digits is not written either. A document that holds one is written up to
the first such integer. The bracket or comma before an item of a list is written together with the
item, so it is missing where the item itself is the integer; a field has its key by then.
-/

namespace SuiteView.Json

def integerLength (n : Int) : Nat := (Nat.toDigits 10 n.natAbs).length

mutual

/-- What of a value is written before its first integer of too many digits, when it holds one. -/
def cutAt (level : Nat) : Value → Option (List Char)
  | .int n => if maxIntegerDigits < integerLength n then some [] else none
  | .list items => cutItems (level + 1) ('[' :: newline (level + 1)) items
  | .object fields => (cutFields (level + 1) fields).map ('\x7b' :: newline (level + 1) ++ ·)
  | .null | .bool _ | .number _ | .string _ => none
termination_by structural v => v

/-- The same for the items of a list; `pending` waits for the first of them. -/
def cutItems (level : Nat) (pending : List Char) : List Value → Option (List Char)
  | [] => none
  | v :: rest =>
    match v, cutAt level v with
    | .int _, some _ => some []
    | _, some written => some (pending ++ written)
    | _, none => (cutItems level (',' :: newline level) rest).map (pending ++ writeAt level v ++ ·)
termination_by structural items => items

def cutFields (level : Nat) : List (Text × Value) → Option (List Char)
  | [] => none
  | (k, v) :: rest =>
    match cutAt level v with
    | some written => some (writeString k ++ ':' :: ' ' :: written)
    | none =>
      (cutFields level rest).map (writeString k ++ ':' :: ' ' :: writeAt level v ++
        ',' :: newline level ++ ·)
termination_by structural fields => fields

end

end SuiteView.Json
