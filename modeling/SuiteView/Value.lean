import SuiteView.Decimal.Shortest
import SuiteView.Table
import SuiteView.Text.Quoted

/-!
# Values of JSON documents

Manifests and settings are JSON documents. A value keeps the difference between integers and numbers
in double precision and the order in which the fields of an object first appeared, because both show
in messages. `literal` is the text of a value in messages; `text` is the same with strings unquoted.
-/

namespace SuiteView

/-- A JSON value. -/
inductive Value where
  | null
  | bool (b : Bool)
  | int (n : Int)
  | number (x : Double)
  | string (s : Text)
  | list (items : List Value)
  | object (fields : List (Text × Value))
deriving Repr, Inhabited

namespace Value

/-! ### Text in messages -/

mutual

def literal : Value → String
  | .null => "None"
  | .bool true => "True"
  | .bool false => "False"
  | .int n => toString n
  | .number x => x.render .plain
  | .string s => Text.quote s
  | .list items => "[" ++ ", ".intercalate (literals items) ++ "]"
  | .object fields => "\x7b" ++ ", ".intercalate (fieldLiterals fields) ++ "\x7d"
termination_by structural v => v

def literals : List Value → List String
  | [] => []
  | v :: rest => v.literal :: literals rest
termination_by structural items => items

def fieldLiterals : List (Text × Value) → List String
  | [] => []
  | (k, v) :: rest => (Text.quote k ++ ": " ++ v.literal) :: fieldLiterals rest
termination_by structural fields => fields

end

def text : Value → Text
  | .string s => s
  | v => v.literal

/-! ### Views of a value -/

/-- Whether the value counts as true: null, false, zeros and everything empty do not. -/
def truthy : Value → Bool
  | .null => false
  | .bool b => b
  | .int n => n != 0
  | .number x => x.isNonzero
  | .string s => !s.isEmpty
  | .list items => !items.isEmpty
  | .object fields => !fields.isEmpty

def typeName : Value → String
  | .null => "NoneType"
  | .bool _ => "bool"
  | .int _ => "int"
  | .number _ => "float"
  | .string _ => "str"
  | .list _ => "list"
  | .object _ => "dict"

def strings? : List Value → Option (List Text)
  | [] => some []
  | .string s :: rest => (strings? rest).map (s :: ·)
  | _ :: _ => none

/-- Reading back a list of strings. -/
theorem strings?_map (ss : List Text) : strings? (ss.map .string) = some ss := by
  induction ss with
  | nil => rfl
  | cons s ss ih => simp [strings?, ih]

/-! ### Keys of look-ups -/

/-- A value as a key among texts: a list or an object cannot be a key at all, and the other
non-strings are keys that no text equals. -/
inductive Key where
  | text (s : Text)
  | foreign
  | unusable
deriving DecidableEq, Repr

def key : Value → Key
  | .string s => .text s
  | .list _ | .object _ => .unusable
  | _ => .foreign

def unusableKeyMessage (v : Value) : String := "unhashable type: '" ++ v.typeName ++ "'"

/-! ### Decidable equality -/

mutual

def decEq : (a b : Value) → Decidable (a = b)
  | .null, .null => isTrue rfl
  | .bool a, .bool b => decidable_of_iff (a = b) ⟨congrArg _, fun e => bool.inj e⟩
  | .int a, .int b => decidable_of_iff (a = b) ⟨congrArg _, fun e => int.inj e⟩
  | .number a, .number b => decidable_of_iff (a = b) ⟨congrArg _, fun e => number.inj e⟩
  | .string a, .string b => decidable_of_iff (a = b) ⟨congrArg _, fun e => string.inj e⟩
  | .list a, .list b =>
    match decEqItems a b with
    | isTrue h => isTrue (congrArg _ h)
    | isFalse h => isFalse fun e => h (list.inj e)
  | .object a, .object b =>
    match decEqFields a b with
    | isTrue h => isTrue (congrArg _ h)
    | isFalse h => isFalse fun e => h (object.inj e)
  | .null, .bool _ | .null, .int _ | .null, .number _ | .null, .string _ | .null, .list _
  | .null, .object _ | .bool _, .null | .bool _, .int _ | .bool _, .number _ | .bool _, .string _
  | .bool _, .list _ | .bool _, .object _ | .int _, .null | .int _, .bool _ | .int _, .number _
  | .int _, .string _ | .int _, .list _ | .int _, .object _ | .number _, .null
  | .number _, .bool _ | .number _, .int _ | .number _, .string _ | .number _, .list _
  | .number _, .object _ | .string _, .null | .string _, .bool _ | .string _, .int _
  | .string _, .number _ | .string _, .list _ | .string _, .object _ | .list _, .null
  | .list _, .bool _ | .list _, .int _ | .list _, .number _ | .list _, .string _
  | .list _, .object _ | .object _, .null | .object _, .bool _ | .object _, .int _
  | .object _, .number _ | .object _, .string _ | .object _, .list _ => isFalse nofun
termination_by structural a => a

def decEqItems : (a b : List Value) → Decidable (a = b)
  | [], [] => isTrue rfl
  | [], _ :: _ | _ :: _, [] => isFalse nofun
  | x :: xs, y :: ys =>
    match decEq x y with
    | isFalse h => isFalse fun e => h (List.cons.inj e).1
    | isTrue h =>
      match decEqItems xs ys with
      | isFalse h' => isFalse fun e => h' (List.cons.inj e).2
      | isTrue h' => isTrue (h ▸ h' ▸ rfl)
termination_by structural a => a

def decEqFields : (a b : List (Text × Value)) → Decidable (a = b)
  | [], [] => isTrue rfl
  | [], _ :: _ | _ :: _, [] => isFalse nofun
  | (k, x) :: xs, (l, y) :: ys =>
    if hk : k = l then
      match decEq x y with
      | isFalse h => isFalse fun e => h (Prod.mk.inj (List.cons.inj e).1).2
      | isTrue h =>
        match decEqFields xs ys with
        | isFalse h' => isFalse fun e => h' (List.cons.inj e).2
        | isTrue h' => isTrue (hk ▸ h ▸ h' ▸ rfl)
    else isFalse fun e => hk (Prod.mk.inj (List.cons.inj e).1).1
termination_by structural a => a

end

instance : DecidableEq Value := decEq

end Value

end SuiteView
