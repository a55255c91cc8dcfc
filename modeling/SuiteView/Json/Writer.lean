import SuiteView.Text.Hex
import SuiteView.Value

/-!
# Writing JSON

Documents are written with one item or field a line, two blanks of indentation a level, and strings
in ASCII: every other code point is a numeric escape, a surrogate pair where it needs two units.
-/

namespace SuiteView.Json

/-! ### Strings -/

def unitEscape (n : Nat) : List Char := '\\' :: 'u' :: Text.hex 4 n

def escapeChar (c : Char) : List Char :=
  if c = '\x22' then ['\\', '\x22']
  else if c = '\\' then ['\\', '\\']
  else if c = '\n' then ['\\', 'n']
  else if c = '\r' then ['\\', 'r']
  else if c = '\t' then ['\\', 't']
  else if c = '\x0c' then ['\\', 'f']
  else if c = '\x08' then ['\\', 'b']
  else if ' ' ≤ c ∧ c ≤ '~' then [c]
  else if c.toNat < 0x10000 then unitEscape c.toNat
  else
    let n := c.toNat - 0x10000
    unitEscape (0xD800 + n / 0x400) ++ unitEscape (0xDC00 + n % 0x400)

def escapePoint : CodePoint → List Char
  | .char c => escapeChar c
  | .surrogate offset => unitEscape (CodePoint.surrogate offset).toNat

def writeString (s : Text) : List Char := '\x22' :: s.flatMap escapePoint ++ ['\x22']

/-! ### Values -/

def newline (level : Nat) : List Char := '\n' :: List.replicate (2 * level) ' '

mutual

def writeAt (level : Nat) : Value → List Char
  | .null => "null".toList
  | .bool true => "true".toList
  | .bool false => "false".toList
  | .int n => (toString n).toList
  | .number x => (x.render .json).toList
  | .string s => writeString s
  | .list [] => ['[', ']']
  | .list (v :: rest) =>
    '[' :: newline (level + 1) ++ writeAt (level + 1) v ++ writeItems (level + 1) rest ++
      newline level ++ [']']
  | .object [] => ['\x7b', '\x7d']
  | .object (field :: rest) =>
    '\x7b' :: newline (level + 1) ++ writeField (level + 1) field ++
      writeFields (level + 1) rest ++ newline level ++ ['\x7d']
termination_by structural v => v

def writeItems (level : Nat) : List Value → List Char
  | [] => []
  | v :: rest => ',' :: newline level ++ writeAt level v ++ writeItems level rest
termination_by structural items => items

def writeField (level : Nat) : Text × Value → List Char
  | (k, v) => writeString k ++ ':' :: ' ' :: writeAt level v
termination_by structural field => field

def writeFields (level : Nat) : List (Text × Value) → List Char
  | [] => []
  | field :: rest => ',' :: newline level ++ writeField level field ++ writeFields level rest
termination_by structural fields => fields

end

def write (v : Value) : String := String.ofList (writeAt 0 v)

end SuiteView.Json
