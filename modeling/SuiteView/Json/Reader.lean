import SuiteView.Text.Lines
import SuiteView.Value

/-!
# Reading JSON

The reader takes the grammar of RFC 8259 and, besides, the number names `NaN`, `Infinity` and
`-Infinity`. A fault names the first place where no document can continue. An integer of more than
4300 digits is refused where it stands, before anything behind it is looked at. A field that is
repeated keeps its first place and takes its last value. Values may be nested to any depth: recursion is
taken to be unbounded, and a limit that a machine sets to the depth of its stack is left out.
-/

namespace SuiteView.Json

/-! ### Faults -/

/-- What is wrong at a place. -/
inductive Fault where
  | expectedValue
  | expectedKey
  | expectedColon
  | expectedComma
  | extraData
  | unterminatedString
  | invalidEscape
  | invalidUnicodeEscape
  | controlCharacter
  | byteOrderMark
deriving DecidableEq, Repr

def Fault.message : Fault → String
  | .expectedValue => "Expecting value"
  | .expectedKey => "Expecting property name enclosed in double quotes"
  | .expectedColon => "Expecting ':' delimiter"
  | .expectedComma => "Expecting ',' delimiter"
  | .extraData => "Extra data"
  | .unterminatedString => "Unterminated string starting at"
  | .invalidEscape => "Invalid \\escape"
  | .invalidUnicodeEscape => "Invalid \\uXXXX escape"
  | .controlCharacter => "Invalid control character at"
  | .byteOrderMark => "Unexpected UTF-8 BOM (decode using utf-8-sig)"

/-- Why a text was not read: a fault at a position, or an integer with too many digits. Their number
is told where they have been counted. -/
inductive ReadError where
  | malformed (fault : Fault) (position : Nat)
  | integerTooLong (digits : Option Nat)
deriving DecidableEq, Repr

def maxIntegerDigits : Nat := 4300

def ReadError.message (document : List Char) : ReadError → String
  | .malformed fault position =>
    fault.message ++ ": line " ++ toString (Text.lineAt document position) ++ " column " ++
      toString (Text.columnAt document position) ++ " (char " ++ toString position ++ ")"
  | .integerTooLong digits =>
    "Exceeds the limit (" ++ toString maxIntegerDigits ++
      " digits) for integer string conversion" ++
      (digits.elim "" fun n => ": value has " ++ toString n ++ " digits") ++
      "; use sys.set_int_max_str_digits() to increase the limit"

/-! ### Cursors -/

/-- A place in the document: the characters before it are counted, those after it kept. -/
structure Cursor where
  position : Nat
  rest : List Char
deriving DecidableEq, Repr

/-- What a part of the reader gives: what it read and where it stopped. -/
abbrev Step (α : Type) := Except ReadError (α × Cursor)

def faultAt {α : Type} (fault : Fault) (position : Nat) : Except ReadError α :=
  .error (.malformed fault position)

def isBlank (c : Char) : Bool := c = ' ' || c = '\t' || c = '\n' || c = '\r'

def Cursor.skipBlanks (c : Cursor) : Cursor :=
  let blanks := c.rest.takeWhile isBlank
  ⟨c.position + blanks.length, c.rest.drop blanks.length⟩

def Cursor.after? (c : Cursor) (word : String) : Option Cursor :=
  if word.toList.isPrefixOf c.rest then
    some ⟨c.position + word.toList.length, c.rest.drop word.toList.length⟩
  else none

/-! ### Strings -/

def simpleEscape? : Char → Option Char
  | '\x22' => some '\x22'
  | '\\' => some '\\'
  | '/' => some '/'
  | 'b' => some '\x08'
  | 'f' => some '\x0c'
  | 'n' => some '\n'
  | 'r' => some '\r'
  | 't' => some '\t'
  | _ => none

def isHighSurrogate (n : Nat) : Bool := 0xD800 ≤ n && n ≤ 0xDBFF

def isLowSurrogate (n : Nat) : Bool := 0xDC00 ≤ n && n ≤ 0xDFFF

def joinSurrogates (high low : Nat) : CodePoint :=
  .ofNat (0x10000 + 0x400 * (high - 0xD800) + (low - 0xDC00))

def consPoint (c : CodePoint) (r : Step Text) : Step Text :=
  r.map fun (t, cursor) => (c :: t, cursor)

/-- The code point of a numeric escape whose letter stands at position `p`, and how many characters
behind the letter belong to it: four, or ten for a surrogate pair. A closing quote must follow
somewhere, so at least one character is left over. -/
def readUnit (p : Nat) : List Char → Except ReadError (CodePoint × Nat)
  | a :: b :: c :: d :: next :: rest =>
    match Text.readHex [a, b, c, d] with
    | none => faultAt .invalidUnicodeEscape p
    | some high =>
      match isHighSurrogate high, next, rest with
      | true, '\\', 'u' :: e :: f :: g :: h :: _ :: _ =>
        match Text.readHex [e, f, g, h] with
        | none => faultAt .invalidUnicodeEscape (p + 6)
        | some low =>
          if isLowSurrogate low then .ok (joinSurrogates high low, 10) else .ok (.ofNat high, 4)
      | _, _, _ => .ok (.ofNat high, 4)
  | _ => faultAt .invalidUnicodeEscape p

def readChars (opening : Nat) : Nat → List Char → Step Text
  | _, [] => faultAt .unterminatedString opening
  | p, '\x22' :: rest => .ok ([], ⟨p + 1, rest⟩)
  | _, ['\\'] => faultAt .unterminatedString opening
  | p, '\\' :: 'u' :: rest =>
    match readUnit (p + 1) rest with
    | .error e => .error e
    | .ok (c, n) => consPoint c (readChars opening (p + 2 + n) (rest.drop n))
  | p, '\\' :: e :: rest =>
    match simpleEscape? e with
    | some c => consPoint (.char c) (readChars opening (p + 2) rest)
    | none => faultAt .invalidEscape p
  | p, c :: rest =>
    if c < ' ' then faultAt .controlCharacter p
    else consPoint (.char c) (readChars opening (p + 1) rest)
termination_by _ cs => cs.length
decreasing_by all_goals simp +arith

def readString (c : Cursor) : Step Text := readChars (c.position - 1) c.position c.rest

/-! ### Numbers -/

def isDigit (c : Char) : Bool := '0' ≤ c && c ≤ '9'

def digitsValue (ds : List Char) : Nat := ds.foldl (fun n d => 10 * n + (d.toNat - 48)) 0

/-- The digits of an integer part: a single zero, or digits that do not start with zero. -/
def integerDigits : List Char → List Char
  | '0' :: _ => ['0']
  | cs => cs.takeWhile isDigit

def fractionDigits : List Char → List Char
  | '.' :: cs => cs.takeWhile isDigit
  | _ => []

/-- The spelling of an exponent: its sign and its digits, when a digit is there. -/
def exponentParts : List Char → Option (List Char × List Char)
  | [] => none
  | mark :: cs =>
    if mark = 'e' ∨ mark = 'E' then
      let sign := match cs with
        | '+' :: _ => ['+']
        | '-' :: _ => ['-']
        | _ => []
      let digits := (cs.drop sign.length).takeWhile isDigit
      if digits.isEmpty then none else some (sign, digits)
    else none

/-- A number at the cursor, or `none` when no digit is there. With a fraction or an exponent it is a
number in double precision, else an integer. -/
def readNumber? (c : Cursor) : Option (Step Value) :=
  let negative := c.rest.head? = some '-'
  let body := if negative then c.rest.tail else c.rest
  let start := if negative then c.position + 1 else c.position
  let whole := integerDigits body
  if whole.isEmpty then none
  else
    let afterWhole := body.drop whole.length
    let fraction := fractionDigits afterWhole
    let fractionLength := if fraction.isEmpty then 0 else fraction.length + 1
    let afterFraction := afterWhole.drop fractionLength
    let position := start + whole.length + fractionLength
    match exponentParts afterFraction with
    | some (sign, digits) =>
      let n : Int := digitsValue digits
      let exponent := (if sign = ['-'] then -n else n) - fraction.length
      let length := 1 + sign.length + digits.length
      some (.ok (.number (Double.ofDecimal negative (digitsValue (whole ++ fraction)) exponent),
        ⟨position + length, afterFraction.drop length⟩))
    | none =>
      if !fraction.isEmpty then
        some (.ok (.number
          (Double.ofDecimal negative (digitsValue (whole ++ fraction)) (-fraction.length)),
          ⟨position, afterFraction⟩))
      else if maxIntegerDigits < whole.length then some (.error (.integerTooLong (some whole.length)))
      else
        let n : Int := digitsValue whole
        some (.ok (.int (if negative then -n else n), ⟨position, afterFraction⟩))

/-! ### Values -/

def namedValues : List (String × Value) :=
  [("null", .null), ("true", .bool true), ("false", .bool false), ("NaN", .number .nan),
    ("Infinity", .number (.infinite false)), ("-Infinity", .number (.infinite true))]

def readScalar (c : Cursor) : Step Value :=
  match namedValues.findSome? fun (word, v) => (c.after? word).map fun cursor => (v, cursor) with
  | some r => .ok r
  | none => (readNumber? c).getD (faultAt .expectedValue c.position)

mutual

/-- A value at the cursor. `fuel` bounds the number of nested calls. -/
def readValue : (fuel : Nat) → Cursor → Except ReadError (Value × Cursor)
  | 0, c => faultAt .expectedValue c.position
  | fuel + 1, c =>
    match c.rest with
    | '\x22' :: rest =>
      (readString ⟨c.position + 1, rest⟩).map fun (s, cursor) => (.string s, cursor)
    | '\x7b' :: rest =>
      let inner := Cursor.skipBlanks ⟨c.position + 1, rest⟩
      match inner.rest with
      | '\x7d' :: rest => .ok (.object [], ⟨inner.position + 1, rest⟩)
      | _ => (readFields fuel inner).map fun (fields, cursor) =>
        (.object (Table.ofEntries fields), cursor)
    | '[' :: rest =>
      let inner := Cursor.skipBlanks ⟨c.position + 1, rest⟩
      match inner.rest with
      | ']' :: rest => .ok (.list [], ⟨inner.position + 1, rest⟩)
      | _ => (readItems fuel inner).map fun (items, cursor) => (.list items, cursor)
    | _ => readScalar c

/-- The items of a list from an item on, up to and with the closing bracket. -/
def readItems : (fuel : Nat) → Cursor → Except ReadError (List Value × Cursor)
  | 0, c => faultAt .expectedValue c.position
  | fuel + 1, c => do
    let (v, cursor) ← readValue fuel c
    let cursor := cursor.skipBlanks
    match cursor.rest with
    | ']' :: rest => .ok ([v], ⟨cursor.position + 1, rest⟩)
    | ',' :: rest =>
      let (vs, cursor) ← readItems fuel (Cursor.skipBlanks ⟨cursor.position + 1, rest⟩)
      .ok (v :: vs, cursor)
    | _ => faultAt .expectedComma cursor.position

/-- The fields of an object from a field on, up to and with the closing brace. -/
def readFields : (fuel : Nat) → Cursor → Except ReadError (List (Text × Value) × Cursor)
  | 0, c => faultAt .expectedKey c.position
  | fuel + 1, c => do
    match c.rest with
    | '\x22' :: rest =>
      let (k, cursor) ← readString ⟨c.position + 1, rest⟩
      let cursor := cursor.skipBlanks
      match cursor.rest with
      | ':' :: rest =>
        let (v, cursor) ← readValue fuel (Cursor.skipBlanks ⟨cursor.position + 1, rest⟩)
        let cursor := cursor.skipBlanks
        match cursor.rest with
        | '\x7d' :: rest => .ok ([(k, v)], ⟨cursor.position + 1, rest⟩)
        | ',' :: rest =>
          let (fields, cursor) ← readFields fuel (Cursor.skipBlanks ⟨cursor.position + 1, rest⟩)
          .ok ((k, v) :: fields, cursor)
        | _ => faultAt .expectedComma cursor.position
      | _ => faultAt .expectedColon cursor.position
    | _ => faultAt .expectedKey c.position

end

/-- Reads a whole document: one value between blanks. Every bracket costs two calls at most, so
twice the length of the document bounds their number. -/
def read (document : List Char) : Except ReadError Value :=
  if document.head? = some '\uFEFF' then faultAt .byteOrderMark 0
  else do
    let start := Cursor.skipBlanks ⟨0, document⟩
    let (v, cursor) ← readValue (2 * document.length + 2) start
    let cursor := cursor.skipBlanks
    if cursor.rest.isEmpty then .ok v else faultAt .extraData cursor.position

end SuiteView.Json
