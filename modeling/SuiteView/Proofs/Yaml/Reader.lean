import SuiteView.Json.Reader
import SuiteView.Text.Lines
import SuiteView.Yaml.Writer

/-!
# Reading documents

What a written document means is what a reader of YAML 1.1 makes of it. The reader here knows block
sequences, block mappings whose keys are bare names, empty collections, and scalars in the three
styles; it reads no text that holds anything else. Scalars run over line ends: in quotes and in plain
scalars alike a single line end becomes a space and a longer run loses its first.
-/

namespace SuiteView.Yaml

/-! ### Characters -/

/-- Whether a character may stand in a text at all. -/
def isReadable (c : Char) : Bool :=
  let n := c.toNat
  n = 0x09 || n = 0x0A || n = 0x0D || (0x20 ≤ n && n ≤ 0x7E) || n = 0x85 ||
    (0xA0 ≤ n && n ≤ 0xD7FF) || (0xE000 ≤ n && n ≤ 0xFFFD) || 0x10000 ≤ n

def isBlank (c : Char) : Bool := c = ' ' || c = '\t'

/-- What a line end is read as. Only the separators for lines and paragraphs are kept. -/
def readBreak (c : Char) : Char := if c = '\u2028' || c = '\u2029' then c else '\n'

/-- Whether a line starts with a mark between documents. -/
def startsDocument (line : List Char) : Bool :=
  ("---".toList.isPrefixOf line || "...".toList.isPrefixOf line) && startsSpaced (line.drop 3)

/-! ### Line ends in scalars -/

/-- What a scalar has passed since its last character: blanks, line ends with the blanks around them,
or a line end that was escaped and maybe more behind it. -/
inductive Gap where
  | blanks (cs : List Char)
  | lines (first : Char) (more : List Char)
  | continued (more : List Char)
deriving DecidableEq, Repr

namespace Gap

def nothing : Gap := .blanks []

def passBlank (c : Char) : Gap → Gap
  | .blanks cs => .blanks (cs ++ [c])
  | gap => gap

def passBreak (c : Char) : Gap → Gap
  | .blanks _ => .lines (readBreak c) []
  | .lines first more => .lines first (more ++ [readBreak c])
  | .continued more => .continued (more ++ [readBreak c])

def hasLine : Gap → Bool
  | .blanks _ => false
  | _ => true

/-- What a gap stands for in the text. -/
def shown : Gap → List Char
  | .blanks cs => cs
  | .lines first more =>
    if first ≠ '\n' then first :: more else if more.isEmpty then [' '] else more
  | .continued more => more

end Gap

/-- A reading with more in front. -/
def prepend {α : Type} (front : List α) (r : Option (List α × List Char)) :
    Option (List α × List Char) :=
  r.map fun (cs, rest) => (front ++ cs, rest)

/-! ### Quoted scalars -/

/-- The inside of a single-quoted scalar, and what stands behind its last quote. -/
def readSingle : Gap → List Char → Option (List Char × List Char)
  | _, [] => none
  | gap, c :: rest =>
    if c = '\x27' then
      match rest with
      | '\x27' :: rest => prepend (gap.shown ++ ['\x27']) (readSingle .nothing rest)
      | _ => some (gap.shown, rest)
    else if isBlank c then readSingle (gap.passBlank c) rest
    else if isBreak c then
      if startsDocument rest then none else readSingle (gap.passBreak c) rest
    else prepend (gap.shown ++ [c]) (readSingle .nothing rest)

/-- The character that a short escape stands for. -/
def unescape? (c : Char) : Option Char :=
  match c with
  | '0' => some '\x00'
  | 'a' => some '\x07'
  | 'b' => some '\x08'
  | 't' => some '\t'
  | '\t' => some '\t'
  | 'n' => some '\n'
  | 'v' => some '\x0b'
  | 'f' => some '\x0c'
  | 'r' => some '\r'
  | 'e' => some '\x1b'
  | ' ' => some ' '
  | '\x22' => some '\x22'
  | '/' => some '/'
  | '\\' => some '\\'
  | 'N' => some '\x85'
  | '_' => some '\u00a0'
  | 'L' => some '\u2028'
  | 'P' => some '\u2029'
  | _ => none

/-- The number of digits behind the letter of a long escape. -/
def escapeWidth? (c : Char) : Option Nat :=
  match c with
  | 'x' => some 2
  | 'u' => some 4
  | 'U' => some 8
  | _ => none

/-- Where a double-quoted scalar is being read: between characters, behind a backslash, or in front of
the last digits of a number. -/
inductive Place where
  | between (gap : Gap)
  | escape
  | digits (left value : Nat)
deriving DecidableEq, Repr

def asText (cs : List Char) : Text := cs.map .char

/-- The inside of a double-quoted scalar, and what stands behind its last quote. -/
def readDouble : Place → List Char → Option (Text × List Char)
  | _, [] => none
  | .between gap, c :: rest =>
    if c = '\x22' then some (asText gap.shown, rest)
    else if c = '\\' then prepend (asText gap.shown) (readDouble .escape rest)
    else if isBlank c then readDouble (.between (gap.passBlank c)) rest
    else if isBreak c then
      if startsDocument rest then none else readDouble (.between (gap.passBreak c)) rest
    else prepend (asText (gap.shown ++ [c])) (readDouble (.between .nothing) rest)
  | .escape, c :: rest =>
    if isBreak c then
      if startsDocument rest then none else readDouble (.between (.continued [])) rest
    else
      match escapeWidth? c, unescape? c with
      | some width, _ => readDouble (.digits width 0) rest
      | none, some d => prepend [.char d] (readDouble (.between .nothing) rest)
      | none, none => none
  | .digits left value, c :: rest =>
    match Text.hexValue? c with
    | none => none
    | some d =>
      let value := 16 * value + d
      if 1 < left then readDouble (.digits (left - 1) value) rest
      else if value ≤ 0x10FFFF then
        prepend [CodePoint.ofNat value] (readDouble (.between .nothing) rest)
      else none

/-! ### Plain scalars -/

def startsPlain : List Char → Bool
  | [] => false
  | c :: rest =>
    !isSpacing c && !isLeadingIndicator c &&
      !((c = '?' || c = ':' || c = '-') && startsSpaced rest)

/-- A plain scalar, and the line behind it. It goes on as long as its lines are indented by `limit`
columns. A comment or a key in its place is not read. -/
def readPlain (limit : Nat) : Gap → (column : Nat) → List Char → Option (List Char × List Char)
  | _, _, [] => some ([], [])
  | gap, column, c :: rest =>
    if c = ' ' then readPlain limit (gap.passBlank c) (column + 1) rest
    else if isBreak c then
      if startsDocument rest then none else readPlain limit (gap.passBreak c) 0 rest
    else if gap.hasLine && column < limit then some ([], padding column ++ c :: rest)
    else if c = '\t' || (c = '#' && !gap.shown.isEmpty) || (c = ':' && startsSpaced rest) then none
    else prepend (gap.shown ++ [c]) (readPlain limit .nothing (column + 1) rest)

def trueWord : Text.Shape :=
  Text.Shape.anyOf
    (["yes", "Yes", "YES", "true", "True", "TRUE", "on", "On", "ON"].map Text.Shape.word)

/-- A number in decimal digits without zeros in front. -/
def decimal? (cs : List Char) : Option Nat :=
  if !cs.isEmpty && cs.all Json.isDigit && (cs = ['0'] || cs.head? ≠ some '0') then
    some (Json.digitsValue cs)
  else none

/-- What a plain scalar stands for. Of the implicit types only those are read that a document has. -/
def resolve (cs : List Char) : Option Document :=
  match decimal? cs with
  | some n => some (.count n)
  | none =>
    if nullWord.holds cs then some .null
    else if truthWord.holds cs then some (.flag (trueWord.holds cs))
    else if readsAsString cs then some (.text (asText cs))
    else none

/-- What a quoted scalar gives when its line ends behind it. -/
def endQuoted : Option (Text × List Char) → Option (Document × List Char)
  | some (t, '\n' :: rest) => some (.text t, rest)
  | _ => none

/-- A scalar or an empty collection, and the line behind it. -/
def readScalar (limit : Nat) (cs : List Char) : Option (Document × List Char) :=
  match cs with
  | '\x27' :: rest => endQuoted ((readSingle .nothing rest).map fun (t, rest) => (asText t, rest))
  | '\x22' :: rest => endQuoted (readDouble (.between .nothing) rest)
  | '[' :: ']' :: '\n' :: rest => some (.sequence [], rest)
  | '\x7b' :: '\x7d' :: '\n' :: rest => some (.mapping [], rest)
  | _ =>
    if startsPlain cs then
      (readPlain limit .nothing 0 cs).bind fun (t, rest) => (resolve t).map fun d => (d, rest)
    else none

/-! ### Collections -/

def isNameChar (c : Char) : Bool := c.isAlphanum || c = '_'

/-- A key and what stands behind its colon. -/
def readKey (cs : List Char) : Option (String × List Char) :=
  match cs.dropWhile isNameChar with
  | ':' :: rest =>
    let name := cs.takeWhile isNameChar
    if readsAsString name && startsSpaced rest then some (String.ofList name, rest) else none
  | _ => none

def startsItem : List Char → Bool
  | '-' :: rest => startsSpaced rest
  | _ => false

def indentation (line : List Char) : Nat := (line.takeWhile isSpace).length

/-- A repeated key keeps its first place and takes its last value. -/
def putField (fields : List (String × Document)) (field : String × Document) :
    List (String × Document) :=
  if fields.any fun old => old.1 = field.1 then
    fields.map fun old => if old.1 = field.1 then field else old
  else fields ++ [field]

mutual

/-- What stands behind the dash of an item or the colon of a field that starts in the column `indent`,
and the line behind it. The items of a field's sequence may stand as far left as the field. -/
def readAfter : (fuel indent : Nat) → (inSequence : Bool) → List Char →
    Option (Document × List Char)
  | 0, _, _, _ => none
  | fuel + 1, indent, inSequence, cs =>
    match cs with
    | '\n' :: rest =>
      let column := indentation rest
      let body := rest.drop column
      if startsItem body && (indent < column || (indent = column && !inSequence)) then
        (readItems fuel column body).map fun (items, rest) => (.sequence items, rest)
      else if indent < column then
        (readFields fuel column body).map fun (fields, rest) =>
          (.mapping (fields.foldl putField []), rest)
      else some (.null, rest)
    | ' ' :: body =>
      if inSequence && startsItem body then
        (readItems fuel (indent + 2) body).map fun (items, rest) => (.sequence items, rest)
      else
        match readScalar (indent + 1) body with
        | some r => some r
        | none =>
          if inSequence then
            (readFields fuel (indent + 2) body).map fun (fields, rest) =>
              (.mapping (fields.foldl putField []), rest)
          else none
    | _ => none

/-- The items of a sequence whose dashes stand in a column, from the first dash on. -/
def readItems : (fuel column : Nat) → List Char → Option (List Document × List Char)
  | 0, _, _ => none
  | fuel + 1, column, cs =>
    match readAfter fuel column true (cs.drop 1) with
    | none => none
    | some (item, rest) =>
      if indentation rest = column && startsItem (rest.drop column) then
        (readItems fuel column (rest.drop column)).map fun (items, rest) => (item :: items, rest)
      else some ([item], rest)

/-- The fields of a mapping whose keys stand in a column, from the first key on. -/
def readFields : (fuel column : Nat) → List Char → Option (List (String × Document) × List Char)
  | 0, _, _ => none
  | fuel + 1, column, cs =>
    match readKey cs with
    | none => none
    | some (name, cs) =>
      match readAfter fuel column false cs with
      | none => none
      | some (d, rest) =>
        if indentation rest = column && !(rest.drop column).isEmpty then
          (readFields fuel column (rest.drop column)).map fun (fields, rest) =>
            ((name, d) :: fields, rest)
        else some ([(name, d)], rest)

end

/-- Reads a document that is a mapping. -/
def read (text : String) : Option Document :=
  let cs := Text.normalizeNewlines text.toList
  if cs.all isReadable then
    match readFields cs.length 0 cs with
    | some (fields, []) => some (.mapping (fields.foldl putField []))
    | _ => none
  else none

end SuiteView.Yaml
