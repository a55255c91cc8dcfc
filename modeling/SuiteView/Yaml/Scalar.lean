import SuiteView.Text.Basic
import SuiteView.Text.Hex
import SuiteView.Yaml.Implicit

/-!
# Scalars

A string is written plain when that reads back as the string, else in single quotes, and in double
quotes when it holds characters or blanks that the other two styles cannot carry. A line that is past
column 80 is folded at the next single space; in double quotes also behind an escape.
-/

namespace SuiteView.Yaml

def width : Nat := 80

/-! ### Characters -/

def isBreak (c : Char) : Bool := c = '\n' || c = '\x85' || c = '\u2028' || c = '\u2029'

def isSpacing (c : Char) : Bool := c = '\x00' || c = ' ' || c = '\t' || c = '\r' || isBreak c

def isOrdinary (c : Char) : Bool :=
  let n := c.toNat
  n = 0x0A || (0x20 ≤ n && n ≤ 0x7E) || n = 0x85 ||
    (((0xA0 ≤ n && n ≤ 0xFFFD) || (0x10000 ≤ n && n < 0x10FFFF)) && n ≠ 0xFEFF)

def isLeadingIndicator (c : Char) : Bool := "#,[]\x7b\x7d&*!|>'\"%@`".toList.contains c

/-! ### Choice of style -/

/-- How a string is written. -/
inductive Style where
  | plain
  | single
  | double
deriving DecidableEq, Repr

def startsSpaced (cs : List Char) : Bool := (cs.head?.map isSpacing).getD true

/-- Whether a colon that ends a word or a hash that starts one stands behind the first character. -/
def hasInnerIndicator (afterSpacing : Bool) : List Char → Bool
  | [] => false
  | c :: rest =>
    (c = ':' && startsSpaced rest) || (c = '#' && afterSpacing) ||
      hasInnerIndicator (isSpacing c) rest

/-- Whether the string would be taken for something else than a plain scalar. -/
def hasIndicators (cs : List Char) : Bool :=
  "---".toList.isPrefixOf cs || "...".toList.isPrefixOf cs ||
    match cs with
    | [] => false
    | c :: rest =>
      isLeadingIndicator c || ((c = '?' || c = ':' || c = '-') && startsSpaced rest) ||
        hasInnerIndicator (isSpacing c) rest

def hasNeighbours (p q : Char → Bool) : List Char → Bool
  | a :: b :: rest => (p a && q b) || hasNeighbours p q (b :: rest)
  | _ => false

def isSpace (c : Char) : Bool := c = ' '

/-- Whether single quotes can carry the string: only ordinary characters, and no space next to a
line break. -/
def allowsSingle (cs : List Char) : Bool :=
  cs.all isOrdinary && !hasNeighbours isBreak isSpace cs && !hasNeighbours isSpace isBreak cs

def allowsPlain (cs : List Char) : Bool :=
  allowsSingle cs && !cs.any isBreak && !hasIndicators cs &&
    cs.head? ≠ some ' ' && cs.getLast? ≠ some ' '

def styleOf (cs : List Char) : Style :=
  if readsAsString cs && allowsPlain cs then .plain
  else if allowsSingle cs then .single
  else .double

/-! ### Writing -/

def foldBreak (indent : Nat) : List Char := '\n' :: List.replicate indent ' '

def writePlain (indent : Nat) : (column : Nat) → (afterSpace : Bool) → List Char → List Char
  | _, _, [] => []
  | column, afterSpace, c :: rest =>
    if c = ' ' ∧ !afterSpace ∧ rest.head? ≠ some ' ' ∧ width < column then
      foldBreak indent ++ writePlain indent indent false rest
    else c :: writePlain indent (column + 1) (isSpace c) rest

/-- What stood before a character of a single-quoted scalar. -/
inductive Before where
  | start
  | word
  | space
  | lineBreak
deriving DecidableEq, Repr

/-- The inside of a single-quoted scalar from a column on. A quote is written twice and a run of line
breaks that starts with a newline gets a newline more, because a single one reads as a space. -/
def writeSingle (indent : Nat) : (column : Nat) → Before → List Char → List Char
  | _, .lineBreak, [] => List.replicate indent ' '
  | _, _, [] => []
  | column, before, c :: rest =>
    if isBreak c then
      (if c = '\n' ∧ before ≠ .lineBreak then ['\n', '\n'] else [c]) ++
        writeSingle indent 0 .lineBreak rest
    else
      let pad := if before = .lineBreak then List.replicate indent ' ' else []
      let column := if before = .lineBreak then indent else column
      if c = ' ' then
        if before = .word ∧ !rest.isEmpty ∧ rest.head? ≠ some ' ' ∧ width < column then
          pad ++ foldBreak indent ++ writeSingle indent indent .space rest
        else pad ++ ' ' :: writeSingle indent (column + 1) .space rest
      else if c = '\x27' then
        pad ++ '\x27' :: '\x27' :: writeSingle indent (column + 2) .word rest
      else pad ++ c :: writeSingle indent (column + 1) .word rest

def shortEscape? (c : Char) : Option Char :=
  match c with
  | '\x00' => some '0'
  | '\x07' => some 'a'
  | '\x08' => some 'b'
  | '\x09' => some 't'
  | '\x0a' => some 'n'
  | '\x0b' => some 'v'
  | '\x0c' => some 'f'
  | '\x0d' => some 'r'
  | '\x1b' => some 'e'
  | '\x22' => some '\x22'
  | '\\' => some '\\'
  | '\x85' => some 'N'
  | '\u2028' => some 'L'
  | '\u2029' => some 'P'
  | _ => none

def isVerbatim (c : Char) : Bool :=
  let n := c.toNat
  ((0x20 ≤ n && n ≤ 0x7E) || (0xA0 ≤ n && n ≤ 0xFFFD)) && c ≠ '\x22' && c ≠ '\\' &&
    c ≠ '\u2028' && c ≠ '\u2029' && c ≠ '\uFEFF'

/-- The character that double quotes carry for a code point, if it needs no escape. -/
def verbatim? : CodePoint → Option Char
  | .char c => if isVerbatim c then some c else none
  | .surrogate _ => none

/-- The escape of a code point: a short one, or its number in two, four or eight digits. -/
def escapeSequence (c : CodePoint) : List Char :=
  match c.char?.bind shortEscape? with
  | some letter => ['\\', letter]
  | none =>
    let digits := fun n => (Text.hex n c.toNat).map Char.toUpper
    if c.toNat ≤ 0xFF then '\\' :: 'x' :: digits 2
    else if c.toNat ≤ 0xFFFF then '\\' :: 'u' :: digits 4
    else '\\' :: 'U' :: digits 8

/-- A line end inside double quotes; a space that would start the next line is marked. -/
def continueLine (indent : Nat) (beforeSpace : Bool) : List Char :=
  '\\' :: foldBreak indent ++ (if beforeSpace then ['\\'] else [])

def continuedColumn (indent : Nat) (beforeSpace : Bool) : Nat :=
  if beforeSpace then indent + 1 else indent

/-- The inside of a double-quoted scalar from a column on. Lines are not folded in front of the
first or the last character. -/
def writeDouble (indent : Nat) :
    (column : Nat) → (first afterEscape : Bool) → Text → List Char
  | _, _, _, [] => []
  | column, first, afterEscape, c :: rest =>
    let inside := !first && !rest.isEmpty
    match verbatim? c with
    | some c =>
      if inside ∧ (c = ' ' ∨ afterEscape) ∧ width < column then
        continueLine indent (isSpace c) ++
          c :: writeDouble indent (continuedColumn indent (isSpace c) + 1) false false rest
      else c :: writeDouble indent (column + 1) false false rest
    | none =>
      let escaped := escapeSequence c
      let column := column + escaped.length
      let nextSpace := rest.head? = some (.char ' ')
      if inside ∧ width + 1 < column then
        escaped ++ continueLine indent nextSpace ++
          writeDouble indent (continuedColumn indent nextSpace) false true rest
      else escaped ++ writeDouble indent column false true rest

/-- A text from a column on; its further lines get the given indentation. Only double quotes can carry
half of a surrogate pair. -/
def writeText (indent column : Nat) (t : Text) : List Char :=
  let quoted := '\x22' :: writeDouble indent (column + 1) true false t ++ ['\x22']
  match t.chars? with
  | none => quoted
  | some cs =>
    match styleOf cs with
    | .plain => writePlain indent column false cs
    | .single => '\x27' :: writeSingle indent (column + 1) .start cs ++ ['\x27']
    | .double => quoted

end SuiteView.Yaml
