import SuiteView.Text.Basic

/-!
# Shell patterns

In a pattern `*` stands for any characters, `?` for one, and brackets for one character of a set;
every other character stands for itself, and so does a bracket that is never closed. A set lists
characters and ranges, or with `!` in front the characters outside it. A hyphen makes a range when a
character stands on each side; a range whose ends are in the wrong order is dropped, ends included.
A set that is empty then holds nothing, and one of which only the `!` is left holds everything.
-/

namespace SuiteView

/-- A set of characters, by ranges; a single character is a range of its own. -/
structure CharSet where
  negated : Bool
  ranges : List (CodePoint × CodePoint)
deriving DecidableEq, Repr

def CharSet.contains (s : CharSet) (c : CodePoint) : Bool :=
  s.negated != s.ranges.any fun range => range.1.toNat ≤ c.toNat && c.toNat ≤ range.2.toNat

namespace Pattern

/-- A part of a pattern. -/
inductive Token where
  | anyText
  | anyChar
  | literal (c : CodePoint)
  | oneOf (set : CharSet)
deriving DecidableEq, Repr

/-! ### Sets -/

/-- The text between brackets and what follows them, for a pattern whose opening bracket was just
read. A closing bracket that comes first, or right behind `!`, belongs to the set. -/
def splitSet? (cs : Text) : Option (Text × Text) :=
  let lead := if cs.head? = some (.char '!') then 1 else 0
  let lead := if (cs.drop lead).head? = some (.char ']') then lead + 1 else lead
  let body := (cs.drop lead).takeWhile (· ≠ .char ']')
  match cs.drop (lead + body.length) with
  | _ :: rest => some (cs.take lead ++ body, rest)
  | [] => none

/-- The pieces between the hyphens that make ranges. `skip` characters belong to the piece without
question: one, two after a `!`, and two in every further piece. A hyphen at the very end is part of
the piece before it. -/
def cutAtHyphens : (fuel skip : Nat) → Text → List Text
  | 0, _, cs => [cs]
  | fuel + 1, skip, cs =>
    let piece := cs.take skip ++ (cs.drop skip).takeWhile (· ≠ .char '-')
    match cs.drop piece.length with
    | [] => [cs]
    | [.char '-'] => [cs]
    | _ :: rest => piece :: cutAtHyphens fuel 2 rest

/-- Joins neighbouring pieces whose range runs backwards, from the last pair to the first; the two
ends of the range are dropped. -/
def dropBackwardRanges : List Text → List Text
  | [] => []
  | piece :: rest =>
    match dropBackwardRanges rest with
    | [] => [piece]
    | next :: others =>
      match piece.getLast?, next.head? with
      | some low, some high =>
        if high.toNat < low.toNat then (piece.dropLast ++ next.tail) :: others else piece :: next :: others
      | _, _ => piece :: next :: others

/-- A character of a set, or a hyphen that makes a range. -/
inductive SetToken where
  | char (c : CodePoint)
  | hyphen
deriving DecidableEq, Repr

def setTokens : List Text → List SetToken
  | [] => []
  | [piece] => piece.map .char
  | piece :: rest => piece.map .char ++ .hyphen :: setTokens rest

/-- The character of a token; a hyphen that cannot make a range is one itself. -/
def SetToken.toPoint : SetToken → CodePoint
  | .char c => c
  | .hyphen => .char '-'

def ranges : List SetToken → List (CodePoint × CodePoint)
  | low :: .hyphen :: high :: rest => (low.toPoint, high.toPoint) :: ranges rest
  | t :: rest => (t.toPoint, t.toPoint) :: ranges rest
  | [] => []

def parseSet (body : Text) : CharSet :=
  let skip := if body.head? = some (.char '!') then 2 else 1
  match setTokens (dropBackwardRanges (cutAtHyphens body.length skip body)) with
  | .char (.char '!') :: rest => ⟨true, ranges rest⟩
  | tokens => ⟨false, ranges tokens⟩

/-! ### Patterns -/

/-- The parts of a pattern; `fuel` bounds their number. -/
def parseUpTo : (fuel : Nat) → Text → List Token
  | 0, _ => []
  | _, [] => []
  | fuel + 1, .char '*' :: rest => .anyText :: parseUpTo fuel rest
  | fuel + 1, .char '?' :: rest => .anyChar :: parseUpTo fuel rest
  | fuel + 1, .char '[' :: rest =>
    match splitSet? rest with
    | some (body, rest) => .oneOf (parseSet body) :: parseUpTo fuel rest
    | none => .literal (.char '[') :: parseUpTo fuel rest
  | fuel + 1, c :: rest => .literal c :: parseUpTo fuel rest

def parse (pattern : Text) : List Token := parseUpTo pattern.length pattern

def Token.accepts : Token → CodePoint → Bool
  | .anyText, _ => false
  | .anyChar, _ => true
  | .literal x, c => x = c
  | .oneOf set, c => set.contains c

/-- For every place of a row, whether the row holds there or anywhere after it. -/
def anyAfter : List Bool → List Bool
  | [] => []
  | b :: rest =>
    match anyAfter rest with
    | [] => [b]
    | later :: others => (b || later) :: later :: others

/-- For every end of a text, the whole first and the empty one last, whether the parts match it. -/
def matchRow : List Token → Text → List Bool
  | [], cs => cs.map (fun _ => false) ++ [true]
  | .anyText :: rest, cs => anyAfter (matchRow rest cs)
  | t :: rest, cs => List.zipWith (fun c b => t.accepts c && b) cs (matchRow rest cs).tail ++ [false]

def matchTokens (tokens : List Token) (cs : Text) : Bool :=
  (matchRow tokens cs).head?.getD false

def accepts (pattern text : Text) : Bool := matchTokens (parse pattern) text

end Pattern

end SuiteView
