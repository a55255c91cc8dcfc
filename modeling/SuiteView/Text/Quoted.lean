import SuiteView.Text.Hex
import SuiteView.Text.Printable

/-!
# Quoted text

Messages show a text between quotes with every character that cannot be printed written as an
escape. The quotes are single unless the text holds a single quote and no double quote, so that as
few quotes as possible need an escape.
-/

namespace SuiteView.Text

def quoteMark (t : Text) : Char :=
  if t.contains (.char '\x27') && !t.contains (.char '\x22') then '\x22' else '\x27'

/-- The number of a code point behind a backslash, in two, four or eight hexadecimal digits. -/
def numericEscape (c : CodePoint) : List Char :=
  if c.toNat < 0x100 then '\\' :: 'x' :: hex 2 c.toNat
  else if c.toNat < 0x10000 then '\\' :: 'u' :: hex 4 c.toNat
  else '\\' :: 'U' :: hex 8 c.toNat

def escape (mark : Char) : CodePoint → List Char
  | .surrogate offset => numericEscape (.surrogate offset)
  | .char c =>
    if c = mark ∨ c = '\\' then ['\\', c]
    else if c = '\n' then ['\\', 'n']
    else if c = '\r' then ['\\', 'r']
    else if c = '\t' then ['\\', 't']
    else if isPrintable (.char c) then [c]
    else numericEscape (.char c)

def quote (t : Text) : String :=
  let mark := quoteMark t
  String.ofList (mark :: t.flatMap (escape mark) ++ [mark])

end SuiteView.Text
