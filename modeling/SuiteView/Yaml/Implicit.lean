import SuiteView.Text.Shape

/-!
# Plain scalars that are no strings

A plain scalar that has one of these shapes is read as something other than a string, by the implicit
types of YAML 1.1; a string that looks so has to be quoted.
-/

namespace SuiteView.Yaml

open Text Text.Shape

def digit : Shape := oneOf "0123456789"

def digitOrGap : Shape := oneOf "0123456789_"

def sign : Shape := optional (oneOf "+-")

def truthWord : Shape :=
  anyOf (["yes", "Yes", "YES", "no", "No", "NO", "true", "True", "TRUE", "false", "False", "FALSE",
    "on", "On", "ON", "off", "Off", "OFF"].map word)

def nullWord : Shape := anyOf (["~", "null", "Null", "NULL", ""].map word)

def sixtieths : Shape := inOrder [exactly ':', optional (oneOf "012345"), digit]

def integer : Shape :=
  .sequence sign (anyOf
    [inOrder [word "0b", some (oneOf "01_")],
      inOrder [exactly '0', some (oneOf "01234567_")],
      exactly '0',
      inOrder [oneOf "123456789", .many digitOrGap],
      inOrder [word "0x", some (oneOf "0123456789abcdefABCDEF_")],
      inOrder [oneOf "123456789", .many digitOrGap, some sixtieths]])

def exponent : Shape := inOrder [oneOf "eE", oneOf "+-", some digit]

def pointNumber : Shape :=
  anyOf
    [inOrder [sign, digit, .many digitOrGap, exactly '.', .many digitOrGap, optional exponent],
      inOrder [exactly '.', digit, .many digitOrGap, optional exponent],
      inOrder [sign, digit, .many digitOrGap, some sixtieths, exactly '.', .many digitOrGap],
      inOrder [sign, exactly '.', anyOf (["inf", "Inf", "INF"].map word)],
      inOrder [exactly '.', anyOf (["nan", "NaN", "NAN"].map word)]]

def oneOrTwoDigits : Shape := inOrder [digit, optional digit]

def zone : Shape :=
  inOrder [.many (oneOf " \t"), .choice (exactly 'Z')
    (inOrder [oneOf "+-", oneOrTwoDigits, optional (inOrder [exactly ':', digit, digit])])]

def timestamp : Shape :=
  .choice
    (inOrder [digit, digit, digit, digit, exactly '-', digit, digit, exactly '-', digit, digit])
    (inOrder [digit, digit, digit, digit, exactly '-', oneOrTwoDigits, exactly '-', oneOrTwoDigits,
      .choice (oneOf "Tt") (some (oneOf " \t")), oneOrTwoDigits, exactly ':', digit, digit,
      exactly ':', digit, digit, optional (inOrder [exactly '.', .many digit]), optional zone])

/-- The merge key, the value key and the marks of tags, anchors and aliases standing alone. -/
def reserved : Shape := anyOf (["<<", "=", "!", "&", "*"].map word)

def implicitTypes : Shape :=
  anyOf [truthWord, nullWord, integer, pointNumber, timestamp, reserved]

def readsAsString (cs : List Char) : Bool := !implicitTypes.holds cs

end SuiteView.Yaml
