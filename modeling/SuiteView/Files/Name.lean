import SuiteView.Text.Quoted
import SuiteView.Text.Utf8

/-!
# Names of files

A name in a directory is a sequence of bytes. The name that a text spells has its characters in UTF-8.
A lone second half of a surrogate pair from `U+DC80` to `U+DCFF` stands for a byte that is no
character, `0x80` to `0xFF`; no byte stands for any other lone half, and the text spells no name.
-/

namespace SuiteView

/-- A name in a directory. -/
abbrev FileName := List UInt8

namespace FileName

/-- The bytes of a code point; none for half of a surrogate pair for which no byte stands. -/
def pointBytes? : CodePoint → Option (List UInt8)
  | .char c => some (Text.encode (String.singleton c))
  | .surrogate offset =>
    if 0x480 ≤ offset.val ∧ offset.val ≤ 0x4FF then some [(offset.val - 0x400).toUInt8] else none

def ofText (t : Text) : FileName := t.flatMap fun c => (pointBytes? c).getD []

/-- The first place in a text that has no bytes, counted from a position. -/
def unencodable? (position : Nat) (t : Text) : Option (Nat × Text) :=
  t.unwritten? (fun c => (pointBytes? c).isSome) position

end FileName

end SuiteView
