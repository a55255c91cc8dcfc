import SuiteView.Text.Basic

/-!
# Paths

A path is a list of names with or without slashes in front. Its text is normalised: repeated slashes
count as one, a dot that stands for the directory itself is dropped, and a path without names is
written as a dot. Exactly two slashes in front are kept apart from one; more than two count as one.
A name of two dots is kept, since what it leads to depends on the files that are there.
-/

namespace SuiteView

/-- Where a path starts. -/
inductive Anchor where
  | here
  | top
  | doubleTop
deriving DecidableEq, Repr

/-- A path. -/
structure Path where
  anchor : Anchor
  parts : List Text
deriving DecidableEq, Repr

namespace Path

def slashes : Anchor → Text
  | .here => ""
  | .top => "/"
  | .doubleTop => "//"

def anchorOf : Nat → Anchor
  | 0 => .here
  | 2 => .doubleTop
  | _ => .top

def splitAtSlashes : Text → List Text
  | [] => [[]]
  | c :: rest =>
    if c = .char '/' then [] :: splitAtSlashes rest
    else
      match splitAtSlashes rest with
      | [] => [[c]]
      | piece :: pieces => (c :: piece) :: pieces

def ofText (text : Text) : Path :=
  ⟨anchorOf (text.takeWhile (· = .char '/')).length,
    (splitAtSlashes text).filter fun piece => piece ≠ [] ∧ piece ≠ "."⟩

def text (p : Path) : Text :=
  let text := slashes p.anchor ++ Text.join "/" p.parts
  if text.isEmpty then "." else text

/-- The path without its last name; a path without names is its own parent. -/
def parent (p : Path) : Path := { p with parts := p.parts.dropLast }

end Path

end SuiteView
