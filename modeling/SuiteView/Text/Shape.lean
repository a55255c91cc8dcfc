/-!
# Regular shapes of text

A shape describes a set of texts by characters, sequence, choice and repetition. Membership is
decided one character at a time: what may follow a character is again a shape.
-/

namespace SuiteView.Text

/-- A set of texts. -/
inductive Shape where
  | nothing
  | blank
  | char (p : Char → Bool)
  | sequence (first second : Shape)
  | choice (left right : Shape)
  | many (item : Shape)

namespace Shape

def holdsEmpty : Shape → Bool
  | .nothing => false
  | .blank => true
  | .char _ => false
  | .sequence a b => a.holdsEmpty && b.holdsEmpty
  | .choice a b => a.holdsEmpty || b.holdsEmpty
  | .many _ => true

def followedBy : Shape → Shape → Shape
  | .nothing, _ => .nothing
  | .blank, b => b
  | a, b => .sequence a b

def orElse : Shape → Shape → Shape
  | .nothing, b => b
  | a, .nothing => a
  | a, b => .choice a b

def after (c : Char) : Shape → Shape
  | .nothing => .nothing
  | .blank => .nothing
  | .char p => if p c then .blank else .nothing
  | .sequence a b =>
    if a.holdsEmpty then ((a.after c).followedBy b).orElse (b.after c)
    else (a.after c).followedBy b
  | .choice a b => (a.after c).orElse (b.after c)
  | .many a => (a.after c).followedBy (.many a)

def holds : Shape → List Char → Bool
  | s, [] => s.holdsEmpty
  | s, c :: cs => (s.after c).holds cs

/-! ### Building shapes -/

def exactly (c : Char) : Shape := .char (· = c)

def oneOf (choices : String) : Shape := .char fun c => choices.toList.contains c

def word (w : String) : Shape := w.toList.foldr (fun c s => .sequence (exactly c) s) .blank

def anyOf (shapes : List Shape) : Shape := shapes.foldr .choice .nothing

def inOrder (shapes : List Shape) : Shape := shapes.foldr .sequence .blank

def optional (s : Shape) : Shape := .choice .blank s

def some (s : Shape) : Shape := .sequence s (.many s)

end Shape

end SuiteView.Text
