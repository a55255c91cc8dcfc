/-!
# Texts

A text is a sequence of code points. Besides characters it may hold halves of surrogate pairs that
stand alone: an escape in JSON can spell one, but no file and no name of a file can carry it. Texts
of the program's own are written as strings.
-/

namespace SuiteView

/-- A Unicode code point: a character, or half of a surrogate pair, by its distance from the first. -/
inductive CodePoint where
  | char (c : Char)
  | surrogate (offset : Fin 0x800)
deriving DecidableEq, Repr

/-- A sequence of code points. -/
abbrev Text := List CodePoint

namespace CodePoint

def toNat : CodePoint → Nat
  | .char c => c.toNat
  | .surrogate offset => 0xD800 + offset

def ofNat (n : Nat) : CodePoint :=
  if h : 0xD800 ≤ n ∧ n < 0xE000 then .surrogate ⟨n - 0xD800, by omega⟩ else .char (Char.ofNat n)

def char? : CodePoint → Option Char
  | .char c => some c
  | .surrogate _ => none

def isSurrogate : CodePoint → Bool
  | .char _ => false
  | .surrogate _ => true

theorem toNat_injective {a b : CodePoint} (h : a.toNat = b.toNat) : a = b := by
  have hvalid (c : Char) : c.toNat < 0xD800 ∨ 0xDFFF < c.toNat := by
    rcases c.valid with h | h
    · exact .inl h
    · exact .inr h.1
  cases a with
  | char c =>
    cases b with
    | char d => exact congrArg _ (Char.ext (UInt32.toNat_inj.mp h))
    | surrogate n =>
      have := hvalid c
      simp only [toNat] at h
      omega
  | surrogate m =>
    cases b with
    | char d =>
      have := hvalid d
      simp only [toNat] at h
      omega
    | surrogate n =>
      simp only [toNat] at h
      exact congrArg _ (Fin.ext (by omega))

end CodePoint

namespace Text

def ofString (s : String) : Text := s.toList.map .char

instance : Coe String Text := ⟨ofString⟩

def chars? : Text → Option (List Char)
  | [] => some []
  | .char c :: rest => (chars? rest).map (c :: ·)
  | .surrogate _ :: _ => none

/-- The string that shows a text; lone halves of surrogate pairs are replaced. -/
def asString (t : Text) : String := String.ofList (t.map fun c => c.char?.getD '\uFFFD')

/-- The first place of a text that is not written, counted from a position: the position, and the
halves of surrogate pairs that follow each other there. -/
def unwritten? (writes : CodePoint → Bool) (position : Nat) : Text → Option (Nat × Text)
  | [] => none
  | c :: rest =>
    if writes c then unwritten? writes (position + 1) rest
    else some (position, (c :: rest).takeWhile CodePoint.isSurrogate)

def join (separator : Text) (ts : List Text) : Text := List.intercalate separator ts

/-- Whether a text comes before another or is equal to it, by the numbers of their code points. -/
def le (a b : Text) : Bool := !decide (b.map CodePoint.toNat < a.map CodePoint.toNat)

theorem unwritten?_eq_none_iff {writes : CodePoint → Bool} {position : Nat} {t : Text} :
    t.unwritten? writes position = none ↔ ∀ c ∈ t, writes c = true := by
  induction t generalizing position with
  | nil => simp [unwritten?]
  | cons c rest ih => cases h : writes c <;> simp [unwritten?, h, ih]

theorem unwritten?_append {writes : CodePoint → Bool} {head : Text}
    (hhead : ∀ c ∈ head, writes c = true) (position : Nat) (t : Text) :
    (head ++ t).unwritten? writes position = t.unwritten? writes (position + head.length) := by
  induction head generalizing position with
  | nil => rfl
  | cons c head ih =>
    obtain ⟨hc, hrest⟩ := List.forall_mem_cons.mp hhead
    have hlength : position + 1 + head.length = position + (c :: head).length := by
      rw [List.length_cons]
      omega
    rw [List.cons_append, unwritten?, if_pos hc, ih hrest, hlength]

theorem unwritten?_cons {writes : CodePoint → Bool} {c : CodePoint} (hc : writes c = false)
    (position : Nat) (rest : Text) : unwritten? writes position (c :: rest) =
      some (position, (c :: rest).takeWhile CodePoint.isSurrogate) := by
  rw [unwritten?, if_neg (by simp [hc])]

theorem exists_of_unwritten?_eq_some {writes : CodePoint → Bool} {position : Nat} {t : Text}
    {place : Nat × Text} (h : t.unwritten? writes position = some place) :
    ∃ head c tail, t = head ++ c :: tail ∧ (∀ d ∈ head, writes d = true) ∧ writes c = false := by
  induction t generalizing position with
  | nil => cases h
  | cons c rest ih =>
    cases hc : writes c with
    | false => exact ⟨[], c, rest, rfl, nofun, hc⟩
    | true =>
      rw [unwritten?, if_pos hc] at h
      obtain ⟨head, d, tail, rfl, hhead, hd⟩ := ih h
      exact ⟨c :: head, d, tail, rfl, List.forall_mem_cons.mpr ⟨hc, hhead⟩, hd⟩

theorem chars?_map (cs : List Char) : chars? (cs.map .char) = some cs := by
  induction cs with
  | nil => rfl
  | cons c cs ih => simp [chars?, ih]

end Text

end SuiteView
