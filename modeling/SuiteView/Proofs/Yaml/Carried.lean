import SuiteView.Proofs.Yaml.Double

/-!
# What a written document carries

A document is read as it was but for its texts: each is read as the quotes around it carry it. So a
document comes back as it was just if each of its texts does, in the place where it is written.
-/

namespace SuiteView.Yaml

/-! ### Texts -/

/-- What a text is read as that is written with an indentation. -/
def carriedText (indent : Nat) (t : Text) : Text :=
  match t.chars?.map styleOf with
  | some .plain => t
  | some .single => asText (carrySingle false (t.chars?.getD []))
  | _ => carryDouble (width ≤ indent) true false t

-- irreducible, because unfolding it on a given text evaluates the text
/-- Whether a text is read as it was: in single quotes it must hold no next-line character, and in
double quotes behind a full line of indentation no space inside it may follow an escape inside it. -/
@[irreducible] def Carries (indent : Nat) (t : Text) : Prop :=
  match t.chars?.map styleOf with
  | some .plain => True
  | some .single => .char '\x85' ∉ t
  | _ => width ≤ indent → ∀ c, verbatim? c = none → ¬ [c, .char ' '] <:+: t.tail.dropLast

theorem chars?_eq_some_iff {t : Text} {cs : List Char} : t.chars? = some cs ↔ t = asText cs := by
  constructor
  · intro h
    induction t generalizing cs with
    | nil => rw [← Option.some.inj h]; rfl
    | cons c t ih =>
      cases c with
      | surrogate offset => cases h
      | char c =>
        obtain ⟨rest, hrest, rfl⟩ := Option.map_eq_some_iff.mp h
        rw [ih hrest]
        rfl
  · rintro rfl
    exact Text.chars?_map cs

theorem carriedText_eq_self_iff (indent : Nat) (t : Text) :
    carriedText indent t = t ↔ Carries indent t := by
  unfold carriedText Carries
  split
  · simp
  · rename_i hsingle
    obtain ⟨cs, hcs, -⟩ := Option.map_eq_some_iff.mp hsingle
    obtain rfl := chars?_eq_some_iff.mp hcs
    have hinj : Function.Injective asText :=
      List.map_injective_iff.mpr fun a b h => CodePoint.char.inj h
    rw [hcs, Option.getD_some, hinj.eq_iff, carrySingle_eq_self_iff]
    simp [asText]
  · rw [carryDouble_eq_self_iff, decide_eq_true_eq]

section Text

variable {limit indent column : Nat} {rest : List Char}

theorem readScalar_double (hindent : 0 < indent) (hcolumn : indent ≤ column) (t : Text) :
    readScalar limit ('\x22' :: (writeDouble indent column true false t ++ '\x22' :: '\n' :: rest)) =
      some (.text (carryDouble (width ≤ indent) true false t), rest) := by
  have hstart : Resumed indent t column true false false (.between .nothing) := .blanks [] (by simp)
  have hread := readDouble_writeDouble hindent ('\n' :: rest) hcolumn hstart
  unfold readScalar
  simp only [hread]
  rfl

theorem readScalar_single (hindent : 0 < indent) {cs : List Char} (h : allowsSingle cs = true)
    (column : Nat) :
    readScalar limit ('\x27' :: (writeSingle indent column .start cs ++ '\x27' :: '\n' :: rest)) =
      some (.text (asText (carrySingle false cs)), rest) := by
  simp only [allowsSingle, Bool.and_eq_true, List.all_eq_true, Bool.not_eq_true'] at h
  obtain ⟨⟨hord, hspaced⟩, hbroken⟩ := h
  have hquote : ('\n' :: rest).head? ≠ some '\x27' := by simp
  have hstart : PassedQuoted cs .start .nothing := .start
  have hread := readSingle_writeSingle hindent hquote column hstart hord hspaced hbroken
    (by simp) (by simp)
  unfold readScalar
  simp only [hread]
  simp [endQuoted, pending, Gap.nothing, Gap.shown]

theorem styleOf_facts (cs : List Char) :
    (styleOf cs = .plain → readsAsString cs = true ∧ allowsPlain cs = true) ∧
      (styleOf cs = .single → allowsSingle cs = true) := by
  unfold styleOf
  split_ifs with hplain hsingle
  · simpa using hplain
  · simpa using hsingle
  · simp

theorem startsItem_of_startsPlain {cs : List Char} (h : startsPlain cs = true) :
    startsItem cs = false := by
  cases cs with
  | nil => rfl
  | cons c cs =>
    unfold startsItem
    split
    · rename_i heq
      obtain ⟨rfl, rfl⟩ := List.cons.inj heq
      simpa [startsPlain, isSpacing, isLeadingIndicator, isBreak] using h
    · rfl

/-- A text is read up to its line end, and does not look like an item. -/
theorem readScalar_writeText (hlimit : limit ≤ indent) (hindent : 0 < indent)
    (hcolumn : indent ≤ column + 1) (hend : EndsBefore limit rest) (t : Text) :
    readScalar limit (writeText indent column t ++ '\n' :: rest) =
        some (.text (carriedText indent t), rest) ∧
      startsItem (writeText indent column t ++ '\n' :: rest) = false := by
  have hdouble : readScalar limit ('\x22' :: (writeDouble indent (column + 1) true false t ++
      '\x22' :: '\n' :: rest)) =
        some (.text (carryDouble (width ≤ indent) true false t), rest) :=
    readScalar_double hindent hcolumn t
  unfold writeText carriedText
  cases hchars : t.chars? with
  | none =>
    simp only [Option.map_none, List.append_assoc, List.cons_append, List.nil_append]
    exact ⟨hdouble, rfl⟩
  | some cs =>
    obtain rfl := chars?_eq_some_iff.mp hchars
    obtain ⟨hplain, hsingle⟩ := styleOf_facts cs
    cases hstyle : styleOf cs with
    | plain =>
      obtain ⟨hstring, hallows⟩ := hplain hstyle
      have hne : cs ≠ [] := by
        rintro rfl
        revert hstring
        decide
      simp only [Option.map_some, hstyle]
      refine ⟨?_, startsItem_of_startsPlain (startsPlain_writePlain hne hallows indent column rest)⟩
      rw [readScalar_writePlain hlimit hindent hend hne hallows column, resolve_string hstring]
      rfl
    | single =>
      simp only [Option.map_some, hstyle, List.append_assoc, List.cons_append, List.nil_append]
      exact ⟨readScalar_single hindent (hsingle hstyle) (column + 1), rfl⟩
    | double =>
      simp only [Option.map_some, hstyle, List.append_assoc, List.cons_append, List.nil_append]
      exact ⟨hdouble, rfl⟩

end Text

/-! ### Documents -/

mutual

/-- What a document is read as that is written behind the dash or the key in the column `indent`. -/
def carriedAfter (indent : Nat) (inSequence : Bool) : Document → Document
  | .text s => .text (carriedText (indent + 2) s)
  | .sequence items => .sequence (carriedItems (if inSequence then indent + 2 else indent) items)
  | .mapping fields => .mapping (carriedFields (indent + 2) fields)
  | d => d
termination_by structural d => d

def carriedItems (indent : Nat) : List Document → List Document
  | [] => []
  | item :: rest => carriedAfter indent true item :: carriedItems indent rest
termination_by structural items => items

def carriedFields (indent : Nat) : List (String × Document) → List (String × Document)
  | [] => []
  | field :: rest => carriedField indent field :: carriedFields indent rest
termination_by structural fields => fields

def carriedField (indent : Nat) : String × Document → String × Document
  | (name, d) => (name, carriedAfter indent false d)
termination_by structural field => field

end

mutual

/-- The texts of a document, each with the indentation that its further lines get. -/
def textsAfter (indent : Nat) (inSequence : Bool) : Document → List (Nat × Text)
  | .text s => [(indent + 2, s)]
  | .sequence items => textsOfItems (if inSequence then indent + 2 else indent) items
  | .mapping fields => textsOfFields (indent + 2) fields
  | _ => []
termination_by structural d => d

def textsOfItems (indent : Nat) : List Document → List (Nat × Text)
  | [] => []
  | item :: rest => textsAfter indent true item ++ textsOfItems indent rest
termination_by structural items => items

def textsOfFields (indent : Nat) : List (String × Document) → List (Nat × Text)
  | [] => []
  | field :: rest => textsOfField indent field ++ textsOfFields indent rest
termination_by structural fields => fields

def textsOfField (indent : Nat) : String × Document → List (Nat × Text)
  | (_, d) => textsAfter indent false d
termination_by structural field => field

end

mutual

theorem carriedAfter_eq_self_iff (indent : Nat) (inSequence : Bool) (d : Document) :
    carriedAfter indent inSequence d = d ↔ ∀ p ∈ textsAfter indent inSequence d, Carries p.1 p.2 := by
  match d with
  | .null => simp [carriedAfter, textsAfter]
  | .flag b => simp [carriedAfter, textsAfter]
  | .count n => simp [carriedAfter, textsAfter]
  | .text s => simp [carriedAfter, textsAfter, carriedText_eq_self_iff]
  | .sequence items => simp [carriedAfter, textsAfter, carriedItems_eq_self_iff _ items]
  | .mapping fields => simp [carriedAfter, textsAfter, carriedFields_eq_self_iff _ fields]
termination_by structural d

theorem carriedItems_eq_self_iff (indent : Nat) (items : List Document) :
    carriedItems indent items = items ↔ ∀ p ∈ textsOfItems indent items, Carries p.1 p.2 := by
  match items with
  | [] => simp [carriedItems, textsOfItems]
  | item :: rest =>
    rw [carriedItems, textsOfItems, List.cons.injEq, List.forall_mem_append,
      carriedAfter_eq_self_iff indent true item, carriedItems_eq_self_iff indent rest]
termination_by structural items

theorem carriedFields_eq_self_iff (indent : Nat) (fields : List (String × Document)) :
    carriedFields indent fields = fields ↔
      ∀ p ∈ textsOfFields indent fields, Carries p.1 p.2 := by
  match fields with
  | [] => simp [carriedFields, textsOfFields]
  | field :: rest =>
    rw [carriedFields, textsOfFields, List.cons.injEq, List.forall_mem_append,
      carriedField_eq_self_iff indent field, carriedFields_eq_self_iff indent rest]
termination_by structural fields

theorem carriedField_eq_self_iff (indent : Nat) (field : String × Document) :
    carriedField indent field = field ↔ ∀ p ∈ textsOfField indent field, Carries p.1 p.2 := by
  match field with
  | (name, d) => simp [carriedField, textsOfField, carriedAfter_eq_self_iff indent false d]
termination_by structural field

end

theorem map_fst_carriedFields (indent : Nat) (fields : List (String × Document)) :
    (carriedFields indent fields).map Prod.fst = fields.map Prod.fst := by
  induction fields with
  | nil => rfl
  | cons field rest ih =>
    obtain ⟨name, d⟩ := field
    rw [carriedFields, List.map_cons, ih]
    rfl

/-! ### Keys of documents -/

/-- Whether a key may be written as it is: a bare name that is taken for a string. -/
def isKey (name : String) : Bool :=
  !name.toList.isEmpty && name.toList.all isNameChar && readsAsString name.toList

/-- Documents whose mappings have bare names as keys, each once. -/
inductive Document.IsKeyed : Document → Prop
  | null : IsKeyed .null
  | flag (b : Bool) : IsKeyed (.flag b)
  | count (n : Nat) : IsKeyed (.count n)
  | text (t : Text) : IsKeyed (.text t)
  | sequence {items : List Document} (h : ∀ d ∈ items, IsKeyed d) : IsKeyed (.sequence items)
  | mapping {fields : List (String × Document)} (hnames : (fields.map Prod.fst).Nodup)
      (hkeys : ∀ field ∈ fields, isKey field.1 = true) (h : ∀ field ∈ fields, IsKeyed field.2) :
      IsKeyed (.mapping fields)

theorem isKey_facts {name : String} (h : isKey name = true) :
    (∃ c cs, name.toList = c :: cs) ∧ (∀ c ∈ name.toList, isNameChar c = true) ∧
      readsAsString name.toList = true := by
  simp only [isKey, Bool.and_eq_true, Bool.not_eq_true', List.isEmpty_eq_false_iff, List.all_eq_true]
    at h
  exact ⟨List.exists_cons_of_ne_nil h.1.1, h.1.2, h.2⟩

theorem isKey_head {name : String} (h : isKey name = true) :
    ∃ c cs, name.toList = c :: cs ∧ isNameChar c = true ∧ c ≠ ' ' := by
  obtain ⟨⟨c, cs, heq⟩, hchars, -⟩ := isKey_facts h
  have hc : isNameChar c = true := hchars c (by simp [heq])
  exact ⟨c, cs, heq, hc, ne_space_of_isNameChar hc⟩

end SuiteView.Yaml
