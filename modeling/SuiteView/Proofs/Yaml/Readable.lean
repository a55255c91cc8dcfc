import SuiteView.Proofs.Yaml.Carried

/-!
# The characters of written documents

What is no ordinary character is escaped, so a document is written with characters that its reader
admits, and with no carriage return, which reading the file as a text would change.
-/

namespace SuiteView.Yaml

/-- A character that a text may hold and that is no carriage return. -/
def isSafe (c : Char) : Bool := isReadable c && c ≠ '\r'

theorem isSafe_of_isOrdinary {c : Char} (h : isOrdinary c = true) : isSafe c = true := by
  have hreturn : c ≠ '\r' := by
    rintro rfl
    cases h
  have hvalid : c.toNat < 0xD800 ∨ 0xDFFF < c.toNat := by
    rcases c.valid with h | h
    · exact .inl h
    · exact .inr h.1
  simp only [isOrdinary, Bool.or_eq_true, Bool.and_eq_true, decide_eq_true_eq] at h
  simp only [isSafe, isReadable, Bool.or_eq_true, Bool.and_eq_true, decide_eq_true_eq, ne_eq, hreturn,
    not_false_eq_true, and_true]
  omega

theorem isSafe_of_isVerbatim {c : Char} (h : isVerbatim c = true) : isSafe c = true := by
  refine isSafe_of_isOrdinary ?_
  have hmark : c.toNat ≠ 0xFEFF := by
    intro hc
    have hmark : c = '\uFEFF' := Char.ext (UInt32.toNat_inj.mp hc)
    subst hmark
    cases h
  simp only [isVerbatim, Bool.or_eq_true, Bool.and_eq_true, decide_eq_true_eq] at h
  simp only [isOrdinary, Bool.or_eq_true, Bool.and_eq_true, decide_eq_true_eq]
  omega

theorem isSafe_of_isNameChar {c : Char} (h : isNameChar c = true) : isSafe c = true :=
  isSafe_of_isOrdinary (isNameChar_facts h).1

theorem padding_isSafe (n : Nat) : (padding n).all isSafe = true := by
  have hspace : isSafe ' ' = true := by decide
  simp [padding, hspace]

theorem foldBreak_isSafe (indent : Nat) : (foldBreak indent).all isSafe = true := by
  have hnewline : isSafe '\n' = true := by decide
  have hpadding := padding_isSafe indent
  rw [padding] at hpadding
  rw [foldBreak, List.all_cons, hnewline, hpadding, Bool.and_self]

/-! ### Texts -/

theorem writePlain_isSafe {cs : List Char} (h : cs.all isSafe = true) (indent column : Nat)
    (afterSpace : Bool) : (writePlain indent column afterSpace cs).all isSafe = true := by
  induction cs generalizing column afterSpace with
  | nil => rfl
  | cons c cs ih =>
    rw [List.all_cons, Bool.and_eq_true] at h
    rw [writePlain]
    split
    · rw [List.all_append, foldBreak_isSafe, ih h.2, Bool.and_self]
    · rw [List.all_cons, h.1, ih h.2, Bool.and_self]

theorem writeSingle_isSafe {cs : List Char} (h : cs.all isSafe = true) (indent column : Nat)
    (before : Before) : (writeSingle indent column before cs).all isSafe = true := by
  have hmarks : isSafe '\n' = true ∧ isSafe '\x27' = true ∧ isSafe ' ' = true := by decide
  have hpadding := padding_isSafe indent
  rw [padding] at hpadding
  induction cs generalizing column before with
  | nil => cases before <;> simp [writeSingle, hpadding]
  | cons c cs ih =>
    rw [List.all_cons, Bool.and_eq_true] at h
    rw [writeSingle]
    dsimp only
    split_ifs <;> simp [hpadding, foldBreak_isSafe, hmarks, h.1, ih h.2]

theorem hexDigit_upper_isSafe : ∀ n < 16, isSafe (Text.hexDigit n).toUpper = true := by decide

theorem hex_upper_isSafe (width n : Nat) :
    ((Text.hex width n).map Char.toUpper).all isSafe = true := by
  induction width generalizing n with
  | zero => rfl
  | succ width ih =>
    have hdigit := hexDigit_upper_isSafe (n % 16) (Nat.mod_lt _ (by decide))
    rw [Text.hex, List.map_append, List.all_append, ih]
    simp [hdigit]

theorem shortEscape?_isSafe {c letter : Char} (h : shortEscape? c = some letter) :
    isSafe letter = true := by
  unfold shortEscape? at h
  split at h <;> cases h <;> decide

theorem escapeSequence_isSafe (c : CodePoint) : (escapeSequence c).all isSafe = true := by
  have hmarks : isSafe '\\' = true ∧ isSafe 'x' = true ∧ isSafe 'u' = true ∧ isSafe 'U' = true := by
    decide
  unfold escapeSequence
  split
  · rename_i letter hletter
    obtain ⟨d, -, hshort⟩ := Option.bind_eq_some_iff.mp hletter
    simp [hmarks, shortEscape?_isSafe hshort]
  · dsimp only
    split_ifs <;> simp only [List.all_cons, hmarks, hex_upper_isSafe, Bool.and_self]

theorem continueLine_isSafe (indent : Nat) (beforeSpace : Bool) :
    (continueLine indent beforeSpace).all isSafe = true := by
  have hmark : isSafe '\\' = true := by decide
  cases beforeSpace <;> simp [continueLine, hmark, foldBreak_isSafe]

theorem writeDouble_isSafe (indent column : Nat) (first afterEscape : Bool) (t : Text) :
    (writeDouble indent column first afterEscape t).all isSafe = true := by
  induction t generalizing column first afterEscape with
  | nil => rfl
  | cons c t ih =>
    rw [writeDouble]
    split
    · rename_i d hverbatim
      have hd := isSafe_of_isVerbatim (verbatim?_eq_some hverbatim).2
      split <;> simp only [List.all_append, List.all_cons, continueLine_isSafe, hd, ih, Bool.and_self]
    · dsimp only
      split <;> simp only [List.all_append, continueLine_isSafe, escapeSequence_isSafe, ih,
        Bool.and_self]

theorem writeText_isSafe (indent column : Nat) (t : Text) :
    (writeText indent column t).all isSafe = true := by
  have hmarks : isSafe '\x27' = true ∧ isSafe '\x22' = true := by decide
  have hdouble : ('\x22' :: writeDouble indent (column + 1) true false t ++ ['\x22']).all isSafe =
      true := by
    simp [hmarks, writeDouble_isSafe]
  unfold writeText
  split
  · exact hdouble
  · rename_i cs hchars
    have hsingle (h : allowsSingle cs = true) : cs.all isSafe = true := by
      simp only [allowsSingle, Bool.and_eq_true, List.all_eq_true] at h ⊢
      exact fun c hc => isSafe_of_isOrdinary (h.1.1 c hc)
    obtain ⟨hplain, hquoted⟩ := styleOf_facts cs
    split
    · rename_i hstyle
      refine writePlain_isSafe ?_ ..
      rw [List.all_eq_true]
      exact fun c hc => isSafe_of_isOrdinary ((allowsPlain_facts (hplain hstyle).2).1 c hc).1
    · rename_i hstyle
      simp [hmarks, writeSingle_isSafe (hsingle (hquoted hstyle))]
    · exact hdouble

/-! ### Documents -/

theorem name_isSafe {name : String} (h : isKey name = true) : name.toList.all isSafe = true :=
  List.all_eq_true.mpr fun c hc => isSafe_of_isNameChar ((isKey_facts h).2.1 c hc)

theorem toDigits_isSafe (n : Nat) : (Nat.toDigits 10 n).all isSafe = true :=
  List.all_eq_true.mpr fun _ hd =>
    isSafe_of_isNameChar (isNameChar_of_isDigit (Json.isDigit_of_mem_toDigits hd))

mutual

theorem writeAfter_isSafe (indent column : Nat) (inSequence : Bool) (d : Document)
    (hd : d.IsKeyed) : (writeAfter indent column inSequence d).all isSafe = true := by
  have hmarks : isSafe ' ' = true ∧ isSafe '-' = true ∧ isSafe '\n' = true := by decide
  match d, hd with
  | .null, _ => exact (by decide : " null\n".toList.all isSafe = true)
  | .flag true, _ => exact (by decide : " true\n".toList.all isSafe = true)
  | .flag false, _ => exact (by decide : " false\n".toList.all isSafe = true)
  | .count n, _ => simp [writeAfter, hmarks, toDigits_isSafe]
  | .text t, _ => simp [writeAfter, hmarks, writeText_isSafe]
  | .sequence [], _ => exact (by decide : " []\n".toList.all isSafe = true)
  | .sequence (item :: rest), .sequence h =>
    have hitem := writeAfter_isSafe (if inSequence then indent + 2 else indent)
      ((if inSequence then indent + 2 else indent) + 1) true item (h item (List.mem_cons_self ..))
    have hrest := writeItems_isSafe (if inSequence then indent + 2 else indent) rest
      fun d hd => h d (List.mem_cons_of_mem _ hd)
    cases inSequence <;> simp_all [writeAfter, padding_isSafe]
  | .mapping [], _ => exact (by decide : " \x7b\x7d\n".toList.all isSafe = true)
  | .mapping (field :: rest), .mapping _ hkeys h =>
    have hfield := writeField_isSafe (indent + 2) field (hkeys field (List.mem_cons_self ..))
      (h field (List.mem_cons_self ..))
    have hrest := writeFields_isSafe (indent + 2) rest
      (fun f hf => hkeys f (List.mem_cons_of_mem _ hf)) fun f hf => h f (List.mem_cons_of_mem _ hf)
    cases inSequence <;> simp_all [writeAfter, padding_isSafe]
termination_by structural d

theorem writeItems_isSafe (indent : Nat) (items : List Document) (h : ∀ d ∈ items, d.IsKeyed) :
    (writeItems indent items).all isSafe = true := by
  have hdash : isSafe '-' = true := by decide
  match items with
  | [] => rfl
  | item :: rest =>
    have hitem := writeAfter_isSafe indent (indent + 1) true item (h item (List.mem_cons_self ..))
    have hrest := writeItems_isSafe indent rest fun d hd => h d (List.mem_cons_of_mem _ hd)
    simp [writeItems, padding_isSafe, hdash, hitem, hrest]
termination_by structural items

theorem writeFields_isSafe (indent : Nat) (fields : List (String × Document))
    (hkeys : ∀ field ∈ fields, isKey field.1 = true) (h : ∀ field ∈ fields, field.2.IsKeyed) :
    (writeFields indent fields).all isSafe = true := by
  match fields with
  | [] => rfl
  | field :: rest =>
    have hfield := writeField_isSafe indent field (hkeys field (List.mem_cons_self ..))
      (h field (List.mem_cons_self ..))
    have hrest := writeFields_isSafe indent rest
      (fun f hf => hkeys f (List.mem_cons_of_mem _ hf)) fun f hf => h f (List.mem_cons_of_mem _ hf)
    simp [writeFields, padding_isSafe, hfield, hrest]
termination_by structural fields

theorem writeField_isSafe (indent : Nat) (field : String × Document) (hkey : isKey field.1 = true)
    (h : field.2.IsKeyed) : (writeField indent field).all isSafe = true := by
  have hcolon : isSafe ':' = true := by decide
  match field with
  | (name, d) =>
    have hvalue := writeAfter_isSafe indent (indent + name.toList.length + 1) false d h
    simp [writeField, name_isSafe hkey, hcolon, hvalue]
termination_by structural field

end

end SuiteView.Yaml
