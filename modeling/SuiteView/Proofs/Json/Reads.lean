import Mathlib.Data.List.Chain
import Mathlib.Data.List.Nodup
import SuiteView.Json.Reader
import SuiteView.Proofs.Decimal.Rounding
import SuiteView.Proofs.Table

/-!
# What the reader gives

A value that is read is a JSON value: its numbers are doubles in their one form, no text holds a pair
of surrogate halves side by side that one character stands for, and the fields of every object have
different names. The one error that is no fault of the document at a place is an integer of too many
digits, so it only comes of a document that holds as many digits side by side.
-/

namespace SuiteView

/-! ### JSON values -/

namespace CodePoint

/-- The first half of a surrogate pair. -/
def IsHigh (c : CodePoint) : Prop := ∃ offset : Fin 0x800, c = .surrogate offset ∧ offset.val < 0x400

/-- The second half of a surrogate pair. -/
def IsLow (c : CodePoint) : Prop := ∃ offset : Fin 0x800, c = .surrogate offset ∧ 0x400 ≤ offset.val

end CodePoint

/-- No two halves that make a surrogate pair stand side by side. -/
def Text.IsJoined (t : Text) : Prop := List.IsChain (fun a b => ¬ (a.IsHigh ∧ b.IsLow)) t

inductive Value.IsJson : Value → Prop
  | null : IsJson .null
  | bool (b : Bool) : IsJson (.bool b)
  | int (n : Int) : IsJson (.int n)
  | number {x : Double} (hx : x.IsCanonical) : IsJson (.number x)
  | string {s : Text} (hs : s.IsJoined) : IsJson (.string s)
  | list {items : List Value} (hitems : ∀ v ∈ items, IsJson v) : IsJson (.list items)
  | object {fields : List (Text × Value)} (hnames : (Table.keys fields).Nodup)
      (hjoined : ∀ field ∈ fields, field.1.IsJoined) (hvalues : ∀ field ∈ fields, IsJson field.2) :
      IsJson (.object fields)

namespace Json

/-- More digits side by side than an integer may have. -/
def HasLongRun (cs : List Char) : Prop :=
  ∃ digits, digits <:+: cs ∧ (∀ d ∈ digits, isDigit d = true) ∧ maxIntegerDigits < digits.length

/-- A part of the reader gives what is good and goes on behind it; it refuses an integer for its digits
only where they stand. -/
structure Sound {α : Type} (good : α → Prop) (cs : List Char) (step : Step α) : Prop where
  good : ∀ a cursor, step = .ok (a, cursor) → good a
  suffix : ∀ a cursor, step = .ok (a, cursor) → cursor.rest <:+ cs
  long : ∀ n, step = .error (.integerTooLong n) → HasLongRun cs

variable {α β : Type} {good : α → Prop} {cs : List Char}

theorem HasLongRun.of_suffix {front : List Char} (h : HasLongRun front) (hsuffix : front <:+ cs) :
    HasLongRun cs := by
  obtain ⟨digits, hdigits, hall, hlong⟩ := h
  exact ⟨digits, hdigits.trans hsuffix.isInfix, hall, hlong⟩

namespace Sound

theorem of_fault (fault : Fault) (position : Nat) :
    Sound good cs (faultAt (α := α × Cursor) fault position) := by
  constructor <;> intros <;> simp_all [faultAt]

theorem of_ok {a : α} {cursor : Cursor} (ha : good a) (hsuffix : cursor.rest <:+ cs) :
    Sound good cs (.ok (a, cursor)) where
  good b c h := by
    obtain ⟨rfl, rfl⟩ := Prod.mk.inj (Except.ok.inj h)
    exact ha
  suffix b c h := by
    obtain ⟨rfl, rfl⟩ := Prod.mk.inj (Except.ok.inj h)
    exact hsuffix
  long n h := by cases h

theorem of_long {n : Option Nat} (h : HasLongRun cs) :
    Sound good cs (.error (.integerTooLong n) : Step α) := by
  constructor <;> intros <;> simp_all

theorem of_suffix {front : List Char} {step : Step α} (h : Sound good front step)
    (hsuffix : front <:+ cs) : Sound good cs step where
  good := h.good
  suffix a cursor hstep := (h.suffix a cursor hstep).trans hsuffix
  long n hstep := (h.long n hstep).of_suffix hsuffix

theorem of_error {step : Step α} {good' : β → Prop} {e : ReadError} (h : Sound good cs step)
    (hstep : step = .error e) : Sound good' cs (.error e) where
  good b c h' := by cases h'
  suffix b c h' := by cases h'
  long n h' := h.long n (hstep.trans (congrArg _ (Except.error.inj h')))

theorem bind {good' : β → Prop} {step : Step α} {next : α × Cursor → Step β} (h : Sound good cs step)
    (hnext : ∀ a cursor, good a → cursor.rest <:+ cs → Sound good' cs (next (a, cursor))) :
    Sound good' cs (Bind.bind (m := Except ReadError) step next) := by
  cases hstep : step with
  | error e => exact h.of_error hstep
  | ok r => exact hnext r.1 r.2 (h.good _ _ hstep) (h.suffix _ _ hstep)

theorem map {good' : β → Prop} {step : Step α} (h : Sound good cs step) (f : α → β)
    (hf : ∀ a, good a → good' (f a)) :
    Sound good' cs (step.map fun (a, cursor) => (f a, cursor)) := by
  cases hstep : step with
  | error e => exact h.of_error hstep
  | ok r => exact of_ok (hf r.1 (h.good _ _ hstep)) (h.suffix _ _ hstep)

end Sound

/-! ### Strings -/

theorem isHigh_ofNat_iff (n : Nat) : (CodePoint.ofNat n).IsHigh ↔ isHighSurrogate n = true := by
  simp only [CodePoint.ofNat, isHighSurrogate, Bool.and_eq_true, decide_eq_true_eq]
  split
  · simp only [CodePoint.IsHigh, CodePoint.surrogate.injEq, exists_eq_left']
    omega
  · simp only [CodePoint.IsHigh, reduceCtorEq, false_and, exists_false, false_iff]
    omega

theorem isLow_ofNat_iff (n : Nat) : (CodePoint.ofNat n).IsLow ↔ isLowSurrogate n = true := by
  simp only [CodePoint.ofNat, isLowSurrogate, Bool.and_eq_true, decide_eq_true_eq]
  split
  · simp only [CodePoint.IsLow, CodePoint.surrogate.injEq, exists_eq_left']
    omega
  · simp only [CodePoint.IsLow, reduceCtorEq, false_and, exists_false, false_iff]
    omega

/-- The characters start with the escape of the second half of a surrogate pair. -/
def StartsLow (cs : List Char) : Prop :=
  ∃ e f g h x rest n, cs = '\\' :: 'u' :: e :: f :: g :: h :: x :: rest ∧
    Text.readHex [e, f, g, h] = some n ∧ isLowSurrogate n = true

theorem not_isHigh_joinSurrogates (high low : Nat) : ¬ (joinSurrogates high low).IsHigh := by
  rw [joinSurrogates, isHigh_ofNat_iff]
  simp only [isHighSurrogate, Bool.and_eq_true, decide_eq_true_eq]
  omega

theorem not_isLow_joinSurrogates (high low : Nat) : ¬ (joinSurrogates high low).IsLow := by
  rw [joinSurrogates, isLow_ofNat_iff]
  simp only [isLowSurrogate, Bool.and_eq_true, decide_eq_true_eq]
  omega

/-- The first half of a pair is read alone only where the second does not follow. -/
theorem not_startsLow_of_readUnit {p : Nat} {c : CodePoint} {n : Nat}
    (h : readUnit p cs = .ok (c, n)) (hc : c.IsHigh) : ¬ StartsLow (cs.drop n) := by
  intro hlow
  obtain ⟨e, f, g, i, x, rest, low, hcs, hhex, hl⟩ := hlow
  unfold readUnit at h
  split at h
  next a b d k next behind =>
    split at h
    · cases h
    next high hhigh =>
      split at h
      next hh =>
        split at h
        · cases h
        next low' hlow' =>
          split at h
          · obtain ⟨rfl, -⟩ := Prod.mk.inj (Except.ok.inj h)
            exact absurd hc (not_isHigh_joinSurrogates high low')
          next hnot =>
            cases h
            simp at hcs
            obtain ⟨rfl, rfl, rfl, rfl, -⟩ := hcs
            rw [hlow'] at hhex
            cases hhex
            exact hnot hl
      next hother =>
        cases h
        simp at hcs
        obtain ⟨rfl, rfl⟩ := hcs
        exact hother _ _ _ _ _ _ ((isHigh_ofNat_iff _).mp hc) rfl rfl
  next => cases h

theorem startsLow_of_readUnit {p : Nat} {c : CodePoint} {n : Nat}
    (h : readUnit p cs = .ok (c, n)) (hc : c.IsLow) : StartsLow ('\\' :: 'u' :: cs) := by
  unfold readUnit at h
  split at h
  next a b d k next behind =>
    split at h
    · cases h
    next high hhigh =>
      have hunit (hc : (CodePoint.ofNat high).IsLow) :
          StartsLow ('\\' :: 'u' :: a :: b :: d :: k :: next :: behind) :=
        ⟨a, b, d, k, next, behind, high, rfl, hhigh, (isLow_ofNat_iff high).mp hc⟩
      split at h
      · split at h
        · cases h
        · split at h
          · obtain ⟨rfl, -⟩ := Prod.mk.inj (Except.ok.inj h)
            exact absurd hc (not_isLow_joinSurrogates _ _)
          · cases h
            exact hunit hc
      · cases h
        exact hunit hc
  next => cases h

/-- A joined text; where it starts with the second half of a pair, that half was read first. -/
def JoinedFrom (cs : List Char) (t : Text) : Prop :=
  t.IsJoined ∧ ∀ c ∈ t.head?, c.IsLow → StartsLow cs

theorem consPoint_sound {front : List Char} {c : CodePoint} {step : Step Text}
    (h : Sound (JoinedFrom front) front step) (hsuffix : front <:+ cs)
    (hhigh : c.IsHigh → ¬ StartsLow front) (hlow : c.IsLow → StartsLow cs) :
    Sound (JoinedFrom cs) cs (consPoint c step) := by
  refine (h.map (c :: ·) fun t ht => ?_).of_suffix hsuffix
  refine ⟨List.isChain_cons.mpr ⟨fun d hd hpair => ?_, ht.1⟩, fun d hd hl => ?_⟩
  · exact hhigh hpair.1 (ht.2 d hd hpair.2)
  · obtain rfl := Option.some.inj hd
    exact hlow hl

theorem not_isHigh_char (c : Char) : ¬ (CodePoint.char c).IsHigh := by
  intro h
  obtain ⟨_, h, _⟩ := h
  cases h

theorem not_isLow_char (c : Char) : ¬ (CodePoint.char c).IsLow := by
  intro h
  obtain ⟨_, h, _⟩ := h
  cases h

theorem consPoint_char_sound {front : List Char} {c : Char} {step : Step Text}
    (h : Sound (JoinedFrom front) front step) (hsuffix : front <:+ cs) :
    Sound (JoinedFrom cs) cs (consPoint (.char c) step) :=
  consPoint_sound h hsuffix (fun hc => absurd hc (not_isHigh_char c))
    (fun hc => absurd hc (not_isLow_char c))

theorem readUnit_error {p : Nat} {e : ReadError} (h : readUnit p cs = .error e) :
    ∃ fault position, e = .malformed fault position := by
  unfold readUnit at h
  split at h
  · split at h
    · cases h
      exact ⟨_, _, rfl⟩
    · split at h
      · split at h
        · cases h
          exact ⟨_, _, rfl⟩
        · split at h <;> cases h
      · cases h
  · cases h
    exact ⟨_, _, rfl⟩

theorem readChars_sound (opening p : Nat) (cs : List Char) :
    Sound (JoinedFrom cs) cs (readChars opening p cs) := by
  fun_induction readChars opening p cs with
  | case1 | case3 => exact .of_fault _ _
  | case2 p rest => exact .of_ok ⟨.nil, fun c hc => by cases hc⟩ (List.suffix_cons _ _)
  | case4 p rest e he =>
    obtain ⟨fault, position, rfl⟩ := readUnit_error he
    exact .of_fault fault position
  | case5 p rest c n hunit ih =>
    have hsuffix : rest.drop n <:+ '\\' :: 'u' :: rest :=
      (List.drop_suffix n rest).trans ((List.suffix_cons _ _).trans (List.suffix_cons _ _))
    exact consPoint_sound ih hsuffix (not_startsLow_of_readUnit hunit) (startsLow_of_readUnit hunit)
  | case6 p e rest _ c hc ih =>
    exact consPoint_char_sound ih ((List.suffix_cons _ _).trans (List.suffix_cons _ _))
  | case7 => exact .of_fault _ _
  | case8 => exact .of_fault _ _
  | case9 p c rest _ _ _ _ _ ih => exact consPoint_char_sound ih (List.suffix_cons _ _)

theorem readString_sound (c : Cursor) : Sound Text.IsJoined c.rest (readString c) where
  good t cursor h := ((readChars_sound _ _ _).good t cursor h).1
  suffix := (readChars_sound _ _ _).suffix
  long := (readChars_sound _ _ _).long

/-! ### Numbers -/

theorem integerDigits_isPrefix (cs : List Char) : integerDigits cs <+: cs := by
  unfold integerDigits
  split
  · exact ⟨_, rfl⟩
  · exact List.takeWhile_prefix _

theorem isDigit_of_mem_integerDigits {d : Char} (h : d ∈ integerDigits cs) : isDigit d = true := by
  unfold integerDigits at h
  split at h
  · obtain rfl := List.mem_singleton.mp h
    decide
  · exact List.all_eq_true.mp List.all_takeWhile d h

theorem readNumber?_sound {c : Cursor} {step : Step Value} (h : readNumber? c = some step) :
    Sound Value.IsJson c.rest step := by
  unfold readNumber? at h
  extract_lets negative body start whole afterWhole fraction fractionLength afterFraction position at h
  have hbody : body <:+ c.rest := by
    unfold body
    split
    · exact List.tail_suffix _
    · exact List.suffix_refl _
  have hafter : afterFraction <:+ c.rest :=
    (List.drop_suffix _ _).trans ((List.drop_suffix _ _).trans hbody)
  have hnumber (digits : Nat) (e : Int) :
      Value.IsJson (.number (Double.ofDecimal negative digits e)) :=
    .number (Double.ofDecimal_isCanonical _ _ _)
  split at h
  · cases h
  split at h
  next sign digits _ =>
    extract_lets n exponent length at h
    cases h
    exact .of_ok (hnumber _ _) ((List.drop_suffix _ _).trans hafter)
  · split at h
    · cases h
      exact .of_ok (hnumber _ _) hafter
    · split at h
      next hlong =>
        cases h
        exact .of_long ⟨whole, (integerDigits_isPrefix body).isInfix.trans hbody.isInfix,
          fun d hd => isDigit_of_mem_integerDigits hd, hlong⟩
      · cases h
        exact .of_ok (.int _) hafter

/-! ### Values -/

theorem namedValues_isJson {entry : String × Value} (h : entry ∈ namedValues) : entry.2.IsJson := by
  simp only [namedValues, List.mem_cons, List.not_mem_nil, or_false] at h
  rcases h with rfl | rfl | rfl | rfl | rfl | rfl
  · exact .null
  · exact .bool true
  · exact .bool false
  · exact .number trivial
  · exact .number trivial
  · exact .number trivial

theorem after?_suffix {c cursor : Cursor} {word : String} (h : c.after? word = some cursor) :
    cursor.rest <:+ c.rest := by
  unfold Cursor.after? at h
  split at h
  · cases h
    exact List.drop_suffix _ _
  · cases h

theorem readScalar_sound (c : Cursor) : Sound Value.IsJson c.rest (readScalar c) := by
  unfold readScalar
  split
  next r hr =>
    obtain ⟨entry, hentry, hword⟩ := List.exists_of_findSome?_eq_some hr
    obtain ⟨cursor, hcursor, rfl⟩ := Option.map_eq_some_iff.mp hword
    exact .of_ok (namedValues_isJson hentry) (after?_suffix hcursor)
  · cases h : readNumber? c with
    | none => exact .of_fault _ _
    | some step => exact readNumber?_sound h

theorem skipBlanks_suffix (c : Cursor) : c.skipBlanks.rest <:+ c.rest := List.drop_suffix _ _

theorem behind_suffix {c : Cursor} {d : Char} {rest : List Char} (hrest : c.rest = d :: rest) :
    rest <:+ c.rest := hrest ▸ List.suffix_cons d rest

def IsField (field : Text × Value) : Prop := field.1.IsJoined ∧ field.2.IsJson

theorem ofEntries_isJson {fields : List (Text × Value)} (h : ∀ field ∈ fields, IsField field) :
    Value.IsJson (.object (Table.ofEntries fields)) :=
  .object (Table.keys_ofEntries_nodup fields)
    (fun field hfield => (h field (Table.mem_ofEntries hfield)).1)
    (fun field hfield => (h field (Table.mem_ofEntries hfield)).2)

/-- With this fuel the parts of the reader that call each other are sound. -/
structure ReaderSound (fuel : Nat) : Prop where
  value : ∀ c : Cursor, Sound Value.IsJson c.rest (readValue fuel c)
  items : ∀ c : Cursor, Sound (fun items => ∀ v ∈ items, v.IsJson) c.rest (readItems fuel c)
  fields : ∀ c : Cursor, Sound (fun fields => ∀ field ∈ fields, IsField field) c.rest
    (readFields fuel c)

theorem ReaderSound.value_succ {fuel : Nat} (h : ReaderSound fuel) (c : Cursor) :
    Sound Value.IsJson c.rest (readValue (fuel + 1) c) := by
  unfold readValue
  split
  next rest hrest =>
    exact ((readString_sound _).of_suffix (behind_suffix hrest)).map _ fun s hs => .string hs
  next rest hrest =>
    have hinner := (skipBlanks_suffix ⟨c.position + 1, rest⟩).trans (behind_suffix hrest)
    extract_lets inner
    split
    next rest' hrest' =>
      exact .of_ok (.object List.nodup_nil (by simp) (by simp))
        ((behind_suffix hrest').trans hinner)
    next => exact ((h.fields inner).of_suffix hinner).map _ fun fields h => ofEntries_isJson h
  next rest hrest =>
    have hinner := (skipBlanks_suffix ⟨c.position + 1, rest⟩).trans (behind_suffix hrest)
    extract_lets inner
    split
    next rest' hrest' => exact .of_ok (.list (by simp)) ((behind_suffix hrest').trans hinner)
    next => exact ((h.items inner).of_suffix hinner).map _ fun items h => .list h
  next => exact readScalar_sound c

theorem ReaderSound.items_succ {fuel : Nat} (h : ReaderSound fuel) (c : Cursor) :
    Sound (fun items => ∀ v ∈ items, v.IsJson) c.rest (readItems (fuel + 1) c) := by
  unfold readItems
  refine (h.value c).bind fun v cursor hv hcursor => ?_
  have hskip := (skipBlanks_suffix cursor).trans hcursor
  dsimp only
  split
  next rest hrest =>
    exact .of_ok (by simpa using hv) ((behind_suffix hrest).trans hskip)
  next rest hrest =>
    have hrest := (behind_suffix hrest).trans hskip
    refine ((h.items _).of_suffix ((skipBlanks_suffix _).trans hrest)).bind
      fun vs cursor' hvs hcursor' => ?_
    exact .of_ok (List.forall_mem_cons.mpr ⟨hv, hvs⟩) hcursor'
  next => exact .of_fault _ _

theorem ReaderSound.fields_succ {fuel : Nat} (h : ReaderSound fuel) (c : Cursor) :
    Sound (fun fields => ∀ field ∈ fields, IsField field) c.rest (readFields (fuel + 1) c) := by
  unfold readFields
  split
  next rest hrest =>
    have hrest := behind_suffix hrest
    refine ((readString_sound _).of_suffix hrest).bind fun k cursor hk hcursor => ?_
    have hskip := (skipBlanks_suffix cursor).trans hcursor
    dsimp only
    split
    next rest' hrest' =>
      have hrest' := (behind_suffix hrest').trans hskip
      refine ((h.value _).of_suffix ((skipBlanks_suffix _).trans hrest')).bind
        fun v cursor' hv hcursor' => ?_
      have hskip' := (skipBlanks_suffix cursor').trans hcursor'
      dsimp only
      split
      next rest'' hrest'' =>
        exact .of_ok (by simpa [IsField] using ⟨hk, hv⟩) ((behind_suffix hrest'').trans hskip')
      next rest'' hrest'' =>
        have hrest'' := (behind_suffix hrest'').trans hskip'
        refine ((h.fields _).of_suffix ((skipBlanks_suffix _).trans hrest'')).bind
          fun fields cursor'' hfields hcursor'' => ?_
        exact .of_ok (List.forall_mem_cons.mpr ⟨⟨hk, hv⟩, hfields⟩) hcursor''
      next => exact .of_fault _ _
    next => exact .of_fault _ _
  next => exact .of_fault _ _

theorem readerSound (fuel : Nat) : ReaderSound fuel := by
  induction fuel with
  | zero => exact ⟨fun c => .of_fault _ _, fun c => .of_fault _ _, fun c => .of_fault _ _⟩
  | succ fuel ih => exact ⟨ih.value_succ, ih.items_succ, ih.fields_succ⟩

/-! ### Documents -/

theorem read_isJson {document : List Char} {v : Value} (h : read document = .ok v) : v.IsJson := by
  unfold read at h
  split at h
  · cases h
  · cases hv : readValue (2 * document.length + 2) (Cursor.skipBlanks ⟨0, document⟩) with
    | error e => simp [hv, bind, Except.bind] at h
    | ok r =>
      simp only [hv, bind, Except.bind] at h
      split at h
      · cases h
        exact ((readerSound _).value _).good _ _ hv
      · cases h

/-- Only a document with too many digits side by side is refused for an integer. -/
theorem hasLongRun_of_read {document : List Char} {n : Option Nat}
    (h : read document = .error (.integerTooLong n)) : HasLongRun document := by
  unfold read at h
  split at h
  · cases h
  · cases hv : readValue (2 * document.length + 2) (Cursor.skipBlanks ⟨0, document⟩) with
    | error e =>
      simp only [hv, bind, Except.bind, Except.error.injEq] at h
      subst h
      exact (((readerSound _).value _).long _ hv).of_suffix (skipBlanks_suffix ⟨0, document⟩)
    | ok r =>
      simp only [hv, bind, Except.bind] at h
      split at h <;> cases h

end Json

end SuiteView
