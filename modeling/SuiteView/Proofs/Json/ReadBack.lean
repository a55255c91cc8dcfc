import SuiteView.Proofs.Json.Doubles
import SuiteView.Proofs.Json.Strings

/-!
# Written documents read back

A JSON value without integers of too many digits is read from the document that it is written as. The
proof is one induction on the fuel of the reader, which the length of the text bounds: values, the
items of a list and the fields of an object each read what the writer puts there, whatever follows.
-/

namespace SuiteView.Json

/-! ### Blanks -/

theorem skipBlanks_append {blanks text : List Char} (p : Nat)
    (hblanks : ∀ c ∈ blanks, isBlank c = true) (htext : ∀ c ∈ text.head?, isBlank c = false) :
    Cursor.skipBlanks ⟨p, blanks ++ text⟩ = ⟨p + blanks.length, text⟩ := by
  simp only [Cursor.skipBlanks, takeWhile_append_stop hblanks htext, List.drop_left]

theorem skipBlanks_self (text : List Char) (p : Nat) (htext : ∀ c ∈ text.head?, isBlank c = false) :
    Cursor.skipBlanks ⟨p, text⟩ = ⟨p, text⟩ :=
  skipBlanks_append p (fun c (hc : c ∈ []) => by cases hc) htext

theorem isBlank_of_mem_newline {level : Nat} {c : Char} (h : c ∈ newline level) :
    isBlank c = true := by
  rw [newline, List.mem_cons] at h
  rcases h with rfl | h
  · decide
  · rw [(List.mem_replicate.mp h).2]
    decide

theorem skipBlanks_newline (text : List Char) (level p : Nat)
    (htext : ∀ c ∈ text.head?, isBlank c = false) :
    ∃ q, Cursor.skipBlanks ⟨p, newline level ++ text⟩ = ⟨q, text⟩ :=
  ⟨_, skipBlanks_append p (fun _ hc => isBlank_of_mem_newline hc) htext⟩

/-- A value starts with no blank, no bracket that closes a list and no byte order mark. -/
theorem head_of_readValue {fuel p : Nat} {text : List Char} {r : Value × Cursor}
    (h : readValue fuel ⟨p, text⟩ = .ok r) :
    ∀ c ∈ text.head?, isBlank c = false ∧ c ≠ ']' ∧ c ≠ '\uFEFF' := by
  intro c hc
  cases fuel with
  | zero => cases h
  | succ fuel =>
    cases text with
    | nil => cases hc
    | cons d rest =>
      obtain rfl := Option.some.inj hc
      refine ⟨?_, ?_, ?_⟩
      · by_contra hblank
        simp only [Bool.not_eq_false, isBlank, Bool.or_eq_true, decide_eq_true_eq] at hblank
        rcases hblank with ((rfl | rfl) | rfl) | rfl <;> cases h
      · intro hclose
        subst hclose
        cases h
      · intro hmark
        subst hmark
        cases h

/-! ### Integers of too many digits -/

variable {level : Nat}

theorem cutItems_eq_none_iff (pending : List Char) (items : List Value) :
    cutItems level pending items = none ↔ ∀ v ∈ items, cutAt level v = none := by
  induction items generalizing pending with
  | nil => simp [cutItems]
  | cons v rest ih =>
    unfold cutItems
    rw [List.forall_mem_cons]
    cases hv : cutAt level v with
    | some written => cases v <;> simp
    | none => cases v <;> simp [ih]

theorem cutFields_eq_none_iff (fields : List (Text × Value)) :
    cutFields level fields = none ↔ ∀ field ∈ fields, cutAt level field.2 = none := by
  induction fields with
  | nil => simp [cutFields]
  | cons field rest ih =>
    obtain ⟨k, v⟩ := field
    rw [cutFields, List.forall_mem_cons]
    cases hv : cutAt level v with
    | some written => simp
    | none => simp [ih]

/-! ### Texts of lists and objects -/

theorem writeAt_list (level : Nat) (v : Value) (items : List Value) (rest : List Char) :
    writeAt level (.list (v :: items)) ++ rest = '[' :: (newline (level + 1) ++
      (writeAt (level + 1) v ++ (writeItems (level + 1) items ++
        (newline level ++ ']' :: rest)))) := by
  simp [writeAt]

theorem writeItems_cons (level : Nat) (v : Value) (items : List Value) (rest : List Char) :
    writeItems level (v :: items) ++ rest =
      ',' :: (newline level ++ (writeAt level v ++ (writeItems level items ++ rest))) := by
  simp [writeItems]

theorem writeAt_object (level : Nat) (field : Text × Value) (fields : List (Text × Value))
    (rest : List Char) :
    writeAt level (.object (field :: fields)) ++ rest = '\x7b' :: (newline (level + 1) ++
      (writeField (level + 1) field ++ (writeFields (level + 1) fields ++
        (newline level ++ '\x7d' :: rest)))) := by
  simp [writeAt]

theorem writeFields_cons (level : Nat) (field : Text × Value) (fields : List (Text × Value))
    (rest : List Char) :
    writeFields level (field :: fields) ++ rest =
      ',' :: (newline level ++ (writeField level field ++ (writeFields level fields ++ rest))) := by
  simp [writeFields]

theorem writeField_append (level : Nat) (k : Text) (v : Value) (rest : List Char) :
    writeField level (k, v) ++ rest = '\x22' :: (k.flatMap escapePoint ++
      '\x22' :: ':' :: ' ' :: (writeAt level v ++ rest)) := by
  simp [writeField, writeString]

theorem stops_newline (level : Nat) (text : List Char) : Stops (newline level ++ text) := by
  intro c hc
  exact .inr (Option.some.inj hc).symm

theorem stops_items (level : Nat) (items : List Value) {rest : List Char} (hrest : Stops rest) :
    Stops (writeItems level items ++ rest) := by
  cases items with
  | nil => exact hrest
  | cons v items =>
    intro c hc
    rw [writeItems_cons] at hc
    exact .inl (Option.some.inj hc).symm

theorem stops_fields (level : Nat) (fields : List (Text × Value)) {rest : List Char}
    (hrest : Stops rest) : Stops (writeFields level fields ++ rest) := by
  cases fields with
  | nil => exact hrest
  | cons field fields =>
    intro c hc
    rw [writeFields_cons] at hc
    exact .inl (Option.some.inj hc).symm

/-! ### Values -/

/-- What may be written and read back at a level. -/
def Kept (level : Nat) (v : Value) : Prop := v.IsJson ∧ cutAt level v = none

/-- A field that may be written and read back. -/
def FieldKept (level : Nat) (field : Text × Value) : Prop := field.1.IsJoined ∧ Kept level field.2

/-- With this fuel the reader gives back what is written in texts that are shorter. -/
structure ReadsBack (fuel : Nat) : Prop where
  value : ∀ {v : Value} {level : Nat} (p : Nat) {rest : List Char}, Kept level v → Stops rest →
    (writeAt level v).length < fuel →
    ∃ q, readValue fuel ⟨p, writeAt level v ++ rest⟩ = .ok (v, ⟨q, rest⟩)
  items : ∀ {v : Value} {items : List Value} {level : Nat} (outer p : Nat) (tail : List Char),
    (∀ w ∈ v :: items, Kept level w) →
    (writeAt level v).length + (writeItems level items).length + 1 < fuel →
    ∃ q, readItems fuel ⟨p, writeAt level v ++ (writeItems level items ++
      (newline outer ++ ']' :: tail))⟩ = .ok (v :: items, ⟨q, tail⟩)
  fields : ∀ {field : Text × Value} {fields : List (Text × Value)} {level : Nat} (outer p : Nat)
    (tail : List Char), (∀ f ∈ field :: fields, FieldKept level f) →
    (writeField level field).length + (writeFields level fields).length + 1 < fuel →
    ∃ q, readFields fuel ⟨p, writeField level field ++ (writeFields level fields ++
      (newline outer ++ '\x7d' :: tail))⟩ = .ok (field :: fields, ⟨q, tail⟩)

variable {fuel : Nat}

theorem ReadsBack.head (h : ReadsBack fuel) {v : Value} {rest : List Char} (hv : Kept level v)
    (hrest : Stops rest) (hfuel : (writeAt level v).length < fuel) :
    ∀ c ∈ (writeAt level v ++ rest).head?, isBlank c = false ∧ c ≠ ']' ∧ c ≠ '\uFEFF' := by
  obtain ⟨q, hq⟩ := h.value 0 hv hrest hfuel
  exact head_of_readValue hq

theorem ReadsBack.items_succ (h : ReadsBack fuel) {v : Value} {items : List Value} (outer p : Nat)
    (tail : List Char) (hkept : ∀ w ∈ v :: items, Kept level w)
    (hfuel : (writeAt level v).length + (writeItems level items).length + 1 < fuel + 1) :
    ∃ q, readItems (fuel + 1) ⟨p, writeAt level v ++ (writeItems level items ++
      (newline outer ++ ']' :: tail))⟩ = .ok (v :: items, ⟨q, tail⟩) := by
  have hstops := stops_items level items (stops_newline outer (']' :: tail))
  obtain ⟨q, hv⟩ := h.value p (hkept v (List.mem_cons_self ..)) hstops (by omega)
  unfold readItems
  simp only [hv, bind, Except.bind]
  cases items with
  | nil =>
    obtain ⟨q', hskip⟩ := skipBlanks_newline (']' :: tail) outer q (by simp [isBlank])
    simp only [writeItems, List.nil_append, hskip]
    exact ⟨_, rfl⟩
  | cons w items =>
    have hrest : ∀ x ∈ w :: items, Kept level x := fun x hx => hkept x (List.mem_cons_of_mem _ hx)
    have hlength : (writeItems level (w :: items)).length =
        1 + (newline level).length + (writeAt level w).length + (writeItems level items).length := by
      simp [writeItems]
      omega
    have hhead := h.head (hrest w (List.mem_cons_self ..))
      (stops_items level items (stops_newline outer (']' :: tail))) (by omega)
    have hcomma := skipBlanks_self (',' :: (newline level ++ (writeAt level w ++
      (writeItems level items ++ (newline outer ++ ']' :: tail))))) q (by simp [isBlank])
    obtain ⟨q', hskip⟩ := skipBlanks_newline _ level (q + 1) fun c hc => (hhead c hc).1
    obtain ⟨q'', hitems⟩ := h.items outer q' tail hrest (by omega)
    refine ⟨q'', ?_⟩
    simp only [writeItems_cons, hcomma, hskip, hitems]

theorem ReadsBack.fields_succ (h : ReadsBack fuel) {field : Text × Value}
    {fields : List (Text × Value)} {level : Nat} (outer p : Nat) (tail : List Char)
    (hkept : ∀ f ∈ field :: fields, FieldKept level f)
    (hfuel : (writeField level field).length + (writeFields level fields).length + 1 < fuel + 1) :
    ∃ q, readFields (fuel + 1) ⟨p, writeField level field ++ (writeFields level fields ++
      (newline outer ++ '\x7d' :: tail))⟩ = .ok (field :: fields, ⟨q, tail⟩) := by
  obtain ⟨k, v⟩ := field
  obtain ⟨hjoined, hv⟩ := hkept (k, v) (List.mem_cons_self ..)
  simp only at hjoined hv
  have hstops := stops_fields level fields (stops_newline outer ('\x7d' :: tail))
  have hfield : (writeAt level v).length + 4 ≤ (writeField level (k, v)).length := by
    simp [writeField, writeString]
  set behind := writeFields level fields ++ (newline outer ++ '\x7d' :: tail) with hbehind
  -- the key, the colon and the blank behind it
  obtain ⟨q, hkey⟩ := readString_write hjoined (p + 1) (':' :: ' ' :: (writeAt level v ++ behind))
  have hcolon := skipBlanks_self (':' :: ' ' :: (writeAt level v ++ behind)) q (by simp [isBlank])
  have hhead := h.head hv hstops (by omega)
  have hblank : Cursor.skipBlanks ⟨q + 1, ' ' :: (writeAt level v ++ behind)⟩ =
      ⟨q + 1 + 1, writeAt level v ++ behind⟩ :=
    skipBlanks_append (q + 1) (fun c (hc : c ∈ [' ']) => by rw [List.mem_singleton.mp hc]; rfl)
      fun c hc => (hhead c hc).1
  obtain ⟨q', hvalue⟩ := h.value (q + 1 + 1) hv hstops (by omega)
  rw [writeField_append]
  unfold readFields
  simp only [hkey, bind, Except.bind, hcolon, hblank, hvalue]
  cases fields with
  | nil =>
    obtain ⟨q'', hskip⟩ := skipBlanks_newline ('\x7d' :: tail) outer q' (by simp [isBlank])
    have hbehind : behind = newline outer ++ '\x7d' :: tail := rfl
    simp only [hbehind, hskip]
    exact ⟨_, rfl⟩
  | cons next fields =>
    have hrest : ∀ f ∈ next :: fields, FieldKept level f := fun f hf =>
      hkept f (List.mem_cons_of_mem _ hf)
    have hlength : (writeFields level (next :: fields)).length = 1 + (newline level).length +
        (writeField level next).length + (writeFields level fields).length := by
      simp [writeFields]
      omega
    rw [writeFields_cons] at hbehind
    have hcomma := skipBlanks_self behind q' (by simp [hbehind, isBlank])
    have hquote : ∀ c ∈ (writeField level next ++ (writeFields level fields ++
        (newline outer ++ '\x7d' :: tail))).head?, isBlank c = false := by
      intro c hc
      rw [writeField_append] at hc
      rw [← Option.some.inj hc]
      rfl
    obtain ⟨q'', hskip⟩ := skipBlanks_newline _ level (q' + 1) hquote
    obtain ⟨r, hfields⟩ := h.fields outer q'' tail hrest (by omega)
    refine ⟨r, ?_⟩
    rw [hbehind] at hcomma
    simp only [hbehind, hcomma, hskip, hfields]

theorem readValue_name {word : String} {v : Value} (hname : (word, v) ∈ namedValues)
    (hwrite : writeAt level v = word.toList) (fuel p : Nat) (rest : List Char) :
    ∃ q, readValue (fuel + 1) ⟨p, writeAt level v ++ rest⟩ = .ok (v, ⟨q, rest⟩) :=
  ⟨_, hwrite ▸ readValue_named hname fuel p rest⟩

theorem ReadsBack.list_succ (h : ReadsBack fuel) {v : Value} {items : List Value} (p : Nat)
    (rest : List Char) (hkept : ∀ w ∈ v :: items, Kept (level + 1) w)
    (hfuel : (writeAt level (.list (v :: items))).length < fuel + 1) :
    ∃ q, readValue (fuel + 1) ⟨p, writeAt level (.list (v :: items)) ++ rest⟩ =
      .ok (.list (v :: items), ⟨q, rest⟩) := by
  have hlength : (writeAt level (.list (v :: items))).length = 2 + (newline (level + 1)).length +
      (newline level).length + (writeAt (level + 1) v).length +
        (writeItems (level + 1) items).length := by
    simp [writeAt]
    omega
  have hline : 0 < (newline level).length ∧ 0 < (newline (level + 1)).length := by simp [newline]
  have hhead := h.head (hkept v (List.mem_cons_self ..))
    (stops_items (level + 1) items (stops_newline level (']' :: rest))) (by omega)
  obtain ⟨q, hskip⟩ := skipBlanks_newline _ (level + 1) (p + 1) fun c hc => (hhead c hc).1
  obtain ⟨q', hitems⟩ := h.items level q rest hkept (by omega)
  rw [writeAt_list]
  unfold readValue
  simp only [hskip]
  split
  next tail hclose =>
    rw [hclose] at hhead
    exact absurd rfl (hhead ']' rfl).2.1
  next => exact ⟨q', by rw [hitems]; rfl⟩

theorem ReadsBack.object_succ (h : ReadsBack fuel) {field : Text × Value}
    {fields : List (Text × Value)} (p : Nat) (rest : List Char)
    (hkept : ∀ f ∈ field :: fields, FieldKept (level + 1) f)
    (hnames : (Table.keys (field :: fields)).Nodup)
    (hfuel : (writeAt level (.object (field :: fields))).length < fuel + 1) :
    ∃ q, readValue (fuel + 1) ⟨p, writeAt level (.object (field :: fields)) ++ rest⟩ =
      .ok (.object (field :: fields), ⟨q, rest⟩) := by
  have hlength : (writeAt level (.object (field :: fields))).length =
      2 + (newline (level + 1)).length + (newline level).length +
        (writeField (level + 1) field).length + (writeFields (level + 1) fields).length := by
    simp [writeAt]
    omega
  have hline : 0 < (newline level).length ∧ 0 < (newline (level + 1)).length := by simp [newline]
  have hquote : ∀ c ∈ (writeField (level + 1) field ++ (writeFields (level + 1) fields ++
      (newline level ++ '\x7d' :: rest))).head?, c = '\x22' := by
    intro c hc
    rw [writeField_append] at hc
    exact (Option.some.inj hc).symm
  obtain ⟨q, hskip⟩ := skipBlanks_newline _ (level + 1) (p + 1) fun c hc => by
    rw [hquote c hc]
    rfl
  obtain ⟨q', hfields⟩ := h.fields level q rest hkept (by omega)
  have hsame : Table.ofEntries (field :: fields) = field :: fields :=
    Table.foldl_put_eq_self List.nil_prefix hnames
  rw [writeAt_object]
  unfold readValue
  simp only [hskip]
  split
  next tail hclose =>
    rw [hclose] at hquote
    exact absurd (hquote '\x7d' rfl) (by decide)
  next => exact ⟨q', by rw [hfields]; simp only [Except.map, hsame]⟩

theorem ReadsBack.value_succ (h : ReadsBack fuel) {v : Value} (p : Nat) {rest : List Char}
    (hv : Kept level v) (hrest : Stops rest) (hfuel : (writeAt level v).length < fuel + 1) :
    ∃ q, readValue (fuel + 1) ⟨p, writeAt level v ++ rest⟩ = .ok (v, ⟨q, rest⟩) := by
  obtain ⟨hjson, hcut⟩ := hv
  cases hjson with
  | null => exact readValue_name (by simp [namedValues]) rfl fuel p rest
  | bool b =>
    cases b with
    | true => exact readValue_name (by simp [namedValues]) rfl fuel p rest
    | false => exact readValue_name (by simp [namedValues]) rfl fuel p rest
  | int n =>
    refine readValue_int fuel n p ?_ hrest
    by_contra hlong
    simp [cutAt, Nat.lt_of_not_le hlong] at hcut
  | number hx => exact readValue_double hx fuel p hrest
  | @string s hs =>
    obtain ⟨q, hq⟩ := readString_write hs (p + 1) rest
    have htext : writeAt level (.string s) ++ rest =
        '\x22' :: (s.flatMap escapePoint ++ '\x22' :: rest) := by
      simp [writeAt, writeString]
    rw [htext]
    unfold readValue
    exact ⟨q, by simp only [hq]; rfl⟩
  | @list items hitems =>
    have hnone : ∀ w ∈ items, cutAt (level + 1) w = none :=
      (cutItems_eq_none_iff _ items).mp (by rwa [cutAt] at hcut)
    cases items with
    | nil => exact ⟨_, rfl⟩
    | cons v items => exact h.list_succ p rest (fun w hw => ⟨hitems w hw, hnone w hw⟩) hfuel
  | @object fields hnames hjoined hvalues =>
    have hnone : ∀ f ∈ fields, cutAt (level + 1) f.2 = none :=
      (cutFields_eq_none_iff fields).mp (by rwa [cutAt, Option.map_eq_none_iff] at hcut)
    cases fields with
    | nil => exact ⟨_, rfl⟩
    | cons field fields =>
      exact h.object_succ p rest (fun f hf => ⟨hjoined f hf, hvalues f hf, hnone f hf⟩) hnames hfuel

theorem readsBack (fuel : Nat) : ReadsBack fuel := by
  induction fuel with
  | zero =>
    refine ⟨fun p rest _ _ hfuel => ?_, fun outer p tail _ hfuel => ?_,
      fun outer p tail _ hfuel => ?_⟩
    · exact absurd hfuel (Nat.not_lt_zero _)
    · exact absurd hfuel (Nat.not_lt_zero _)
    · exact absurd hfuel (Nat.not_lt_zero _)
  | succ fuel ih =>
    exact ⟨fun p _ hv hrest hfuel => ih.value_succ p hv hrest hfuel,
      fun outer p tail hkept hfuel => ih.items_succ outer p tail hkept hfuel,
      fun outer p tail hkept hfuel => ih.fields_succ outer p tail hkept hfuel⟩

/-! ### Documents -/

/-- A value is read from the document that it is written as, with a newline behind it. -/
theorem read_write {v : Value} (hjson : v.IsJson) (hcut : cutAt 0 v = none) :
    read (writeAt 0 v ++ ['\n']) = .ok v := by
  have hstops : Stops ['\n'] := fun c hc => .inr (Option.some.inj hc).symm
  have hread := readsBack (2 * (writeAt 0 v ++ ['\n']).length + 2)
  have hfuel : (writeAt 0 v).length < 2 * (writeAt 0 v ++ ['\n']).length + 2 := by
    rw [List.length_append]
    omega
  have hhead := hread.head ⟨hjson, hcut⟩ hstops hfuel
  obtain ⟨q, hvalue⟩ := hread.value 0 ⟨hjson, hcut⟩ hstops hfuel
  have hmark : (writeAt 0 v ++ ['\n']).head? ≠ some '\uFEFF' := fun h => (hhead _ h).2.2 rfl
  have hstart := skipBlanks_self (writeAt 0 v ++ ['\n']) 0 fun c hc => (hhead c hc).1
  have hend : (Cursor.skipBlanks ⟨q, ['\n']⟩).rest = [] := rfl
  unfold read
  rw [if_neg hmark, hstart]
  simp only [hvalue, bind, Except.bind, hend]
  rfl

end SuiteView.Json
