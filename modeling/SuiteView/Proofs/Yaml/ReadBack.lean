import SuiteView.Proofs.Yaml.Readable

/-!
# Written documents read back

A document whose keys are plain names is read from the text that it is written as, up to what the
quotes of its texts carry. The proof is one induction on the fuel of the reader, which the length of
the text bounds: a value, the items of a sequence and the fields of a mapping each read what the
writer puts there, if the line behind them stands further left.
-/

namespace SuiteView.Yaml

/-! ### Keys -/

theorem startsItem_name {c : Char} (hc : isNameChar c = true) (cs : List Char) :
    startsItem (c :: cs) = false := by
  unfold startsItem
  split
  · rename_i heq
    obtain ⟨rfl, -⟩ := List.cons.inj heq
    cases hc
  · rfl

section Key

variable {name : String} {tail : List Char}

theorem readKey_name (hname : isKey name = true) (htail : startsSpaced tail = true) :
    readKey (name.toList ++ ':' :: tail) = some (name, tail) := by
  obtain ⟨-, hchars, hstring⟩ := isKey_facts hname
  have htake : (name.toList ++ ':' :: tail).takeWhile isNameChar = name.toList :=
    Json.takeWhile_append_stop hchars (by simp [isNameChar])
  have hdrop : (name.toList ++ ':' :: tail).dropWhile isNameChar = ':' :: tail := by
    rw [List.dropWhile_append_of_pos hchars, List.dropWhile_cons_of_neg (by decide)]
  simp [readKey, htake, hdrop, hstring, htail]

theorem startsItem_key (hname : isKey name = true) (cs : List Char) :
    startsItem (name.toList ++ cs) = false := by
  obtain ⟨c, rest, heq, hc, -⟩ := isKey_head hname
  rw [heq]
  exact startsItem_name hc _

/-- A key is no scalar, because a colon ends it. -/
theorem readPlain_key {limit : Nat} (htail : startsSpaced tail = true) {cs : List Char}
    (hchars : ∀ c ∈ cs, isNameChar c = true) (column : Nat) :
    readPlain limit .nothing column (cs ++ ':' :: tail) = none := by
  have hline : Gap.nothing.hasLine = false := rfl
  induction cs generalizing column with
  | nil =>
    rw [List.nil_append, readPlain, if_neg (by decide), if_neg (by decide), if_neg (by simp [hline])]
    simp [htail]
  | cons c cs ih =>
    obtain ⟨hord, hbreak, -, -, hothers⟩ := isNameChar_facts (hchars c (List.mem_cons_self ..))
    simp only [List.mem_cons, not_or] at hothers
    obtain ⟨hspace, -, hcolon, hhash, -⟩ := hothers
    rw [List.cons_append, readPlain_char hord hbreak hspace (by simp [hline]) (fun he => absurd he hhash)
      (fun he => absurd he hcolon), ih fun d hd => hchars d (List.mem_cons_of_mem _ hd)]
    rfl

theorem readScalar_key (hname : isKey name = true) (htail : startsSpaced tail = true)
    (limit : Nat) : readScalar limit (name.toList ++ ':' :: tail) = none := by
  obtain ⟨-, hchars, -⟩ := isKey_facts hname
  obtain ⟨c, rest, heq, hc, -⟩ := isKey_head hname
  obtain ⟨-, -, hspacing, hleading, hothers⟩ := isNameChar_facts hc
  simp only [List.mem_cons, not_or] at hothers
  have hstarts : startsPlain (name.toList ++ ':' :: tail) = true := by
    simp [heq, startsPlain, hspacing, hleading, hothers]
  rw [readScalar_of_startsPlain hstarts, readPlain_key htail hchars]
  rfl

end Key

theorem foldl_putField {fields : List (String × Document)} (h : (fields.map Prod.fst).Nodup) :
    fields.foldl putField [] = fields := by
  have hfold : ∀ front : List (String × Document), ((front ++ fields).map Prod.fst).Nodup →
      fields.foldl putField front = front ++ fields := by
    clear h
    induction fields with
    | nil => simp
    | cons field rest ih =>
      intro front hnames
      have hnew : (front.any fun old => decide (old.1 = field.1)) = false := by
        rw [List.map_append, List.nodup_append] at hnames
        simp only [List.any_eq_false, decide_eq_true_eq]
        intro old hold
        exact hnames.2.2 _ (List.mem_map_of_mem hold) _ (by simp)
      have hput : putField front field = front ++ [field] := by
        rw [putField, hnew]
        rfl
      rw [List.foldl_cons, hput, ih _ (by simpa using hnames)]
      simp
  exact hfold [] h

/-! ### Line starts -/

/-- Whether the line behind an item is one more item. -/
def goesOn (column : Nat) (rest : List Char) : Bool :=
  indentation rest = column && startsItem (rest.drop column)

/-- What stands behind a value: no line further right, and behind a field no item in its column. -/
structure Ends (inSequence : Bool) (indent : Nat) (rest : List Char) : Prop where
  before : EndsBefore (indent + 1) rest
  stops : inSequence = false → goesOn indent rest = false

theorem indentation_padding {c : Char} (hc : c ≠ ' ') (n : Nat) (cs : List Char) :
    indentation (padding n ++ c :: cs) = n := by
  have hpadding : ∀ d ∈ padding n, isSpace d = true := by
    intro d hd
    rw [(List.mem_replicate.mp hd).2]
    rfl
  rw [indentation, Json.takeWhile_append_stop hpadding (by simp [isSpace, hc]), padding,
    List.length_replicate]

theorem drop_padding (n : Nat) (cs : List Char) : (padding n ++ cs).drop n = cs :=
  List.drop_left' (by rw [padding, List.length_replicate])

theorem EndsBefore.mono {limit limit' : Nat} {rest : List Char} (h : EndsBefore limit rest)
    (hle : limit ≤ limit') : EndsBefore limit' rest := by
  obtain rfl | ⟨column, c, more, rfl, hlt, hhead⟩ := h
  · exact .inl rfl
  · exact .inr ⟨column, c, more, rfl, Nat.lt_of_lt_of_le hlt hle, hhead⟩

theorem EndsBefore.indentation_lt {limit : Nat} {rest : List Char} (h : EndsBefore limit rest) :
    rest = [] ∨ indentation rest < limit := by
  obtain rfl | ⟨column, c, more, rfl, hlt, hhead⟩ := h
  · exact .inl rfl
  · have hc : c ≠ ' ' := by
      rcases hhead with hname | ⟨rfl, -⟩
      · exact ne_space_of_isNameChar hname
      · decide
    rw [indentation_padding hc]
    exact .inr hlt

theorem EndsBefore.stops {column : Nat} {rest : List Char} (h : EndsBefore column rest) :
    goesOn column rest = false ∧
      (indentation rest = column && !(rest.drop column).isEmpty) = false := by
  obtain rfl | hlt := h.indentation_lt
  · simp [goesOn, startsItem]
  · have hne : indentation rest ≠ column := by omega
    simp [goesOn, hne]

variable {fuel indent column : Nat} {inSequence : Bool} {rest : List Char}

theorem writeAfter_spaced (indent column : Nat) (inSequence : Bool) (d : Document)
    (rest : List Char) : startsSpaced (writeAfter indent column inSequence d ++ rest) = true := by
  unfold writeAfter
  split <;> try rfl
  · split <;> rfl
  · cases inSequence <;> rfl
  · cases inSequence <;> rfl

theorem length_writeAfter_pos (indent column : Nat) (inSequence : Bool) (d : Document) :
    0 < (writeAfter indent column inSequence d).length := by
  refine List.length_pos_iff.mpr fun hempty => ?_
  have hspaced := writeAfter_spaced indent column inSequence d ['-']
  rw [hempty] at hspaced
  exact absurd hspaced (by decide)

theorem endsBefore_items (h : EndsBefore (indent + 1) rest) (items : List Document) :
    EndsBefore (indent + 1) (writeItems indent items ++ rest) := by
  cases items with
  | nil => exact h
  | cons item items =>
    have hspaced := writeAfter_spaced indent (indent + 1) true item (writeItems indent items ++ rest)
    refine .inr ⟨indent, '-', _, ?_, Nat.lt_succ_self indent, .inr ⟨rfl, hspaced⟩⟩
    simp [writeItems]

/-- A key at the start of a line ends what stands further right, and is no item. -/
theorem ends_fields (h : EndsBefore indent rest) {fields : List (String × Document)}
    (hkeys : ∀ field ∈ fields, isKey field.1 = true) :
    Ends false indent (writeFields indent fields ++ rest) := by
  cases fields with
  | nil => exact ⟨h.mono (Nat.le_succ indent), fun _ => h.stops.1⟩
  | cons field fields =>
    obtain ⟨name, d⟩ := field
    obtain ⟨c, cs, heq, hc, -⟩ := isKey_head (hkeys _ (List.mem_cons_self ..))
    obtain ⟨more, hmore⟩ : ∃ more, writeFields indent ((name, d) :: fields) ++ rest =
        padding indent ++ c :: more := by
      simp [writeFields, writeField, heq]
    rw [hmore]
    refine ⟨.inr ⟨indent, c, more, rfl, Nat.lt_succ_self indent, .inl hc⟩, fun _ => ?_⟩
    rw [goesOn, drop_padding, startsItem_name hc, Bool.and_false]

/-! ### Values -/

theorem readAfter_scalar {body : List Char} {d : Document} (hitem : startsItem body = false)
    (hread : readScalar (indent + 1) body = some (d, rest)) :
    readAfter (fuel + 1) indent inSequence (' ' :: body) = some (d, rest) := by
  rw [readAfter]
  simp [hitem, hread]

theorem readAfter_word {d : Document} (hend : EndsBefore (indent + 1) rest) (word : List Char)
    (hne : word ≠ []) (hall : word.all isNameChar = true) (hword : resolve word = some d) :
    readAfter (fuel + 1) indent inSequence (' ' :: (word ++ '\n' :: rest)) = some (d, rest) := by
  have hchars := List.all_eq_true.mp hall
  refine readAfter_scalar ?_ ?_
  · cases word with
    | nil => exact absurd rfl hne
    | cons c word => exact startsItem_name (hchars c (List.mem_cons_self ..)) _
  · rw [readScalar_word hend hne hchars, hword]
    rfl

/-- With this fuel the reader gives back what is written in texts that are no longer. -/
structure ReadsBack (fuel : Nat) : Prop where
  after : ∀ {d : Document} {indent column : Nat} {inSequence : Bool} {rest : List Char},
    d.IsKeyed → indent + 1 ≤ column → Ends inSequence indent rest →
    (writeAfter indent column inSequence d).length ≤ fuel →
    readAfter fuel indent inSequence (writeAfter indent column inSequence d ++ rest) =
      some (carriedAfter indent inSequence d, rest)
  items : ∀ {item : Document} {items : List Document} {indent : Nat} {rest : List Char},
    (∀ d ∈ item :: items, d.IsKeyed) → Ends false indent rest →
    (writeAfter indent (indent + 1) true item ++ writeItems indent items).length < fuel →
    readItems fuel indent
        ('-' :: (writeAfter indent (indent + 1) true item ++ (writeItems indent items ++ rest))) =
      some (carriedItems indent (item :: items), rest)
  fields : ∀ {field : String × Document} {fields : List (String × Document)} {indent : Nat}
    {rest : List Char}, (∀ f ∈ field :: fields, isKey f.1 = true ∧ f.2.IsKeyed) →
    EndsBefore indent rest →
    (writeField indent field ++ writeFields indent fields).length ≤ fuel →
    readFields fuel indent (writeField indent field ++ (writeFields indent fields ++ rest)) =
      some (carriedFields indent (field :: fields), rest)

theorem ReadsBack.items_succ (h : ReadsBack fuel) {item : Document} {items : List Document}
    (hkeyed : ∀ d ∈ item :: items, d.IsKeyed) (hend : Ends false indent rest)
    (hfuel : (writeAfter indent (indent + 1) true item ++ writeItems indent items).length <
      fuel + 1) :
    readItems (fuel + 1) indent
        ('-' :: (writeAfter indent (indent + 1) true item ++ (writeItems indent items ++ rest))) =
      some (carriedItems indent (item :: items), rest) := by
  rw [List.length_append] at hfuel
  have hnext : Ends true indent (writeItems indent items ++ rest) :=
    ⟨endsBefore_items hend.before items, nofun⟩
  have hitem := h.after (hkeyed item (List.mem_cons_self ..)) (Nat.le_refl (indent + 1)) hnext
    (by omega)
  rw [readItems, List.drop_one, List.tail_cons, hitem]
  dsimp only
  cases items with
  | nil =>
    have hstop := hend.stops rfl
    rw [goesOn] at hstop
    rw [writeItems, List.nil_append, hstop]
    rfl
  | cons next items =>
    have hwrite : writeItems indent (next :: items) ++ rest = padding indent ++
        '-' :: (writeAfter indent (indent + 1) true next ++ (writeItems indent items ++ rest)) := by
      simp [writeItems]
    have hlength : (writeItems indent (next :: items)).length =
        indent + 1 + (writeAfter indent (indent + 1) true next ++ writeItems indent items).length := by
      simp [writeItems, padding]
      omega
    have hrest := h.items (fun d hd => hkeyed d (List.mem_cons_of_mem _ hd)) hend (by omega)
    have hdash : startsItem ('-' :: (writeAfter indent (indent + 1) true next ++
        (writeItems indent items ++ rest))) = true := writeAfter_spaced ..
    rw [hwrite, drop_padding, indentation_padding (by decide), hdash, hrest]
    simp [carriedItems]

theorem ReadsBack.fields_succ (h : ReadsBack fuel) {field : String × Document}
    {fields : List (String × Document)}
    (hkeyed : ∀ f ∈ field :: fields, isKey f.1 = true ∧ f.2.IsKeyed) (hend : EndsBefore indent rest)
    (hfuel : (writeField indent field ++ writeFields indent fields).length ≤ fuel + 1) :
    readFields (fuel + 1) indent (writeField indent field ++ (writeFields indent fields ++ rest)) =
      some (carriedFields indent (field :: fields), rest) := by
  obtain ⟨name, d⟩ := field
  obtain ⟨hname, hd⟩ : isKey name = true ∧ d.IsKeyed := hkeyed _ (List.mem_cons_self ..)
  have hrest := fun f hf => hkeyed f (List.mem_cons_of_mem _ hf)
  have hnext := ends_fields hend fun f hf => (hrest f hf).1
  have hspaced := writeAfter_spaced indent (indent + name.toList.length + 1) false d
    (writeFields indent fields ++ rest)
  have hlength : (writeField indent (name, d)).length = name.toList.length + 1 +
      (writeAfter indent (indent + name.toList.length + 1) false d).length := by
    simp [writeField]
    omega
  rw [List.length_append] at hfuel
  have hcolumn : indent + 1 ≤ indent + name.toList.length + 1 := by omega
  have hvalue := h.after hd hcolumn hnext (by omega)
  rw [writeField, List.append_assoc, List.cons_append, readFields, readKey_name hname hspaced]
  dsimp only
  rw [hvalue]
  dsimp only
  cases fields with
  | nil =>
    have hstop := hend.stops.2
    rw [writeFields, List.nil_append, hstop]
    rfl
  | cons next fields =>
    have hwrite : writeFields indent (next :: fields) ++ rest =
        padding indent ++ (writeField indent next ++ (writeFields indent fields ++ rest)) := by
      simp [writeFields]
    have hfields : (writeFields indent (next :: fields)).length =
        indent + (writeField indent next ++ writeFields indent fields).length := by
      simp [writeFields, padding]
    have hmore := h.fields hrest hend (by omega)
    obtain ⟨nextName, nextValue⟩ := next
    obtain ⟨c, cs, heq, -, hc⟩ := isKey_head (hrest _ (List.mem_cons_self ..)).1
    obtain ⟨more, hhead⟩ : ∃ more,
        writeField indent (nextName, nextValue) ++ (writeFields indent fields ++ rest) =
          c :: more := by
      simp [writeField, heq]
    rw [hwrite, drop_padding, hmore, hhead, indentation_padding hc]
    simp [carriedFields, carriedField]

/-- Where the value of a key stands on lines of its own. -/
theorem readAfter_newline {body : List Char} (hbody : ∀ c ∈ body.head?, c ≠ ' ') :
    readAfter (fuel + 1) indent inSequence ('\n' :: (padding column ++ body)) =
      if startsItem body && (indent < column || (indent = column && !inSequence)) then
        (readItems fuel column body).map fun (items, rest) => (.sequence items, rest)
      else if indent < column then
        (readFields fuel column body).map fun (fields, rest) =>
          (.mapping (fields.foldl putField []), rest)
      else some (.null, padding column ++ body) := by
  have hcolumn : indentation (padding column ++ body) = column := by
    cases body with
    | nil => simp [indentation, padding, isSpace]
    | cons c body => exact indentation_padding (hbody c rfl) column body
  rw [readAfter]
  simp only [hcolumn, drop_padding]

theorem ReadsBack.sequence (h : ReadsBack fuel) {item : Document} {items : List Document}
    (hitems : ∀ d ∈ item :: items, d.IsKeyed) (hend : Ends inSequence indent rest)
    (hfuel : (writeAfter indent column inSequence (.sequence (item :: items))).length ≤ fuel + 1) :
    readAfter (fuel + 1) indent inSequence
        (writeAfter indent column inSequence (.sequence (item :: items)) ++ rest) =
      some (carriedAfter indent inSequence (.sequence (item :: items)), rest) := by
  have hdash (indent : Nat) : startsItem ('-' :: (writeAfter indent (indent + 1) true item ++
      (writeItems indent items ++ rest))) = true := writeAfter_spaced ..
  cases inSequence with
  | false =>
    -- the dashes stand in the column of the key
    have hwrite : writeAfter indent column false (.sequence (item :: items)) ++ rest =
        '\n' :: (padding indent ++ '-' :: (writeAfter indent (indent + 1) true item ++
          (writeItems indent items ++ rest))) := by
      simp [writeAfter]
    have hlength : (writeAfter indent column false (.sequence (item :: items))).length = indent + 2 +
        (writeAfter indent (indent + 1) true item ++ writeItems indent items).length := by
      simp [writeAfter, padding]
      omega
    rw [hwrite, readAfter_newline (by simp), hdash, h.items hitems hend (by omega)]
    simp [carriedAfter]
  | true =>
    have hwrite : writeAfter indent column true (.sequence (item :: items)) ++ rest =
        ' ' :: '-' :: (writeAfter (indent + 2) (indent + 2 + 1) true item ++
          (writeItems (indent + 2) items ++ rest)) := by
      simp [writeAfter]
    have hlength : (writeAfter indent column true (.sequence (item :: items))).length = 2 +
        (writeAfter (indent + 2) (indent + 2 + 1) true item ++
          writeItems (indent + 2) items).length := by
      simp [writeAfter]
      omega
    have hbefore := hend.before.mono (Nat.le_succ (indent + 1))
    have hinner : Ends false (indent + 2) rest :=
      ⟨hbefore.mono (Nat.le_succ _), fun _ => hbefore.stops.1⟩
    rw [hwrite, readAfter, hdash, h.items hitems hinner (by omega)]
    simp [carriedAfter]

theorem ReadsBack.mapping (h : ReadsBack fuel) {field : String × Document}
    {fields : List (String × Document)} (hnames : ((field :: fields).map Prod.fst).Nodup)
    (hfields : ∀ f ∈ field :: fields, isKey f.1 = true ∧ f.2.IsKeyed)
    (hend : Ends inSequence indent rest)
    (hfuel : (writeAfter indent column inSequence (.mapping (field :: fields))).length ≤ fuel + 1) :
    readAfter (fuel + 1) indent inSequence
        (writeAfter indent column inSequence (.mapping (field :: fields)) ++ rest) =
      some (carriedAfter indent inSequence (.mapping (field :: fields)), rest) := by
  have hbefore := hend.before.mono (Nat.le_succ (indent + 1))
  have hput : (carriedFields (indent + 2) (field :: fields)).foldl putField [] =
      carriedFields (indent + 2) (field :: fields) :=
    foldl_putField (by rwa [map_fst_carriedFields])
  have hread (hlength : (writeField (indent + 2) field ++ writeFields (indent + 2) fields).length ≤
      fuel) := h.fields hfields hbefore hlength
  obtain ⟨name, d⟩ := field
  have hname : isKey name = true := (hfields _ (List.mem_cons_self ..)).1
  obtain ⟨tail, hbody, htail⟩ : ∃ tail, writeField (indent + 2) (name, d) ++
      (writeFields (indent + 2) fields ++ rest) = name.toList ++ ':' :: tail ∧
        startsSpaced tail = true :=
    ⟨writeAfter (indent + 2) (indent + 2 + name.toList.length + 1) false d ++
      (writeFields (indent + 2) fields ++ rest), by simp [writeField], writeAfter_spaced ..⟩
  have hitem := startsItem_key hname (':' :: tail)
  cases inSequence with
  | false =>
    have hwrite : writeAfter indent column false (.mapping ((name, d) :: fields)) ++ rest =
        '\n' :: (padding (indent + 2) ++ (writeField (indent + 2) (name, d) ++
          (writeFields (indent + 2) fields ++ rest))) := by
      simp [writeAfter]
    have hlength : (writeAfter indent column false (.mapping ((name, d) :: fields))).length =
        indent + 3 + (writeField (indent + 2) (name, d) ++ writeFields (indent + 2) fields).length := by
      simp [writeAfter, padding]
      omega
    have hhead : ∀ c ∈ (name.toList ++ ':' :: tail).head?, c ≠ ' ' := by
      obtain ⟨c, cs, heq, -, hc⟩ := isKey_head hname
      simp [heq, hc]
    rw [hwrite, hbody, readAfter_newline hhead, hitem, ← hbody, hread (by omega)]
    simp [hput, carriedAfter]
  | true =>
    -- the line of the dash holds the first key, which is no scalar
    have hwrite : writeAfter indent column true (.mapping ((name, d) :: fields)) ++ rest =
        ' ' :: (writeField (indent + 2) (name, d) ++
          (writeFields (indent + 2) fields ++ rest)) := by
      simp [writeAfter]
    have hlength : (writeAfter indent column true (.mapping ((name, d) :: fields))).length =
        1 + (writeField (indent + 2) (name, d) ++ writeFields (indent + 2) fields).length := by
      simp [writeAfter]
      omega
    rw [hwrite, hbody, readAfter, hitem, readScalar_key hname htail, ← hbody, hread (by omega)]
    simp [hput, carriedAfter]

theorem ReadsBack.after_succ (h : ReadsBack fuel) {d : Document} (hd : d.IsKeyed)
    (hcolumn : indent + 1 ≤ column) (hend : Ends inSequence indent rest)
    (hfuel : (writeAfter indent column inSequence d).length ≤ fuel + 1) :
    readAfter (fuel + 1) indent inSequence (writeAfter indent column inSequence d ++ rest) =
      some (carriedAfter indent inSequence d, rest) := by
  cases hd with
  | null =>
    have hnull : resolve "null".toList = some .null := rfl
    exact readAfter_word hend.before "null".toList (by decide) (by decide) hnull
  | flag b =>
    have htrue : resolve "true".toList = some (.flag true) := rfl
    have hfalse : resolve "false".toList = some (.flag false) := rfl
    cases b with
    | true => exact readAfter_word hend.before "true".toList (by decide) (by decide) htrue
    | false => exact readAfter_word hend.before "false".toList (by decide) (by decide) hfalse
  | count n =>
    have hword : (toString n).toList = Nat.toDigits 10 n := by simp
    have hchars : (Nat.toDigits 10 n).all isNameChar = true :=
      List.all_eq_true.mpr fun c hc => isNameChar_of_isDigit (Json.isDigit_of_mem_toDigits hc)
    have hwrite : writeAfter indent column inSequence (.count n) ++ rest =
        ' ' :: (Nat.toDigits 10 n ++ '\n' :: rest) := by
      simp [writeAfter]
    rw [hwrite]
    exact readAfter_word hend.before _ (Json.isWhole_toDigits n).nonempty hchars (resolve_count n)
  | text t =>
    have hlimit : indent + 1 ≤ indent + 2 := by omega
    have hinside : indent + 2 ≤ column + 1 + 1 := by omega
    obtain ⟨hread, hitem⟩ :=
      readScalar_writeText hlimit (Nat.succ_pos _) hinside hend.before t
    have hwrite : writeAfter indent column inSequence (.text t) ++ rest =
        ' ' :: (writeText (indent + 2) (column + 1) t ++ '\n' :: rest) := by
      simp [writeAfter]
    rw [hwrite]
    exact readAfter_scalar hitem hread
  | sequence hitems =>
    rename_i items
    cases items with
    | nil => exact readAfter_scalar rfl rfl
    | cons item items => exact h.sequence hitems hend hfuel
  | mapping hnames hkeys hvalues =>
    rename_i fields
    cases fields with
    | nil => exact readAfter_scalar rfl rfl
    | cons field fields =>
      exact h.mapping hnames (fun f hf => ⟨hkeys f hf, hvalues f hf⟩) hend hfuel

theorem readsBack (fuel : Nat) : ReadsBack fuel := by
  induction fuel with
  | zero =>
    refine ⟨fun {d indent column inSequence rest} _ _ _ hfuel => ?_,
      fun _ _ hfuel => absurd hfuel (Nat.not_lt_zero _), fun {field fields indent _} _ _ hfuel => ?_⟩
    · have hlength := length_writeAfter_pos indent column inSequence d
      omega
    · obtain ⟨name, d⟩ := field
      simp [writeField] at hfuel
  | succ fuel ih => exact ⟨ih.after_succ, ih.items_succ, ih.fields_succ⟩

/-! ### Whole documents -/

/-- A written document is read as what its texts carry. -/
theorem read_write {fields : List (String × Document)} (hne : fields ≠ [])
    (h : (Document.mapping fields).IsKeyed) :
    read (write fields) = some (.mapping (carriedFields 0 fields)) := by
  cases h with
  | mapping hnames hkeys hvalues =>
    obtain ⟨field, rest, rfl⟩ := List.exists_cons_of_ne_nil hne
    have hsafe := writeFields_isSafe 0 (field :: rest) hkeys hvalues
    have hreadable : (writeFields 0 (field :: rest)).all isReadable = true := by
      simp only [List.all_eq_true, isSafe, Bool.and_eq_true] at hsafe ⊢
      exact fun c hc => (hsafe c hc).1
    have hreturn : '\r' ∉ writeFields 0 (field :: rest) := fun hmem =>
      absurd (List.all_eq_true.mp hsafe _ hmem) (by decide)
    have hwrite : writeFields 0 (field :: rest) =
        writeField 0 field ++ (writeFields 0 rest ++ []) := by
      simp [writeFields, padding]
    have hlength : (writeField 0 field ++ writeFields 0 rest).length ≤
        (writeFields 0 (field :: rest)).length := by
      rw [hwrite, List.append_nil]
    have hread := (readsBack (writeFields 0 (field :: rest)).length).fields
      (fun f hf => ⟨hkeys f hf, hvalues f hf⟩) (.inl rfl) hlength
    rw [← hwrite] at hread
    have hput : (carriedFields 0 (field :: rest)).foldl putField [] =
        carriedFields 0 (field :: rest) :=
      foldl_putField (by rwa [map_fst_carriedFields])
    rw [read, write, String.toList_ofList, Text.normalizeNewlines_eq_self hreturn, if_pos hreadable,
      hread]
    exact congrArg (fun fields => some (Document.mapping fields)) hput

/-- It comes back as it was just if each of its texts is carried by the style and the place that it is
written in. -/
theorem read_write_eq_self_iff {fields : List (String × Document)} (hne : fields ≠ [])
    (h : (Document.mapping fields).IsKeyed) :
    read (write fields) = some (.mapping fields) ↔
      ∀ p ∈ textsOfFields 0 fields, Carries p.1 p.2 := by
  rw [read_write hne h, Option.some.injEq, Document.mapping.injEq, carriedFields_eq_self_iff]

end SuiteView.Yaml
