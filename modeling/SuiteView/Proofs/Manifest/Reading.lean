import SuiteView.Proofs.Manifest.Document

/-!
# What the entries of a document give

An entry is read on its own, under the id of the entry around it, and this id is all that it takes
from its surroundings: it becomes the parent. So every position of a document has a reading, whether
the entries around it can be read or not, and reading the document means taking these readings in
order up to the first fault.
-/

namespace SuiteView

namespace Identifier

/-! ### Making identifiers -/

theorem make_ok_iff (uniqueId displayName kind parent : Value) (location : Option Location)
    (i : Identifier) : make uniqueId displayName kind location parent = .ok i ↔
      uniqueId = .string i.uniqueId ∧ i.uniqueId ≠ [] ∧ displayName = .string i.displayName ∧
      Kind.ofValue? kind = some i.kind ∧ location = i.location ∧ parent = i.parent := by
  constructor
  · intro h
    unfold make at h
    split at h
    · split at h
      · cases h
      · rename_i hid
        split at h
        · split at h
          · rename_i k hk
            obtain rfl := Except.ok.inj h
            exact ⟨rfl, fun he => hid (List.isEmpty_iff.mpr he), rfl, hk, rfl, rfl⟩
          · cases h
        · cases h
    · cases h
  · rintro ⟨rfl, hid, rfl, hkind, rfl, rfl⟩
    have hne : ¬ i.uniqueId.isEmpty = true := fun he => hid (List.isEmpty_iff.mp he)
    simp only [make, hne, hkind, Bool.false_eq_true, if_false]

theorem make_under (uniqueId displayName kind parent : Value) (location : Option Location) :
    make uniqueId displayName kind location parent =
      (make uniqueId displayName kind location .null).map fun i => { i with parent := parent } := by
  unfold make
  split
  · split
    · rfl
    · split
      · split
        · rfl
        · rfl
      · rfl
  · rfl

end Identifier

namespace Manifest

/-! ### One entry -/

/-- The id that an entry carries; null where there is none. -/
def idOf : Value → Value
  | .object fields => field fields "id" .null
  | _ => .null

/-- What an entry with these fields has to hold to give an identifier. -/
structure Gives (fields : Table Value) (outer : Value) (i : Identifier) : Prop where
  id : field fields "id" (.string "") = .string i.uniqueId
  id_ne : i.uniqueId ≠ []
  children : field fields "children" (.list []) = .list (nested (.object fields))
  location : parseLocation (field fields "location" .null) = .ok i.location
  displayName : field fields "display_name" (.string i.uniqueId) = .string i.displayName
  kind : Kind.ofValue? (kindOf fields (nested (.object fields))) = some i.kind
  parent : parentOf fields outer = i.parent

theorem nested_object {fields : Table Value} {entries : List Value}
    (h : field fields "children" (.list []) = .list entries) : nested (.object fields) = entries := by
  simp only [nested, h]

theorem parseEntry_ok_iff (fields : Table Value) (outer : Value) (i : Identifier) :
    parseEntry (.object fields) outer = .ok i ↔ Gives fields outer i := by
  constructor
  · intro h
    simp only [parseEntry] at h
    split at h
    · cases h
    · split at h
      · rename_i uniqueId hid
        split at h
        · rename_i children hchildren
          split at h
          · cases h
          · rename_i location hlocation
            split at h
            · cases h
            · rename_i j hmake
              obtain rfl := Except.ok.inj h
              obtain ⟨hu, hne, hname, hkind, rfl, hparent⟩ := (Identifier.make_ok_iff ..).mp hmake
              obtain rfl := nested_object hchildren
              exact ⟨hu, hne, hchildren, hlocation, hu ▸ hname, hkind, hparent⟩
        · cases h
      · cases h
  · intro h
    have htruthy : (Value.string i.uniqueId).truthy = true := by simp [Value.truthy, h.id_ne]
    have hmake := (Identifier.make_ok_iff (.string i.uniqueId) (.string i.displayName)
      (kindOf fields (nested (.object fields))) i.parent i.location i).mpr
      ⟨rfl, h.id_ne, rfl, h.kind, rfl, rfl⟩
    simp only [parseEntry, h.id, htruthy, h.children, h.location, h.displayName, h.parent, hmake,
      Bool.not_true, Bool.false_eq_true, if_false]

theorem parseEntry_object {e outer : Value} {i : Identifier} (h : parseEntry e outer = .ok i) :
    ∃ fields, e = .object fields ∧ Gives fields outer i := by
  cases e with
  | object fields => exact ⟨fields, rfl, (parseEntry_ok_iff fields outer i).mp h⟩
  | null | bool | int | number | string | list => cases h

/-- What an entry gives depends on the entry around it in the parent alone. -/
theorem parseEntry_under (fields : Table Value) (outer : Value) :
    parseEntry (.object fields) outer =
      (parseEntry (.object fields) .null).map fun i => { i with parent := parentOf fields outer } := by
  simp only [parseEntry]
  split
  · rfl
  · split
    · split
      · split
        · rfl
        · rw [Identifier.make_under]
          conv_rhs => rw [Identifier.make_under]
          cases Identifier.make _ _ _ _ _ <;> rfl
      · rfl
    · rfl

theorem Gives.idOf_eq {fields : Table Value} {outer : Value} {i : Identifier}
    (h : Gives fields outer i) : idOf (.object fields) = .string i.uniqueId := by
  have hid := h.id
  unfold field at hid
  cases hget : fields.get? "id" with
  | none =>
    rw [hget] at hid
    exact absurd (Value.string.inj hid).symm h.id_ne
  | some v =>
    rw [hget] at hid
    simp only [idOf, field, hget]
    exact hid

theorem idOf_of_parseEntry {e outer : Value} {i : Identifier} (h : parseEntry e outer = .ok i) :
    idOf e = .string i.uniqueId := by
  obtain ⟨fields, rfl, hgives⟩ := parseEntry_object h
  exact hgives.idOf_eq

/-! ### All entries -/

/-- The id of the entry at a position. -/
def idAt (entries : List Value) (position : Position) : Value :=
  ((entryAt? entries position).map idOf).getD .null

/-- The id of the entry around a position; at the top level, what stands around the document. -/
def enclosing (outer : Value) (entries : List Value) (position : Position) : Value :=
  match position.dropLast with
  | [] => outer
  | above => idAt entries above

/-- What the entry at a position gives under the id of the entry around it. -/
def readingAt? (outer : Value) (entries : List Value) (position : Position) :
    Option (Except EntryError Identifier) :=
  (entryAt? entries position).map fun e => parseEntry e (enclosing outer entries position)

/-- What all entries give, in the order of the document. -/
def readings (outer : Value) (entries : List Value) : List (Except EntryError Identifier) :=
  (positions entries).filterMap (readingAt? outer entries)

theorem readingAt?_first (outer e : Value) (rest : List Value) :
    readingAt? outer (e :: rest) [0] = some (parseEntry e outer) := rfl

theorem readingAt?_nested (outer e : Value) (rest : List Value) {position : Position}
    (h : position ≠ []) :
    readingAt? outer (e :: rest) (0 :: position) = readingAt? (idOf e) (nested e) position := by
  have henclosing : enclosing outer (e :: rest) (0 :: position) =
      enclosing (idOf e) (nested e) position := by
    unfold enclosing
    rw [List.dropLast_cons_of_ne_nil h]
    cases habove : position.dropLast with
    | nil => rfl
    | cons l above => rfl
  rw [readingAt?, readingAt?, entryAt?_nested e rest h, henclosing]

theorem readingAt?_later (outer e : Value) (rest : List Value) (k : Nat) (position : Position) :
    readingAt? outer (e :: rest) ((k + 1) :: position) =
      readingAt? outer rest (k :: position) := by
  have henclosing : enclosing outer (e :: rest) ((k + 1) :: position) =
      enclosing outer rest (k :: position) := by
    cases position with
    | nil => rfl
    | cons l position =>
      show idAt (e :: rest) ((k + 1) :: (l :: position).dropLast) =
        idAt rest (k :: (l :: position).dropLast)
      rw [idAt, idAt, entryAt?_later]
  rw [readingAt?, readingAt?, entryAt?_later, henclosing]

theorem readings_cons (outer e : Value) (rest : List Value) :
    readings outer (e :: rest) =
      parseEntry e outer :: (readings (idOf e) (nested e) ++ readings outer rest) := by
  have hnested : ((positions (nested e)).map (0 :: ·)).filterMap (readingAt? outer (e :: rest)) =
      readings (idOf e) (nested e) := by
    rw [List.filterMap_map]
    refine List.filterMap_congr fun position hposition => readingAt?_nested outer e rest ?_
    rintro rfl
    exact nil_not_mem_of_mem_iff (mem_positions_iff (nested e)) hposition
  have hlater : ((positions rest).map shift).filterMap (readingAt? outer (e :: rest)) =
      readings outer rest := by
    rw [List.filterMap_map]
    refine List.filterMap_congr fun position hposition => ?_
    cases position with
    | nil => exact absurd hposition (nil_not_mem_of_mem_iff (mem_positions_iff rest))
    | cons k below => exact readingAt?_later outer e rest k below
  rw [readings, positions_cons, List.filterMap_cons_some (readingAt?_first outer e rest),
    List.filterMap_append, hnested, hlater]

/-! ### Reading in order -/

theorem readChildren_eq (uniqueId : Text) (fields : Table Value) :
    readChildren uniqueId fields = readEntries (.string uniqueId) (nested (.object fields)) := by
  induction fields with
  | nil => rfl
  | cons entry rest ih =>
    obtain ⟨name, v⟩ := entry
    by_cases hname : name = "children"
    · cases v <;> simp [readChildren, readChildField, nested, field, Table.get?, hname, readEntries]
    · have hskip : readChildField uniqueId (name, v) = none := by
        cases v <;> simp [readChildField, hname]
      have hsame : nested (.object ((name, v) :: rest)) = nested (.object rest) := by
        simp only [nested, field, Table.get?, hname, if_false]
      rw [readChildren, hskip, hsame, ← ih]
      rfl

theorem readEntry_eq (outer e : Value) : readEntry outer e =
    match parseEntry e outer with
    | .error cause => [.error cause]
    | .ok i => .ok i :: readEntries (.string i.uniqueId) (nested e) := by
  cases e with
  | object fields =>
    rw [readEntry]
    cases parseEntry (.object fields) outer with
    | error cause => rfl
    | ok i => simp only [readChildren_eq]
  | null | bool | int | number | string | list => rfl

theorem foldlM_readEntries (outer : Value) (entries : List Value) (p : Plan) :
    (readEntries outer entries).foldlM addEntry p = (readings outer entries).foldlM addEntry p := by
  -- an entry that cannot be read ends both, so it does not matter that one of them goes on below it
  induction entries using positions.induct generalizing outer p with
  | case1 => simp [readEntries, readings, positions]
  | case2 e rest ihnested ihrest =>
    rw [readEntries, readEntry_eq, readings_cons]
    cases hread : parseEntry e outer with
    | error cause => rfl
    | ok i =>
      rw [idOf_of_parseEntry hread, List.cons_append, List.foldlM_cons, List.foldlM_cons]
      cases hadd : addEntry p (.ok i) with
      | error cause => rfl
      | ok p' =>
        show List.foldlM addEntry p' (_ ++ _) = List.foldlM addEntry p' (_ ++ _)
        rw [List.foldlM_append, List.foldlM_append, ihnested]
        cases (readings (.string i.uniqueId) (nested e)).foldlM addEntry p' with
        | error cause => rfl
        | ok p'' => exact ihrest outer p''

/-- The plan of a document comes of the readings of all entries, taken in order up to the first
fault. -/
theorem plan_eq_foldlM {m : Manifest} {entries : List Value}
    (h : field m "plan" (.list []) = .list entries) :
    m.plan = (readings .null entries).foldlM addEntry Plan.empty := by
  rw [plan, h]
  exact foldlM_readEntries .null entries Plan.empty

end Manifest

end SuiteView
