import SuiteView.Proofs.Manifest.Reading

/-!
# The grammar of entries

What an entry has to look like, field by field, beside the reader that checks it. A field that is
absent is always in order, but for the id; the names in a location count only where the name before
them is there and not empty. Main statement: the reader accepts exactly the entries of this grammar,
makes of them what they describe, and refuses every other value for its first fault.
-/

namespace SuiteView

namespace Manifest

/-! ### Fields -/

/-- The field is absent, or its value is of this sort. -/
def IfGiven (fields : Table Value) (name : Text) (sort : Value → Prop) : Prop :=
  ∀ v, fields.get? name = some v → sort v

/-- The field holds this text, and the text is not empty. -/
def Names (fields : Table Value) (name text : Text) : Prop :=
  fields.get? name = some (.string text) ∧ text ≠ []

def IsString (v : Value) : Prop := ∃ s, v = .string s

def IsList (v : Value) : Prop := ∃ items, v = .list items

def IsStringList (v : Value) : Prop := ∃ names : List Text, v = .list (names.map .string)

def IsKind (v : Value) : Prop := v = .string "container" ∨ v = .string "test"

theorem ifGiven_or (fields : Table Value) (name : Text) (sort : Value → Prop) :
    IfGiven fields name sort ∨ ∃ v, fields.get? name = some v ∧ ¬ sort v := by
  by_cases h : IfGiven fields name sort
  · exact .inl h
  · obtain ⟨v, hv⟩ := not_forall.mp h
    exact .inr ⟨v, Classical.not_imp.mp hv⟩

theorem IfGiven.cases {fields : Table Value} {name : Text} {sort : Value → Prop}
    (h : IfGiven fields name sort) :
    fields.get? name = none ∨ ∃ v, fields.get? name = some v ∧ sort v := by
  cases hget : fields.get? name with
  | none => exact .inl rfl
  | some v => exact .inr ⟨v, rfl, h v hget⟩

theorem name_cases (fields : Table Value) (name : Text) :
    IfGiven fields name (· = .string []) ∨ (∃ text, Names fields name text) ∨
      ∃ v, fields.get? name = some v ∧ ¬ IsString v := by
  cases hget : fields.get? name with
  | none =>
    refine .inl fun v hv => ?_
    rw [hget] at hv
    cases hv
  | some v =>
    by_cases hstring : IsString v
    · obtain ⟨s, rfl⟩ := hstring
      by_cases hs : s = []
      · refine .inl fun v hv => ?_
        rw [hget] at hv
        rw [← Option.some.inj hv, hs]
      · exact .inr (.inl ⟨s, hget, hs⟩)
    · exact .inr (.inr ⟨v, rfl, hstring⟩)

theorem field_eq_of_get? {fields : Table Value} {name : Text} {v : Value}
    (h : fields.get? name = some v) (default : Value) : field fields name default = v := by
  rw [field, h]
  rfl

theorem field_eq_of_none {fields : Table Value} {name : Text} (h : fields.get? name = none)
    (default : Value) : field fields name default = default := by
  rw [field, h]
  rfl

theorem strings?_eq_some_iff (items : List Value) (names : List Text) :
    Value.strings? items = some names ↔ items = names.map .string := by
  constructor
  · intro h
    induction items generalizing names with
    | nil =>
      obtain rfl := Option.some.inj h
      rfl
    | cons item items ih =>
      cases item with
      | string s =>
        obtain ⟨rest, hrest, rfl⟩ := Option.map_eq_some_iff.mp h
        rw [ih rest hrest, List.map_cons]
      | null | bool | int | number | list | object => cases h
  · intro h
    rw [h, Value.strings?_map]

/-! ### Locations -/

/-- An object that can stand for a place. -/
structure LocationRule (place : Table Value) : Prop where
  class_name : IfGiven place "class_name" IsString
  method_name : ∀ c, Names place "class_name" c →
    IfGiven place "method_name" fun v => v = .null ∨ IsString v
  parameter_types : ∀ c m, Names place "class_name" c → Names place "method_name" m →
    IfGiven place "parameter_types" IsStringList

/-- What a field for a place may hold. -/
def IsLocation (v : Value) : Prop := v = .null ∨ ∃ place, v = .object place ∧ LocationRule place

/-- The place that a value stands for: none without a class, a class without a method, or a method
with its parameters. -/
inductive Locates : Value → Option Location → Prop
  | null : Locates .null none
  | unnamed {place : Table Value} (unnamed : IfGiven place "class_name" (· = .string [])) :
      Locates (.object place) none
  | ofClass {place : Table Value} {c : Text} (class_name : Names place "class_name" c)
      (unnamed : IfGiven place "method_name" fun v => v = .null ∨ v = .string []) :
      Locates (.object place) (some (.ofClass c))
  | bare {place : Table Value} {c m : Text} (class_name : Names place "class_name" c)
      (method_name : Names place "method_name" m) (absent : place.get? "parameter_types" = none) :
      Locates (.object place) (some (.ofMethod c m []))
  | ofMethod {place : Table Value} {c m : Text} {parameters : List Text}
      (class_name : Names place "class_name" c) (method_name : Names place "method_name" m)
      (listed : place.get? "parameter_types" = some (.list (parameters.map .string))) :
      Locates (.object place) (some (.ofMethod c m parameters))

/-- The first fault of a value that stands for no place. -/
inductive LocationFault : Value → LocationError → Prop
  | notObject {v : Value} (null : v ≠ .null) (object : ∀ place, v ≠ .object place) :
      LocationFault v (.notObject v)
  | className {place : Table Value} {v : Value} (got : place.get? "class_name" = some v)
      (other : ¬ IsString v) : LocationFault (.object place) (.classNameNotString (.object place))
  | methodName {place : Table Value} {c : Text} {v : Value}
      (class_name : Names place "class_name" c) (got : place.get? "method_name" = some v)
      (other : ¬ (v = .null ∨ IsString v)) :
      LocationFault (.object place) (.methodNameNotString (.object place))
  | parameters {place : Table Value} {c m : Text} {v : Value}
      (class_name : Names place "class_name" c) (method_name : Names place "method_name" m)
      (got : place.get? "parameter_types" = some v) (other : ¬ IsStringList v) :
      LocationFault (.object place) (.parametersNotStrings (.object place))

theorem parseLocation_of_locates {v : Value} {l : Option Location} (h : Locates v l) :
    parseLocation v = .ok l := by
  cases h with
  | null => rfl
  | unnamed unnamed =>
    rcases unnamed.cases with hnone | ⟨v, hget, rfl⟩
    · simp only [parseLocation, field_eq_of_none hnone]
      rfl
    · simp only [parseLocation, field_eq_of_get? hget]
      rfl
  | ofClass class_name unnamed =>
    obtain ⟨hclass, hne⟩ := class_name
    rcases unnamed.cases with hnone | ⟨v, hget, rfl | rfl⟩
    · simp [parseLocation, field_eq_of_get? hclass, hne, field_eq_of_none hnone]
    · simp [parseLocation, field_eq_of_get? hclass, hne, field_eq_of_get? hget]
    · simp [parseLocation, field_eq_of_get? hclass, hne, field_eq_of_get? hget]
  | bare class_name method_name absent =>
    obtain ⟨hclass, hne⟩ := class_name
    obtain ⟨hmethod, hne'⟩ := method_name
    simp [parseLocation, field_eq_of_get? hclass, hne, field_eq_of_get? hmethod, hne',
      methodLocation, field_eq_of_none absent, Value.strings?, Except.map]
  | ofMethod class_name method_name listed =>
    obtain ⟨hclass, hne⟩ := class_name
    obtain ⟨hmethod, hne'⟩ := method_name
    simp [parseLocation, field_eq_of_get? hclass, hne, field_eq_of_get? hmethod, hne',
      methodLocation, field_eq_of_get? listed, Value.strings?_map, Except.map]

theorem parseLocation_of_fault {v : Value} {e : LocationError} (h : LocationFault v e) :
    parseLocation v = .error e := by
  cases h with
  | notObject null object =>
    cases v with
    | null => exact absurd rfl null
    | object place => exact absurd rfl (object place)
    | bool | int | number | string | list => rfl
  | className got other =>
    rename_i place v
    cases v with
    | string s => exact absurd ⟨s, rfl⟩ other
    | null | bool | int | number | list | object => simp [parseLocation, field_eq_of_get? got]
  | methodName class_name got other =>
    rename_i place c v
    obtain ⟨hclass, hne⟩ := class_name
    cases v with
    | null => exact absurd (.inl rfl) other
    | string s => exact absurd (.inr ⟨s, rfl⟩) other
    | bool | int | number | list | object =>
      simp [parseLocation, field_eq_of_get? hclass, hne, field_eq_of_get? got]
  | parameters class_name method_name got other =>
    rename_i place c m v
    obtain ⟨hclass, hne⟩ := class_name
    obtain ⟨hmethod, hne'⟩ := method_name
    have hrefused : methodLocation place c m = .error (.parametersNotStrings (.object place)) := by
      rw [methodLocation, field_eq_of_get? got]
      cases v with
      | list items =>
        cases hstrings : Value.strings? items with
        | none => simp [hstrings]
        | some names =>
          exact absurd ⟨names, congrArg _ ((strings?_eq_some_iff items names).mp hstrings)⟩ other
      | null | bool | int | number | string | object => rfl
    simp [parseLocation, field_eq_of_get? hclass, hne, field_eq_of_get? hmethod, hne', hrefused,
      Except.map]

/-- The rules leave no gap. -/
theorem locates_or_fault (v : Value) : (∃ l, Locates v l) ∨ ∃ e, LocationFault v e := by
  cases v with
  | null => exact .inl ⟨none, .null⟩
  | bool | int | number | string | list => exact .inr ⟨_, .notObject (by simp) (by simp)⟩
  | object place =>
    rcases name_cases place "class_name" with hnone | ⟨c, hc⟩ | ⟨v, hget, hother⟩
    · exact .inl ⟨none, .unnamed hnone⟩
    · rcases name_cases place "method_name" with hnone | ⟨m, hm⟩ | ⟨v, hget, hother⟩
      · exact .inl ⟨_, .ofClass hc fun v hv => .inr (hnone v hv)⟩
      · rcases ifGiven_or place "parameter_types" IsStringList with hlist | ⟨v, hget, hother⟩
        · rcases hlist.cases with habsent | ⟨v, hget, names, rfl⟩
          · exact .inl ⟨_, .bare hc hm habsent⟩
          · exact .inl ⟨_, .ofMethod hc hm hget⟩
        · exact .inr ⟨_, .parameters hc hm hget hother⟩
      · by_cases hnull : v = .null
        · refine .inl ⟨_, .ofClass hc fun w hw => .inl ?_⟩
          rw [hget] at hw
          rw [← Option.some.inj hw, hnull]
        · refine .inr ⟨_, .methodName hc hget fun h => ?_⟩
          exact h.elim hnull hother
    · exact .inr ⟨_, .className hget hother⟩

theorem IsLocation.rule {place : Table Value} (h : IsLocation (.object place)) :
    LocationRule place := by
  rcases h with hnull | ⟨place', hplace, hrule⟩
  · cases hnull
  · obtain rfl := Value.object.inj hplace
    exact hrule

theorem isLocation_iff (v : Value) : IsLocation v ↔ ∀ e, ¬ LocationFault v e := by
  constructor
  · intro h e hfault
    cases hfault with
    | notObject null object =>
      rcases h with hnull | ⟨place, hplace, -⟩
      · exact null hnull
      · exact object place hplace
    | className got other =>
      exact other (h.rule.class_name _ got)
    | methodName class_name got other =>
      exact other (h.rule.method_name _ class_name _ got)
    | parameters class_name method_name got other =>
      exact other (h.rule.parameter_types _ _ class_name method_name _ got)
  · intro h
    cases v with
    | null => exact .inl rfl
    | bool | int | number | string | list => exact absurd (.notObject (by simp) (by simp)) (h _)
    | object place =>
      refine .inr ⟨place, rfl, ?_, ?_, ?_⟩
      · refine (ifGiven_or place _ _).resolve_right fun hother => ?_
        obtain ⟨v, hget, hother⟩ := hother
        exact h _ (.className hget hother)
      · intro c hc
        refine (ifGiven_or place _ _).resolve_right fun hother => ?_
        obtain ⟨v, hget, hother⟩ := hother
        exact h _ (.methodName hc hget hother)
      · intro c m hc hm
        refine (ifGiven_or place _ _).resolve_right fun hother => ?_
        obtain ⟨v, hget, hother⟩ := hother
        exact h _ (.parameters hc hm hget hother)

/-! ### Entries -/

/-- The fields of an entry. -/
structure EntryRule (fields : Table Value) : Prop where
  id : ∃ id, Names fields "id" id
  children : IfGiven fields "children" IsList
  display_name : IfGiven fields "display_name" IsString
  kind : IfGiven fields "kind" fun v => v = .null ∨ IsKind v
  location : IfGiven fields "location" IsLocation

def IsEntry (d : Value) : Prop := ∃ fields, d = .object fields ∧ EntryRule fields

/-- Entries are nested in the entry. -/
def HasChildren (fields : Table Value) : Prop :=
  ∃ e rest, fields.get? "children" = some (.list (e :: rest))

/-- The member that an entry describes, in the place where it stands: the parent around it comes
before the one that the entry names, which may be anything. -/
structure Describes (fields : Table Value) (outer : Value) (i : Identifier) : Prop where
  id : Names fields "id" i.uniqueId
  children : IfGiven fields "children" IsList
  display_name : fields.get? "display_name" = some (.string i.displayName) ∨
    fields.get? "display_name" = none ∧ i.displayName = i.uniqueId
  kind : fields.get? "kind" = some (.string i.kind.name) ∨
    IfGiven fields "kind" (· = .null) ∧ (i.kind = .container ↔ HasChildren fields)
  location : fields.get? "location" = none ∧ i.location = none ∨
    ∃ v, fields.get? "location" = some v ∧ Locates v i.location
  parent : i.parent = if outer = .null then (fields.get? "parent_id").getD .null else outer

/-- The first fault of a value that is no entry. -/
inductive EntryFault : Value → EntryError → Prop
  | notObject {d : Value} (object : ∀ fields, d ≠ .object fields) : EntryFault d (.notObject d)
  | missingId {fields : Table Value} (no_id : IfGiven fields "id" (·.truthy = false)) :
      EntryFault (.object fields) (.missingId (.object fields))
  | idNotString {fields : Table Value} {v : Value} (got : fields.get? "id" = some v)
      (truthy : v.truthy = true) (other : ¬ IsString v) :
      EntryFault (.object fields) (.idNotString (.object fields))
  | children {fields : Table Value} {id : Text} {v : Value} (named : Names fields "id" id)
      (got : fields.get? "children" = some v) (other : ¬ IsList v) :
      EntryFault (.object fields) (.childrenNotList id v)
  | location {fields : Table Value} {id : Text} {v : Value} {cause : LocationError}
      (named : Names fields "id" id) (children : IfGiven fields "children" IsList)
      (got : fields.get? "location" = some v) (fault : LocationFault v cause) :
      EntryFault (.object fields) (.location id cause)
  | displayName {fields : Table Value} {id : Text} {v : Value} (named : Names fields "id" id)
      (children : IfGiven fields "children" IsList) (location : IfGiven fields "location" IsLocation)
      (got : fields.get? "display_name" = some v) (other : ¬ IsString v) :
      EntryFault (.object fields) (.identifier (.displayNameNotString id v))
  | kind {fields : Table Value} {id : Text} {v : Value} (named : Names fields "id" id)
      (children : IfGiven fields "children" IsList) (location : IfGiven fields "location" IsLocation)
      (display_name : IfGiven fields "display_name" IsString) (got : fields.get? "kind" = some v)
      (other : ¬ (v = .null ∨ IsKind v)) :
      EntryFault (.object fields) (.identifier (.invalidKind id v))

theorem IsEntry.not_fault {d : Value} (h : IsEntry d) (e : EntryError) : ¬ EntryFault d e := by
  obtain ⟨fields, rfl, hrule⟩ := h
  intro hfault
  cases hfault with
  | notObject object => exact object fields rfl
  | missingId no_id =>
    obtain ⟨id, hid, hne⟩ := hrule.id
    have hfalse := no_id _ hid
    simp [Value.truthy, hne] at hfalse
  | idNotString got truthy other =>
    obtain ⟨id, hid, -⟩ := hrule.id
    exact other ⟨id, Option.some.inj (got.symm.trans hid)⟩
  | children named got other => exact other (hrule.children _ got)
  | location named children got fault => exact (isLocation_iff _).mp (hrule.location _ got) _ fault
  | displayName named children location got other => exact other (hrule.display_name _ got)
  | kind named children location display_name got other => exact other (hrule.kind _ got)

/-! ### What the reader makes of an entry -/

variable {fields : Table Value} {outer : Value} {i : Identifier}

theorem children_field (h : IfGiven fields "children" IsList) :
    ∃ entries, field fields "children" (.list []) = .list entries ∧
      (entries ≠ [] ↔ HasChildren fields) := by
  rcases h.cases with hnone | ⟨v, hget, entries, rfl⟩
  · refine ⟨[], field_eq_of_none hnone _, ?_⟩
    simp [HasChildren, hnone]
  · refine ⟨entries, field_eq_of_get? hget _, ?_⟩
    cases entries <;> simp [HasChildren, hget]

theorem exists_location (h : IfGiven fields "location" IsLocation) :
    ∃ l, fields.get? "location" = none ∧ l = none ∨
      ∃ v, fields.get? "location" = some v ∧ Locates v l := by
  rcases h.cases with hnone | ⟨v, hget, hlocation⟩
  · exact ⟨none, .inl ⟨hnone, rfl⟩⟩
  · have hno := (isLocation_iff v).mp hlocation
    obtain ⟨l, hl⟩ := (locates_or_fault v).resolve_right fun hfault => hno _ hfault.choose_spec
    exact ⟨l, .inr ⟨v, hget, hl⟩⟩

theorem location_field {l : Option Location}
    (h : fields.get? "location" = none ∧ l = none ∨
      ∃ v, fields.get? "location" = some v ∧ Locates v l) :
    parseLocation (field fields "location" .null) = .ok l := by
  rcases h with ⟨hnone, rfl⟩ | ⟨v, hget, hlocates⟩
  · rw [field_eq_of_none hnone]
    rfl
  · rw [field_eq_of_get? hget, parseLocation_of_locates hlocates]

theorem exists_name (h : IfGiven fields "display_name" IsString) (id : Text) :
    ∃ name, fields.get? "display_name" = some (.string name) ∨
      fields.get? "display_name" = none ∧ name = id := by
  rcases h.cases with hnone | ⟨v, hget, name, rfl⟩
  · exact ⟨id, .inr ⟨hnone, rfl⟩⟩
  · exact ⟨name, .inl hget⟩

theorem name_field {id name : Text} (h : fields.get? "display_name" = some (.string name) ∨
    fields.get? "display_name" = none ∧ name = id) :
    field fields "display_name" (.string id) = .string name := by
  rcases h with hget | ⟨hnone, rfl⟩
  · exact field_eq_of_get? hget _
  · exact field_eq_of_none hnone _

theorem exists_kind (h : IfGiven fields "kind" fun v => v = .null ∨ IsKind v) :
    ∃ k : Kind, fields.get? "kind" = some (.string k.name) ∨
      IfGiven fields "kind" (· = .null) ∧ (k = .container ↔ HasChildren fields) := by
  have hdefault (hnull : IfGiven fields "kind" (· = .null)) :
      ∃ k : Kind, fields.get? "kind" = some (.string k.name) ∨
        IfGiven fields "kind" (· = .null) ∧ (k = .container ↔ HasChildren fields) := by
    by_cases hchildren : HasChildren fields
    · exact ⟨.container, .inr ⟨hnull, iff_of_true rfl hchildren⟩⟩
    · exact ⟨.test, .inr ⟨hnull, iff_of_false (by decide) hchildren⟩⟩
  rcases h.cases with hnone | ⟨v, hget, rfl | rfl | rfl⟩
  · refine hdefault fun v hv => ?_
    rw [hnone] at hv
    cases hv
  · refine hdefault fun v hv => ?_
    rw [hget] at hv
    exact (Option.some.inj hv).symm
  · exact ⟨.container, .inl hget⟩
  · exact ⟨.test, .inl hget⟩

theorem parentOf_eq (fields : Table Value) (outer : Value) : parentOf fields outer =
    if outer = .null then (fields.get? "parent_id").getD .null else outer := by
  unfold parentOf
  split
  · rw [if_pos rfl, field]
  · rename_i hne
    rw [if_neg hne]

theorem isKind_of_ofValue? {v : Value} {k : Kind} (h : Kind.ofValue? v = some k) : IsKind v := by
  cases v with
  | string s =>
    simp only [Kind.ofValue?, Kind.ofName?] at h
    split at h
    · rename_i hs
      exact .inl (congrArg _ hs)
    · split at h
      · rename_i hs
        exact .inr (congrArg _ hs)
      · cases h
  | null | bool | int | number | list | object => cases h

theorem kindOf_default (h : IfGiven fields "kind" (· = .null)) (entries : List Value) :
    kindOf fields entries =
      .string (if entries.isEmpty then Kind.test else Kind.container).name := by
  rcases h.cases with hnone | ⟨v, hget, rfl⟩
  · rw [kindOf, field_eq_of_none hnone]
  · rw [kindOf, field_eq_of_get? hget]

theorem Describes.kind_value (h : Describes fields outer i) {entries : List Value}
    (hentries : entries ≠ [] ↔ HasChildren fields) :
    Kind.ofValue? (kindOf fields entries) = some i.kind := by
  rcases h.kind with hget | ⟨hnull, hkind⟩
  · rw [kindOf, field_eq_of_get? hget]
    exact i.kind.ofName?_name
  · rw [← hentries] at hkind
    have hsame : (if entries.isEmpty then Kind.test else Kind.container) = i.kind := by
      cases entries <;> cases hi : i.kind <;> simp [hi] at hkind ⊢
    rw [kindOf_default hnull, hsame]
    exact i.kind.ofName?_name

theorem parseEntry_of_describes (h : Describes fields outer i) :
    parseEntry (.object fields) outer = .ok i := by
  obtain ⟨hid, hne⟩ := h.id
  obtain ⟨entries, hentries, hempty⟩ := children_field h.children
  have hnested := nested_object hentries
  refine (parseEntry_ok_iff fields outer i).mpr ⟨field_eq_of_get? hid _, hne, ?_, ?_, ?_, ?_, ?_⟩
  · rw [hnested, hentries]
  · exact location_field h.location
  · exact name_field h.display_name
  · rw [hnested]
    exact h.kind_value hempty
  · rw [h.parent, parentOf_eq]

theorem parseEntry_of_fault {d : Value} {e : EntryError} (h : EntryFault d e) (outer : Value) :
    parseEntry d outer = .error e := by
  cases h with
  | notObject object =>
    cases d with
    | object fields => exact absurd rfl (object fields)
    | null | bool | int | number | string | list => rfl
  | missingId no_id =>
    rcases no_id.cases with hnone | ⟨v, hget, hfalse⟩
    · have hempty : (Value.string "").truthy = false := rfl
      simp [parseEntry, field_eq_of_none hnone, hempty]
    · simp [parseEntry, field_eq_of_get? hget, hfalse]
  | idNotString got truthy other =>
    rename_i fields v
    cases v with
    | string s => exact absurd ⟨s, rfl⟩ other
    | null | bool | int | number | list | object =>
      simp [parseEntry, field_eq_of_get? got, truthy]
  | children named got other =>
    rename_i fields id v
    obtain ⟨hid, hne⟩ := named
    cases v with
    | list items => exact absurd ⟨items, rfl⟩ other
    | null | bool | int | number | string | object =>
      simp [parseEntry, field_eq_of_get? hid, field_eq_of_get? got, Value.truthy, hne]
  | location named children got fault =>
    obtain ⟨hid, hne⟩ := named
    obtain ⟨entries, hentries, -⟩ := children_field children
    simp [parseEntry, field_eq_of_get? hid, hentries, field_eq_of_get? got,
      parseLocation_of_fault fault, Value.truthy, hne]
  | displayName named children location got other =>
    rename_i fields id v
    obtain ⟨hid, hne⟩ := named
    obtain ⟨entries, hentries, -⟩ := children_field children
    obtain ⟨l, hl⟩ := exists_location location
    have hlocation := location_field hl
    have hmake : Identifier.make (.string id) v (kindOf fields entries) l (parentOf fields outer) =
        .error (.displayNameNotString id v) := by
      cases v with
      | string s => exact absurd ⟨s, rfl⟩ other
      | null | bool | int | number | list | object => simp [Identifier.make, hne]
    simp [parseEntry, field_eq_of_get? hid, hentries, hlocation, field_eq_of_get? got, hmake,
      Value.truthy, hne]
  | kind named children location display_name got other =>
    rename_i fields id v
    obtain ⟨hid, hne⟩ := named
    obtain ⟨entries, hentries, -⟩ := children_field children
    obtain ⟨l, hl⟩ := exists_location location
    have hlocation := location_field hl
    obtain ⟨name, hshown⟩ := exists_name display_name id
    have hname := name_field hshown
    have hkind : kindOf fields entries = v := by
      rw [kindOf, field_eq_of_get? got]
      cases v with
      | null => exact absurd (.inl rfl) other
      | bool | int | number | string | list | object => rfl
    have hnone : Kind.ofValue? v = none := by
      refine Option.eq_none_iff_forall_ne_some.mpr fun k hk => ?_
      exact other (.inr (isKind_of_ofValue? hk))
    simp [parseEntry, field_eq_of_get? hid, hentries, hlocation, hname, hkind, Identifier.make,
      hnone, Value.truthy, hne]

/-- The rules leave no gap. -/
theorem describes_or_fault (d outer : Value) :
    (∃ fields i, d = .object fields ∧ Describes fields outer i) ∨ ∃ e, EntryFault d e := by
  cases d with
  | null | bool | int | number | string | list => exact .inr ⟨_, .notObject (by simp)⟩
  | object fields =>
    rcases name_cases fields "id" with hempty | ⟨id, hid⟩ | ⟨v, hget, hother⟩
    · refine .inr ⟨_, .missingId fun v hv => ?_⟩
      rw [hempty v hv]
      rfl
    · rcases ifGiven_or fields "children" IsList with hchildren | ⟨v, hget, hother⟩
      · rcases ifGiven_or fields "location" IsLocation with hlocation | ⟨v, hget, hother⟩
        · rcases ifGiven_or fields "display_name" IsString with hname | ⟨v, hget, hother⟩
          · rcases ifGiven_or fields "kind" fun v => v = .null ∨ IsKind v with
              hkind | ⟨v, hget, hother⟩
            · obtain ⟨l, hl⟩ := exists_location hlocation
              obtain ⟨name, hshown⟩ := exists_name hname id
              obtain ⟨k, hk⟩ := exists_kind hkind
              exact .inl ⟨fields, ⟨id, name, k, l, _⟩, rfl, hid, hchildren, hshown, hk, hl, rfl⟩
            · exact .inr ⟨_, .kind hid hchildren hlocation hname hget hother⟩
          · exact .inr ⟨_, .displayName hid hchildren hlocation hget hother⟩
        · rw [isLocation_iff, not_forall_not] at hother
          obtain ⟨cause, hfault⟩ := hother
          exact .inr ⟨_, .location hid hchildren hget hfault⟩
      · exact .inr ⟨_, .children hid hget hother⟩
    · by_cases htruthy : v.truthy = true
      · exact .inr ⟨_, .idNotString hget htruthy hother⟩
      · refine .inr ⟨_, .missingId fun w hw => ?_⟩
        rw [hget] at hw
        rw [← Option.some.inj hw]
        exact Bool.eq_false_iff.mpr htruthy

theorem Describes.isEntry (h : Describes fields outer i) : IsEntry (.object fields) := by
  refine ⟨fields, rfl, ⟨_, h.id⟩, h.children, ?_, ?_, ?_⟩
  · intro v hv
    rcases h.display_name with hget | ⟨hnone, -⟩
    · exact ⟨_, Option.some.inj (hv.symm.trans hget)⟩
    · rw [hnone] at hv
      cases hv
  · intro v hv
    rcases h.kind with hget | ⟨hnull, -⟩
    · obtain rfl := Option.some.inj (hv.symm.trans hget)
      exact .inr (isKind_of_ofValue? i.kind.ofName?_name)
    · exact .inl (hnull v hv)
  · intro v hv
    rcases h.location with ⟨hnone, -⟩ | ⟨w, hget, hlocates⟩
    · rw [hnone] at hv
      cases hv
    · obtain rfl := Option.some.inj (hv.symm.trans hget)
      refine (isLocation_iff v).mpr fun e hfault => ?_
      have hok := parseLocation_of_locates hlocates
      rw [parseLocation_of_fault hfault] at hok
      cases hok

theorem parseEntry_eq_ok_iff (d outer : Value) (i : Identifier) :
    parseEntry d outer = .ok i ↔ ∃ fields, d = .object fields ∧ Describes fields outer i := by
  constructor
  · intro h
    rcases describes_or_fault d outer with ⟨fields, j, rfl, hdescribes⟩ | ⟨e, hfault⟩
    · rw [parseEntry_of_describes hdescribes] at h
      obtain rfl := Except.ok.inj h
      exact ⟨fields, rfl, hdescribes⟩
    · rw [parseEntry_of_fault hfault outer] at h
      cases h
  · intro h
    obtain ⟨fields, rfl, hdescribes⟩ := h
    exact parseEntry_of_describes hdescribes

theorem parseEntry_eq_error_iff (d outer : Value) (e : EntryError) :
    parseEntry d outer = .error e ↔ EntryFault d e := by
  constructor
  · intro h
    rcases describes_or_fault d outer with ⟨fields, i, rfl, hdescribes⟩ | ⟨cause, hfault⟩
    · rw [parseEntry_of_describes hdescribes] at h
      cases h
    · rw [parseEntry_of_fault hfault outer] at h
      rwa [← Except.error.inj h]
  · intro h
    exact parseEntry_of_fault h outer

theorem parseEntry_accepts_iff (d outer : Value) :
    (∃ i, parseEntry d outer = .ok i) ↔ IsEntry d := by
  constructor
  · intro h
    obtain ⟨i, hi⟩ := h
    obtain ⟨fields, rfl, hdescribes⟩ := (parseEntry_eq_ok_iff d outer i).mp hi
    exact hdescribes.isEntry
  · intro h
    rcases describes_or_fault d outer with ⟨fields, i, rfl, hdescribes⟩ | ⟨e, hfault⟩
    · exact ⟨i, parseEntry_of_describes hdescribes⟩
    · exact absurd hfault (h.not_fault e)

/-- The check of the parameters that a method location makes agrees with the one before it. -/
theorem methodLocation_eq_ok_iff (place : Table Value) (c m : Text) (l : Location) :
    methodLocation place c m = .ok l ↔
      Location.method c m (field place "parameter_types" (.list [])) = .ok l := by
  unfold methodLocation Location.method
  cases field place "parameter_types" (.list []) with
  | list items => cases hstrings : Value.strings? items <;> simp [hstrings]
  | null | bool | int | number | string | object => simp

/-- The reader accepts the entries of the grammar and no other value, wherever they stand; it makes
of an entry the member that it describes, and refuses any other value for its first fault. The
checks that a member and a method location make again, of the id and of the parameters, never
refuse anything. -/
theorem parseEntry_grammar (d outer : Value) :
    ((∃ i, parseEntry d outer = .ok i) ↔ IsEntry d) ∧
      (∀ i, parseEntry d outer = .ok i ↔ ∃ fields, d = .object fields ∧ Describes fields outer i) ∧
      (∀ e, parseEntry d outer = .error e ↔ EntryFault d e) ∧
      parseEntry d outer ≠ .error (.identifier .emptyId) ∧
      ∀ place c m l, methodLocation place c m = .ok l ↔
        Location.method c m (field place "parameter_types" (.list [])) = .ok l := by
  refine ⟨parseEntry_accepts_iff d outer, parseEntry_eq_ok_iff d outer,
    parseEntry_eq_error_iff d outer, ?_, methodLocation_eq_ok_iff⟩
  intro h
  cases (parseEntry_eq_error_iff d outer _).mp h

end Manifest

end SuiteView
