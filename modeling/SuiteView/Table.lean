import SuiteView.Text.Basic

/-!
# Insertion-ordered tables

A table maps text keys to values and remembers the order in which the keys first appeared. Writing
a key that is already there keeps its place and replaces its value; a new key goes to the end. The
fields of a JSON object, the children lists of a plan and the mapping of a view are tables.
-/

namespace SuiteView

/-- Keys with their values, in order of first appearance. -/
abbrev Table (α : Type) := List (Text × α)

namespace Table

variable {α : Type}

def keys (t : Table α) : List Text := t.map Prod.fst

def get? : Table α → Text → Option α
  | [], _ => none
  | (k, v) :: rest, key => if k = key then some v else get? rest key

def contains (t : Table α) (key : Text) : Bool := (get? t key).isSome

def put : Table α → Text → α → Table α
  | [], key, x => [(key, x)]
  | (k, v) :: rest, key, x => if k = key then (k, x) :: rest else (k, v) :: put rest key x

def update : Table α → Text → (α → α) → Table α
  | [], _, _ => []
  | (k, v) :: rest, key, f => if k = key then (k, f v) :: rest else (k, v) :: update rest key f

/-- The table that results from storing the entries of a list one after the other. -/
def ofEntries (entries : List (Text × α)) : Table α :=
  entries.foldl (fun t e => put t e.1 e.2) []

/-! ### Reading after writing -/

theorem get?_put_self (t : Table α) (key : Text) (x : α) : get? (put t key x) key = some x := by
  induction t with
  | nil => simp [put, get?]
  | cons e rest ih =>
    obtain ⟨k, v⟩ := e
    by_cases h : k = key <;> simp [put, get?, h, ih]

theorem get?_put_of_ne (t : Table α) {key other : Text} (x : α) (h : other ≠ key) :
    get? (put t key x) other = get? t other := by
  induction t with
  | nil => simp [put, get?, Ne.symm h]
  | cons e rest ih =>
    obtain ⟨k, v⟩ := e
    by_cases hk : k = key
    · subst hk
      simp [put, get?, Ne.symm h]
    · by_cases ho : k = other
      · subst ho
        simp [put, get?, hk]
      · simp [put, get?, hk, ho, ih]

theorem get?_update_self (t : Table α) (key : Text) (f : α → α) :
    get? (update t key f) key = (get? t key).map f := by
  induction t with
  | nil => simp [update, get?]
  | cons e rest ih =>
    obtain ⟨k, v⟩ := e
    by_cases h : k = key <;> simp [update, get?, h, ih]

theorem get?_update_of_ne (t : Table α) {key other : Text} (f : α → α) (h : other ≠ key) :
    get? (update t key f) other = get? t other := by
  induction t with
  | nil => simp [update, get?]
  | cons e rest ih =>
    obtain ⟨k, v⟩ := e
    by_cases hk : k = key
    · subst hk
      simp [update, get?, Ne.symm h]
    · by_cases ho : k = other
      · subst ho
        simp [update, get?, hk]
      · simp [update, get?, hk, ho, ih]

/-! ### Keys after writing -/

theorem keys_update (t : Table α) (key : Text) (f : α → α) : keys (update t key f) = keys t := by
  induction t with
  | nil => rfl
  | cons e rest ih =>
    obtain ⟨k, v⟩ := e
    by_cases h : k = key
    · simp [update, keys, h]
    · simp only [update, keys, h, if_false, List.map_cons] at ih ⊢
      rw [ih]

/-- A key that is present keeps its place; a new one goes to the end. -/
theorem keys_put (t : Table α) (key : Text) (x : α) :
    keys (put t key x) = if key ∈ keys t then keys t else keys t ++ [key] := by
  induction t with
  | nil => simp [put, keys]
  | cons e rest ih =>
    obtain ⟨k, v⟩ := e
    by_cases h : k = key
    · simp [put, keys, h]
    · have h' : ¬ key = k := fun e => h e.symm
      simp only [put, keys, h, if_false, List.map_cons, List.mem_cons, h', false_or] at ih ⊢
      rw [ih]
      split <;> simp_all

end Table

end SuiteView
