import Mathlib.Data.List.Sort
import SuiteView.Manifest.Basic
import SuiteView.Proofs.Table

/-!
# Positions of entries

An entry of a document is found by its position: its place in the list at the top, then its place in
the list nested in that entry, and so on. Positions are compared like words of a dictionary. An entry
so comes before the entries nested in it, these in the order of their list, and all of them before the
next entry. There is one list of all positions in this order, and it is computed.
-/

namespace SuiteView.Manifest

/-- The entries nested in an entry. -/
def nested : Value → List Value
  | .object fields =>
    match field fields "children" (.list []) with
    | .list entries => entries
    | _ => []
  | _ => []

abbrev Position := List Nat

def entryAt? : List Value → Position → Option Value
  | _, [] => none
  | entries, [k] => entries[k]?
  | entries, k :: l :: position => entries[k]?.bind fun e => entryAt? (nested e) (l :: position)

def Before : Position → Position → Prop := List.Lex (· < ·)

/-- A list holds the positions of all entries, in the order of the document. -/
structure InOrder (entries : List Value) (order : List Position) : Prop where
  ascending : order.Pairwise Before
  mem_iff : ∀ position, position ∈ order ↔ ∃ e, entryAt? entries position = some e

/-! ### The order of positions -/

namespace Before

theorem irrefl (a : Position) : ¬ Before a a := List.lex_irrefl Nat.lt_irrefl a

theorem trans {a b c : Position} (hab : Before a b) (hbc : Before b c) : Before a c :=
  List.lex_trans Nat.lt_trans hab hbc

instance : Std.Irrefl Before := ⟨irrefl⟩

instance : Std.Antisymm Before := ⟨fun a _ hab hba => absurd (hab.trans hba) (irrefl a)⟩

theorem of_child (above : Position) (k : Nat) : Before above (above ++ [k]) := by
  induction above with
  | nil => exact .nil
  | cons a above ih => exact .cons ih

end Before

/-- What stands in the list in front of a position is what comes before it. -/
theorem InOrder.mem_before_iff {entries : List Value} {order before : List Position}
    {position : Position} (h : InOrder entries order) (hbefore : before ++ [position] <+: order)
    (a : Position) : a ∈ before ↔ Before a position ∧ ∃ e, entryAt? entries a = some e := by
  obtain ⟨after, rfl⟩ := hbefore
  have hasc := h.ascending
  rw [List.append_assoc, List.pairwise_append] at hasc
  obtain ⟨-, hrest, hcross⟩ := hasc
  rw [← h.mem_iff, List.append_assoc]
  constructor
  · intro ha
    exact ⟨hcross a ha position (List.mem_cons_self ..), List.mem_append_left _ ha⟩
  · rintro ⟨hlt, ha⟩
    rcases List.mem_append.mp ha with ha | ha
    · exact ha
    · rcases List.mem_cons.mp ha with rfl | ha
      · exact absurd hlt (Before.irrefl a)
      · have hgt := (List.pairwise_cons.mp hrest).1 a ha
        exact absurd (hlt.trans hgt) (Before.irrefl a)

theorem InOrder.nodup {entries : List Value} {order : List Position}
    (h : InOrder entries order) : order.Nodup := by
  refine List.Pairwise.imp ?_ h.ascending
  rintro a b hab rfl
  exact Before.irrefl a hab

theorem InOrder.unique {entries : List Value} {order order' : List Position}
    (h : InOrder entries order) (h' : InOrder entries order') : order = order' :=
  h.ascending.eq_of_mem_iff h'.ascending fun position =>
    (h.mem_iff position).trans (h'.mem_iff position).symm

/-! ### Entries at positions -/

theorem position_cases (position : Position) : position = [] ∨ (∃ k, position = [k]) ∨
    ∃ above k, above ≠ [] ∧ position = above ++ [k] := by
  rcases List.eq_nil_or_concat position with rfl | ⟨above, k, rfl⟩
  · exact .inl rfl
  · by_cases habove : above = []
    · exact .inr (.inl ⟨k, by rw [habove]; rfl⟩)
    · exact .inr (.inr ⟨above, k, habove, List.concat_eq_append⟩)

theorem entryAt?_nested (e : Value) (rest : List Value) {position : Position}
    (h : position ≠ []) : entryAt? (e :: rest) (0 :: position) = entryAt? (nested e) position := by
  cases position with
  | nil => exact absurd rfl h
  | cons l position => rfl

theorem entryAt?_later (e : Value) (rest : List Value) (k : Nat) (position : Position) :
    entryAt? (e :: rest) ((k + 1) :: position) = entryAt? rest (k :: position) := by
  cases position <;> rfl

/-- Below the position of an entry stand the entries nested in it. -/
theorem entryAt?_concat (entries : List Value) {above : Position} (habove : above ≠ []) (k : Nat) :
    entryAt? entries (above ++ [k]) = (entryAt? entries above).bind fun e => (nested e)[k]? := by
  induction above generalizing entries with
  | nil => exact absurd rfl habove
  | cons j above ih =>
    cases above with
    | nil => rfl
    | cons l above =>
      show (entries[j]?.bind fun e => entryAt? (nested e) (l :: above ++ [k])) =
        (entries[j]?.bind fun e => entryAt? (nested e) (l :: above)).bind _
      simp only [ih _ (List.cons_ne_nil l above), Option.bind_assoc]

theorem nested_sizeOf_le (e : Value) : sizeOf (nested e) ≤ sizeOf e := by
  cases e with
  | object fields =>
    simp only [nested, field]
    cases hget : Table.get? fields "children" with
    | none => simp
    | some v =>
      have hmem := List.sizeOf_lt_of_mem (Table.mem_of_get? hget)
      simp only [Prod.mk.sizeOf_spec] at hmem
      cases v with
      | list entries =>
        simp only [Option.getD_some, Value.list.sizeOf_spec, Value.object.sizeOf_spec] at hmem ⊢
        omega
      | null | bool | int | number | string | object => simp
  | null | bool | int | number | string | list => simp [nested]

/-! ### The list of all positions -/

/-- The positions of the same entries behind one more entry. -/
def shift : Position → Position := List.modifyHead (· + 1)

/-- All positions of a document, in order. -/
def positions : List Value → List Position
  | [] => []
  | e :: rest => [0] :: (positions (nested e)).map (0 :: ·) ++ (positions rest).map shift
termination_by entries => sizeOf entries
decreasing_by
  · have hle := nested_sizeOf_le e
    simp only [List.cons.sizeOf_spec]
    omega
  · simp only [List.cons.sizeOf_spec]
    omega

theorem positions_cons (e : Value) (rest : List Value) :
    positions (e :: rest) =
      [0] :: ((positions (nested e)).map (0 :: ·) ++ (positions rest).map shift) := by
  rw [positions, List.cons_append]

theorem mem_shift_iff {order : List Position} (hne : [] ∉ order) (position : Position) :
    position ∈ order.map shift ↔ ∃ k below, position = (k + 1) :: below ∧ k :: below ∈ order := by
  rw [List.mem_map]
  constructor
  · rintro ⟨old, hold, rfl⟩
    cases old with
    | nil => exact absurd hold hne
    | cons k below => exact ⟨k, below, rfl, hold⟩
  · rintro ⟨k, below, rfl, hold⟩
    exact ⟨k :: below, hold, rfl⟩

theorem nil_not_mem_of_mem_iff {entries : List Value} {order : List Position}
    (h : ∀ position, position ∈ order ↔ ∃ e, entryAt? entries position = some e) : [] ∉ order := by
  intro hnil
  obtain ⟨e, he⟩ := (h []).mp hnil
  cases he

theorem mem_positions_iff (entries : List Value) (position : Position) :
    position ∈ positions entries ↔ ∃ e, entryAt? entries position = some e := by
  induction entries using positions.induct generalizing position with
  | case1 =>
    have hnone : entryAt? [] position = none := by
      cases position with
      | nil => rfl
      | cons k below => cases below <;> rfl
    simp [positions, hnone]
  | case2 e rest ihnested ihrest =>
    have hne := nil_not_mem_of_mem_iff ihrest
    rw [positions_cons, List.mem_cons, List.mem_append, mem_shift_iff hne]
    cases position with
    | nil => simp [entryAt?]
    | cons k below =>
      cases k with
      | zero =>
        cases below with
        | nil => simp [entryAt?]
        | cons l below =>
          rw [entryAt?_nested e rest (List.cons_ne_nil l below), ← ihnested]
          simp
      | succ k =>
        rw [entryAt?_later, ← ihrest]
        simp

theorem positions_ascending (entries : List Value) : (positions entries).Pairwise Before := by
  induction entries using positions.induct with
  | case1 => simp [positions]
  | case2 e rest ihnested ihrest =>
    have hne := nil_not_mem_of_mem_iff (mem_positions_iff rest)
    have hne' := nil_not_mem_of_mem_iff (mem_positions_iff (nested e))
    rw [positions_cons, List.pairwise_cons, List.pairwise_append]
    refine ⟨?_, ?_, ?_, ?_⟩
    · intro position hposition
      rcases List.mem_append.mp hposition with hbelow | hlater
      · obtain ⟨below, hmem, rfl⟩ := List.mem_map.mp hbelow
        obtain ⟨l, below, rfl⟩ := List.exists_cons_of_ne_nil fun he => hne' (he ▸ hmem)
        exact .cons .nil
      · obtain ⟨k, below, rfl, -⟩ := (mem_shift_iff hne position).mp hlater
        exact .rel (Nat.succ_pos k)
    · exact List.pairwise_map.mpr (ihnested.imp fun h => .cons h)
    · refine List.pairwise_map.mpr (ihrest.imp_of_mem ?_)
      intro a b ha hb hab
      cases hab with
      | nil => exact absurd ha hne
      | rel hlt => exact .rel (Nat.succ_lt_succ hlt)
      | cons hbelow => exact .cons hbelow
    · intro a ha b hb
      obtain ⟨below, -, rfl⟩ := List.mem_map.mp ha
      obtain ⟨k, below', rfl, -⟩ := (mem_shift_iff hne b).mp hb
      exact .rel (Nat.succ_pos k)

theorem positions_inOrder (entries : List Value) : InOrder entries (positions entries) :=
  ⟨positions_ascending entries, mem_positions_iff entries⟩

end SuiteView.Manifest
