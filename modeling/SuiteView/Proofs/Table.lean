import Mathlib.Data.List.Nodup
import SuiteView.Table

/-!
# Tables and their keys

A table is read through the first entry of a key. As long as no key comes twice, this is the only
entry, so membership and look-up say the same, and appending a fresh key leaves every other look-up
alone.
-/

namespace SuiteView.Table

variable {α : Type}

/-! ### Look-up and membership -/

theorem mem_keys_of_mem {t : Table α} {k : Text} {v : α} (h : (k, v) ∈ t) : k ∈ t.keys :=
  List.mem_map_of_mem h

theorem mem_of_get? {t : Table α} {k : Text} {v : α} (h : t.get? k = some v) : (k, v) ∈ t := by
  induction t with
  | nil => simp [get?] at h
  | cons e rest ih =>
    obtain ⟨k', v'⟩ := e
    by_cases hk : k' = k
    · simp only [get?, hk, if_true, Option.some.injEq] at h
      rw [hk, h]
      exact List.mem_cons_self ..
    · simp only [get?, hk, if_false] at h
      exact List.mem_cons_of_mem _ (ih h)

theorem get?_eq_none_iff (t : Table α) (k : Text) : t.get? k = none ↔ k ∉ t.keys := by
  induction t with
  | nil => simp [get?, keys]
  | cons e rest ih =>
    obtain ⟨k', v'⟩ := e
    by_cases hk : k' = k
    · simp [get?, keys, hk]
    · have hk' : ¬ k = k' := fun he => hk he.symm
      simp only [get?, hk, if_false, keys, List.map_cons, List.mem_cons, hk', false_or]
      exact ih

theorem get?_isSome_iff (t : Table α) (k : Text) : (t.get? k).isSome ↔ k ∈ t.keys := by
  rw [← not_iff_not, Option.not_isSome_iff_eq_none, get?_eq_none_iff]

theorem contains_iff (t : Table α) (k : Text) : t.contains k = true ↔ k ∈ t.keys :=
  get?_isSome_iff t k

theorem mem_keys_iff (t : Table α) (k : Text) : k ∈ t.keys ↔ ∃ v, t.get? k = some v := by
  rw [← get?_isSome_iff, Option.isSome_iff_exists]

theorem get?_of_mem {t : Table α} {k : Text} {v : α} (hn : t.keys.Nodup) (h : (k, v) ∈ t) :
    t.get? k = some v := by
  induction t with
  | nil => simp at h
  | cons e rest ih =>
    obtain ⟨k', v'⟩ := e
    simp only [keys, List.map_cons, List.nodup_cons] at hn
    rcases List.mem_cons.mp h with he | hr
    · obtain ⟨rfl, rfl⟩ := Prod.mk.inj he
      simp [get?]
    · have hk : k' ≠ k := by
        rintro rfl
        exact hn.1 (mem_keys_of_mem hr)
      simp only [get?, hk, if_false]
      exact ih hn.2 hr

theorem get?_eq_some_iff {t : Table α} (hn : t.keys.Nodup) (k : Text) (v : α) :
    t.get? k = some v ↔ (k, v) ∈ t :=
  ⟨mem_of_get?, get?_of_mem hn⟩

/-! ### Entries at the end -/

theorem keys_append (t u : Table α) : keys (t ++ u) = t.keys ++ u.keys := List.map_append

theorem get?_append (t u : Table α) (k : Text) : get? (t ++ u) k = (t.get? k).or (u.get? k) := by
  induction t with
  | nil => rfl
  | cons e rest ih =>
    obtain ⟨k', v'⟩ := e
    by_cases hk : k' = k
    · simp [get?, hk]
    · simp only [List.cons_append, get?, hk, if_false]
      exact ih

theorem get?_append_of_some {t : Table α} (u : Table α) {k : Text} {v : α} (h : t.get? k = some v) :
    get? (t ++ u) k = some v := by
  rw [get?_append, h, Option.some_or]

theorem get?_append_of_none {t : Table α} (u : Table α) {k : Text} (h : t.get? k = none) :
    get? (t ++ u) k = u.get? k := by
  rw [get?_append, h, Option.none_or]

theorem get?_concat {t : Table α} {k : Text} (v : α) (hk : k ∉ t.keys) (x : Text) :
    get? (t ++ [(k, v)]) x = if x = k then some v else t.get? x := by
  by_cases hx : x = k
  · subst hx
    rw [get?_append_of_none _ ((get?_eq_none_iff t x).mpr hk)]
    simp [get?]
  · have hk' : ¬ k = x := fun he => hx he.symm
    rw [get?_append]
    simp [get?, hx, hk']

theorem put_of_not_mem (t : Table α) {k : Text} (v : α) (hk : k ∉ t.keys) :
    t.put k v = t ++ [(k, v)] := by
  induction t with
  | nil => rfl
  | cons e rest ih =>
    obtain ⟨k', v'⟩ := e
    simp only [keys, List.map_cons, List.mem_cons, not_or] at hk
    have hk' : ¬ k' = k := fun he => hk.1 he.symm
    simp only [put, hk', if_false, List.cons_append]
    rw [ih hk.2]

/-- Writing what comes of the old value is an update. -/
theorem put_eq_update {t : Table α} {k : Text} {v : α} (h : t.get? k = some v) (f : α → α) :
    t.put k (f v) = t.update k f := by
  induction t with
  | nil => simp [get?] at h
  | cons e rest ih =>
    obtain ⟨k', v'⟩ := e
    by_cases hk : k' = k
    · simp only [get?, hk, if_true, Option.some.injEq] at h
      simp only [put, update, hk, if_true, h]
    · simp only [get?, hk, if_false] at h
      simp only [put, update, hk, if_false, ih h]

/-! ### Tables made from a list of keys -/

theorem get?_map (ids : List Text) (f : Text → α) (k : Text) :
    get? (ids.map fun k => (k, f k)) k = if k ∈ ids then some (f k) else none := by
  induction ids with
  | nil => rfl
  | cons k' rest ih =>
    by_cases hk : k' = k
    · simp [get?, hk]
    · have hk' : ¬ k = k' := fun he => hk he.symm
      simp only [List.map_cons, get?, hk, if_false, List.mem_cons, hk', false_or]
      exact ih

theorem update_map (ids : List Text) (hn : ids.Nodup) (f : Text → α) (key : Text) (g : α → α) :
    update (ids.map fun k => (k, f k)) key g =
      ids.map fun k => (k, if k = key then g (f k) else f k) := by
  induction ids with
  | nil => rfl
  | cons k rest ih =>
    simp only [List.nodup_cons] at hn
    by_cases hk : k = key
    · subst hk
      have hrest : ∀ x ∈ rest, x ≠ k := fun x hx he => hn.1 (he ▸ hx)
      simp only [List.map_cons, update, if_true, List.cons.injEq, true_and]
      exact List.map_congr_left fun x hx => by rw [if_neg (hrest x hx)]
    · simp only [List.map_cons, update, hk, if_false, List.cons.injEq, true_and]
      exact ih hn.2

/-! ### Storing entries one after the other -/

theorem keys_put_nodup {t : Table α} (hn : t.keys.Nodup) (k : Text) (v : α) :
    (t.put k v).keys.Nodup := by
  rw [keys_put]
  split
  · exact hn
  next hk =>
    rw [List.nodup_append]
    refine ⟨hn, List.nodup_singleton _, fun x hx y hy hxy => hk ?_⟩
    rwa [← List.mem_singleton.mp hy, ← hxy]

theorem mem_put {t : Table α} {k : Text} {v : α} {e : Text × α} (h : e ∈ t.put k v) :
    e ∈ t ∨ e = (k, v) := by
  induction t with
  | nil => exact .inr (List.mem_singleton.mp h)
  | cons head rest ih =>
    obtain ⟨k', v'⟩ := head
    by_cases hk : k' = k
    · simp only [put, hk, if_true, List.mem_cons] at h
      rcases h with h | h
      · exact .inr h
      · exact .inl (List.mem_cons_of_mem _ h)
    · simp only [put, hk, if_false, List.mem_cons] at h
      rcases h with h | h
      · exact .inl (h ▸ List.mem_cons_self ..)
      · exact (ih h).imp_left (List.mem_cons_of_mem _)

theorem mem_foldl_put {t entries : Table α} {e : Text × α}
    (h : e ∈ entries.foldl (fun t e => t.put e.1 e.2) t) : e ∈ t ∨ e ∈ entries := by
  induction entries generalizing t with
  | nil => exact .inl h
  | cons head rest ih =>
    rcases ih h with h | h
    · rcases mem_put h with h | rfl
      · exact .inl h
      · exact .inr (List.mem_cons_self ..)
    · exact .inr (List.mem_cons_of_mem _ h)

theorem keys_foldl_put_nodup {t : Table α} (entries : Table α) (hn : t.keys.Nodup) :
    (entries.foldl (fun t e => t.put e.1 e.2) t).keys.Nodup := by
  induction entries generalizing t with
  | nil => exact hn
  | cons head rest ih => exact ih (keys_put_nodup hn _ _)

theorem keys_ofEntries_nodup (entries : List (Text × α)) : (ofEntries entries).keys.Nodup :=
  keys_foldl_put_nodup entries List.nodup_nil

theorem mem_ofEntries {entries : List (Text × α)} {e : Text × α} (h : e ∈ ofEntries entries) :
    e ∈ entries := by
  rcases mem_foldl_put h with h | h
  · cases h
  · exact h

/-- What is stored comes before what was there. -/
theorem get?_foldl_put (t : Table α) {entries : Table α} (hn : entries.keys.Nodup) (k : Text) :
    get? (entries.foldl (fun t e => t.put e.1 e.2) t) k = (entries.get? k).or (t.get? k) := by
  induction entries generalizing t with
  | nil => rfl
  | cons head rest ih =>
    obtain ⟨k', v⟩ := head
    simp only [keys, List.map_cons, List.nodup_cons] at hn
    rw [List.foldl_cons, ih _ hn.2]
    by_cases hk : k' = k
    · subst hk
      rw [(get?_eq_none_iff rest k').mpr hn.1, get?_put_self]
      simp [get?]
    · rw [get?_put_of_ne _ _ fun he => hk he.symm]
      simp [get?, hk]

/-- The keys that were there keep their places, and the others follow in their order. -/
theorem keys_foldl_put (t : Table α) {entries : Table α} (hn : entries.keys.Nodup) :
    keys (entries.foldl (fun t e => t.put e.1 e.2) t) =
      t.keys ++ entries.keys.filter (· ∉ t.keys) := by
  induction entries generalizing t with
  | nil => simp [keys]
  | cons head rest ih =>
    obtain ⟨k, v⟩ := head
    simp only [keys, List.map_cons, List.nodup_cons] at hn
    have htail := ih (t.put k v) hn.2
    rw [List.foldl_cons, htail, keys_put]
    have hkeys : keys ((k, v) :: rest) = k :: keys rest := rfl
    rw [hkeys]
    by_cases hk : k ∈ t.keys
    · simp [hk]
    · have hrest : (keys rest).filter (· ∉ t.keys ++ [k]) = (keys rest).filter (· ∉ t.keys) := by
        refine List.filter_congr fun x hx => ?_
        have hne : x ≠ k := fun he => hn.1 (he ▸ hx)
        simp [hne]
      simp only [hk, if_false, hrest]
      simp [hk]

theorem eq_of_get? {t u : Table α} (hkeys : t.keys = u.keys) (hn : t.keys.Nodup)
    (hget : ∀ k ∈ t.keys, t.get? k = u.get? k) : t = u := by
  induction t generalizing u with
  | nil =>
    cases u with
    | nil => rfl
    | cons => simp [keys] at hkeys
  | cons head rest ih =>
    cases u with
    | nil => simp [keys] at hkeys
    | cons head' rest' =>
      obtain ⟨k, v⟩ := head
      obtain ⟨k', v'⟩ := head'
      simp only [keys, List.map_cons, List.cons.injEq] at hkeys
      obtain ⟨rfl, hkeys⟩ := hkeys
      simp only [keys, List.map_cons, List.nodup_cons] at hn
      have hhead := hget k (List.mem_cons_self ..)
      simp only [get?, if_true, Option.some.injEq] at hhead
      have htail : rest = rest' := ih hkeys hn.2 fun x hx => by
        have hne : ¬ k = x := fun he => hn.1 (he ▸ hx)
        have hx := hget x (List.mem_cons_of_mem _ hx)
        simpa only [get?, hne, if_false] using hx
      rw [hhead, htail]

/-- Storing a table over one whose keys it starts with gives the stored table. -/
theorem foldl_put_eq_self {t entries : Table α} (hfront : t.keys <+: entries.keys)
    (hn : entries.keys.Nodup) : entries.foldl (fun t e => t.put e.1 e.2) t = entries := by
  obtain ⟨others, hothers⟩ := hfront
  have hkeys : keys (entries.foldl (fun t e => t.put e.1 e.2) t) = entries.keys := by
    rw [keys_foldl_put t hn, ← hothers]
    rw [← hothers, List.nodup_append] at hn
    have hfront : t.keys.filter (· ∉ t.keys) = [] := by simp
    have hback : others.filter (· ∉ t.keys) = others :=
      List.filter_eq_self.mpr fun x hx => by
        simpa using fun hmem => hn.2.2 x hmem x hx rfl
    rw [List.filter_append, hfront, hback, List.nil_append]
  refine eq_of_get? hkeys (hkeys ▸ hn) fun k hk => ?_
  rw [hkeys] at hk
  obtain ⟨v, hv⟩ := (mem_keys_iff entries k).mp hk
  rw [get?_foldl_put t hn, hv, Option.some_or]

end SuiteView.Table
