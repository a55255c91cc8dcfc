import SuiteView.Proofs.Refusal
import SuiteView.Proofs.View.Admission
import SuiteView.Proofs.View.Replayed

/-!
# Replays in order

A replay inserts the late entries of a manifest in the order of the list and stops at the first that
is refused, by the reader or by the view. A refusal touches nothing, so what the replay leaves is
what the entries before that one leave. It comes to the end exactly if all entries can be read and
their members find their ids free and their parents shown when their turn comes.
-/

namespace SuiteView

namespace Manifest

/-- A late entry declares the parent under which its member is inserted. -/
theorem parent_of_readLate {e : Value} {i : Identifier} {q : Text}
    (h : readLate e = .ok (i, q)) : i.parent = .string q := by
  cases e with
  | object fields =>
    unfold readLate at h
    dsimp only at h
    split at h
    · cases h
    · split at h
      · rename_i parent hparent
        split at h
        · cases h
        · rename_i j hj
          obtain ⟨rfl, rfl⟩ := Prod.mk.inj (Except.ok.inj h)
          have hgives := (parseEntry_ok_iff fields .null j).mp hj
          exact hgives.parent.symm.trans hparent
      · cases h
  | null | bool | int | number | string | list => cases h

end Manifest

namespace Bridge

open Manifest (field readLate)

variable {name : Text} {b b' : Bridge} {late : List (Identifier × Text)}

/-! ### One insertion -/

/-- A member that can be named is inserted or leaves no trace. -/
theorem insert_error_same {i : Identifier} {q : Text} {e : InsertError} (hi : i.IsLocated)
    (h : b.insert i q = (b', .error e)) : b' = b := by
  have hinsert : b.insertUnder i (.string q) = (b', .error e) := h
  rcases b.insertUnder_cases i (.string q) with
    ⟨e', hins, -⟩ | ⟨q', above, p, -, -, -, -, ⟨cause, hcause, -⟩ | ⟨b₁, n, -, hins⟩⟩
  · rw [hins] at hinsert
    exact (Prod.mk.inj hinsert).1.symm
  · obtain ⟨label, hlabel⟩ := i.label_ok hi p
    rw [hlabel] at hcause
    cases hcause
  · rw [hins] at hinsert
    cases (Prod.mk.inj hinsert).2

/-- The members are inserted one after the other, each as one new node below the node of its
parent. -/
inductive Inserts : Bridge → List (Identifier × Text) → Bridge → Prop
  | none (b : Bridge) : Inserts b [] b
  | first {b b₁ b' : Bridge} {i : Identifier} {q : Text} {above : NodeId}
      {late : List (Identifier × Text)} (accepted : b.insert i q = (b₁, .ok b.nodes.size))
      (inserted : b.Inserted i q above b₁) (rest : Inserts b₁ late b') :
      Inserts b ((i, q) :: late) b'

theorem Inserts.replay (h : b.Inserts late b') : b.replay (late.map .ok) = (b', .ok ()) := by
  induction h with
  | none b => rfl
  | first accepted inserted rest ih =>
    rw [List.map_cons, Bridge.replay, accepted]
    exact ih

theorem Inserts.size_eq (h : b.Inserts late b') : b'.nodes.size = b.nodes.size + late.length := by
  induction h with
  | none b => rfl
  | first accepted inserted rest ih =>
    obtain ⟨label, hnodes⟩ := inserted.nodes
    rw [ih, hnodes, NodeStore.size_withChild, List.length_cons]
    omega

theorem Inserts.replayed (hf : b.plan.IsForest) (hm : b.view.Mirrors name b.plan b.nodes)
    (h : b.Inserts late b') : Replayed name b b' late := by
  obtain ⟨late', hlate, hreplayed⟩ := replay_ok hf hm h.replay
  obtain rfl : late = late' := List.map_injective_iff.mpr (fun _ _ => Except.ok.inj) hlate
  exact hreplayed

/-! ### The first refusal -/

/-- A replay inserts the entries up to the first that is refused, and leaves what they leave. -/
theorem replay_stops (hf : b.plan.IsForest) (hm : b.view.Mirrors name b.plan b.nodes)
    (reads : List (Except Manifest.Error (Identifier × Text)))
    (hreads : ∀ i q, .ok (i, q) ∈ reads → i.IsLocated) :
    ∃ late rest b', reads = late.map .ok ++ rest ∧ b.Inserts late b' ∧
      (rest = [] ∧ b.replay reads = (b', .ok ()) ∨
        ∃ read others cause, rest = read :: others ∧ b'.RefusesEntry read cause ∧
          b.replay reads = (b', .error cause)) := by
  induction reads generalizing b with
  | nil => exact ⟨[], [], b, rfl, .none b, .inl ⟨rfl, rfl⟩⟩
  | cons read reads ih =>
    cases read with
    | error cause =>
      exact ⟨[], _, b, rfl, .none b, .inr ⟨_, reads, .manifest cause, rfl, .unread cause, rfl⟩⟩
    | ok entry =>
      obtain ⟨i, q⟩ := entry
      rcases hinsert : b.insert i q with ⟨b₁, e | n⟩
      -- a late member can be named, and every other refusal comes before the first change
      · obtain rfl := insert_error_same (hreads i q (List.mem_cons_self ..)) hinsert
        refine ⟨[], _, b₁, rfl, .none b₁, .inr ⟨_, reads, .insert e, rfl, .notInserted ?_, ?_⟩⟩
        · rw [hinsert]
        · rw [replay, hinsert]
      · obtain ⟨ha, -, hm₁⟩ := insert_grows hf hm hinsert
        obtain ⟨q', above, hq, rfl, hinserted, -⟩ := insertUnder_ok hf hm
          (show b.insertUnder i (.string q) = (b₁, .ok n) from hinsert)
        obtain rfl := Value.string.inj hq
        obtain ⟨late, rest, b', rfl, hinserts, hend⟩ :=
          ih (hf.add ha) hm₁ fun j r hj => hreads j r (List.mem_cons_of_mem _ hj)
        refine ⟨(i, q) :: late, rest, b', rfl, .first hinsert hinserted hinserts, ?_⟩
        rw [replay, hinsert]
        exact hend

/-! ### Replays that come to the end -/

/-- The ids are free and differ from each other, and every parent is shown or comes earlier. -/
structure Fits (b : Bridge) (late : List (Identifier × Text)) : Prop where
  distinct : (late.map fun entry => entry.1.uniqueId).Nodup
  free : ∀ entry ∈ late, entry.1.uniqueId ∉ b.plan.ids
  parents : ∀ before entry after, late = before ++ entry :: after →
    entry.2 ∈ b.view.mapped.keys ∨ entry.2 ∈ before.map fun entry => entry.1.uniqueId

theorem fits_nil (b : Bridge) : b.Fits [] :=
  ⟨List.nodup_nil, nofun, fun before entry after h => by simp at h⟩

/-- The first member has to fit, and the others on top of it. -/
theorem fits_cons_iff {i : Identifier} {q : Text} {above : NodeId} {b₁ : Bridge}
    (h : b.Inserted i q above b₁) :
    b.Fits ((i, q) :: late) ↔
      (i.uniqueId ∉ b.plan.ids ∧ q ∈ b.view.mapped.keys) ∧ b₁.Fits late := by
  have hids := Plan.ids_add h.plan
  have hkeys := h.keys
  constructor
  · intro hfits
    obtain ⟨hdistinct, hfree, hparents⟩ := hfits
    rw [List.map_cons, List.nodup_cons] at hdistinct
    refine ⟨⟨hfree _ (List.mem_cons_self ..), (hparents [] _ late rfl).resolve_right nofun⟩,
      hdistinct.2, ?_, ?_⟩
    · intro entry hentry
      rw [hids, List.mem_append, List.mem_singleton, not_or]
      refine ⟨hfree _ (List.mem_cons_of_mem _ hentry), fun hsame => hdistinct.1 ?_⟩
      rw [← hsame]
      exact List.mem_map_of_mem hentry
    · intro before entry after hlate
      have hearlier := hparents ((i, q) :: before) entry after (congrArg _ hlate)
      rw [List.map_cons, List.mem_cons] at hearlier
      rw [hkeys, List.mem_append, List.mem_singleton]
      tauto
  · intro hfits
    obtain ⟨⟨hid, hq⟩, hdistinct, hfree, hparents⟩ := hfits
    refine ⟨?_, ?_, ?_⟩
    · rw [List.map_cons, List.nodup_cons]
      refine ⟨fun hmem => ?_, hdistinct⟩
      obtain ⟨entry, hentry, hsame⟩ := List.mem_map.mp hmem
      apply hfree entry hentry
      rw [hids, hsame]
      exact List.mem_append_right _ (List.mem_singleton_self _)
    · intro entry hentry
      rcases List.mem_cons.mp hentry with rfl | hentry
      · exact hid
      · exact fun hmem => hfree entry hentry (hids ▸ List.mem_append_left _ hmem)
    · intro before entry after hlate
      cases before with
      | nil =>
        obtain ⟨rfl, rfl⟩ := List.cons.inj hlate
        exact .inl hq
      | cons first before =>
        obtain ⟨rfl, hrest⟩ := List.cons.inj hlate
        have hearlier := hparents before entry after hrest
        rw [hkeys, List.mem_append, List.mem_singleton] at hearlier
        rw [List.map_cons, List.mem_cons]
        tauto

theorem Inserts.fits (hf : b.plan.IsForest) (hm : b.view.Mirrors name b.plan b.nodes)
    (h : b.Inserts late b') : b.Fits late := by
  induction h with
  | none b => exact fits_nil b
  | first accepted inserted rest ih =>
    obtain ⟨ha, -, hm₁⟩ := insert_grows hf hm accepted
    have hmapped := (View.mem_keys_iff ..).mpr ⟨_, inserted.under⟩
    exact (fits_cons_iff inserted).mpr ⟨⟨(Plan.add_cases ha).1, hmapped⟩, ih (hf.add ha) hm₁⟩

/-- Members that fit are all inserted. -/
theorem Fits.inserts (hf : b.plan.IsForest) (hm : b.view.Mirrors name b.plan b.nodes)
    (hlate : ∀ i q, (i, q) ∈ late → i.IsLocated ∧ i.parent = .string q) (h : b.Fits late) :
    ∃ b', b.Inserts late b' := by
  induction late generalizing b with
  | nil => exact ⟨b, .none b⟩
  | cons entry late ih =>
    obtain ⟨i, q⟩ := entry
    obtain ⟨hlocated, hparent⟩ := hlate i q (List.mem_cons_self ..)
    have hq := (h.parents [] _ late rfl).resolve_right nofun
    have hid := h.free _ (List.mem_cons_self ..)
    obtain ⟨n, hn⟩ := (insertUnder_ok_iff hm).mpr ⟨⟨q, hq, rfl⟩, hparent, hid, .inr hlocated⟩
    rcases hinsert : b.insertUnder i (.string q) with ⟨b₁, result⟩
    rw [hinsert] at hn
    obtain rfl : result = .ok n := hn
    obtain ⟨q', above, hq', rfl, hinserted, hm₁⟩ := insertUnder_ok hf hm hinsert
    obtain rfl := Value.string.inj hq'
    obtain ⟨b', hb'⟩ := ih (hf.add hinserted.plan) hm₁
      (fun j r hj => hlate j r (List.mem_cons_of_mem _ hj)) ((fits_cons_iff hinserted).mp h).2
    exact ⟨b', .first hinsert hinserted hb'⟩

/-! ### The late entries of a manifest -/

/-- What a replay has done when it stops: it has inserted the members of the entries so far, one node
for each, and the replay of a list that ends there would have done the same. Either the list ends
there, or the view refuses the entry that comes next. -/
structure StopsAfter (b : Bridge) (m : Manifest) (done rest : List Value)
    (late : List (Identifier × Text)) (b' : Bridge) : Prop where
  read : done.map readLate = late.map .ok
  inserts : b.Inserts late b'
  size : b'.nodes.size = b.nodes.size + done.length
  toList : b'.plan.toList = b.plan.toList ++ late.map Prod.fst
  keys : b'.view.mapped.keys = b.view.mapped.keys ++ late.map fun entry => entry.1.uniqueId
  cut : ∀ cut : Manifest, field cut "dynamic" (.list []) = .list done →
    b.replay cut.lateEntries = (b', .ok ())
  ends : rest = [] ∧ b.replay m.lateEntries = (b', .ok ()) ∨
    ∃ e others cause, rest = e :: others ∧ b'.RefusesEntry (readLate e) cause ∧
      b.replay m.lateEntries = (b', .error cause)

theorem exists_stop (hf : b.plan.IsForest) (hm : b.view.Mirrors name b.plan b.nodes)
    {m : Manifest} {entries : List Value} (h : field m "dynamic" (.list []) = .list entries) :
    ∃ done rest late b', entries = done ++ rest ∧ b.StopsAfter m done rest late b' := by
  have hreads := CommandLine.lateEntries_of_list h
  obtain ⟨late, rest', b', hsplit, hinserts, hend⟩ := replay_stops hf hm m.lateEntries
    fun i q hi => Manifest.isLocated_of_lateEntries hi
  rw [hreads] at hsplit
  obtain ⟨done, rest, rfl, hdone, rfl⟩ := List.map_eq_append_iff.mp hsplit
  have hreplayed := hinserts.replayed hf hm
  refine ⟨done, rest, late, b', rfl, hdone, hinserts, ?_, hreplayed.toList, hreplayed.keys, ?_, ?_⟩
  · have hlength := congrArg List.length hdone
    rw [List.length_map, List.length_map] at hlength
    rw [hinserts.size_eq, hlength]
  · intro cut hcut
    rw [CommandLine.lateEntries_of_list hcut, hdone]
    exact hinserts.replay
  · rcases hend with ⟨hrest, hreplay⟩ | ⟨read, others, cause, hrest, hrefused, hreplay⟩
    · exact .inl ⟨List.map_eq_nil_iff.mp hrest, hreplay⟩
    · obtain ⟨e, others', rfl, rfl, -⟩ := List.map_eq_cons_iff.mp hrest
      exact .inr ⟨e, others', cause, rfl, hrefused, hreplay⟩

theorem not_misplaced (hf : b.plan.IsForest) (hm : b.view.Mirrors name b.plan b.nodes)
    {m : Manifest} {entries : List Value} (h : field m "dynamic" (.list []) = .list entries)
    (id : Text) (declared : Value) (q : Text) :
    (b.replay m.lateEntries).2 ≠ .error (.insert (.declaredParent id declared q)) := by
  obtain ⟨done, rest, late, b', -, hstop⟩ := exists_stop hf hm h
  intro herror
  rcases hstop.ends with ⟨-, hreplay⟩ | ⟨e, others, cause, -, hrefused, hreplay⟩
  · rw [hreplay] at herror
    cases herror
  · rw [hreplay] at herror
    obtain rfl := Except.error.inj herror
    generalize hread : readLate e = read at hrefused
    cases hrefused with
    | notInserted hinsert =>
      rename_i i parent
      have hunder : (b'.insertUnder i (.string parent)).2 =
        .error (.declaredParent id declared q) := hinsert
      cases verdict_of_result (hstop.inserts.replayed hf hm).mirrors hunder with
      | misplaced maps other => exact other (Manifest.parent_of_readLate hread)

theorem replay_ok_iff (hf : b.plan.IsForest) (hm : b.view.Mirrors name b.plan b.nodes)
    {m : Manifest} {entries : List Value} (h : field m "dynamic" (.list []) = .list entries) :
    (b.replay m.lateEntries).2 = .ok () ↔
      ∃ late, entries.map readLate = late.map .ok ∧ b.Fits late := by
  constructor
  · intro hok
    obtain ⟨done, rest, late, b', rfl, hstop⟩ := exists_stop hf hm h
    rcases hstop.ends with ⟨rfl, -⟩ | ⟨e, others, cause, -, -, hreplay⟩
    · rw [List.append_nil]
      exact ⟨late, hstop.read, hstop.inserts.fits hf hm⟩
    · rw [hreplay] at hok
      cases hok
  · intro hall
    obtain ⟨late, hread, hfits⟩ := hall
    have hlate : ∀ i q, (i, q) ∈ late → i.IsLocated ∧ i.parent = .string q := by
      intro i q hi
      have hmem : .ok (i, q) ∈ entries.map readLate := hread ▸ List.mem_map_of_mem hi
      obtain ⟨e, -, he⟩ := List.mem_map.mp hmem
      exact ⟨Manifest.isLocated_of_readLate he, Manifest.parent_of_readLate he⟩
    obtain ⟨b', hinserts⟩ := hfits.inserts hf hm hlate
    rw [CommandLine.lateEntries_of_list h, hread, hinserts.replay]

/-- The replay of a list of late entries on top of a view. Every member declares the parent under
which it is inserted, so none is refused for that; the replay stops after a first part of the list,
and it comes to the end exactly if every entry can be read and the members fit. -/
structure ReplaysInOrder (b : Bridge) (m : Manifest) (entries : List Value) : Prop where
  declared : ∀ i q, .ok (i, q) ∈ m.lateEntries → i.parent = .string q
  not_misplaced : ∀ id declared q,
    (b.replay m.lateEntries).2 ≠ .error (.insert (.declaredParent id declared q))
  stops : ∃ done rest late b', entries = done ++ rest ∧ b.StopsAfter m done rest late b'
  ok_iff : (b.replay m.lateEntries).2 = .ok () ↔
    ∃ late, entries.map readLate = late.map .ok ∧ b.Fits late

end Bridge

namespace Session

open Manifest (field)

/-- In every view of every session, the late entries of a manifest are replayed in order up to the
first that is refused. -/
theorem run_replaysInOrder (s : NodeStore) (ops : List Op) (v : View)
    (hv : v ∈ ((start s).run ops).views) (m : Manifest) (entries : List Value)
    (h : field m "dynamic" (.list []) = .list entries) :
    (((start s).run ops).bridge v).ReplaysInOrder m entries := by
  have hsound := run_sound s ops
  obtain ⟨name, hm⟩ := hsound.mirrors_of_mem hv
  have hf : (((start s).run ops).bridge v).plan.IsForest := hsound.forest
  refine ⟨?_, Bridge.not_misplaced hf hm h, Bridge.exists_stop hf hm h, Bridge.replay_ok_iff hf hm h⟩
  intro i q hi
  rw [CommandLine.lateEntries_of_list h] at hi
  obtain ⟨e, -, he⟩ := List.mem_map.mp hi
  exact Manifest.parent_of_readLate he

/-- A suite `b` below `a` with an entry nested in it, then a test that asks for the same id. -/
def twiceB : List Value :=
  [.object [("id", .string [.char 'b']), ("parent_id", .string [.char 'a']),
      ("children", .list [.object [("id", .string [.char 'x'])]])],
    .object [("id", .string [.char 'b']), ("parent_id", .string [.char 'a'])]]

theorem twiceB_replaysInOrder : ∃ v ∈ ((start .empty).run oneSuite).views,
    field [("dynamic", .list twiceB)] "dynamic" (.list []) = .list twiceB ∧
    (((start .empty).run oneSuite).bridge v).ReplaysInOrder [("dynamic", .list twiceB)] twiceB ∧
    ∃ b, (((start .empty).run oneSuite).bridge v).replay
        (Manifest.lateEntries [("dynamic", .list twiceB)]) =
        (b, .error (.insert (.plan (.duplicateId [.char 'b'])))) ∧
      b.plan.ids = [[.char 'a'], [.char 'b']] ∧ b.nodes.size = 3 := by
  have hlast : ((start .empty).run oneSuite).views[0]? = some ⟨0, [([.char 'a'], 1)]⟩ := rfl
  have hv := List.mem_of_getElem? hlast
  exact ⟨_, hv, rfl, run_replaysInOrder .empty oneSuite _ hv _ _ rfl, _, rfl, rfl, rfl⟩

end Session

end SuiteView
