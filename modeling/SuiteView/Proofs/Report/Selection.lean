import SuiteView.Proofs.Effect
import SuiteView.Proofs.Report.Entries
import SuiteView.Proofs.View.Leaves

/-!
# Selections

A selection is recorded once and shown in every later report, while the plan, the store and the view
grow on. What a view has mapped it keeps, so a selected member has an entry in each of these reports,
and the marks are neither more nor fewer than the selected ids.
-/

namespace SuiteView

namespace Session

/-! ### Later reports -/

/-- As many of the mapped ids are in a list as the list is long, if it names only mapped ids and
none of them twice. -/
theorem length_filter_mapped {v : View} {ids : List Text} (hkeys : v.mapped.keys.Nodup)
    (hnodup : ids.Nodup) (hmapped : ids ⊆ v.mapped.keys) :
    (v.mapped.keys.filter ids.contains).length = ids.length := by
  refine List.Perm.length_eq ((List.perm_ext_iff_of_nodup (hkeys.filter _) hnodup).mpr fun id => ?_)
  rw [List.mem_filter, List.contains_iff_mem]
  constructor
  · exact And.right
  · intro hid
    exact ⟨hmapped hid, hid⟩

/-- However a session goes on after a view selected the leaves of a predicate, each later report of
the view marks these and lists them in their order, and it counts as many as it marks. Of an arbitrary
list it marks the ids that are mapped by then. -/
theorem run_selection (s : NodeStore) (ops later : List Op) (k : Nat) (v : View)
    (hv : ((start s).run ops).views[k]? = some v) :
    ∃ w, (((start s).run ops).run later).views[k]? = some w ∧ v.Extends w ∧
      (∀ holds description time ids r,
        ids = (v.leaves ((start s).run ops).plan holds).map (·.uniqueId) →
        r = w.report (((start s).run ops).run later).nodes (some ⟨ids, description⟩) time →
        r.Marks w ids ∧ r.tree.all.countP Entry.isSelected = ids.length ∧
          r.at? ["report", "summary", "selected"] = some (.count ids.length) ∧
          r.at? ["report", "selection", "ids"] = some (.sequence (ids.map .text))) ∧
      ∀ ids description time,
        (w.report (((start s).run ops).run later).nodes (some ⟨ids, description⟩) time).Marks w
          ids := by
  have hsound := run_sound s ops
  obtain ⟨w, hw, hextends, -⟩ := run_extends hsound later hv
  have hlater := hsound.run later
  obtain ⟨name, hm⟩ := hsound.mirrors k v hv
  obtain ⟨name', hm'⟩ := hlater.mirrors k w hw
  have hmarks : ∀ ids description time,
      (w.report (((start s).run ops).run later).nodes (some ⟨ids, description⟩) time).Marks w ids :=
    fun ids description time => hm'.report_marks hlater.forest (some ⟨ids, description⟩) time
  refine ⟨w, hw, hextends, ?_, hmarks⟩
  rintro holds description time ids r rfl rfl
  have hleaves := hm.leavesExact hsound.forest holds
  have hmarked := hmarks ((v.leaves ((start s).run ops).plan holds).map (·.uniqueId)) description time
  refine ⟨hmarked, ?_, Report.at_selected _, Report.at_ids _⟩
  rw [hmarked.marked_count, hmarked.marked_once.length_eq]
  exact length_filter_mapped hm'.keys_nodup hleaves.nodup fun id hid =>
    hextends.keys_subset (hleaves.in_order.subset hid)

/- A second test comes below `c`, and `u` is refused when it comes again. -/
def afterwards : List Op :=
  [.insert 1 ⟨[.char 'w'], [.char 'W'], .test, none, .string [.char 'c']⟩ (.string [.char 'c']),
   .insert 1 ⟨[.char 'u'], [.char 'U'], .test, none, .string [.char 'c']⟩ (.string [.char 'c'])]

theorem twoViews_selection : ∃ v w r,
    ((start .empty).run twoViews).views[1]? = some v ∧
    (((start .empty).run twoViews).run afterwards).views[1]? = some w ∧
    (v.leaves ((start .empty).run twoViews).plan fun _ => true).map (·.uniqueId) = [[.char 'u']] ∧
    r = w.report (((start .empty).run twoViews).run afterwards).nodes
      (some ⟨[[.char 'u']], [.char 'x']⟩) ⟨2024, 1, 2, 3, 4, 5, 678901⟩ ∧
    r.Marks w [[.char 'u']] ∧ r.tree.all.countP Entry.isSelected = 1 := by
  have hlast : ((start .empty).run twoViews).views[1]? =
      some ⟨2, [([.char 'c'], 3), ([.char 'u'], 4)]⟩ := rfl
  obtain ⟨w, hw, -, hselection, -⟩ := run_selection .empty twoViews afterwards 1 _ hlast
  obtain ⟨hmarks, hcount, -, -⟩ := hselection (fun _ => true) [.char 'x']
    ⟨2024, 1, 2, 3, 4, 5, 678901⟩ [[.char 'u']] _ rfl rfl
  exact ⟨_, w, _, hlast, hw, rfl, rfl, hmarks, hcount⟩

end Session

end SuiteView
