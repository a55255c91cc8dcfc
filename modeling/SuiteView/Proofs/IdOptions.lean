import Mathlib.Data.List.Lex
import SuiteView.Proofs.Listing
import SuiteView.Proofs.View.Interleaving

/-!
# Which ids are asked for

Ids may be asked for in any order and more than once; what counts is which of them are. An id filter
looks for the id of a node among them, and says in words what it selects with each id once, in the order
of their code points. What it selects is listed in the order of the tree. Main statement: two runs whose
options differ in the order and the repetition of ids alone leave the same behind.
-/

namespace SuiteView

/-! ### Sorted ids -/

namespace Text

theorem le_iff (a b : Text) : le a b = true ↔ a.map CodePoint.toNat ≤ b.map CodePoint.toNat := by
  rw [le, Bool.not_eq_true', decide_eq_false_iff_not]
  exact not_lt

theorem le_trans (a b c : Text) (hab : le a b = true) (hbc : le b c = true) : le a c = true :=
  (le_iff a c).mpr (((le_iff a b).mp hab).trans ((le_iff b c).mp hbc))

theorem le_total (a b : Text) : (le a b || le b a) = true := by
  rw [Bool.or_eq_true, le_iff, le_iff]
  exact Std.Total.total ..

theorem le_antisymm {a b : Text} (hab : le a b = true) (hba : le b a = true) : a = b := by
  have hnumbers := ((le_iff a b).mp hab).antisymm ((le_iff b a).mp hba)
  exact List.map_injective_iff.mpr (fun _ _ => CodePoint.toNat_injective) hnumbers

end Text

theorem nodup_eraseDups {α : Type} [BEq α] [LawfulBEq α] (xs : List α) : xs.eraseDups.Nodup := by
  induction hlength : xs.length using Nat.strongRecOn generalizing xs with
  | ind n ih =>
    cases xs with
    | nil => exact List.nodup_nil
    | cons x rest =>
      have hshorter : (rest.filter fun y => !y == x).length < n := by
        rw [← hlength]
        exact Nat.lt_succ_of_le (List.length_filter_le ..)
      rw [List.eraseDups_cons, List.nodup_cons, List.mem_eraseDups]
      exact ⟨by simp, ih _ hshorter _ rfl⟩

namespace Filter

variable {ids ids' : List Text}

/-- The sorted ids depend on which ids there are, not on their order and repetition. -/
theorem sortedIds_congr (h : ∀ x, x ∈ ids ↔ x ∈ ids') : sortedIds ids = sortedIds ids' := by
  have hsorted := List.pairwise_mergeSort Text.le_trans Text.le_total
  have hdistinct : ids.eraseDups.Perm ids'.eraseDups := by
    rw [List.perm_ext_iff_of_nodup (nodup_eraseDups _) (nodup_eraseDups _)]
    intro x
    rw [List.mem_eraseDups, List.mem_eraseDups, h]
  have hperm : (sortedIds ids).Perm (sortedIds ids') :=
    (List.mergeSort_perm ..).trans (hdistinct.trans (List.mergeSort_perm ..).symm)
  exact hperm.eq_of_pairwise (fun _ _ _ _ => Text.le_antisymm) (hsorted _) (hsorted _)

/-! ### Equivalent filters -/

/-- Two filters that hold of the same nodes and are described alike. -/
structure Equivalent (f g : Filter) : Prop where
  holds_eq : ∀ s n, f.holds s n = g.holds s n
  describe_eq : f.describe = g.describe

theorem Equivalent.refl (f : Filter) : f.Equivalent f := ⟨fun _ _ => rfl, rfl⟩

theorem equivalent_ids (h : ∀ x, x ∈ ids ↔ x ∈ ids') : (Filter.ids ids).Equivalent (.ids ids') where
  holds_eq s n := by
    rw [holds, holds]
    cases s.stableIdOf? n with
    | none => rfl
    | some id => exact Bool.eq_iff_iff.mpr (by simp only [List.contains_iff_mem, h])
  describe_eq := by rw [describe, describe, sortedIds_congr h]

theorem holdAll_of_equivalent {fs gs : List Filter} (h : List.Forall₂ Equivalent fs gs)
    (s : NodeStore) (n : NodeId) : holdAll s n fs = holdAll s n gs := by
  induction h with
  | nil => rfl
  | cons hfirst _ ih => rw [holdAll, holdAll, hfirst.holds_eq, ih]

theorem descriptions_of_equivalent {fs gs : List Filter} (h : List.Forall₂ Equivalent fs gs) :
    descriptions fs = descriptions gs := by
  induction h with
  | nil => rfl
  | cons hfirst _ ih => rw [descriptions, descriptions, hfirst.describe_eq, ih]

theorem equivalent_all {fs gs : List Filter} (h : List.Forall₂ Equivalent fs gs) :
    (Filter.all fs).Equivalent (.all gs) where
  holds_eq s n := by rw [holds, holds, holdAll_of_equivalent h]
  describe_eq := by rw [describe, describe, descriptions_of_equivalent h]

end Filter

namespace CommandLine

/-! ### Equivalent criteria -/

/-- Two criteria that break on the same nodes and ask for equivalent filters. -/
structure Criterion.Equivalent (c d : Criterion) : Prop where
  breaksOn_eq : ∀ s n, c.breaksOn s n = d.breaksOn s n
  toFilter : c.toFilter.Equivalent d.toFilter

theorem Criterion.Equivalent.refl (c : Criterion) : c.Equivalent c := ⟨fun _ _ => rfl, .refl _⟩

theorem breaksOn_congr {cs ds : List Criterion} (h : List.Forall₂ Criterion.Equivalent cs ds)
    (s : NodeStore) (n : NodeId) : breaksOn s n cs = breaksOn s n ds := by
  induction h with
  | nil => rfl
  | cons hfirst _ ih =>
    rw [breaksOn, breaksOn, hfirst.breaksOn_eq, hfirst.toFilter.holds_eq, ih]

namespace Options

def withIds (o : Options) (ids : List (Operand Text)) : Options := { o with ids := ids }

variable {o : Options} {ids : List (Operand Text)}

theorem criteria_equivalent (h : ∀ x, x ∈ ids ↔ x ∈ o.ids) :
    List.Forall₂ Criterion.Equivalent (o.withIds ids).criteria o.criteria := by
  have hpatterns := List.forall₂_same.mpr fun c (_ : c ∈ o.groups.map Criterion.ofGroup ++
    o.cases.map Criterion.ofCase) => Criterion.Equivalent.refl c
  refine List.rel_append hpatterns ?_
  have hempty : (o.withIds ids).ids.isEmpty = o.ids.isEmpty := by
    rw [Bool.eq_iff_iff, List.isEmpty_iff, List.isEmpty_iff, List.eq_nil_iff_forall_not_mem,
      List.eq_nil_iff_forall_not_mem]
    exact forall_congr' fun x => not_congr (h x)
  rw [hempty]
  split
  · exact .nil
  · refine .cons ⟨fun _ _ => rfl, Filter.equivalent_ids fun x => ?_⟩ .nil
    simp only [List.mem_filterMap]
    exact exists_congr fun operand => and_congr_left' (h operand)

theorem filter?_equivalent (h : ∀ x, x ∈ ids ↔ x ∈ o.ids) :
    Option.Rel Filter.Equivalent (o.withIds ids).filter? o.filter? := by
  have hcriteria := criteria_equivalent h
  have hempty : (o.withIds ids).criteria.isEmpty = o.criteria.isEmpty := by
    rw [Bool.eq_iff_iff, List.isEmpty_iff_length_eq_zero, List.isEmpty_iff_length_eq_zero,
      hcriteria.length_eq]
  unfold filter?
  rw [hempty]
  split
  · exact .none
  · exact .some (Filter.equivalent_all (List.rel_map (fun _ _ hc => hc.toFilter) hcriteria))

end Options

/-! ### Listings that say the same -/

/-- Two listings of the same members, both without filter or with filters that are described alike. -/
inductive Listing.SaysSame : Listing → Listing → Prop where
  | plain (members : List Identifier) : SaysSame ⟨none, members⟩ ⟨none, members⟩
  | filtered {f g : Filter} (members : List Identifier) (described : f.describe = g.describe) :
      SaysSame ⟨some f, members⟩ ⟨some g, members⟩

namespace Listing.SaysSame

variable {l l' : Listing}

theorem members_eq (h : l.SaysSame l') : l.members = l'.members := by
  cases h <;> rfl

theorem selection_eq (h : l.SaysSame l') : l.selection = l'.selection := by
  cases h with
  | plain members => rfl
  | filtered members described =>
    rw [selection, selection, Option.map_some, Option.map_some, described]

theorem header_eq (h : l.SaysSame l') : l.header = l'.header := by
  cases h with
  | plain members => rfl
  | filtered members described => simp only [header, described]

theorem warnings_eq (h : l.SaysSame l') : l.warnings = l'.warnings := by
  cases h <;> rfl

end Listing.SaysSame

theorem listing_saysSame (b : Bridge) {f g : Option Filter} (h : Option.Rel Filter.Equivalent f g) :
    (listing b f).SaysSame (listing b g) := by
  cases h with
  | none => exact .plain _
  | @some f g hfg =>
    have hmembers : (listing b (some f)).members = (listing b (some g)).members :=
      congrArg (b.view.leaves b.plan) (funext (hfg.holds_eq b.nodes))
    show Listing.SaysSame ⟨some f, _⟩ ⟨some g, (listing b (some g)).members⟩
    rw [← hmembers]
    exact .filtered _ hfg.describe_eq

variable {o : Options} {ids : List (Operand Text)}

theorem listed_withIds (h : ∀ x, x ∈ ids ↔ x ∈ o.ids) (b : Bridge) :
    SameOutcome Listing.SaysSame (listed b (o.withIds ids)) (listed b o) := by
  have hnothing : (o.withIds ids).ids.contains .nothing = o.ids.contains .nothing :=
    Bool.eq_iff_iff.mpr (by simp only [List.contains_iff_mem]; exact h .nothing)
  have hbreaks : ∀ entry : Text × NodeId, breaksOn b.nodes entry.2 (o.withIds ids).criteria =
      breaksOn b.nodes entry.2 o.criteria := fun entry =>
    breaksOn_congr (Options.criteria_equivalent h) b.nodes entry.2
  unfold listed
  simp only [hnothing, hbreaks]
  split
  · exact .failed _
  · split
    · exact .failed _
    · exact .done (listing_saysSame b (Options.filter?_equivalent h))

/-! ### Runs -/

theorem finish_withIds {l l' : Listing} (h : l.SaysSame l') (files : FileTree) (settings : Settings)
    (b : Bridge) (time : Timestamp) : finish files (o.withIds ids) settings b l time =
      finish files o settings b l' time := by
  unfold finish
  rw [h.selection_eq]
  rfl

theorem runOptions_withIds (h : ∀ x, x ∈ ids ↔ x ∈ o.ids) (files : FileTree) (time : Timestamp) :
    runOptions files (o.withIds ids) time = runOptions files o time := by
  have hprepare : prepare files (o.withIds ids) = prepare files o := rfl
  unfold runOptions
  rw [hprepare]
  split
  · rfl
  · rfl
  · rename_i settings b _
    generalize hl : listed b (o.withIds ids) = outcome
    generalize hl' : listed b o = outcome'
    have houtcome := listed_withIds h b
    rw [hl, hl'] at houtcome
    cases houtcome with
    | failed cause => rfl
    | done hsame =>
      simp only [finish_withIds hsame, hsame.members_eq, hsame.header_eq, hsame.warnings_eq]

/-- Options that differ in the order and the repetition of ids alone list the same members under the same
description, and runs with them end alike, print the same and leave the same files. -/
theorem run_ids_unordered (files : FileTree) (arguments arguments' : List String) (o : Options)
    (ids : List (Operand Text)) (time : Timestamp) (hparse : Options.parse arguments = .ok o)
    (hparse' : Options.parse arguments' = .ok { o with ids := ids })
    (hids : ∀ x, x ∈ ids ↔ x ∈ o.ids) :
    run files arguments' time = run files arguments time ∧
    prepare files { o with ids := ids } = prepare files o ∧
    ∀ b, SameOutcome Listing.SaysSame (listed b { o with ids := ids }) (listed b o) := by
  refine ⟨?_, rfl, listed_withIds hids⟩
  rw [run_of_parse hparse, run_of_parse hparse']
  exact runOptions_withIds hids files time

def twoIds : Options :=
  ⟨.value (.ofText "m.json"), none, none, [], [], [.value "b", .value "a"], false, none⟩

theorem twoIds_unordered :
    Options.parse ["--plan", "m.json", "--id", "b", "--id", "a"] = .ok twoIds ∧
    (Filter.ids ["a", "b", "a"]).describe = "id in ['a', 'b']" ∧
    run singleFiles ["--plan", "m.json", "--id", "a", "--id=b", "--id", "a"]
        ⟨2024, 1, 2, 3, 4, 5, 678901⟩ =
      run singleFiles ["--plan", "m.json", "--id", "b", "--id", "a"]
        ⟨2024, 1, 2, 3, 4, 5, 678901⟩ := by
  have hparse : Options.parse ["--plan", "m.json", "--id", "b", "--id", "a"] = .ok twoIds := by rfl
  have hparse' : Options.parse ["--plan", "m.json", "--id", "a", "--id=b", "--id", "a"] =
      .ok { twoIds with ids := [.value "a", .value "b", .value "a"] } := by rfl
  have hsorted : Filter.sortedIds ["a", "b", "a"] = ["a", "b"] := by
    have hdistinct : (["a", "b", "a"] : List Text).eraseDups = ["a", "b"] := by decide
    rw [Filter.sortedIds, hdistinct]
    exact List.mergeSort_of_pairwise (by decide)
  have hdescribe : (Filter.ids ["a", "b", "a"]).describe = "id in ['a', 'b']" := by
    rw [Filter.describe, hsorted]
    with_unfolding_all rfl
  refine ⟨hparse, hdescribe, ?_⟩
  exact (run_ids_unordered singleFiles _ _ twoIds [.value "a", .value "b", .value "a"]
    ⟨2024, 1, 2, 3, 4, 5, 678901⟩ hparse hparse' (by simp [twoIds, or_comm])).1

end CommandLine

end SuiteView
