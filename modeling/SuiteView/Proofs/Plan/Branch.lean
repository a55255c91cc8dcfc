import SuiteView.Proofs.Plan.Descendants

/-!
# The last branch

A plan lists its members in the order in which they came. That is the pre-order of its forest as long
as every member comes on the last branch: as a root, or under the member that came just before it or
one above that. A member that comes elsewhere stands earlier in the pre-order, and from then on the
two orders differ.
-/

namespace SuiteView.Plan

/-- The id of the member that came last, or one above it. -/
def OnLastBranch (p : Plan) (id : Text) : Prop :=
  ∃ last, p.ids.getLast? = some last ∧ Relation.ReflTransGen p.ParentOf id last

/-- Whether a member under this parent comes on the last branch. -/
def Continues (p : Plan) (parent : Value) : Prop :=
  parent = .null ∨ ∃ q, parent = .string q ∧ p.OnLastBranch q

namespace IsForest

variable {p p' : Plan} {i : Identifier}

/-! ### The pre-order after an addition -/

theorem filter_idsUnder_add (h : p.IsForest) (ha : p.add i = .ok p') (parent : Value) :
    (p'.idsUnder parent).filter (· != i.uniqueId) = p.idsUnder parent := by
  have hfree : i.uniqueId ∉ p.idsUnder parent := fun hin =>
    (add_cases ha).1 (h.idsUnder_subset parent hin)
  rw [← (((h.add ha).idsUnder_nodup parent).erase_eq_filter _), idsUnder_add ha,
    List.erase_append_right _ hfree]
  by_cases hp : i.parent = parent <;> simp [hp]

theorem childIdsOf_added (h : p.IsForest) (ha : p.add i = .ok p') :
    p'.childIdsOf i.uniqueId = [] := by
  have hfree := (add_cases ha).1
  have hother : i.parent ≠ .string i.uniqueId := by
    intro hself
    obtain ⟨-, ⟨hnull, -⟩ | ⟨q, hparent, hin, -⟩⟩ := add_cases ha
    · rw [hself] at hnull
      cases hnull
    · rw [hself] at hparent
      exact hfree (Value.string.inj hparent ▸ hin)
  rw [(h.add ha).childIdsOf_eq, idsUnder_add ha, h.idsUnder_eq_nil hfree, if_neg hother]
  rfl

theorem filter_upTo_add (h : p.IsForest) (ha : p.add i = .ok p') (xs : List Text)
    (hxs : xs.filter (· != i.uniqueId) ⊆ p.ids) :
    (xs.flatMap (Preorder.upTo p'.childIdsOf p'.size)).filter (· != i.uniqueId) =
      (xs.filter (· != i.uniqueId)).flatMap (Preorder.upTo p.childIdsOf p.size) := by
  have hkept : ∀ x, (p'.childIdsOf x).filter (· != i.uniqueId) = p.childIdsOf x := by
    intro x
    rw [(h.add ha).childIdsOf_eq, h.childIdsOf_eq]
    exact h.filter_idsUnder_add ha _
  have hsize : p.size ≤ p'.size := by
    simp [Plan.size, members_add ha]
  rw [Preorder.filter_flatMap_upTo (h.childIdsOf_added ha) hkept]
  exact List.flatMap_congr fun x hx => Preorder.upTo_eq_of_within hsize (h.within_size (hxs hx))

theorem erase_under_add (h : p.IsForest) (ha : p.add i = .ok p') (parent : Value) :
    ((p'.idsUnder parent).flatMap (Preorder.upTo p'.childIdsOf p'.size)).erase i.uniqueId =
      (p.idsUnder parent).flatMap (Preorder.upTo p.childIdsOf p.size) := by
  have hkept := h.filter_idsUnder_add ha parent
  have hsub := h.idsUnder_subset parent
  rw [← hkept] at hsub
  rw [((h.add ha).upTo_under_nodup parent).erase_eq_filter, h.filter_upTo_add ha _ hsub, hkept]

theorem erase_preorderIds_add (h : p.IsForest) (ha : p.add i = .ok p') :
    p'.preorderIds.erase i.uniqueId = p.preorderIds :=
  h.erase_under_add ha .null

theorem erase_upTo_add (h : p.IsForest) (ha : p.add i = .ok p') {q : Text} (hq : q ∈ p.ids) :
    (Preorder.upTo p'.childIdsOf p'.size q).erase i.uniqueId =
      Preorder.upTo p.childIdsOf p.size q := by
  have hf := h.add ha
  have hq' : q ∈ p'.ids := by simp [ids_add ha, hq]
  have hne : q ≠ i.uniqueId := fun he => (add_cases ha).1 (he ▸ hq)
  have hnodup := Preorder.upTo_nodup hf.parent_unique hf.childIdsOf_nodup (hf.within_size hq')
  have hfilter := h.filter_upTo_add ha [q] (by simp [hne, hq])
  rw [List.filter_cons_of_pos (by simp [hne]), List.filter_nil, List.flatMap_singleton,
    List.flatMap_singleton] at hfilter
  rw [hnodup.erase_eq_filter, hfilter]

theorem upTo_added (h : p.IsForest) (ha : p.add i = .ok p') :
    Preorder.upTo p'.childIdsOf p'.size i.uniqueId = [i.uniqueId] := by
  have hin : i.uniqueId ∈ p'.ids := by simp [ids_add ha]
  rw [Preorder.upTo_unfold ((h.add ha).within_size hin), h.childIdsOf_added ha]
  rfl

theorem preorderIds_addRoot (h : p.IsForest) (ha : p.add i = .ok p') (hroot : i.parent = .null) :
    p'.preorderIds = p.preorderIds ++ [i.uniqueId] := by
  obtain ⟨front, hsplit⟩ : ∃ front, p'.preorderIds = front ++ [i.uniqueId] := by
    rw [preorderIds, idsUnder_add ha, if_pos hroot, List.flatMap_append, List.flatMap_singleton,
      h.upTo_added ha]
    exact ⟨_, rfl⟩
  have hnodup := (h.add ha).preorderIds_nodup
  have hold := h.erase_preorderIds_add ha
  rw [hsplit, ← List.concat_eq_append, List.nodup_concat] at hnodup
  rw [hsplit, List.erase_append_right _ hnodup.1, List.erase_cons_head, List.append_nil] at hold
  rw [hsplit, hold]

/-- What lies at and below a member is one piece of every walk that meets the member. -/
theorem under_split (h : p.IsForest) {parent : Value} {q : Text}
    (hq : q ∈ (p.idsUnder parent).flatMap (Preorder.upTo p.childIdsOf p.size)) : ∃ pre post,
      (p.idsUnder parent).flatMap (Preorder.upTo p.childIdsOf p.size) =
        pre ++ Preorder.upTo p.childIdsOf p.size q ++ post := by
  obtain ⟨top, htop, hmem⟩ := List.mem_flatMap.mp hq
  have hw := h.within_size (h.idsUnder_subset parent htop)
  obtain ⟨pre, post, hup⟩ := Preorder.upTo_split hw (Preorder.reach_of_mem_upTo hmem)
  obtain ⟨older, younger, hsiblings⟩ := List.append_of_mem htop
  refine ⟨older.flatMap (Preorder.upTo p.childIdsOf p.size) ++ pre,
    post ++ younger.flatMap (Preorder.upTo p.childIdsOf p.size), ?_⟩
  rw [hsiblings, List.flatMap_append, List.flatMap_cons, hup]
  simp only [List.append_assoc]

/-- A new child comes right behind everything that lies below its parent so far, in every walk that
meets the parent. -/
theorem under_addChild (h : p.IsForest) (ha : p.add i = .ok p') {q : Text}
    (hparent : i.parent = .string q) {parent : Value}
    (hq : q ∈ (p.idsUnder parent).flatMap (Preorder.upTo p.childIdsOf p.size)) : ∃ pre post,
      (p.idsUnder parent).flatMap (Preorder.upTo p.childIdsOf p.size) =
        pre ++ Preorder.upTo p.childIdsOf p.size q ++ post ∧
      (p'.idsUnder parent).flatMap (Preorder.upTo p'.childIdsOf p'.size) =
        pre ++ Preorder.upTo p.childIdsOf p.size q ++ i.uniqueId :: post := by
  have hf := h.add ha
  have hold := h.erase_under_add ha parent
  have hqmem : q ∈ p.ids := by
    obtain ⟨top, htop, hmem⟩ := List.mem_flatMap.mp hq
    exact h.upTo_subset p.size (h.idsUnder_subset parent htop) hmem
  have hqmem' : q ∈ p'.ids := by simp [ids_add ha, hqmem]
  rw [← hold] at hq
  obtain ⟨pre, post, hsplit⟩ := hf.under_split (List.mem_of_mem_erase hq)
  -- the new member ends the pre-order of its parent, and it stands nowhere else
  obtain ⟨mid, hmid⟩ : ∃ mid, Preorder.upTo p'.childIdsOf p'.size q = mid ++ [i.uniqueId] := by
    have hunfold := Preorder.upTo_unfold (hf.within_size hqmem')
    rw [hf.childIdsOf_eq, idsUnder_add ha, if_pos hparent, List.flatMap_append,
      List.flatMap_singleton, h.upTo_added ha] at hunfold
    exact ⟨q :: (p.idsUnder (.string q)).flatMap (Preorder.upTo p'.childIdsOf p'.size), hunfold⟩
  have hnew : (p'.idsUnder parent).flatMap (Preorder.upTo p'.childIdsOf p'.size) =
      pre ++ mid ++ i.uniqueId :: post := by
    rw [hsplit, hmid]
    simp only [List.append_assoc, List.singleton_append]
  have hnodup := hf.upTo_under_nodup parent
  rw [hnew, List.nodup_middle, List.nodup_cons, List.mem_append, not_or] at hnodup
  have hfree := hnodup.1.1
  have hmid' : i.uniqueId ∉ mid := fun hin => hfree (List.mem_append_right _ hin)
  have hbranch := h.erase_upTo_add ha hqmem
  rw [hmid, List.erase_append_right _ hmid', List.erase_cons_head, List.append_nil] at hbranch
  rw [hnew, List.erase_append_right _ hfree, List.erase_cons_head] at hold
  rw [hbranch] at hold hnew
  exact ⟨pre, post, hold.symm, hnew⟩

theorem preorderIds_addChild (h : p.IsForest) (ha : p.add i = .ok p') {q : Text} (hq : q ∈ p.ids)
    (hparent : i.parent = .string q) : ∃ pre post,
      p.preorderIds = pre ++ Preorder.upTo p.childIdsOf p.size q ++ post ∧
      p'.preorderIds = pre ++ Preorder.upTo p.childIdsOf p.size q ++ i.uniqueId :: post :=
  h.under_addChild ha hparent (h.mem_preorderIds hq)

/-! ### Both orders -/

/-- Where the two orders agree, nothing follows the branch of a member exactly if it is the last. -/
theorem onLastBranch_iff (h : p.IsForest) (horder : p.preorderIds = p.ids) {q : Text} (hq : q ∈ p.ids)
    {pre post : List Text}
    (hsplit : p.preorderIds = pre ++ Preorder.upTo p.childIdsOf p.size q ++ post) :
    p.OnLastBranch q ↔ post = [] := by
  have hw := h.within_size hq
  have hself := Preorder.mem_upTo_self hw
  constructor
  · rintro ⟨last, hlast, hreach⟩
    rw [← h.child_eq] at hreach
    have hbranch := Preorder.mem_upTo_of_reach hw hreach
    by_contra hpost
    have hnodup := h.preorderIds_nodup
    rw [hsplit] at hnodup
    rw [← horder, hsplit, List.getLast?_append_of_ne_nil _ hpost] at hlast
    have hlater := List.mem_of_getLast? hlast
    exact (List.nodup_append.mp hnodup).2.2 last (List.mem_append_right _ hbranch) last hlater rfl
  · rintro rfl
    have hne := List.ne_nil_of_mem hself
    obtain ⟨last, hlast⟩ : ∃ last, (Preorder.upTo p.childIdsOf p.size q).getLast? = some last :=
      ⟨_, List.getLast?_eq_some_getLast hne⟩
    refine ⟨last, ?_, ?_⟩
    · rw [← horder, hsplit, List.append_nil, List.getLast?_append_of_ne_nil _ hne, hlast]
    · rw [← h.child_eq]
      exact Preorder.reach_of_mem_upTo (List.mem_of_getLast? hlast)

/-- After an addition the orders agree if they did before and the member came on the last branch. -/
theorem preorderIds_add_iff (h : p.IsForest) (ha : p.add i = .ok p') :
    p'.preorderIds = p'.ids ↔ p.preorderIds = p.ids ∧ p.Continues i.parent := by
  have hfree := (add_cases ha).1
  rw [ids_add ha]
  obtain ⟨-, ⟨hnull, -⟩ | ⟨q, hparent, hq, -⟩⟩ := add_cases ha
  · have hcontinues : p.Continues i.parent := .inl hnull
    rw [h.preorderIds_addRoot ha hnull, List.append_cancel_right_eq]
    exact ⟨fun horder => ⟨horder, hcontinues⟩, And.left⟩
  · obtain ⟨pre, post, hold, hnew⟩ := h.preorderIds_addChild ha hq hparent
    have hcontinues : p.Continues i.parent ↔ p.OnLastBranch q := by
      rw [Continues, hparent]
      simp
    rw [hcontinues]
    constructor
    · intro horder
      have hsame := h.erase_preorderIds_add ha
      rw [horder, List.erase_append_right _ hfree, List.erase_cons_head, List.append_nil] at hsame
      replace hsame := hsame.symm
      refine ⟨hsame, (h.onLastBranch_iff hsame hq hold).mpr ?_⟩
      by_contra hpost
      have hends : pre ++ Preorder.upTo p.childIdsOf p.size q ++ i.uniqueId :: post =
          pre ++ Preorder.upTo p.childIdsOf p.size q ++ [i.uniqueId] ++ post := by simp
      have hlast := congrArg List.getLast? (horder.symm.trans hnew)
      rw [hends, List.getLast?_append_of_ne_nil _ hpost, List.getLast?_concat] at hlast
      have hmem : i.uniqueId ∈ p.ids := by
        rw [← hsame, hold]
        exact List.mem_append_right _ (List.mem_of_getLast? hlast.symm)
      exact hfree hmem
    · rintro ⟨horder, hlast⟩
      rw [h.onLastBranch_iff horder hq hold] at hlast
      rw [hlast, List.append_nil] at hold
      rw [hnew, ← horder, hold, hlast]

end IsForest

/-- The plan of a list is in pre-order if every member of the list comes on the last branch of the plan
of those before it. -/
theorem preorderIds_ofList_iff {is : List Identifier} {p : Plan} (h : ofList is = .ok p) :
    p.preorderIds = p.ids ↔ ∀ before i p₀, before ++ [i] <+: is → ofList before = .ok p₀ →
      p₀.Continues i.parent := by
  induction is using List.reverseRecOn generalizing p with
  | nil =>
    obtain rfl : empty = p := Except.ok.inj h
    have hsplit : ∀ before (i : Identifier), ¬ before ++ [i] <+: [] := by simp
    exact ⟨fun _ before i _ hi => absurd hi (hsplit before i), fun _ => rfl⟩
  | append_singleton is i ih =>
    obtain ⟨q, hq, ha⟩ := (ofList_concat_ok_iff is i p).mp h
    rw [(isForest_ofList hq).preorderIds_add_iff ha, ih hq]
    constructor
    · rintro ⟨hbefore, hlast⟩ before j p₀ hsplit hp₀
      rcases List.prefix_concat_iff.mp hsplit with heq | hsplit
      · obtain ⟨rfl, rfl⟩ := List.append_singleton_inj.mp heq
        obtain rfl := Except.ok.inj (hp₀.symm.trans hq)
        exact hlast
      · exact hbefore before j p₀ hsplit hp₀
    · intro hall
      refine ⟨?_, hall is i q (List.prefix_refl _) hq⟩
      intro before j p₀ hsplit hp₀
      exact hall before j p₀ (hsplit.trans (List.prefix_append is [i])) hp₀

end SuiteView.Plan
