import SuiteView.Proofs.View.Insert
import SuiteView.Proofs.View.Subtree

/-!
# Sessions

Several views may share one plan and one store. A session is their common state, and it moves by
additions to the plan, by the opening of further views and by insertions through any of them; each
step may fail. No step spoils the mirror of any view, the one that it works on or another.
-/

namespace SuiteView

/-- A plan, the store of all nodes, and the views opened so far. -/
structure Session where
  plan : Plan
  nodes : NodeStore
  views : List View

namespace Session

inductive Op where
  | add (i : Identifier)
  | openView (name : Text)
  | insert (k : Nat) (i : Identifier) (parent : Value)
deriving Repr

/-- An empty plan and no views; the store may hold other nodes already. -/
def start (s : NodeStore) : Session := ⟨.empty, s, []⟩

def bridge (σ : Session) (v : View) : Bridge := ⟨σ.plan, σ.nodes, v⟩

def withPlan (σ : Session) (p : Plan) : Session := { σ with plan := p }

/-- The session with a bridge in place of a view. -/
def putBack (σ : Session) (k : Nat) (b : Bridge) : Session := ⟨b.plan, b.nodes, σ.views.set k b.view⟩

/-- A step that fails keeps what it changed before it failed, which can be no more than the plan: the
nodes of a view that did not open hang nowhere. A number without a view is no call. -/
def step (σ : Session) : Op → Session
  | .add i =>
    match σ.plan.add i with
    | .ok p => σ.withPlan p
    | .error _ => σ
  | .openView name =>
    match Bridge.create σ.plan σ.nodes name with
    | .ok b => ⟨b.plan, b.nodes, σ.views ++ [b.view]⟩
    | .error _ => σ
  | .insert k i parent =>
    match σ.views[k]? with
    | some v => σ.putBack k ((σ.bridge v).insertUnder i parent).1
    | none => σ

def run (σ : Session) (ops : List Op) : Session := ops.foldl step σ

/-- Every view mirrors the plan, and no node belongs to two views. -/
structure Sound (σ : Session) : Prop where
  forest : σ.plan.IsForest
  mirrors : ∀ (k : Nat) (v : View), σ.views[k]? = some v → ∃ name, v.Mirrors name σ.plan σ.nodes
  apart : ∀ (j k : Nat) (v w : View), j ≠ k → σ.views[j]? = some v → σ.views[k]? = some w →
    List.Disjoint v.owned w.owned

theorem start_sound (s : NodeStore) : (start s).Sound where
  forest := Plan.isForest_empty
  mirrors k v hv := by simp [start] at hv
  apart j k v w _ hv := by simp [start] at hv

namespace Sound

variable {σ : Session}

/-! ### One step -/

theorem withPlan (h : σ.Sound) {i : Identifier} {p : Plan} (ha : σ.plan.add i = .ok p) :
    (σ.withPlan p).Sound where
  forest := h.forest.add ha
  mirrors k v hv := by
    obtain ⟨name, hm⟩ := h.mirrors k v hv
    exact ⟨name, hm.of_add h.forest ha⟩
  apart := h.apart

theorem openView (h : σ.Sound) {name : Text} {b : Bridge}
    (hb : Bridge.create σ.plan σ.nodes name = .ok b) :
    Sound ⟨b.plan, b.nodes, σ.views ++ [b.view]⟩ := by
  have hg := Bridge.create_grown h.forest hb
  have hplan : b.plan = σ.plan := hg.plan_eq
  have hroot : b.view.root = σ.nodes.size := hg.root_eq
  -- the nodes of the new view are younger than all there were
  have hnew : ∀ n ∈ b.view.owned, σ.nodes.size ≤ n := by
    intro n hn
    obtain ⟨u, hu⟩ := (hg.mirrors.mem_owned_iff n).mp hn
    exact hroot ▸ hg.mirrors.root_le hu
  have hold : ∀ (k : Nat) (v : View), σ.views[k]? = some v → ∀ n ∈ v.owned, n < σ.nodes.size := by
    intro k v hv n hn
    obtain ⟨_, hm⟩ := h.mirrors k v hv
    exact hm.owned_lt hn
  have hsplit : ∀ (k : Nat) (v : View), (σ.views ++ [b.view])[k]? = some v →
      σ.views[k]? = some v ∨ k = σ.views.length ∧ v = b.view := by
    intro k v hv
    rw [List.getElem?_append] at hv
    split at hv
    · exact .inl hv
    · rw [List.getElem?_singleton] at hv
      split at hv
      · exact .inr ⟨by omega, (Option.some.inj hv).symm⟩
      · cases hv
  refine ⟨hplan ▸ h.forest, ?_, ?_⟩
  · intro k v hv
    rcases hsplit k v hv with hk | ⟨-, rfl⟩
    · obtain ⟨label, hm⟩ := h.mirrors k v hk
      exact ⟨label, hplan ▸ hm.of_frame fun n hn =>
        Bridge.create_frame h.forest hb (hm.owned_lt hn)⟩
    · exact ⟨name, hg.mirrors⟩
  · intro j k v w hne hv hw
    rcases hsplit j v hv with hj | ⟨hj, rfl⟩
    · rcases hsplit k w hw with hk | ⟨hk, rfl⟩
      · exact h.apart j k v w hne hj hk
      · exact fun n hn hn' => Nat.lt_irrefl n (Nat.lt_of_lt_of_le (hold j v hj n hn) (hnew n hn'))
    · rcases hsplit k w hw with hk | ⟨hk, rfl⟩
      · exact fun n hn hn' => Nat.lt_irrefl n (Nat.lt_of_lt_of_le (hold k w hk n hn') (hnew n hn))
      · exact absurd (hj.trans hk.symm) hne

/- Where one view is replaced, the others must mirror the new plan in the new store and own nothing
   that the replaced one has come to own. -/
theorem putBack {k : Nat} {b : Bridge} {name : Text} (h : σ.Sound) (hf : b.plan.IsForest)
    (hm : b.view.Mirrors name b.plan b.nodes)
    (hmirrors : ∀ (j : Nat) (w : View), j ≠ k → σ.views[j]? = some w →
      ∃ name, w.Mirrors name b.plan b.nodes)
    (hapart : ∀ (j : Nat) (w : View), j ≠ k → σ.views[j]? = some w →
      List.Disjoint b.view.owned w.owned) : (σ.putBack k b).Sound := by
  have hsplit : ∀ (j : Nat) (w : View), (σ.views.set k b.view)[j]? = some w →
      (j ≠ k ∧ σ.views[j]? = some w) ∨ j = k ∧ w = b.view := by
    intro j w hw
    rw [List.getElem?_set] at hw
    split at hw
    · rename_i hjk
      split at hw
      · exact .inr ⟨hjk.symm, (Option.some.inj hw).symm⟩
      · cases hw
    · rename_i hjk
      exact .inl ⟨fun he => hjk he.symm, hw⟩
  refine ⟨hf, ?_, ?_⟩
  · intro j w hw
    rcases hsplit j w hw with ⟨hj, hold⟩ | ⟨-, rfl⟩
    · exact hmirrors j w hj hold
    · exact ⟨name, hm⟩
  · intro j l w w' hne hw hw'
    rcases hsplit j w hw with ⟨hj, hold⟩ | ⟨hj, rfl⟩
    · rcases hsplit l w' hw' with ⟨hl, hold'⟩ | ⟨hl, rfl⟩
      · exact h.apart j l w w' hne hold hold'
      · exact List.disjoint_comm.mp (hapart j w hj hold)
    · rcases hsplit l w' hw' with ⟨hl, hold'⟩ | ⟨hl, rfl⟩
      · exact hapart l w' hl hold'
      · exact absurd (hj.trans hl.symm) hne

theorem insert_at {k : Nat} {v : View} (h : σ.Sound) (hv : σ.views[k]? = some v) (i : Identifier)
    (parent : Value) : (σ.putBack k ((σ.bridge v).insertUnder i parent).1).Sound := by
  have hput : σ.views.set k v = σ.views := by
    obtain ⟨hk, rfl⟩ := List.getElem?_eq_some_iff.mp hv
    exact List.set_getElem_self hk
  obtain ⟨name, hm⟩ := h.mirrors k v hv
  rcases (σ.bridge v).insertUnder_cases i parent with
    ⟨e, hins, -⟩ | ⟨q, above, p, -, hq, habove, ha, ⟨cause, -, hins⟩ | ⟨b, n, hattach, hins⟩⟩
  · rw [hins]
    show Sound ⟨σ.plan, σ.nodes, σ.views.set k v⟩
    rw [hput]
    exact h
  · rw [hins]
    show Sound ⟨p, σ.nodes, σ.views.set k v⟩
    rw [hput]
    exact h.withPlan ha
  · rw [hins]
    obtain ⟨hg, -, label, rfl⟩ :=
      Bridge.attach_grown (b := σ.bridge v) h.forest hm hq habove ha hattach
    have hnode : v.nodeAt? (.string q) = some above := habove
    refine h.putBack (h.forest.add ha) hg.mirrors ?_ ?_
    · intro j w hj hw
      obtain ⟨label', hm'⟩ := h.mirrors j w hw
      refine ⟨label', (hm'.of_add h.forest ha).of_frame fun n hn => ?_⟩
      have hne : n ≠ above := by
        rintro rfl
        exact h.apart j k w v hj hw hv hn (hm.mem_owned hnode)
      exact σ.nodes.get?_withChild_of_ne (hm.lt_size hnode) (hm'.owned_lt hn) hne label _
    · intro j w hj hw
      obtain ⟨_, hm'⟩ := h.mirrors j w hw
      show List.Disjoint (v.mapLast i.uniqueId σ.nodes.size).owned w.owned
      rw [View.owned_mapLast, List.disjoint_append_left]
      refine ⟨h.apart k j v w hj.symm hv hw, ?_⟩
      intro n hn hn'
      rw [List.mem_singleton.mp hn] at hn'
      exact Nat.lt_irrefl _ (hm'.owned_lt hn')

theorem step (h : σ.Sound) (op : Op) : (σ.step op).Sound := by
  cases op with
  | add i =>
    simp only [Session.step]
    cases ha : σ.plan.add i with
    | ok p => exact h.withPlan ha
    | error cause => exact h
  | openView name =>
    simp only [Session.step]
    cases hb : Bridge.create σ.plan σ.nodes name with
    | ok b => exact h.openView hb
    | error cause => exact h
  | insert k i parent =>
    simp only [Session.step]
    cases hv : σ.views[k]? with
    | some v => exact h.insert_at hv i parent
    | none => exact h

/-! ### Whole runs -/

theorem run (h : σ.Sound) (ops : List Op) : (σ.run ops).Sound := by
  induction ops generalizing σ with
  | nil => exact h
  | cons op ops ih => exact ih (h.step op)

theorem mirrors_of_mem (h : σ.Sound) {v : View} (hv : v ∈ σ.views) :
    ∃ name, v.Mirrors name σ.plan σ.nodes := by
  obtain ⟨k, hk⟩ := List.mem_iff_getElem?.mp hv
  exact h.mirrors k v hk

end Sound

theorem run_sound (s : NodeStore) (ops : List Op) : ((start s).run ops).Sound :=
  (start_sound s).run ops

/-- However a session went, each of its views shows the plan as it now stands, restricted to what the
view has mapped. -/
theorem run_shows (s : NodeStore) (ops : List Op) (v : View)
    (hv : v ∈ ((start s).run ops).views) :
    v.Shows ((start s).run ops).plan ((start s).run ops).nodes := by
  have hs := run_sound s ops
  obtain ⟨name, hm⟩ := hs.mirrors_of_mem hv
  exact hm.shows hs.forest

/- Two views of one plan: `t` is added behind the back of both, `u` is inserted through the second,
   and an insertion without a usable location is lost between the plan and the view. -/
def twoViews : List Op :=
  [.add ⟨[.char 'c'], [.char 'C'], .container, none, .null⟩,
   .openView [.char '1'],
   .openView [.char '2'],
   .add ⟨[.char 't'], [.char 'T'], .test, none, .string [.char 'c']⟩,
   .insert 1 ⟨[.char 'x'], [.char 'X'], .test, some (.unsupported .null), .string [.char 'c']⟩
     (.string [.char 'c']),
   .insert 1 ⟨[.char 'u'], [.char 'U'], .test, none, .string [.char 'c']⟩ (.string [.char 'c']),
   .insert 0 ⟨[.char 'v'], [.char 'V'], .test, none, .string [.char 'u']⟩ (.string [.char 'u'])]

theorem twoViews_shows : ∃ v ∈ ((start .empty).run twoViews).views,
    v.mapped.keys = [[.char 'c'], [.char 'u']] ∧
    v.Shows ((start .empty).run twoViews).plan ((start .empty).run twoViews).nodes := by
  have hlast : ((start .empty).run twoViews).views[1]? =
      some ⟨2, [([.char 'c'], 3), ([.char 'u'], 4)]⟩ := rfl
  have hv := List.mem_of_getElem? hlast
  exact ⟨_, hv, rfl, run_shows .empty twoViews _ hv⟩

end Session

end SuiteView
