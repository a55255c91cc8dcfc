import SuiteView.Proofs.Session

/-!
# What a step does

A step of a session leaves all nodes and views alone, or it opens one more view among nodes of its own,
or it hangs one node into one view: under a node that the view owns, and mapped behind all that it had
mapped. So a view that is there stays, and the only steps that map anything in it are the insertions
through it that succeed.
-/

namespace SuiteView

namespace View

/-- The same view later on: under its root, it has mapped at most more. -/
structure Extends (v w : View) : Prop where
  root_eq : w.root = v.root
  mapped_prefix : v.mapped <+: w.mapped

theorem Extends.refl (v : View) : v.Extends v := ⟨rfl, List.prefix_rfl⟩

theorem Extends.trans {u v w : View} (h : u.Extends v) (h' : v.Extends w) : u.Extends w :=
  ⟨h'.root_eq.trans h.root_eq, h.mapped_prefix.trans h'.mapped_prefix⟩

theorem Extends.keys_subset {v w : View} (h : v.Extends w) : v.mapped.keys ⊆ w.mapped.keys :=
  (h.mapped_prefix.map Prod.fst).subset

theorem Extends.nodeFor? {v w : View} (h : v.Extends w) {id : Text} {n : NodeId}
    (hn : v.nodeFor? id = some n) : w.nodeFor? id = some n := by
  obtain ⟨added, hadded⟩ := h.mapped_prefix
  rw [View.nodeFor?, ← hadded]
  exact Table.get?_append_of_some added hn

theorem extends_mapLast (v : View) (id : Text) (n : NodeId) : v.Extends (v.mapLast id n) :=
  ⟨rfl, List.prefix_append ..⟩

theorem size_mapLast (v : View) (id : Text) (n : NodeId) : (v.mapLast id n).size = v.size + 1 := by
  simp [size, mapLast]

end View

namespace Session

/-- Whether a step is an insertion through the view with this number, and succeeds. -/
def insertsThrough (σ : Session) (k : Nat) : Op → Bool
  | .insert j i parent =>
    decide (j = k) && (σ.views[k]?).any fun v => ((σ.bridge v).insertUnder i parent).2.isOk
  | _ => false

/-- How many of the steps of a run are insertions through the view that succeed. -/
def insertions (σ : Session) (k : Nat) : List Op → Nat
  | [] => 0
  | op :: ops => (σ.insertsThrough k op).toNat + (σ.step op).insertions k ops

/-- The three ways from one session to the next. -/
inductive Effect (σ : Session) (op : Op) (τ : Session) : Prop where
  | planOnly (plan : τ.plan = σ.plan ∨ ∃ i, σ.plan.add i = .ok τ.plan) (nodes : τ.nodes = σ.nodes)
      (views : τ.views = σ.views) (through : ∀ k, σ.insertsThrough k op = false)
  | opened (v : View) (plan : τ.plan = σ.plan)
      (nodes : ∀ n, n < σ.nodes.size → τ.nodes.get? n = σ.nodes.get? n)
      (views : τ.views = σ.views ++ [v]) (through : ∀ k, σ.insertsThrough k op = false)
  | inserted (k : Nat) (v : View) (i : Identifier) (above : NodeId) (label : Label)
      (view : σ.views[k]? = some v) (plan : σ.plan.add i = .ok τ.plan)
      (parent : v.nodeAt? i.parent = some above)
      (nodes : τ.nodes = σ.nodes.withChild above label (some i.uniqueId))
      (views : τ.views = σ.views.set k (v.mapLast i.uniqueId σ.nodes.size))
      (through : ∀ j, σ.insertsThrough j op = decide (k = j))

variable {σ : Session}

theorem insertsThrough_insert {k : Nat} {v : View} (hv : σ.views[k]? = some v) (i : Identifier)
    (parent : Value) (j : Nat) : σ.insertsThrough j (.insert k i parent) =
      (decide (k = j) && ((σ.bridge v).insertUnder i parent).2.isOk) := by
  by_cases hj : k = j
  · subst hj
    simp [insertsThrough, hv]
  · simp [insertsThrough, hj]

/-- Nothing comes of an insertion that is refused; one that fails in naming leaves its member in the
plan. -/
theorem Sound.effect_insert (h : σ.Sound) {k : Nat} {v : View} (hv : σ.views[k]? = some v)
    (i : Identifier) (parent : Value) :
    Effect σ (.insert k i parent) (σ.putBack k ((σ.bridge v).insertUnder i parent).1) := by
  have hput : σ.views.set k v = σ.views := by
    obtain ⟨hk, rfl⟩ := List.getElem?_eq_some_iff.mp hv
    exact List.set_getElem_self hk
  have hthrough := insertsThrough_insert hv i parent
  obtain ⟨name, hm⟩ := h.mirrors k v hv
  rcases (σ.bridge v).insertUnder_cases i parent with
    ⟨e, hins, -⟩ | ⟨q, above, p, -, hq, habove, ha, ⟨cause, -, hins⟩ | ⟨b, n, hattach, hins⟩⟩
  · rw [hins] at hthrough ⊢
    exact .planOnly (.inl rfl) rfl hput fun j => by simp [hthrough, Except.isOk, Except.toBool]
  · rw [hins] at hthrough ⊢
    exact .planOnly (.inr ⟨i, ha⟩) rfl hput fun j => by simp [hthrough, Except.isOk, Except.toBool]
  · rw [hins] at hthrough ⊢
    obtain ⟨-, -, label, rfl⟩ :=
      Bridge.attach_grown (b := σ.bridge v) h.forest hm hq habove ha hattach
    have hparent : v.nodeAt? i.parent = some above := by
      rw [hq]
      exact habove
    exact .inserted k v i above label hv ha hparent rfl rfl fun j => by
      simp [hthrough, Except.isOk, Except.toBool]

theorem Sound.effect (h : σ.Sound) (op : Op) : Effect σ op (σ.step op) := by
  cases op with
  | add i =>
    simp only [Session.step]
    cases ha : σ.plan.add i with
    | ok p => exact .planOnly (.inr ⟨i, ha⟩) rfl rfl fun _ => rfl
    | error cause => exact .planOnly (.inl rfl) rfl rfl fun _ => rfl
  | openView name =>
    simp only [Session.step]
    cases hb : Bridge.create σ.plan σ.nodes name with
    | ok b =>
      exact .opened b.view (Bridge.create_grown h.forest hb).plan_eq
        (fun _ hn => Bridge.create_frame h.forest hb hn) rfl fun _ => rfl
    | error cause => exact .planOnly (.inl rfl) rfl rfl fun _ => rfl
  | insert k i parent =>
    simp only [Session.step]
    cases hv : σ.views[k]? with
    | some v => exact h.effect_insert hv i parent
    | none =>
      refine .planOnly (.inl rfl) rfl rfl fun j => ?_
      by_cases hj : k = j
      · subst hj
        simp [insertsThrough, hv]
      · simp [insertsThrough, hj]

/-! ### Views stay -/

theorem step_extends (h : σ.Sound) (op : Op) {k : Nat} {v : View} (hv : σ.views[k]? = some v) :
    ∃ w, (σ.step op).views[k]? = some w ∧ v.Extends w ∧
      w.size = v.size + (σ.insertsThrough k op).toNat := by
  have hk := (List.getElem?_eq_some_iff.mp hv).1
  cases h.effect op with
  | planOnly _ _ views through =>
    rw [views, through k]
    exact ⟨v, hv, .refl v, rfl⟩
  | opened u _ _ views through =>
    rw [views, through k, List.getElem?_append_left hk]
    exact ⟨v, hv, .refl v, rfl⟩
  | inserted j u i above label view _ _ _ views through =>
    rw [views, through k]
    by_cases hjk : j = k
    · subst hjk
      obtain rfl : u = v := Option.some.inj (view.symm.trans hv)
      refine ⟨_, List.getElem?_set_self hk, u.extends_mapLast _ _, ?_⟩
      rw [View.size_mapLast, decide_eq_true rfl]
      rfl
    · rw [List.getElem?_set_ne hjk, decide_eq_false hjk]
      exact ⟨v, hv, .refl v, rfl⟩

/-- Whatever a run brings, it leaves every view what it had mapped, and adds one member for each
insertion through it that succeeds. -/
theorem run_extends (h : σ.Sound) (ops : List Op) {k : Nat} {v : View}
    (hv : σ.views[k]? = some v) :
    ∃ w, (σ.run ops).views[k]? = some w ∧ v.Extends w ∧ w.size = v.size + σ.insertions k ops := by
  induction ops generalizing σ v with
  | nil => exact ⟨v, hv, .refl v, rfl⟩
  | cons op ops ih =>
    obtain ⟨u, hu, hvu, hsize⟩ := step_extends h op hv
    obtain ⟨w, hw, huw, hsize'⟩ := ih (h.step op) hu
    refine ⟨w, hw, hvu.trans huw, ?_⟩
    rw [hsize', hsize, insertions, Nat.add_assoc]

end Session

end SuiteView
