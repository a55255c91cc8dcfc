import Mathlib.Data.List.Nodup
import Mathlib.Logic.Relation

/-!
# Pre-order over a child function

Plans and node stores are both walked by a loop over a stack. Here the loop is compared with the
recursive pre-order, for any function that lists the children of an element. Where every element has
at most one parent, the pre-order lists nothing twice.
-/

namespace SuiteView.Preorder

variable {α : Type} (children : α → List α)

/-- An element and everything below it in pre-order, down to a number of levels. -/
def upTo : (depth : Nat) → α → List α
  | 0, _ => []
  | depth + 1, x => x :: (children x).flatMap (upTo depth)

/-- The elements met in at most `fuel` turns of the loop, from a stack. -/
def loop : (fuel : Nat) → (stack : List α) → List α
  | 0, _ => []
  | _, [] => []
  | fuel + 1, x :: stack => x :: loop fuel (children x ++ stack)

/-- No path downwards from an element has more than the given number of elements. -/
def Within : (depth : Nat) → α → Prop
  | 0, _ => False
  | depth + 1, x => ∀ y ∈ children x, Within depth y

def Child (x y : α) : Prop := y ∈ children x

variable {children}

/-! ### Depth -/

theorem within_mono {d e : Nat} (hde : d ≤ e) {x : α} (h : Within children d x) :
    Within children e x := by
  induction d generalizing e x with
  | zero => exact False.elim h
  | succ d ih =>
    obtain ⟨e, rfl⟩ : ∃ e', e = e' + 1 := ⟨e - 1, by omega⟩
    exact fun y hy => ih (by omega) (h y hy)

theorem upTo_eq_of_within {d e : Nat} (hde : d ≤ e) {x : α} (h : Within children d x) :
    upTo children e x = upTo children d x := by
  induction d generalizing e x with
  | zero => exact False.elim h
  | succ d ih =>
    obtain ⟨e, rfl⟩ : ∃ e', e = e' + 1 := ⟨e - 1, by omega⟩
    simp only [upTo, List.cons.injEq, true_and]
    exact List.flatMap_congr fun y hy => ih (by omega) (h y hy)

theorem upTo_unfold {d : Nat} {x : α} (h : Within children d x) :
    upTo children d x = x :: (children x).flatMap (upTo children d) := by
  cases d with
  | zero => exact False.elim h
  | succ d =>
    simp only [upTo, List.cons.injEq, true_and]
    exact List.flatMap_congr fun y hy => (upTo_eq_of_within (Nat.le_succ d) (h y hy)).symm

/-! ### The loop -/

theorem within_child {d : Nat} {x y : α} (h : Within children d x) (hy : y ∈ children x) :
    Within children d y := by
  cases d with
  | zero => exact False.elim h
  | succ d => exact within_mono (Nat.le_succ d) (h y hy)

/-- One turn of the loop: the first element is listed, and its children take its place. -/
theorem flatMap_upTo_cons {d : Nat} {x : α} (h : Within children d x) (stack : List α) :
    (x :: stack).flatMap (upTo children d) =
      x :: (children x ++ stack).flatMap (upTo children d) := by
  rw [List.flatMap_cons, upTo_unfold h, List.flatMap_append, List.cons_append]

theorem within_stack {d : Nat} {x : α} {stack : List α}
    (h : ∀ y ∈ x :: stack, Within children d y) : ∀ y ∈ children x ++ stack, Within children d y := by
  intro y hy
  rcases List.mem_append.mp hy with hc | hs
  · exact within_child (h x (List.mem_cons_self ..)) hc
  · exact h y (List.mem_cons_of_mem _ hs)

/-- With enough turns the loop lists the pre-orders of the elements on the stack, one after the
other, and it takes one turn for each element that it lists. -/
theorem loop_eq_flatMap {d : Nat} (fuel : Nat) (stack : List α)
    (hw : ∀ x ∈ stack, Within children d x)
    (hf : (stack.flatMap (upTo children d)).length ≤ fuel) :
    loop children fuel stack = stack.flatMap (upTo children d) := by
  induction fuel generalizing stack with
  | zero => exact (List.eq_nil_of_length_eq_zero (Nat.le_zero.mp hf)).symm
  | succ fuel ih =>
    cases stack with
    | nil => rfl
    | cons x stack =>
      have hnext := flatMap_upTo_cons (hw x (List.mem_cons_self ..)) stack
      rw [hnext, List.length_cons] at hf
      rw [hnext, loop, ih (children x ++ stack) (within_stack hw) (by omega)]

/-! ### Members -/

theorem mem_upTo_self {d : Nat} {x : α} (h : Within children d x) : x ∈ upTo children d x := by
  rw [upTo_unfold h]
  exact List.mem_cons_self ..

theorem reach_of_mem_upTo {d : Nat} {x z : α} (h : z ∈ upTo children d x) :
    Relation.ReflTransGen (Child children) x z := by
  induction d generalizing x with
  | zero => simp [upTo] at h
  | succ d ih =>
    rcases List.mem_cons.mp h with rfl | hb
    · exact .refl
    · obtain ⟨y, hy, hz⟩ := List.mem_flatMap.mp hb
      exact .head hy (ih hz)

theorem mem_upTo_of_reach {d : Nat} {x z : α} (hw : Within children d x)
    (h : Relation.ReflTransGen (Child children) x z) : z ∈ upTo children d x := by
  induction h using Relation.ReflTransGen.head_induction_on with
  | refl => exact mem_upTo_self hw
  | head hxy _ ih =>
    rw [upTo_unfold hw]
    exact List.mem_cons_of_mem _ (List.mem_flatMap.mpr ⟨_, hxy, ih (within_child hw hxy)⟩)

theorem mem_flatMap_upTo_iff {d : Nat} {x z : α} (hw : Within children d x) :
    z ∈ (children x).flatMap (upTo children d) ↔ Relation.TransGen (Child children) x z := by
  rw [List.mem_flatMap, Relation.TransGen.head'_iff]
  constructor
  · rintro ⟨y, hy, hz⟩
    exact ⟨y, hy, reach_of_mem_upTo hz⟩
  · rintro ⟨y, hy, hz⟩
    exact ⟨y, hy, mem_upTo_of_reach (within_child hw hy) hz⟩

/-- The pre-order looks at nothing but what lies below. -/
theorem upTo_congr {children' : α → List α} (d : Nat) {x : α}
    (h : ∀ y, Relation.ReflTransGen (Child children) x y → children' y = children y) :
    upTo children' d x = upTo children d x := by
  induction d generalizing x with
  | zero => rfl
  | succ d ih =>
    rw [upTo, upTo, h x .refl]
    refine congrArg (x :: ·) (List.flatMap_congr fun y hy => ?_)
    exact ih fun z hz => h z (.head hy hz)

theorem not_below_self {d : Nat} {x : α} (hw : Within children d x) :
    ¬ Relation.TransGen (Child children) x x := by
  induction d generalizing x with
  | zero => exact False.elim hw
  | succ d ih =>
    intro h
    obtain ⟨y, hxy, hyx⟩ := Relation.TransGen.head'_iff.mp h
    exact ih (hw y hxy) (.tail' hyx hxy)

/-! ### Parts of the pre-order -/

/-- The pre-order of an element is one piece of the pre-order of everything above it. -/
theorem upTo_split {d : Nat} {x z : α} (hw : Within children d x)
    (h : Relation.ReflTransGen (Child children) x z) :
    ∃ pre post, upTo children d x = pre ++ upTo children d z ++ post := by
  induction h using Relation.ReflTransGen.head_induction_on with
  | refl => exact ⟨[], [], by simp⟩
  | @head x y hxy _ ih =>
    obtain ⟨pre, post, hy⟩ := ih (within_child hw hxy)
    obtain ⟨older, younger, hsiblings⟩ := List.append_of_mem hxy
    refine ⟨x :: older.flatMap (upTo children d) ++ pre,
      post ++ younger.flatMap (upTo children d), ?_⟩
    rw [upTo_unfold hw, hsiblings, List.flatMap_append, List.flatMap_cons, hy]
    simp only [List.cons_append, List.append_assoc]

/-- Leaving out an element without children leaves the pre-orders of the rest. -/
theorem filter_flatMap_upTo {children' : α → List α} [BEq α] [LawfulBEq α] {leaf : α}
    (hleaf : children' leaf = [])
    (hkept : ∀ x, (children' x).filter (· != leaf) = children x) (d : Nat) (xs : List α) :
    (xs.flatMap (upTo children' d)).filter (· != leaf) =
      (xs.filter (· != leaf)).flatMap (upTo children d) := by
  induction d generalizing xs with
  | zero =>
    have hnone : ∀ (c : α → List α) (ys : List α), ys.flatMap (upTo c 0) = [] := by
      intro c ys
      exact List.flatMap_eq_nil_iff.mpr fun _ _ => rfl
    rw [hnone, hnone, List.filter_nil]
  | succ d ih =>
    induction xs with
    | nil => rfl
    | cons x xs ihxs =>
      rw [List.flatMap_cons, List.filter_append, ihxs, upTo]
      by_cases hx : x = leaf
      · have hout : (x != leaf) = false := by simp [hx]
        simp only [List.filter_cons, hout, Bool.false_eq_true, if_false]
        rw [hx, hleaf]
        rfl
      · have hin : (x != leaf) = true := by simp [hx]
        simp only [List.filter_cons, hin, if_true]
        rw [ih, hkept, List.flatMap_cons, upTo]

/-! ### No repetition -/

theorem above_total (hu : ∀ x x' y, y ∈ children x → y ∈ children x' → x = x') {a b z : α}
    (ha : Relation.ReflTransGen (Child children) a z)
    (hb : Relation.ReflTransGen (Child children) b z) :
    Relation.ReflTransGen (Child children) a b ∨ Relation.ReflTransGen (Child children) b a := by
  have hru : Relator.RightUnique (Function.swap (Child children)) :=
    fun y x x' hx hx' => hu x x' y hx hx'
  rcases Relation.ReflTransGen.total_of_right_unique hru
    (Relation.reflTransGen_swap.mpr ha) (Relation.reflTransGen_swap.mpr hb) with h | h
  · exact .inr (Relation.reflTransGen_swap.mp h)
  · exact .inl (Relation.reflTransGen_swap.mp h)

theorem disjoint_of_not_reach (hu : ∀ x x' y, y ∈ children x → y ∈ children x' → x = x')
    {d : Nat} {a b : α} (hab : ¬ Relation.ReflTransGen (Child children) a b)
    (hba : ¬ Relation.ReflTransGen (Child children) b a) :
    List.Disjoint (upTo children d a) (upTo children d b) := by
  intro z hza hzb
  rcases above_total hu (reach_of_mem_upTo hza) (reach_of_mem_upTo hzb) with h | h
  · exact hab h
  · exact hba h

theorem sibling_not_reach (hu : ∀ x x' y, y ∈ children x → y ∈ children x' → x = x') {d : Nat}
    {x a b : α} (hw : Within children d x) (ha : a ∈ children x) (hb : b ∈ children x)
    (hne : a ≠ b) : ¬ Relation.ReflTransGen (Child children) a b := by
  intro hreach
  rcases Relation.ReflTransGen.cases_tail hreach with he | ⟨w, haw, hwb⟩
  · exact hne he.symm
  · obtain rfl : w = x := hu w x b hwb hb
    exact not_below_self hw (.head' ha haw)

theorem upTo_nodup (hu : ∀ x x' y, y ∈ children x → y ∈ children x' → x = x')
    (hn : ∀ x, (children x).Nodup) {d : Nat} {x : α} (hw : Within children d x) :
    (upTo children d x).Nodup := by
  induction d generalizing x with
  | zero => exact False.elim hw
  | succ d ih =>
    have hx : Within children (d + 1) x := hw
    rw [upTo, List.nodup_cons, List.nodup_flatMap]
    refine ⟨?_, fun y hy => ih (hw y hy), ?_⟩
    · intro hmem
      obtain ⟨y, hy, hxy⟩ := List.mem_flatMap.mp hmem
      exact not_below_self hx (.head' hy (reach_of_mem_upTo hxy))
    · refine (hn x).pairwise_of_forall_ne ?_
      intro a ha b hb hne
      have hdis : List.Disjoint (upTo children (d + 1) a) (upTo children (d + 1) b) :=
        disjoint_of_not_reach hu (sibling_not_reach hu hx ha hb hne)
          (sibling_not_reach hu hx hb ha hne.symm)
      rwa [upTo_eq_of_within (Nat.le_succ d) (hw a ha),
        upTo_eq_of_within (Nat.le_succ d) (hw b hb)] at hdis

end SuiteView.Preorder
