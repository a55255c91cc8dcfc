import Mathlib.Data.Finset.Card
import Mathlib.Data.List.Sigma
import Mathlib.Data.Set.Card
import SuiteView.Proofs.Preorder

/-!
# Paths downwards

Where elements are shared, an element lies below another on several paths. A path names one child
after the other by its place among the children, so a child that is listed twice is on two paths. Main
statements: the pre-order comes to the end of every path once, and the loop, spelled out with a stack
whose last element comes next, lists one element of the pre-order in each turn.
-/

namespace SuiteView.Preorder

variable {α : Type} (children : α → List α)

/-- Where a path leads, if all its places are taken. -/
def pathEnd? (x : α) : (path : List Nat) → Option α
  | [] => some x
  | place :: path => (children x)[place]?.bind fun y => pathEnd? y path

/-- The paths from an element to those with a property. -/
def pathsTo (x : α) (p : α → Prop) : Set (List Nat) :=
  {path | ∃ y, pathEnd? children x path = some y ∧ p y}

/-- The paths with less than a number of places, each in front of those that go on from its end. -/
def paths : (depth : Nat) → α → List (List Nat)
  | 0, _ => []
  | depth + 1, x =>
    [] :: (children x).zipIdx.flatMap fun child => (paths depth child.1).map (child.2 :: ·)

/-- The loop between two turns: the elements still to take, the last of them first, and those listed
so far. -/
structure LoopState (α : Type) where
  stack : List α
  listed : List α

/-- One turn takes the last element off the stack, lists it and pushes its children in reverse. -/
def turn (state : LoopState α) : LoopState α :=
  match state.stack.getLast? with
  | none => state
  | some x => ⟨state.stack.dropLast ++ (children x).reverse, state.listed ++ [x]⟩

def afterTurns (turns : Nat) (x : α) : LoopState α := (turn children)^[turns] ⟨[x], []⟩

variable {children}

/-! ### Depth without cycles -/

/- By the number of elements: the first one is not below itself, so what lies below a child is to be
   found among the others. -/
theorem within_card [DecidableEq α] (hacyclic : ∀ y, ¬ Relation.TransGen (Child children) y y)
    (xs : Finset α) {x : α} (hxs : ∀ y, Relation.ReflTransGen (Child children) x y → y ∈ xs) :
    Within children xs.card x := by
  have hx := hxs x .refl
  generalize hd : xs.card = d
  induction d generalizing xs x with
  | zero =>
    rw [Finset.card_eq_zero.mp hd] at hx
    exact absurd hx (Finset.notMem_empty x)
  | succ d ih =>
    intro y hy
    have hbelow : ∀ z, Relation.ReflTransGen (Child children) y z → z ∈ xs.erase x := by
      intro z hz
      have hne : z ≠ x := by
        intro he
        apply hacyclic x
        exact .head' hy (he ▸ hz)
      exact Finset.mem_erase.mpr ⟨hne, hxs z (.head hy hz)⟩
    have hcard : (xs.erase x).card = d := by
      rw [Finset.card_erase_of_mem hx]
      omega
    exact ih (xs.erase x) hbelow (hbelow y .refl) hcard

/- The recursive equation has no other solution, since below an element every path ends. -/
theorem eq_upTo {f : α → List α} (hf : ∀ x, f x = x :: (children x).flatMap f) {d : Nat} {x : α}
    (hw : Within children d x) : f x = upTo children d x := by
  induction d generalizing x with
  | zero => exact False.elim hw
  | succ d ih =>
    rw [hf, upTo]
    apply congrArg (x :: ·)
    exact List.flatMap_congr fun y hy => ih (hw y hy)

/-! ### One path for each element of the pre-order -/

theorem paths_nodup (d : Nat) (x : α) : (paths children d x).Nodup := by
  induction d generalizing x with
  | zero => exact List.nodup_nil
  | succ d ih =>
    rw [paths, List.nodup_cons, List.nodup_flatMap]
    refine ⟨?_, ?_, ?_⟩
    · intro hmem
      obtain ⟨child, -, hpath⟩ := List.mem_flatMap.mp hmem
      obtain ⟨path, -, hcons⟩ := List.mem_map.mp hpath
      cases hcons
    · intro child _
      exact (ih child.1).map List.cons_injective
    · -- two places differ, and so do the paths that start with them
      have hplaces := List.nodup_zipIdx_map_snd (children x)
      apply (List.pairwise_map.mp hplaces).imp
      intro a b hne path ha hb
      obtain ⟨rest, -, rfl⟩ := List.mem_map.mp ha
      obtain ⟨rest', -, hcons⟩ := List.mem_map.mp hb
      exact hne (List.cons.inj hcons).1.symm

theorem mem_paths_iff {d : Nat} {x : α} (hw : Within children d x) (path : List Nat) :
    path ∈ paths children d x ↔ ∃ y, pathEnd? children x path = some y := by
  induction d generalizing x path with
  | zero => exact False.elim hw
  | succ d ih =>
    cases path with
    | nil => exact iff_of_true (List.mem_cons_self ..) ⟨x, rfl⟩
    | cons place path =>
      have hmem : place :: path ∈ paths children (d + 1) x ↔
          ∃ y, (children x)[place]? = some y ∧ path ∈ paths children d y := by
        simp [paths, List.mem_zipIdx_iff_getElem?]
      simp only [hmem, pathEnd?, Option.bind_eq_some_iff]
      constructor
      · intro hfirst
        obtain ⟨y, hy, hpath⟩ := hfirst
        obtain ⟨z, hz⟩ := (ih (hw y (List.mem_of_getElem? hy)) path).mp hpath
        exact ⟨z, y, hy, hz⟩
      · intro hfirst
        obtain ⟨z, y, hy, hz⟩ := hfirst
        exact ⟨y, hy, (ih (hw y (List.mem_of_getElem? hy)) path).mpr ⟨z, hz⟩⟩

/-- The pre-order comes to the end of each path, one after the other. -/
theorem map_pathEnd?_paths (d : Nat) (x : α) :
    (paths children d x).map (pathEnd? children x) = (upTo children d x).map some := by
  induction d generalizing x with
  | zero => rfl
  | succ d ih =>
    have hchild : ∀ child ∈ (children x).zipIdx,
        ((paths children d child.1).map (child.2 :: ·)).map (pathEnd? children x) =
          (upTo children d child.1).map some := by
      intro child hmem
      have hplace : (children x)[child.2]? = some child.1 := List.mem_zipIdx_iff_getElem?.mp hmem
      rw [← ih child.1, List.map_map]
      apply List.map_congr_left
      intro path _
      simp [pathEnd?, hplace]
    have hsiblings : (children x).flatMap (upTo children d) =
        (children x).zipIdx.flatMap fun child => upTo children d child.1 := by
      rw [← List.flatMap_map Prod.fst, List.zipIdx_map_fst]
    rw [paths, upTo, List.map_cons, List.map_cons, List.map_flatMap, hsiblings, List.map_flatMap,
      List.flatMap_congr hchild]
    rfl

theorem encard_pathsTo {d : Nat} {x : α} (hw : Within children d x) (p : α → Bool) :
    (pathsTo children x fun y => p y = true).encard = (upTo children d x).countP p := by
  have hset : pathsTo children x (fun y => p y = true) =
      ↑((paths children d x).filter fun path => (pathEnd? children x path).any p).toFinset := by
    ext path
    rw [List.coe_toFinset, Set.mem_ofPred_eq, List.mem_filter, mem_paths_iff hw,
      Option.any_eq_true]
    constructor
    · intro hto
      obtain ⟨y, hy, hp⟩ := hto
      exact ⟨⟨y, hy⟩, y, hy, hp⟩
    · intro hto
      exact hto.2
  have hends : ((paths children d x).map (pathEnd? children x)).countP (Option.any p) =
      ((upTo children d x).map some).countP (Option.any p) := by
    rw [map_pathEnd?_paths]
  rw [List.countP_map, List.countP_map] at hends
  rw [hset, Set.encard_coe_eq_coe_finsetCard,
    List.toFinset_card_of_nodup ((paths_nodup d x).filter _), ← List.countP_eq_length_filter]
  exact congrArg Nat.cast hends

/-! ### One turn for each element of the pre-order -/

theorem turn_nil (listed : List α) : turn children ⟨[], listed⟩ = ⟨[], listed⟩ := rfl

theorem turn_concat (stack : List α) (x : α) (listed : List α) :
    turn children ⟨stack ++ [x], listed⟩ =
      ⟨stack ++ (children x).reverse, listed ++ [x]⟩ := by
  simp [turn]

/-- After this many turns the loop has listed so much of the pre-order, and the rest of it are the
pre-orders of the elements on the stack. -/
structure Lists (children : α → List α) (d : Nat) (x : α) (turns : Nat) (state : LoopState α) :
    Prop where
  within : ∀ y ∈ state.stack, Within children d y
  listed : state.listed = (upTo children d x).take turns
  ahead : state.stack.reverse.flatMap (upTo children d) = (upTo children d x).drop turns

theorem Lists.turn {d turns : Nat} {x : α} {state : LoopState α}
    (h : Lists children d x turns state) : Lists children d x (turns + 1) (turn children state) := by
  obtain ⟨stack, listed⟩ := state
  obtain ⟨hwithin, hlisted, hahead⟩ := h
  simp only at hwithin hlisted hahead
  have hnext : (upTo children d x).drop (turns + 1) = ((upTo children d x).drop turns).tail :=
    List.tail_drop.symm
  have hone : (upTo children d x).take (turns + 1) =
      (upTo children d x).take turns ++ ((upTo children d x).drop turns).head?.toList := by
    rw [List.head?_drop, List.take_add_one]
  rw [← hahead] at hnext hone
  rcases List.eq_nil_or_concat stack with rfl | ⟨below, y, rfl⟩
  · rw [turn_nil]
    exact ⟨hwithin, hlisted.trans (hone.trans (List.append_nil _)).symm, hnext.symm⟩
  · -- the last element is listed, and its children stand in for what lies below it
    rw [List.concat_eq_append] at hwithin hnext hone ⊢
    have hy : Within children d y := hwithin y (List.mem_append_right _ (List.mem_singleton_self y))
    rw [List.reverse_concat, flatMap_upTo_cons hy] at hnext hone
    rw [turn_concat]
    refine ⟨?_, ?_, ?_⟩
    · intro z hz
      rcases List.mem_append.mp hz with hbelow | hchild
      · exact hwithin z (List.mem_append_left _ hbelow)
      · exact within_child hy (List.mem_reverse.mp hchild)
    · rw [hone, hlisted]
      rfl
    · rw [hnext, List.reverse_append, List.reverse_reverse]
      rfl

theorem lists_afterTurns {d : Nat} {x : α} (hw : Within children d x) (turns : Nat) :
    Lists children d x turns (afterTurns children turns x) := by
  induction turns with
  | zero => exact ⟨List.forall_mem_singleton.mpr hw, rfl, List.flatMap_singleton ..⟩
  | succ turns ih =>
    rw [afterTurns, Function.iterate_succ_apply']
    exact ih.turn

theorem stack_afterTurns_eq_nil_iff {d : Nat} {x : α} (hw : Within children d x) (turns : Nat) :
    (afterTurns children turns x).stack = [] ↔ (upTo children d x).length ≤ turns := by
  have h := lists_afterTurns hw turns
  rw [← List.drop_eq_nil_iff, ← h.ahead]
  constructor
  · intro hnil
    rw [hnil]
    rfl
  · -- an element on the stack would be in its own pre-order
    intro hnothing
    apply List.eq_nil_iff_forall_not_mem.mpr
    intro y hy
    have hself := mem_upTo_self (h.within y hy)
    rw [List.flatMap_eq_nil_iff.mp hnothing y (List.mem_reverse.mpr hy)] at hself
    cases hself

end SuiteView.Preorder
