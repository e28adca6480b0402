/-
  What the debug checks tell.

  `GetHeight` is the number of edges on the longest way down and `CalcBalance` the difference of the
  subtrees' heights (`GetHeight_spec`, `CalcBalance_spec`), both by induction on the tree.

  1.  **Heights** — the two functions read a child field, or take a default where it is `NULL`;
     `ifNode_spec` says that once.

  2.  **Order** — `ChildOrder`: every node is above its left child and below its right one.  That is
     less than the order of the whole tree: a grandchild may stand on the wrong side of its
     grandparent and pass.

  3.  **The check** — `CheckIntegrity` accepts a tree exactly when its stored balances are the
     actual ones and every node is in order with its children (`CheckIntegrity_spec`).  A tree that
     represents a map passes (`Represents.integrity`); for a search tree the check decides the
     balances, and for any other tree it says no more than that (`CheckIntegrity_decides`).
-/
import StevenProgram.AvlTree.Insertion

namespace StevenProgram.AvlTree

open BinaryTree Store

variable {ι K : Type} [Comparable K] {key : ι → K} {m : Store ι} {t u l r : NodeTree ι}
  {s : SortedMap key} {a : ι × Option Side}
  {p : Option ι} {i this : ι} {fuel : Nat}

/-! ## Heights -/

@[simp] theorem ifNode_none {β : Type} (f : ι → Run β) (d : β) : ifNode none f d = .ok d := rfl
@[simp] theorem ifNode_some {β : Type} (f : ι → Run β) (d : β) : ifNode (some i) f d = f i := rfl

/-- What is computed of a child field, from what holds of each tree. -/
theorem ifNode_spec {β : Type} {f : ι → Run β} {d : β} {P : NodeTree ι → β → Prop} (h : m.Holds p u)
    (hd : P nil d)
    (hf : ∀ i, m.Holds (some i) u → ∃ b, f i = .ok b ∧ P u b) : ∃ b, ifNode p f d = .ok b ∧
    P u b := by
  cases p with
  | none =>
    have hnil : u = nil := h.eq_none.mp rfl
    subst hnil
    exact ⟨d, rfl, hd⟩
  | some i => exact hf i h

/-- The height of what a child field holds. -/
theorem ifNode_height (h : m.Holds p u)
    (hrec : ∀ i, m.Holds (some i) u → GetHeight m fuel i = .ok ((u.height : Int) - 1)) :
    ifNode p (fun i => do return (← GetHeight m fuel i) + 1) 0 = .ok (u.height : Int) := by
  obtain ⟨x, hx, rfl⟩ := ifNode_spec (f := fun i => do return (← GetHeight m fuel i) + 1)
    (P := fun u x => x = (u.height : Int)) h rfl
    fun i hi => ⟨_, by rw [hrec i hi, Run.ok_bind]; rfl, Int.sub_add_cancel _ _⟩
  exact hx

/-- `GetHeight` counts edges: it is one below the height of the tree. -/
theorem GetHeight_spec (h : m.Holds (some i) t) (hfuel : t.height ≤ fuel) :
    GetHeight m fuel i = .ok ((t.height : Int) - 1) := by
  induction fuel generalizing i t with
  | zero =>
    have hnil : t = nil := height_eq_zero.mp (by omega)
    subst hnil
    cases h
  | succ fuel ih =>
    cases t with
    | nil => cases h
    | node a l r =>
      obtain ⟨hi, -, hl, hr⟩ := h
      cases hi
      rw [height] at hfuel
      rw [GetHeight, ifNode_height hl fun i hi => ih hi (by omega), Run.ok_bind,
        ifNode_height hr fun i hi => ih hi (by omega), Run.ok_bind]
      refine congrArg Except.ok ?_
      rw [height]
      split <;> omega

/-- `CalcBalance` is the difference of the heights, the right one first. -/
theorem CalcBalance_spec (h : m.Holds (some a.1) (node a l r)) (hl : l.height ≤ fuel)
    (hr : r.height ≤ fuel) :
    CalcBalance m fuel a.1 = .ok ((r.height : Int) - l.height) := by
  rw [CalcBalance, ifNode_height h.2.2.1 fun i hi => GetHeight_spec hi hl, Run.ok_bind,
    ifNode_height h.2.2.2 fun i hi => GetHeight_spec hi hr, Run.ok_bind]
  rfl

/-! ## Order -/

/-- The node at the root. -/
def rootName : NodeTree ι → Option ι
  | nil => none
  | node a _ _ => some a.1

/-- The pointer to a tree is the name of its root. -/
theorem Store.Holds.root (h : m.Holds p t) : p = rootName t := by
  cases t with
  | nil => exact h
  | node a l r => exact h.1

/-- Every node is above its left child and below its right one. -/
def ChildOrder (key : ι → K) : NodeTree ι → Prop
  | nil => True
  | node a l r => (∀ i ∈ rootName l, key i < key a.1) ∧ (∀ i ∈ rootName r, key a.1 < key i) ∧
      ChildOrder key l ∧ ChildOrder key r

/-- The root is a node of the tree. -/
theorem mem_rootName (h : i ∈ rootName t) : i ∈ t.names := by
  cases t with
  | nil => cases h
  | node a l r => cases h; simp [names]

/-- A search tree is in order at every node. -/
theorem childOrder_of_sorted (h : t.names.Pairwise fun i j => key i < key j) :
    ChildOrder key t := by
  induction t with
  | nil => trivial
  | node a l r ihl ihr =>
    have hsplit : (node a l r).names = l.names ++ a.1 :: r.names := by simp [names]
    rw [hsplit, List.pairwise_append, List.pairwise_cons] at h
    obtain ⟨hl, ⟨hright, hr⟩, hleft⟩ := h
    exact ⟨fun i hi => hleft i (mem_rootName hi) _ (List.mem_cons_self ..),
      fun i hi => hright i (mem_rootName hi), ihl hl, ihr hr⟩

/-! ## The check -/

/-- The comparison with the stored balance. -/
theorem balance_iff (b : Option Side) (x y : Nat) :
    (if (y : Int) - x = -1 then b == some .left
      else if (y : Int) - x = 0 then b == none
      else if (y : Int) - x = 1 then b == some .right
      else false) = true ↔ Leans .left b x y := by
  rcases b with _ | d
  · rw [leans_none]
    split_ifs <;> simp <;> omega
  · cases d
    · rw [leans_same]
      split_ifs <;> simp <;> omega
    · rw [show Side.right = Side.left.other from rfl, leans_other]
      split_ifs <;> simp [Side.other] <;> omega

/-- The sign of `CompareTo`, the other way round. -/
theorem compareTo_pos (x y : K) : CompareTo x y > 0 ↔ y < x := by
  rcases lt_trichotomy x y with h | h | h
  · have := (Comparable.neg_iff x y).mpr h
    exact ⟨fun hpos => absurd hpos (by omega), fun hlt => absurd hlt (lt_asymm h)⟩
  · have := (Comparable.zero_iff x y).mpr h
    exact ⟨fun hpos => absurd hpos (by omega), fun hlt => absurd hlt (h ▸ lt_irrefl x)⟩
  · have hne := mt (Comparable.zero_iff x y).mp (ne_of_gt h)
    have hnlt := mt (Comparable.neg_iff x y).mp (lt_asymm h)
    exact ⟨fun _ => h, fun _ => by omega⟩

/-- **`CheckIntegrity` decides** the stored balances and the order between parents and children.  By
    induction on the tree: the comparisons at the root, its balance against the heights of the two
    subtrees, and the check of each of them. -/
theorem CheckIntegrity_spec (key : ι → K) (h : m.Holds (some this) t) (hfuel : t.height ≤ fuel) :
    ∃ b, CheckIntegrity key m fuel this = .ok b ∧ (b = true ↔ t.Avl ∧ ChildOrder key t) := by
  induction fuel generalizing this t with
  | zero =>
    have hnil : t = nil := height_eq_zero.mp (by omega)
    subst hnil
    cases h
  | succ fuel ih =>
    cases t with
    | nil => cases h
    | node a l r =>
      have hthis : this = a.1 := Option.some.inj h.1
      subst hthis
      obtain ⟨-, hstate, hl, hr⟩ := id h
      rw [height] at hfuel
      obtain ⟨bl, hbl, hbl'⟩ := ifNode_spec (P := fun u b => b = true ↔ u.Avl ∧ ChildOrder key u) hl
        (iff_of_true rfl ⟨trivial, trivial⟩)
        fun i hi => ih hi (by omega)
      obtain ⟨br, hbr, hbr'⟩ := ifNode_spec (P := fun u b => b = true ↔ u.Avl ∧ ChildOrder key u) hr
        (iff_of_true rfl ⟨trivial, trivial⟩)
        fun i hi => ih hi (by omega)
      obtain ⟨cl, hcl, hcl'⟩ := ifNode_spec (d := true)
        (P := fun u b => b = true ↔ ∀ i ∈ rootName u, key i < key a.1) hl (by simp [rootName])
        fun i hi => ⟨decide (CompareTo (key a.1) (key i) > 0), rfl,
          by rw [← hi.root]; simp [compareTo_pos]⟩
      obtain ⟨cr, hcr, hcr'⟩ := ifNode_spec (d := true)
        (P := fun u b => b = true ↔ ∀ i ∈ rootName u, key a.1 < key i) hr (by simp [rootName])
        fun i hi => ⟨decide (CompareTo (key a.1) (key i) < 0), rfl,
          by rw [← hi.root]; simp [Comparable.neg_iff]⟩
      rw [CheckIntegrity, hcl, Run.ok_bind, hcr, Run.ok_bind,
        CalcBalance_spec h (by omega) (by omega), Run.ok_bind]
      dsimp only
      rw [hbl, Run.ok_bind, hbr, Run.ok_bind]
      refine ⟨_, rfl, ?_⟩
      rw [Bool.and_eq_true, Bool.and_eq_true, Bool.and_eq_true, Bool.and_eq_true, hbl', hbr', hcl',
        hcr', hstate, balance_iff]
      simp only [Avl, ChildOrder]
      tauto

/-- **What `CheckIntegrity` tells about any tree**: the balances and the order of parents and
    children, no less and no more; for a search tree, the balances. -/
theorem CheckIntegrity_decides (key : ι → K) (h : m.Holds (some this) t) (hfuel : t.height ≤ fuel) :
    ∃ b, CheckIntegrity key m fuel this = .ok b ∧ (b = true ↔ t.Avl ∧ ChildOrder key t) ∧
      ((t.names.Pairwise fun i j => key i < key j) → (b = true ↔ t.Avl)) := by
  obtain ⟨b, hb, hiff⟩ := CheckIntegrity_spec key h hfuel
  refine ⟨b, hb, hiff, fun hsorted => ?_⟩
  rw [hiff, and_iff_left (childOrder_of_sorted hsorted)]

/-- A tree that leans and says so. -/
theorem CheckIntegrity_decides_two :
    ∃ b, CheckIntegrity (fun i : Fin 2 => (i.val : Int))
    ⟨some 0, fun i => if i = 0 then some .right else none,
        fun i n => if i = 0 ∧ n = .right then some 1 else none⟩ 2 0 = .ok b ∧
      (b = true ↔ (node (0, some .right) nil (node (1, none) nil nil) : NodeTree (Fin 2)).Avl ∧
        ChildOrder (fun i : Fin 2 => (i.val : Int))
        (node (0, some .right) nil (node (1, none) nil nil))) ∧
      (((node (0, some .right) nil (node (1, none) nil nil) : NodeTree (Fin 2)).names.Pairwise
        fun i j => (i.val : Int) < (j.val : Int)) →
        (b = true ↔ (node (0, some .right) nil (node (1, none) nil nil) : NodeTree (Fin 2)).Avl)) :=
  CheckIntegrity_decides _ (by simp [Store.Holds]) (by decide)

/-- **A tree that represents a map passes.** -/
theorem Represents.integrity (h : Represents m t s) (hroot : m.pRoot = some this)
    (hfuel : t.height ≤ fuel) :
    CheckIntegrity key m fuel this = .ok true := by
  obtain ⟨b, hb, hiff⟩ := CheckIntegrity_spec key (hroot ▸ h.holds : m.Holds (some this) t) hfuel
  have hb' : b = true := hiff.mpr ⟨h.avl, childOrder_of_sorted (by rw [h.names]; exact s.sorted)⟩
  rw [hb, hb']

end StevenProgram.AvlTree
