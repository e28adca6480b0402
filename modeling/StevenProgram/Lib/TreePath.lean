/-
  Binary trees with a hole, and the way to it.

  An algorithm that walks down a tree, changes it at the end of its way and walks back is a
  computation on the way: `seek` collects it, the change is made in the hole, and `plug` puts the
  tree together again.  The nodes of the way are the stack of such an algorithm, the innermost
  first.

  1.  **Sides** — `Side`, `BinaryTree.on`: a node with one subtree on a side and the other opposite,
     so that what holds for both directions is said once.  A statement about `on d a t u` for every
     `d` is two statements about `node`.
  2.  **In order** — `inorder`, and what a node on a side contributes to it.
  3.  **Paths** — a list of `Frame`s, the innermost first, is a tree with a hole; `plug` fills it.
     What stands in front of the hole and behind it (`before`, `after`) does not depend on what is
     in it (`inorder_plug`): this is how a change in the hole becomes a change in the middle of a
     list.
  4.  **Searching** — `seek` walks to a key or to the hole where it belongs.  `plug_seek` says that
     it loses nothing, `seek_split` that the keys in front of where it ends are smaller and those
     behind are larger, by an induction on the tree that carries both bounds along the path.
     `descend` goes on to an empty place: below a tree of smaller keys it has met the last node
     (`descend_last`), which is how the predecessor of a node is found.

  Lengths of paths (`seek_length`, `descend_length`) bound the stack by the height of the tree.
-/
import Mathlib.Data.Tree.Basic
import Mathlib.Data.List.Pairwise
import Mathlib.Order.Lattice

/-- The two directions at a node. -/
inductive Side where
  | left
  | right
  deriving DecidableEq, Repr

namespace Side

/-- The opposite direction. -/
def other : Side → Side
  | left => right
  | right => left

/-- The opposite of the opposite. -/
@[simp] theorem other_other (d : Side) : d.other.other = d := by cases d <;> rfl
@[simp] theorem other_ne (d : Side) : d.other ≠ d := by cases d <;> decide
@[simp] theorem ne_other (d : Side) : d ≠ d.other := by cases d <;> decide
theorem eq_or_other (d e : Side) : e = d ∨ e = d.other := by cases d <;> cases e <;> decide

/-- The one of two on a side. -/
def pick {β : Type} : Side → β → β → β
  | left, l, _ => l
  | right, _, r => r

end Side

namespace BinaryTree

variable {α : Type} {a : α} {d : Side} {t u : BinaryTree α}

/-! ## Sides -/

/-- The node `a` with `t` on the side `d` and `u` on the other. -/
def on : Side → α → BinaryTree α → BinaryTree α → BinaryTree α
  | .left, a, t, u => node a t u
  | .right, a, t, u => node a u t

/-- A node seen from the other side has its subtrees the other way round. -/
theorem on_other (d : Side) (a : α) (t u : BinaryTree α) : on d.other a t u = on d a u t := by
  cases d <;> rfl

/-- A node is not the empty tree, from whichever side it is put together. -/
@[simp] theorem on_ne_nil : on d a t u ≠ nil := by cases d <;> simp [on]

/-- A tree that is not empty, seen from a side. -/
theorem exists_on (d : Side) (h : t ≠ nil) : ∃ a x y, t = on d a x y := by
  cases t with
  | nil => exact absurd rfl h
  | node a l r =>
    cases d with
    | left => exact ⟨a, l, r, rfl⟩
    | right => exact ⟨a, r, l, rfl⟩

/-- The height does not depend on the side a node is seen from. -/
@[simp] theorem height_on : (on d a t u).height = max t.height u.height + 1 := by
  cases d
  · rfl
  · simp [on, Nat.max_comm]

/-- Nor does the number of nodes. -/
@[simp] theorem numNodes_on : (on d a t u).numNodes = t.numNodes + u.numNodes + 1 := by
  cases d
  · rfl
  · simp [on, Nat.add_comm]

/-- Only the empty tree has no height. -/
theorem height_eq_zero : t.height = 0 ↔ t = nil := by cases t <;> simp

/-- The root label, the subtree on a side and the one opposite. -/
def split : Side → BinaryTree α → Option (α × BinaryTree α × BinaryTree α)
  | _, nil => none
  | .left, node a l r => some (a, l, r)
  | .right, node a l r => some (a, r, l)

/-- There is nothing to take apart in the empty tree. -/
@[simp] theorem split_nil : split d (nil : BinaryTree α) = none := by cases d <;> rfl
@[simp] theorem split_on : split d (on d a t u) = some (a, t, u) := by cases d <;> rfl

/-! ## In order

  The list a tree stands for.  A search tree is one whose `inorder` has increasing keys; nothing
  here needs more of a tree than that. -/

/-- The labels from left to right. -/
def inorder : BinaryTree α → List α
  | nil => []
  | node a l r => l.inorder ++ a :: r.inorder

/-- The empty tree stands for the empty list. -/
@[simp] theorem inorder_nil : (nil : BinaryTree α).inorder = [] := rfl
@[simp] theorem inorder_node (a : α) (l r : BinaryTree α) :
    (node a l r).inorder = l.inorder ++ a :: r.inorder := rfl

/-- Every node is visited once. -/
theorem length_inorder : ∀ t : BinaryTree α, t.inorder.length = t.numNodes
  | nil => rfl
  | node a l r => by simp [length_inorder l, length_inorder r]; omega

/-! ## Paths

  A frame holds what a step down leaves behind: the side that was taken, the label and the subtree
  opposite. -/

/-- A node on the way to a hole: the side the hole is on, the label, and the subtree opposite. -/
structure Frame (α : Type) where
  side : Side
  label : α
  sibling : BinaryTree α

/-- The tree with `t` in the hole. -/
def plug : List (Frame α) → BinaryTree α → BinaryTree α
  | [], t => t
  | f :: c, t => plug c (on f.side f.label t f.sibling)

/-- Without a path the hole is the whole. -/
@[simp] theorem plug_nil : plug [] t = t := rfl
@[simp] theorem plug_cons (f : Frame α) (c : List (Frame α)) :
    plug (f :: c) t = plug c (on f.side f.label t f.sibling) := rfl

/-- A long path is filled from the inside. -/
theorem plug_append (c c' : List (Frame α)) (t : BinaryTree α) :
    plug (c ++ c') t = plug c' (plug c t) := by
  induction c generalizing t with
  | nil => rfl
  | cons f c ih => exact ih _

/-- What stands in front of the hole. -/
def before : List (Frame α) → List α
  | [] => []
  | ⟨.left, _, _⟩ :: c => before c
  | ⟨.right, a, s⟩ :: c => before c ++ (s.inorder ++ [a])

/-- What stands behind it. -/
def after : List (Frame α) → List α
  | [] => []
  | ⟨.left, a, s⟩ :: c => a :: s.inorder ++ after c
  | ⟨.right, _, _⟩ :: c => after c

/-- **A path fixes what comes before and behind the tree in its hole.** By induction on the path,
    which at each frame adds its label and its sibling on the outer side. -/
theorem inorder_plug (c : List (Frame α)) (t : BinaryTree α) :
    (plug c t).inorder = before c ++ t.inorder ++ after c := by
  induction c generalizing t with
  | nil => simp [before, after]
  | cons f c ih =>
    obtain ⟨d, a, s⟩ := f
    rw [plug_cons, ih]
    cases d <;> simp [on, before, after]

/-- The outer part of a path comes first on the left of the hole. -/
theorem before_append (c c' : List (Frame α)) : before (c ++ c') = before c' ++ before c := by
  induction c with
  | nil => simp [before]
  | cons f c ih =>
    obtain ⟨d, a, s⟩ := f
    cases d <;> simp [before, ih]

/-- And last on the right of it. -/
theorem after_append (c c' : List (Frame α)) : after (c ++ c') = after c ++ after c' := by
  induction c with
  | nil => rfl
  | cons f c ih =>
    obtain ⟨d, a, s⟩ := f
    cases d <;> simp [after, ih]

/-- Every frame of the path adds at least one to the height, so a path is no longer than the tree is
    high. -/
theorem height_le_plug (c : List (Frame α)) (t : BinaryTree α) :
    c.length + t.height ≤ (plug c t).height := by
  induction c generalizing t with
  | nil => simp
  | cons f c ih =>
    have h := ih (on f.side f.label t f.sibling)
    rw [height_on] at h
    rw [plug_cons, List.length_cons]
    omega

/-- A tree of the same height in the hole leaves the height of the whole. -/
theorem height_plug_congr {t' : BinaryTree α} (c : List (Frame α)) (h : t'.height = t.height) :
    (plug c t').height = (plug c t).height := by
  induction c generalizing t t' with
  | nil => exact h
  | cons f c ih =>
    refine ih ?_
    rw [height_on, height_on, h]

/-! ## Searching

  `seek` stops at the key and `descend` goes past it.  Both take the same step at every other node
  (`seek_step`, `descend_step`), written with `towards` so that a proof about the step needs no case
  split on the order. -/

section Seek

variable {K : Type} [LinearOrder K] (key : α → K) (k : K)

/-- From the tree in the hole of `c`: to the node with key `k`, or to the empty place where it
    belongs. -/
def seek : BinaryTree α → List (Frame α) → List (Frame α) × BinaryTree α
  | nil, c => (c, nil)
  | node a l r, c =>
    if key a = k then (c, node a l r)
    else if key a < k then seek r (⟨.right, a, l⟩ :: c)
    else seek l (⟨.left, a, r⟩ :: c)

/-- The side of a node on which the key is looked for. -/
def towards (a : α) : Side := if key a < k then .right else .left

variable {key k}

/-- The search stops at the key. -/
theorem seek_found {l r : BinaryTree α} (c : List (Frame α)) (h : key a = k) :
    seek key k (node a l r) c = (c, node a l r) := by
  rw [seek, if_pos h]

/-- At another key it goes on towards the one it looks for, with one more frame on its path. -/
theorem seek_step (l r : BinaryTree α) (c : List (Frame α)) (h : key a ≠ k) :
    seek key k (node a l r) c =
    seek key k ((towards key k a).pick l r)
    (⟨towards key k a, a, (towards key k a).other.pick l r⟩ :: c) := by
  rw [seek, if_neg h]
  by_cases hlt : key a < k
  · rw [if_pos hlt, towards, if_pos hlt]; rfl
  · rw [if_neg hlt, towards, if_neg hlt]; rfl

variable (key k) in
/-- **The search loses nothing**: its path and what it ends at make up the tree it began with, by
    induction on the tree with the path so far. -/
theorem plug_seek (t : BinaryTree α) (c : List (Frame α)) :
    plug (seek key k t c).1 (seek key k t c).2 = plug c t := by
  induction t generalizing c with
  | nil => rfl
  | node a l r ihl ihr =>
    rw [seek]
    split_ifs
    · rfl
    · exact ihr _
    · exact ihl _

variable (key k) in
/-- A search goes no deeper than the tree. -/
theorem seek_length (t : BinaryTree α) :
    (seek key k t []).1.length + (seek key k t []).2.height ≤ t.height := by
  have h := height_le_plug (seek key k t []).1 (seek key k t []).2
  rwa [plug_seek] at h

variable (key k) in
/-- The search ends at a node with the key or at an empty place, and nowhere else. -/
theorem seek_ends (t : BinaryTree α) (c : List (Frame α)) :
    (seek key k t c).2 = nil ∨ ∃ a l r, (seek key k t c).2 = node a l r ∧ key a = k := by
  induction t generalizing c with
  | nil => exact .inl rfl
  | node a l r ihl ihr =>
    rw [seek]
    split_ifs with ha
    · exact .inr ⟨a, l, r, rfl, ha⟩
    · exact ihr _
    · exact ihl _

/-- Where no node has the key, the search ends at an empty place. -/
theorem seek_absent {t : BinaryTree α} (h : ∀ a ∈ t.inorder, key a ≠ k) (c : List (Frame α)) :
    (seek key k t c).2 = nil := by
  induction t generalizing c with
  | nil => rfl
  | node a l r ihl ihr =>
    rw [seek, if_neg (h a (by simp))]
    split_ifs
    · exact ihr (fun b hb => h b (by simp [hb])) _
    · exact ihl (fun b hb => h b (by simp [hb])) _

/-- In a tree in order, what stands in front of the place has smaller keys and what stands behind it
    has larger ones.  By induction on the tree: a step to the right puts the node and its left
    subtree in front, and both have smaller keys than the node on the other side of them; and the
    same for a step to the left. -/
theorem seek_split {t : BinaryTree α} {c : List (Frame α)}
    (hsorted : t.inorder.Pairwise fun a b => key a < key b)
    (hbefore : ∀ a ∈ before c, key a < k) (hafter : ∀ a ∈ after c, k < key a) :
    (∀ a ∈ before (seek key k t c).1, key a < k) ∧ ∀ a ∈ after (seek key k t c).1, k < key a := by
  induction t generalizing c with
  | nil => exact ⟨hbefore, hafter⟩
  | node a l r ihl ihr =>
    rw [inorder_node, List.pairwise_append, List.pairwise_cons] at hsorted
    obtain ⟨hl, ⟨har, hr⟩, hla⟩ := hsorted
    rw [seek]
    split_ifs with ha hlt
    · exact ⟨hbefore, hafter⟩
    · refine ihr hr (fun b hb => ?_) hafter
      rcases List.mem_append.mp hb with hb | hb
      · exact hbefore b hb
      · rcases List.mem_append.mp hb with hb | hb
        · exact lt_trans (hla b hb a (List.mem_cons_self ..)) hlt
        · exact List.mem_singleton.mp hb ▸ hlt
    · have hka : k < key a := lt_of_le_of_ne (not_lt.mp hlt) (Ne.symm ha)
      refine ihl hl hbefore (fun b hb => ?_)
      rcases List.mem_append.mp hb with hb | hb
      · rcases List.mem_cons.mp hb with rfl | hb
        · exact hka
        · exact lt_trans hka (har b hb)
      · exact hafter b hb

variable (key k) in
/-- The path only grows. -/
theorem length_le_seek (t : BinaryTree α) (c : List (Frame α)) :
    c.length ≤ (seek key k t c).1.length := by
  induction t generalizing c with
  | nil => exact Nat.le_refl _
  | node a l r ihl ihr =>
    by_cases ha : key a = k
    · exact Nat.le_of_eq (by rw [seek_found c ha])
    · rw [seek_step l r c ha]
      refine Nat.le_trans (Nat.le_succ _) ?_
      cases towards key k a
      · exact ihl (⟨.left, a, r⟩ :: c)
      · exact ihr (⟨.right, a, l⟩ :: c)

/-- A search that goes on ends deeper. -/
theorem length_lt_seek {l r : BinaryTree α} (c : List (Frame α)) (h : key a ≠ k) :
    c.length < (seek key k (node a l r) c).1.length := by
  rw [seek_step l r c h]
  exact length_le_seek key k _ (⟨_, _, _⟩ :: c)

variable (key k) in
/-- All the way down: past a node with the key to the left. -/
def descend : BinaryTree α → List (Frame α) → List (Frame α)
  | nil, c => c
  | node a l r, c => if key a < k then descend r (⟨.right, a, l⟩ :: c) else descend l
      (⟨.left, a, r⟩ :: c)

/-- The descent does not stop at the key; it takes its left side there. -/
theorem descend_step (l r : BinaryTree α) (c : List (Frame α)) : descend key k (node a l r) c =
    descend key k ((towards key k a).pick l r)
    (⟨towards key k a, a, (towards key k a).other.pick l r⟩ :: c) := by
  rw [descend]
  by_cases hlt : key a < k
  · rw [if_pos hlt, towards, if_pos hlt]; rfl
  · rw [if_neg hlt, towards, if_neg hlt]; rfl

variable (key k) in
/-- A descent adds no more frames than the tree is high. -/
theorem descend_length (t : BinaryTree α) (c : List (Frame α)) :
    (descend key k t c).length ≤ c.length + t.height := by
  induction t generalizing c with
  | nil => exact Nat.le_refl _
  | node a l r ihl ihr =>
    rw [descend]
    split_ifs
    · refine Nat.le_trans (ihr _) ?_
      simp only [List.length_cons, height]
      omega
    · refine Nat.le_trans (ihl _) ?_
      simp only [List.length_cons, height]
      omega

variable (key k) in
/-- The path of a descent only grows, too. -/
theorem length_le_descend (t : BinaryTree α) (c : List (Frame α)) :
    c.length ≤ (descend key k t c).length := by
  induction t generalizing c with
  | nil => exact Nat.le_refl _
  | node a l r ihl ihr =>
    rw [descend_step]
    refine Nat.le_trans (Nat.le_succ _) ?_
    cases towards key k a
    · exact ihl (⟨.left, a, r⟩ :: c)
    · exact ihr (⟨.right, a, l⟩ :: c)

/-- The descent goes where the search goes, and on from the node it finds, through the left subtree
    of it. -/
theorem descend_seek (t : BinaryTree α) (c : List (Frame α)) : descend key k t c =
    match (seek key k t c).2 with
    | nil => (seek key k t c).1
    | node a l r => descend key k l (⟨.left, a, r⟩ :: (seek key k t c).1) := by
  induction t generalizing c with
  | nil => rfl
  | node a l r ihl ihr =>
    rw [descend, seek]
    split_ifs with hlt ha ha
    · exact absurd hlt (ha ▸ lt_irrefl _)
    · exact ihr _
    · rfl
    · exact ihl _

/-- The descent through a tree of smaller keys ends at its last node: it takes the right side
    throughout, and the last frame is a node with no right subtree.  By induction on the tree, where
    it is not empty. -/
theorem descend_last {t : BinaryTree α} (h : ∀ a ∈ t.inorder, key a < k) (ht : t ≠ nil)
    (c : List (Frame α)) :
    ∃ c' a l, t = plug c' (node a l nil) ∧ after c' = [] ∧ descend key k t c = ⟨.right, a, l⟩ ::
      (c' ++ c) := by
  induction t generalizing c with
  | nil => exact absurd rfl ht
  | node a l r _ ihr =>
    have ha : key a < k := h a (by simp)
    cases hr : r with
    | nil => exact ⟨[], a, l, rfl, rfl, by rw [descend, if_pos ha]; rfl⟩
    | node b rl rr =>
      obtain ⟨c', x, y, hc, hafter, hd⟩ := ihr (fun b hb => h b (by simp [hb])) (by simp [hr])
        (⟨.right, a, l⟩ :: c)
      refine ⟨c' ++ [⟨.right, a, l⟩], x, y, ?_, ?_, ?_⟩
      · rw [plug_append, ← hc, hr]; rfl
      · rw [after_append, hafter]; rfl
      · rw [descend, if_pos ha, ← hr, hd, List.append_assoc]; rfl

end Seek

end BinaryTree
