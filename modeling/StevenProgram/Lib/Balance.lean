/-
  Height-balanced binary trees that store their balance.

  A label is a name and the side its node leans to, `none` where the two subtrees have one height.
  `Avl` says that every stored balance is the actual one, so no two siblings differ by more than 1.
  An algorithm that keeps such a tree reads the stored balances only, never a height; what it does
  after a change is a walk back along its path, and here that walk is a function of the path and of
  what is in its hole.

  1.  **`Avl`** — at a node seen from a side (`avl_on`), under a hole (`avl_of_plug`, `avl_plug`),
     and what it says about the size: by `fib_le_numNodes` a tree of height `h` has at least as many
     nodes as the Fibonacci tree, which bounds the path of every search.
  2.  **`names`** — what a tree holds, without the balances; rebalancing changes the balances and
     the shape, never the names.
  3.  **Rotating** — `rotateUp` lifts the subtree on one side, once or twice.  `rotateUp_cases`
     gives its three shapes; `rotateUp_spec`: from a difference of 2 the result is balanced again,
     and its second part says whether the height is the old one.
  4.  **Walking back** — `grow` after the tree in a hole became one higher, `shrink` after it became
     one lower.  The crux is what is known at each frame: the tree in the hole is balanced, its
     height is off by exactly one, and after an insertion its root leans unless it is the new leaf
     (`grow_avl`); this is why an insertion rotates once at most, and a removal may rotate all the
     way up (`shrink_avl`).
  5.  **`WrongLeaf`** — a leaf that says it leans: an insertion of one never ends in a balanced tree
     (`grow_wrongLeaf`), as no case of the walk reads the balance of a leaf it does not lift, and
     lifting it leaves it below (`Hidden`).
-/
import Mathlib.Data.Nat.Fib.Basic
import StevenProgram.Lib.TreePath

namespace BinaryTree

variable {α : Type} {a : α} {d : Side} {t u : BinaryTree (α × Option Side)}

/-! ## Balance

  `Leans d b x y` compares the heights on the side `d` and opposite with the stored state, so that
  the cases for left and right are one. -/

/-- The heights of the subtrees on the side `d` and opposite, at a node that leans as `b` says. -/
def Leans (d : Side) : Option Side → Nat → Nat → Prop
  | none, x, y => x = y
  | some e, x, y => if e = d then x = y + 1 else y = x + 1

/-- No state: both sides are equally high. -/
@[simp] theorem leans_none {x y : Nat} : Leans d none x y ↔ x = y := Iff.rfl

/-- The state names the higher side. -/
@[simp] theorem leans_same {x y : Nat} : Leans d (some d) x y ↔ x = y + 1 := by simp [Leans]

/-- Seen from the lower side, the other one is higher. -/
@[simp] theorem leans_other {x y : Nat} : Leans d (some d.other) x y ↔ y = x + 1 := by simp [Leans]

/-- Leaning does not depend on the side it is told from. -/
theorem leans_swap {b : Option Side} {x y : Nat} : Leans d.other b x y ↔ Leans d b y x := by
  cases b with
  | none => exact eq_comm
  | some e => cases d <;> cases e <;> simp [Leans, Side.other]

/-- The three ways a node can lean, seen from a side. -/
theorem lean_cases (d : Side) {b : Option Side} (hnone : b ≠ none) (hother : b ≠ some d.other) :
    b = some d := by
  cases b with
  | none => exact absurd rfl hnone
  | some e =>
    rcases Side.eq_or_other d e with rfl | rfl
    · rfl
    · exact absurd rfl hother

/-- The stored balances are the actual ones. -/
def Avl : BinaryTree (α × Option Side) → Prop
  | nil => True
  | node a l r => Leans .left a.2 l.height r.height ∧ Avl l ∧ Avl r

/-- A single balanced node. -/
theorem avl_leaf (a : α) : (node (a, none) nil nil).Avl := ⟨rfl, trivial, trivial⟩

/-- The AVL property of a node, told from either side. -/
theorem avl_on {b : Option Side} : (on d (a, b) t u).Avl ↔ Leans d b t.height u.height ∧ t.Avl ∧
    u.Avl := by
  cases d
  · exact Iff.rfl
  · show Leans .left b u.height t.height ∧ u.Avl ∧ t.Avl ↔ _
    rw [show Side.left = Side.right.other from rfl, leans_swap, and_comm (a := u.Avl)]

/-- What hangs in an AVL tree is one. -/
theorem avl_of_plug (c : List (Frame (α × Option Side))) (h : (plug c t).Avl) : t.Avl := by
  induction c generalizing t with
  | nil => exact h
  | cons f c ih => exact (avl_on.mp (ih h)).2.1

/-- A tree of the same height in the hole. -/
theorem avl_plug {t' : BinaryTree (α × Option Side)} (c : List (Frame (α × Option Side)))
    (h : (plug c t).Avl) (ht' : t'.Avl)
    (hheight : t'.height = t.height) : (plug c t').Avl := by
  induction c generalizing t t' with
  | nil => exact ht'
  | cons f c ih =>
    obtain ⟨hlean, _, hs⟩ := avl_on.mp (avl_of_plug c h)
    refine ih h (avl_on.mpr ⟨by rw [hheight]; exact hlean, ht', hs⟩) ?_
    rw [height_on, height_on, hheight]

/-- **A balanced tree is not high**: of height `h`, it has at least as many nodes as the Fibonacci
    tree.  By induction on the tree: of the two subtrees one has height `h - 1` and the other at
    least `h - 2`. -/
theorem fib_le_numNodes {t : BinaryTree (α × Option Side)} (h : t.Avl) :
    Nat.fib (t.height + 2) ≤ t.numNodes + 1 := by
  induction t with
  | nil => simp
  | node a l r ihl ihr =>
    obtain ⟨hlean, hl, hr⟩ := h
    have hbig :
      ∀ x y : BinaryTree (α × Option Side), x.height = y.height ∨ x.height = y.height + 1 →
        Nat.fib (x.height + 2) ≤ x.numNodes + 1 → Nat.fib (y.height + 2) ≤ y.numNodes + 1 →
        Nat.fib (max x.height y.height + 1 + 2) ≤ x.numNodes + y.numNodes + 1 + 1 := by
      intro x y hxy hx hy
      rw [max_eq_left (by omega), show x.height + 1 + 2 = x.height + 1 + 1 + 1 from rfl,
        Nat.fib_add_two]
      have hmono : Nat.fib (x.height + 1) ≤ Nat.fib (y.height + 2) := Nat.fib_mono (by omega)
      have hx' : Nat.fib (x.height + 1 + 1) ≤ x.numNodes + 1 := hx
      omega
    obtain ⟨name, b⟩ := a
    rw [height, numNodes]
    rcases b with _ | d
    · exact hbig l r (.inl hlean) (ihl hl) (ihr hr)
    · cases d with
      | left => exact hbig l r (.inr (leans_same.mp hlean)) (ihl hl) (ihr hr)
      | right =>
        have hlean : r.height = l.height + 1 := (leans_other (d := .left)).mp hlean
        have h := hbig r l (.inr hlean) (ihr hr) (ihl hl)
        rw [max_comm, Nat.add_comm l.numNodes]
        exact h

/-! ## Names -/

/-- What the tree holds, in order. -/
def names (t : BinaryTree (α × Option Side)) : List α := t.inorder.map Prod.fst

@[simp] theorem names_nil : (nil : BinaryTree (α × Option Side)).names = [] := rfl

/-- A path fixes the names before and behind the tree in its hole. -/
theorem names_plug (c : List (Frame (α × Option Side))) (t : BinaryTree (α × Option Side)) :
    (plug c t).names = (before c).map Prod.fst ++ t.names ++ (after c).map Prod.fst := by
  simp [names, inorder_plug]

/-- The same names in the hole leave the names of the whole. -/
theorem names_plug_congr {t' : BinaryTree (α × Option Side)} (c : List (Frame (α × Option Side)))
    (h : t'.names = t.names) :
    (plug c t').names = (plug c t).names := by rw [names_plug, names_plug, h]

/-- States are no names. -/
theorem names_on (b b' : Option Side) (t u : BinaryTree (α × Option Side)) :
    (on d (a, b) t u).names = (on d (a, b') t u).names := by
  cases d <;> simp [on, names]

/-! ## Rotating

  Everything a rotation does is written from a side: `d` is the side of the higher subtree. -/

/-- The way the root leans. -/
def tilt : BinaryTree (α × Option Side) → Option Side
  | nil => none
  | node a _ _ => a.2

/-- The state of a node, from whichever side it is put together. -/
@[simp] theorem tilt_on {a : α × Option Side} : (on d a t u).tilt = a.2 := by cases d <;> rfl

/-- Lift the subtree `t` on the side `d` of `a` over it, if it has a root, and a root of its own on
    the inner side where it leans that way.  The second part says whether the whole is higher than
    `t`, which is so where `t` did not lean. -/
def rotateUp (d : Side) (a : α × Option Side) (t u : BinaryTree (α × Option Side)) :
    Option (BinaryTree (α × Option Side) × Bool) :=
  match split d t with
  | none => none
  | some ((c, sc), x, y) =>
    if sc = some d.other then
      match split d y with
      | none => none
      | some ((g, sg), p, q) =>
        some (on d (g, none) (on d (c, if sg = some d.other then some d else none) x p)
          (on d (a.1, if sg = some d then some d.other else none) q u), false)
    else if sc = none then some (on d (c, some d.other) x (on d a y u), true)
    else some (on d (c, none) x (on d (a.1, none) y u), false)

/-- **The double rotation**: the inner grandchild comes up, and its state says which of the two
    below it is left leaning. -/
theorem rotateUp_inner (c g : α) (sg : Option Side) (a : α × Option Side)
    (x p q u : BinaryTree (α × Option Side)) :
    rotateUp d a (on d (c, some d.other) x (on d (g, sg) p q)) u =
      some (on d (g, none) (on d (c, if sg = some d.other then some d else none) x p)
        (on d (a.1, if sg = some d then some d.other else none) q u), false) := by
  simp [rotateUp]

/-- Where the child stood even, a removal was the cause: a single rotation that leaves the height as
    it was. -/
theorem rotateUp_even (c : α) (a : α × Option Side) (x y u : BinaryTree (α × Option Side)) :
    rotateUp d a (on d (c, none) x y) u = some (on d (c, some d.other) x (on d a y u), true) := by
  simp [rotateUp]

/-- The single rotation: both nodes stand even after it. -/
theorem rotateUp_outer (c : α) (a : α × Option Side) (x y u : BinaryTree (α × Option Side)) :
    rotateUp d a (on d (c, some d) x y) u =
      some (on d (c, none) x (on d (a.1, none) y u), false) := by
  simp [rotateUp]

/-- The three shapes a rotation takes. -/
theorem rotateUp_cases {a : α × Option Side} {r : BinaryTree (α × Option Side) × Bool}
    (h : rotateUp d a t u = some r) :
    (∃ c x y, t = on d (c, none) x y ∧ r = (on d (c, some d.other) x (on d a y u), true)) ∨
    (∃ c x y, t = on d (c, some d) x y ∧ r = (on d (c, none) x (on d (a.1, none) y u), false)) ∨
    ∃ c x g sg p q, t = on d (c, some d.other) x (on d (g, sg) p q) ∧
      r = (on d (g, none) (on d (c, if sg = some d.other then some d else none) x p)
        (on d (a.1, if sg = some d then some d.other else none) q u), false) := by
  by_cases hnil : t = nil
  · rw [hnil, rotateUp, split_nil] at h
    cases h
  obtain ⟨⟨c, sc⟩, x, y, rfl⟩ := exists_on d hnil
  by_cases hnone : sc = none
  · subst hnone
    rw [rotateUp_even] at h
    exact .inl ⟨c, x, y, rfl, (Option.some.inj h).symm⟩
  by_cases hinner : sc = some d.other
  · subst hinner
    by_cases hy : y = nil
    · simp [rotateUp, hy] at h
    obtain ⟨⟨g, sg⟩, p, q, rfl⟩ := exists_on d hy
    rw [rotateUp_inner] at h
    exact .inr (.inr ⟨c, x, g, sg, p, q, rfl, (Option.some.inj h).symm⟩)
  · obtain rfl := lean_cases d hnone hinner
    rw [rotateUp_outer] at h
    exact .inr (.inl ⟨c, x, y, rfl, (Option.some.inj h).symm⟩)

/-- A rotation keeps the order. -/
theorem names_rotateUp {a : α × Option Side} {r : BinaryTree (α × Option Side) × Bool}
    (h : rotateUp d a t u = some r) :
    r.1.names = (on d a t u).names := by
  obtain ⟨c, x, y, rfl, rfl⟩ | ⟨c, x, y, rfl, rfl⟩ | ⟨c, x, g, sg, p, q, rfl, rfl⟩ :=
    rotateUp_cases h
  · cases d <;> simp [on, names]
  · cases d <;> simp [on, names]
  · cases d <;> simp [on, names]

/-- **A rotation balances** a node whose subtree `t` is higher by 2.  The three shapes of
    `rotateUp_cases`, in each of which the heights of the parts are known up to the state of the
    inner grandchild; the height of the result is that of `t`, or one more where `t` was even. -/
theorem rotateUp_spec (ht : t.Avl) (hu : u.Avl) (h : t.height = u.height + 2) :
    ∃ r, rotateUp d (a, some d) t u = some r ∧ r.1.Avl ∧
    r.1.height = (if r.2 then t.height + 1 else t.height) ∧
      (r.2 = true → t.tilt = none) := by
  obtain ⟨⟨c, sc⟩, x, y, rfl⟩ := exists_on d (t := t) (fun hnil => by simp [hnil] at h)
  obtain ⟨hlean, hx, hy⟩ := avl_on.mp ht
  rw [height_on] at h
  by_cases hnone : sc = none
  · subst hnone
    rw [leans_none] at hlean
    refine ⟨_, rotateUp_even .., ?_, ?_, fun _ => tilt_on⟩
    · exact avl_on.mpr ⟨leans_other.mpr (by rw [height_on]; omega), hx,
        avl_on.mpr ⟨leans_same.mpr (by omega), hy, hu⟩⟩
    · rw [if_pos rfl, height_on, height_on, height_on]; omega
  by_cases hinner : sc = some d.other
  · -- the inner subtree is the higher one: it has a root, which comes to the top
    subst hinner
    rw [leans_other] at hlean
    obtain ⟨⟨g, sg⟩, p, q, rfl⟩ := exists_on d (t := y) (fun hnil => by simp [hnil] at hlean)
    obtain ⟨hg, hp, hq⟩ := avl_on.mp hy
    rw [height_on] at hlean h
    refine ⟨_, rotateUp_inner .., ?_, ?_, fun hstop => Bool.noConfusion hstop⟩
    · rcases sg with _ | e
      · rw [leans_none] at hg
        simp only [avl_on, height_on, reduceCtorEq, if_false, leans_none]
        refine ⟨?_, ⟨?_, hx, hp⟩, ?_, hq, hu⟩ <;> omega
      · rcases Side.eq_or_other d e with rfl | rfl
        · rw [leans_same] at hg
          simp only [avl_on, height_on, Option.some.injEq, Side.ne_other, if_false, if_true,
            leans_none, leans_other]
          refine ⟨?_, ⟨?_, hx, hp⟩, ?_, hq, hu⟩ <;> omega
        · rw [leans_other] at hg
          simp only [avl_on, height_on, Option.some.injEq, Side.other_ne, if_false, if_true,
            leans_none, leans_same]
          refine ⟨?_, ⟨?_, hx, hp⟩, ?_, hq, hu⟩ <;> omega
    · have hpq : max p.height q.height = u.height := by omega
      simp only [height_on, Bool.false_eq_true, if_false]
      omega
  · obtain rfl := lean_cases d hnone hinner
    rw [leans_same] at hlean
    refine ⟨_, rotateUp_outer .., ?_, ?_, fun hstop => Bool.noConfusion hstop⟩
    · exact avl_on.mpr ⟨leans_none.mpr (by rw [height_on]; omega), hx,
        avl_on.mpr ⟨leans_none.mpr (by omega), hy, hu⟩⟩
    · simp only [height_on, Bool.false_eq_true, if_false]
      omega

/-! ## Walking back

  The frames are the nodes above the change, the innermost first.  Each call looks at one frame, and
  stops where the height of what is below it is the old one again. -/

/-- Up from a hole whose tree became one higher: a node that did not lean leans now and the walk
    goes on, one that leaned the other way is balanced, and at one that leaned this way a rotation
    takes the height back. -/
def grow :
    List (Frame (α × Option Side)) → BinaryTree (α × Option Side) →
      Option (BinaryTree (α × Option Side))
  | [], t => some t
  | ⟨d, (a, b), s⟩ :: c, t =>
    if b = none then grow c (on d (a, some d) t s)
    else if b = some d.other then some (plug c (on d (a, none) t s))
    else (rotateUp d (a, b) t s).map fun r => plug c r.1

/-- Up from a hole whose tree became one lower: a node that did not lean leans away from it, one
    that leaned this way is balanced and lower, and at one that leaned the other way a rotation
    lifts the sibling. -/
def shrink :
    List (Frame (α × Option Side)) → BinaryTree (α × Option Side) →
      Option (BinaryTree (α × Option Side))
  | [], t => some t
  | ⟨d, (a, b), s⟩ :: c, t =>
    if b = none then some (plug c (on d (a, some d.other) t s))
    else if b = some d then shrink c (on d (a, none) t s)
    else (rotateUp d.other (a, b) s t).bind fun r => if r.2 then some (plug c r.1) else shrink c r.1

/-- Rebalancing after an insertion changes no name: a step of the walk either changes a state or is
    a rotation. -/
theorem names_grow {c : List (Frame (α × Option Side))} {t t' : BinaryTree (α × Option Side)}
    (h : grow c t = some t') :
    t'.names = (plug c t).names := by
  induction c generalizing t with
  | nil => rw [← Option.some.inj h]; rfl
  | cons f c ih =>
    obtain ⟨d, ⟨a, b⟩, s⟩ := f
    rw [grow] at h
    rw [plug_cons]
    split_ifs at h
    · rw [ih h]; exact names_plug_congr c (names_on _ _ _ _)
    · rw [← Option.some.inj h]; exact names_plug_congr c (names_on _ _ _ _)
    · obtain ⟨r, hr, rfl⟩ := Option.map_eq_some_iff.mp h
      exact names_plug_congr c (names_rotateUp hr)

/-- Nor does rebalancing after a removal. -/
theorem names_shrink {c : List (Frame (α × Option Side))} {t t' : BinaryTree (α × Option Side)}
    (h : shrink c t = some t') :
    t'.names = (plug c t).names := by
  induction c generalizing t with
  | nil => rw [← Option.some.inj h]; rfl
  | cons f c ih =>
    obtain ⟨d, ⟨a, b⟩, s⟩ := f
    rw [shrink] at h
    rw [plug_cons]
    split_ifs at h
    · rw [← Option.some.inj h]; exact names_plug_congr c (names_on _ _ _ _)
    · rw [ih h]; exact names_plug_congr c (names_on _ _ _ _)
    · obtain ⟨r, hr, h⟩ := Option.bind_eq_some_iff.mp h
      have hrot : r.1.names = (on d (a, b) t s).names := by rw [names_rotateUp hr, on_other]
      split_ifs at h
      · rw [← Option.some.inj h]; exact names_plug_congr c hrot
      · rw [ih h]; exact names_plug_congr c hrot

/-- **After an insertion** the walk back balances the tree.  By induction on the path.  A frame that
    did not lean grows with its subtree, leans towards it, and the walk goes on with the same
    hypotheses; one that leaned away is even now, and the height above is the old one; at one that
    leaned this way the subtree is too high by 2, and as it leans itself the rotation gives the old
    height back. -/
theorem grow_avl {t' : BinaryTree (α × Option Side)} (c : List (Frame (α × Option Side)))
    (h : (plug c t).Avl) (ht' : t'.Avl)
    (hheight : t'.height = t.height + 1) (htilt : t'.tilt = none → t'.height = 1) :
    ∃ t'', grow c t' = some t'' ∧ t''.Avl := by
  induction c generalizing t t' with
  | nil => exact ⟨t', rfl, ht'⟩
  | cons f c ih =>
    obtain ⟨d, ⟨a, b⟩, s⟩ := f
    have h : (plug c (on d (a, b) t s)).Avl := h
    obtain ⟨hlean, ht, hs⟩ := avl_on.mp (avl_of_plug c h)
    rw [grow]
    by_cases hnone : b = none
    · subst hnone
      rw [leans_none] at hlean
      rw [if_pos rfl]
      refine ih h (avl_on.mpr ⟨leans_same.mpr (by omega), ht', hs⟩) ?_ (fun htilt => ?_)
      · rw [height_on, height_on]; omega
      · rw [tilt_on] at htilt; exact absurd htilt (Option.some_ne_none d)
    by_cases hother : b = some d.other
    · subst hother
      rw [leans_other] at hlean
      rw [if_neg hnone, if_pos rfl]
      refine ⟨_, rfl, avl_plug c h (avl_on.mpr ⟨leans_none.mpr (by omega), ht', hs⟩) ?_⟩
      rw [height_on, height_on]; omega
    · obtain rfl := lean_cases d hnone hother
      rw [leans_same] at hlean
      rw [if_neg hnone, if_neg hother]
      obtain ⟨r, hr, havl, hh, hstop⟩ := rotateUp_spec (a := a) (d := d) ht' hs (by omega)
      have hgoes : r.2 = false := by
        by_contra hr2
        have := htilt (hstop (Bool.not_eq_false _ ▸ hr2))
        omega
      rw [hr]
      refine ⟨_, rfl, avl_plug c h havl ?_⟩
      rw [hh, hgoes, height_on]
      simp only [Bool.false_eq_true, if_false]
      omega

/-- **After a removal** the walk back balances the tree.  By induction on the path: the cases are
    those of `grow_avl` from the other side, but a rotation may leave the subtree lower, and then
    the walk goes on above it. -/
theorem shrink_avl {t' : BinaryTree (α × Option Side)} (c : List (Frame (α × Option Side)))
    (h : (plug c t).Avl) (ht' : t'.Avl)
    (hheight : t'.height + 1 = t.height) : ∃ t'', shrink c t' = some t'' ∧ t''.Avl := by
  induction c generalizing t t' with
  | nil => exact ⟨t', rfl, ht'⟩
  | cons f c ih =>
    obtain ⟨d, ⟨a, b⟩, s⟩ := f
    have h : (plug c (on d (a, b) t s)).Avl := h
    obtain ⟨hlean, ht, hs⟩ := avl_on.mp (avl_of_plug c h)
    rw [shrink]
    by_cases hnone : b = none
    · subst hnone
      rw [leans_none] at hlean
      rw [if_pos rfl]
      refine ⟨_, rfl, avl_plug c h (avl_on.mpr ⟨leans_other.mpr (by omega), ht', hs⟩) ?_⟩
      rw [height_on, height_on]; omega
    by_cases hsame : b = some d
    · subst hsame
      rw [leans_same] at hlean
      rw [if_neg hnone, if_pos rfl]
      refine ih h (avl_on.mpr ⟨leans_none.mpr (by omega), ht', hs⟩) ?_
      rw [height_on, height_on]; omega
    · have hother : b = some d.other := lean_cases d.other hnone (by rwa [Side.other_other])
      subst hother
      rw [leans_other] at hlean
      rw [if_neg hnone, if_neg hsame]
      obtain ⟨r, hr, havl, hh, _⟩ := rotateUp_spec (a := a) (d := d.other) hs ht' (by omega)
      rw [hr, Option.bind_some]
      split_ifs with hstop
      · refine ⟨_, rfl, avl_plug c h havl ?_⟩
        rw [hh, if_pos hstop, height_on]; omega
      · refine ih h havl ?_
        rw [hh, if_neg hstop, height_on]; omega

/-! ## A leaf that says it leans -/

/-- Somewhere there is a leaf with a balance of its own. -/
def WrongLeaf (t : BinaryTree (α × Option Side)) : Prop :=
  ∃ (c : List (Frame (α × Option Side))) (x : α) (e : Side), t = plug c (node (x, some e) nil nil)

/-- A leaf that says it leans is enough to spoil the tree. -/
theorem not_avl_of_wrongLeaf (h : t.WrongLeaf) : ¬t.Avl := by
  obtain ⟨c, x, e, rfl⟩ := h
  intro havl
  have hlean := (avl_of_plug c havl).1
  cases e <;> simp [Leans] at hlean

/-- It spoils every tree it hangs in. -/
theorem wrongLeaf_plug (c : List (Frame (α × Option Side))) (h : t.WrongLeaf) :
    (plug c t).WrongLeaf := by
  obtain ⟨c', x, e, rfl⟩ := h
  exact ⟨c' ++ c, x, e, (plug_append c' c _).symm⟩

/-- On the one side of a node. -/
theorem wrongLeaf_on (a : α × Option Side) (u : BinaryTree (α × Option Side)) (h : t.WrongLeaf) :
    (on d a t u).WrongLeaf :=
  wrongLeaf_plug [⟨d, a, u⟩] h

/-- And on the other. -/
theorem wrongLeaf_off (a : α × Option Side) (u : BinaryTree (α × Option Side)) (h : t.WrongLeaf) :
    (on d a u t).WrongLeaf := by
  rw [← on_other]
  exact wrongLeaf_on a u h

/-- Below a root that leans to its side: the leaf itself, alone, or a tree in which it is no more
    the root. -/
def Hidden (t : BinaryTree (α × Option Side)) : Prop :=
  ∃ (d : Side) (p : α) (y x : BinaryTree (α × Option Side)), t = on d (p, some d) y x ∧
    ((∃ g e, y = node (g, some e) nil nil ∧ x = nil) ∨ ∃ d' b v w, y = on d' b v w ∧ v.WrongLeaf)

/-- The leaf is there, though rebalancing does not meet it. -/
theorem Hidden.wrongLeaf (h : t.Hidden) : t.WrongLeaf := by
  obtain ⟨d, p, y, x, rfl, ⟨g, e, rfl, -⟩ | ⟨d', b, v, w, rfl, hv⟩⟩ := h
  · exact wrongLeaf_on _ _ ⟨[], g, e, rfl⟩
  · exact wrongLeaf_on _ _ (wrongLeaf_on _ _ hv)

/-- It stays out of sight under a node that leans to its side. -/
theorem Hidden.on (h : t.Hidden) (a : α) (u : BinaryTree (α × Option Side)) :
    (on d (a, some d) t u).Hidden := by
  obtain ⟨d', p, y, x, rfl, ⟨g, e, rfl, -⟩ | ⟨d'', b, v, w, rfl, hv⟩⟩ := h
  · exact ⟨d, a, _, u, rfl, .inr ⟨d', _, _, _, rfl, [], g, e, rfl⟩⟩
  · exact ⟨d, a, _, u, rfl, .inr ⟨d', _, _, _, rfl, wrongLeaf_on _ _ hv⟩⟩

/-- A rotation does not mend it. -/
theorem Hidden.rotateUp {a : α × Option Side} (h : t.Hidden) (hu : t.height = 2 → u = nil) :
    ∃ r, rotateUp d a t u = some r ∧ r.1.WrongLeaf := by
  obtain ⟨d', p, y, x, rfl, hy⟩ := h
  rcases Side.eq_or_other d d' with rfl | rfl
  · refine ⟨_, rotateUp_outer .., ?_⟩
    obtain ⟨g, e, rfl, -⟩ | ⟨d'', b, v, w, rfl, hv⟩ := hy
    · exact wrongLeaf_on _ _ ⟨[], g, e, rfl⟩
    · exact wrongLeaf_on _ _ (wrongLeaf_on _ _ hv)
  · rw [on_other]
    obtain ⟨g, e, rfl, rfl⟩ | ⟨d'', ⟨g, sg⟩, v, w, rfl, hv⟩ := hy
    · -- the leaf comes to the top, and one of its new children is wrong in its place
      have hunil : u = nil := hu (by simp)
      subst hunil
      have hleaf :
        node (g, some e) nil nil = BinaryTree.on d (g, some e) nil
        (nil : BinaryTree (α × Option Side)) := by cases d <;> rfl
      rw [hleaf]
      refine ⟨_, rotateUp_inner .., ?_⟩
      rcases Side.eq_or_other d e with rfl | rfl
      · refine wrongLeaf_off _ _ ⟨[], a.1, e.other, ?_⟩
        cases e <;> simp [BinaryTree.on]
      · refine wrongLeaf_on _ _ ⟨[], p, d, ?_⟩
        cases d <;> simp [BinaryTree.on]
    · rcases Side.eq_or_other d d'' with rfl | rfl
      · exact ⟨_, rotateUp_inner .., wrongLeaf_on _ _ (wrongLeaf_off _ _ hv)⟩
      · rw [on_other]
        exact ⟨_, rotateUp_inner .., wrongLeaf_off _ _ (wrongLeaf_on _ _ hv)⟩

/-- **Rebalancing does not repair it**: whatever the path above, the loop ends with the wrong leaf
    in the tree. -/
theorem Hidden.grow {t' : BinaryTree (α × Option Side)} (c : List (Frame (α × Option Side)))
    (h : (plug c t).Avl) (ht' : t'.Hidden)
    (hheight : t'.height = t.height + 1) : ∃ t'', grow c t' = some t'' ∧ t''.WrongLeaf := by
  induction c generalizing t t' with
  | nil => exact ⟨t', rfl, ht'.wrongLeaf⟩
  | cons f c ih =>
    obtain ⟨d, ⟨a, b⟩, s⟩ := f
    have h : (plug c (BinaryTree.on d (a, b) t s)).Avl := h
    obtain ⟨hlean, -, -⟩ := avl_on.mp (avl_of_plug c h)
    rw [BinaryTree.grow]
    by_cases hnone : b = none
    · subst hnone
      rw [leans_none] at hlean
      rw [if_pos rfl]
      refine ih h (ht'.on a s) ?_
      rw [height_on, height_on]; omega
    by_cases hother : b = some d.other
    · subst hother
      rw [if_neg hnone, if_pos rfl]
      exact ⟨_, rfl, wrongLeaf_plug c (wrongLeaf_on _ _ ht'.wrongLeaf)⟩
    · obtain rfl := lean_cases d hnone hother
      rw [leans_same] at hlean
      rw [if_neg hnone, if_neg hother]
      obtain ⟨r, hr, hwrong⟩ := ht'.rotateUp (d := d) (a := (a, some d)) (u := s) fun h2 =>
        height_eq_zero.mp (by omega)
      rw [hr]
      exact ⟨_, rfl, wrongLeaf_plug c hwrong⟩

/-- **A new leaf with a balance of its own** leaves one behind, wherever the walk ends: at the frame
    above the leaf it is either hidden below a node that leans to its side, or plugged in where it
    stands. -/
theorem grow_wrongLeaf (c : List (Frame (α × Option Side)))
    (h : (plug c (nil : BinaryTree (α × Option Side))).Avl) (x : α) (e : Side) :
    ∃ t', grow c (node (x, some e) nil nil) = some t' ∧ t'.WrongLeaf := by
  cases c with
  | nil => exact ⟨_, rfl, [], x, e, rfl⟩
  | cons f c =>
    obtain ⟨d, ⟨a, b⟩, s⟩ := f
    have h : (plug c (on d (a, b) nil s)).Avl := h
    obtain ⟨hlean, -, -⟩ := avl_on.mp (avl_of_plug c h)
    rw [height] at hlean
    rw [grow]
    by_cases hnone : b = none
    · subst hnone
      rw [leans_none] at hlean
      have hs : s = nil := height_eq_zero.mp hlean.symm
      subst hs
      rw [if_pos rfl]
      refine Hidden.grow c h ⟨d, a, _, _, rfl, .inl ⟨x, e, rfl, rfl⟩⟩ ?_
      simp
    by_cases hother : b = some d.other
    · rw [if_neg hnone, if_pos hother]
      exact ⟨_, rfl, wrongLeaf_plug c (wrongLeaf_on _ _ ⟨[], x, e, rfl⟩)⟩
    · obtain rfl := lean_cases d hnone hother
      rw [leans_same] at hlean
      omega

end BinaryTree
