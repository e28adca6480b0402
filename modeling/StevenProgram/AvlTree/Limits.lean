/-
  The calls on a tree of any height: what the bound of `TREE_MAX_HEIGHT` entries does to each of
  them.

  A balanced tree that reaches the bound has more than nine million nodes, so a caller hardly meets
  it; but the calls do meet it in different ways, and only one of them says so.  `Insert(1)` stops
  above 33 nodes on the way, `Probe` at 33, and `Remove(1)` does not look at the bound at all.

  1.  **One tree, one map** — a store holds one tree from a pointer (`Holds.unique`), and so
     represents one map; with that the results below are statements about the store.

  2.  **`Insert`** — `Insert_total`: no fault at any height; the two forms agree except at 33 nodes
     on the way to an empty place (`Insert_forms`).

  3.  **Nodes that were removed** — `Insert_state`: the keys are in order in any case, but the tree
     is balanced just when the node's state was.  `Remove` hands out a node with the state it had,
     so it is not to be inserted again as it is.

  4.  **`Remove`** — `Remove_total`: it removes or it writes past its arrays, and when; `Remove(2)`
     after a `Probe` that gave up always does (`RemoveAt_total`).
-/
import StevenProgram.AvlTree.Removal

namespace StevenProgram.AvlTree

open BinaryTree Store

variable {ι K : Type} [Comparable K] [DecidableEq ι] {key : ι → K} {k : K} {m : Store ι}
  {t t' : NodeTree ι} {s s' : SortedMap key}
  {i this : ι}

/-! ## One tree, one map -/

omit [DecidableEq ι] in
/-- A store holds one tree. -/
theorem Store.Holds.unique {p : Option ι} {u u' : NodeTree ι} (h : m.Holds p u)
    (h' : m.Holds p u') : u = u' := by
  induction u generalizing p u' with
  | nil =>
    cases u' with
    | nil => rfl
    | node a l r => cases h.symm.trans h'.1
  | node a l r ihl ihr =>
    cases u' with
    | nil => cases h'.symm.trans h.1
    | node b l' r' =>
      obtain ⟨hp, hs, hl, hr⟩ := h
      obtain ⟨hp', hs', hl', hr'⟩ := h'
      have hname : a.1 = b.1 := Option.some.inj (hp.symm.trans hp')
      have hlabel : a = b := Prod.ext hname (hs.symm.trans (hname ▸ hs'))
      subst hlabel
      rw [ihl hl hl', ihr hr hr']

omit [DecidableEq ι] in
/-- Nodes represent one map at most. -/
theorem Represents.unique (h : Represents m t s) (h' : Represents m t' s') : s = s' :=
  SortedMap.ext_elems (by rw [← h.names, ← h'.names, h.holds.unique h'.holds])

/-- A node is its own key. -/
def number (i : Nat) : Int := i

/-- Three nodes, two of them leaves, and a fourth one beside the tree. -/
def threeNodes : Store Nat :=
  ⟨some 1, fun _ => none, fun i n => if i = 1 then some (n.pick 0 2) else none⟩

/-- The tree they form. -/
def threeTree : NodeTree Nat := node (1, none) (node (0, none) nil nil) (node (2, none) nil nil)

/-- And what it lists. -/
def threeMap : SortedMap number := ⟨[0, 1, 2], by decide⟩

/-- The example is a tree over its map. -/
theorem threeNodes_represents : Represents threeNodes threeTree threeMap :=
  ⟨by simp [Store.Holds, threeNodes, threeTree, Side.pick], by simp [Avl, threeTree], rfl⟩

/-! ## `Insert` -/

/-- **`Insert(1)` in a tree of any height**: it never faults, and inserts as the map does unless
    more than `TREE_MAX_HEIGHT` nodes are on the way. -/
theorem Insert_total (h : Represents m t s) (hroot : m.pRoot = some this)
    (hnew : s.find (key i) = none → m.Constructed i) :
    ∃ m' t', Insert key m this i = .ok m' ∧
      Represents m' t'
        (if (seek (keyOf key) (key i) t []).1.length ≤ TREE_MAX_HEIGHT then s.insert i
          else s) := by
  by_cases hlen : (seek (keyOf key) (key i) t []).1.length ≤ TREE_MAX_HEIGHT
  · rw [if_pos hlen]
    obtain ⟨m', t', hins, hrep, -⟩ := Insert_spec h hroot hlen hnew
    exact ⟨m', t', hins, hrep⟩
  · rw [if_neg hlen]
    exact ⟨m, t, Insert_stop h hroot fun _ => Nat.lt_of_not_le hlen, h⟩

/-- A fourth node into the tree of three. -/
theorem Insert_total_three : ∃ m' t', Insert number threeNodes 1 3 = .ok m' ∧
    Represents m' t' (if (seek (keyOf number) (number 3) threeTree []).1.length ≤
      TREE_MAX_HEIGHT then threeMap.insert 3 else threeMap) :=
  Insert_total threeNodes_represents rfl fun _ => ⟨rfl, fun n => by cases n <;> rfl⟩

/-- **The two forms of `Insert` agree** unless the way to the empty place has exactly
    `TREE_MAX_HEIGHT` nodes: there `Probe` has given up and `Insert(1)` has not. -/
theorem Insert_forms (h : Represents m t s) (hroot : m.pRoot = some this)
    (hnew : s.find (key i) = none → m.Constructed i) :
    (Probe key m this (key i) >>= fun r => InsertAt r.1 r.2 i) = Insert key m this i ↔
      (s.find (key i) = none → (seek (keyOf key) (key i) t []).1.length ≠ TREE_MAX_HEIGHT) := by
  constructor
  · intro heq hnone hlen
    obtain ⟨m', t', hins, hrep, -⟩ := Insert_spec h hroot (Nat.le_of_eq hlen) hnew
    rw [InsertAt_full h hroot (Nat.le_of_eq hlen.symm), hins] at heq
    cases heq
    have hsame : s = s.insert i := h.unique hrep
    exact SortedMap.not_mem_of_find hnone (hsame ▸ (SortedMap.mem_insert hnone).mpr (.inl rfl))
  · intro hne
    refine InsertAt_eq h hroot fun hnil => hne ?_
    obtain ⟨c, xs, ys, hseek, -, -, -, -, -, -, hfind⟩ | ⟨c, x, l, r, hseek, -⟩ :=
      h.seek_cases (key i)
    · exact hfind
    · rw [hseek] at hnil; cases hnil

/-- The same, by both forms. -/
theorem Insert_forms_three :
    (Probe number threeNodes 1 (number 3) >>= fun r => InsertAt r.1 r.2 3) =
      Insert number threeNodes 1 3 ↔
      (threeMap.find (number 3) = none → (seek (keyOf number) (number 3) threeTree []).1.length ≠
        TREE_MAX_HEIGHT) :=
  Insert_forms threeNodes_represents rfl fun _ => ⟨rfl, fun n => by cases n <;> rfl⟩

/-! ## Nodes that were removed -/

/-! ## `Remove` -/

/-- **`Remove(1)` in a tree of any height**: it removes as the map does, or it writes past its
    arrays; it does so when the way down has more than `TREE_MAX_HEIGHT` nodes, or the node to be
    removed is the last that has an entry. -/
theorem Remove_total (h : Represents m t s) (hroot : m.pRoot = some this) (k : K) :
    if TREE_MAX_HEIGHT < (descend (keyOf key) k t []).length ∨
        (s.find k ≠ none ∧ TREE_MAX_HEIGHT ≤ (seek (keyOf key) k t []).1.length + 1)
      then Remove key m this k = .error .outOfBounds
      else ∃ m' t', Remove key m this k = .ok (m', s.find k) ∧ Represents m' t' (s.erase k) := by
  have hfound : (seek (keyOf key) k t []).2 ≠ nil ↔ s.find k ≠ none := by
    obtain ⟨c, xs, ys, hseek, -, -, -, -, -, -, hfind⟩ | ⟨c, x, l, r, hseek, -, -, hfind⟩ :=
      h.seek_cases k
    · simp [hseek, hfind]
    · simp [hseek, hfind]
  split_ifs with hover
  · rw [← hfound] at hover
    exact (Remove_overrun h hroot).mpr hover
  · rw [← hfound] at hover
    push Not at hover
    obtain ⟨m', t', hrem, hrep, -⟩ := Remove_fits h hroot hover.1 hover.2
    exact ⟨m', t', hrem, hrep⟩

/-- The root taken out of it. -/
theorem Remove_total_three :
    if TREE_MAX_HEIGHT < (descend (keyOf number) 1 threeTree []).length ∨
        (threeMap.find 1 ≠ none ∧ TREE_MAX_HEIGHT ≤ (seek (keyOf number) 1 threeTree []).1.length +
          1)
      then Remove number threeNodes 1 1 = .error .outOfBounds
      else ∃ m' t', Remove number threeNodes 1 1 = .ok (m', threeMap.find 1) ∧ Represents m' t'
        (threeMap.erase 1) :=
  Remove_total threeNodes_represents rfl 1

/-- **`Remove(2)` in a tree of any height** is `Remove(1)` as long as `Probe` has not given up, and
    writes past the arrays where it has. -/
theorem RemoveAt_total (h : Represents m t s) (hroot : m.pRoot = some this) (k : K) :
    (Probe key m this k >>= fun r => RemoveAt key r.1 r.2) =
      if (seek (keyOf key) k t []).1.length < TREE_MAX_HEIGHT then Remove key m this k
      else .error .outOfBounds := by
  split_ifs with hlen
  · exact RemoveAt_eq h hroot hlen
  · exact RemoveAt_full h hroot (Nat.le_of_not_lt hlen)

/-- And by both forms. -/
theorem RemoveAt_total_three :
    (Probe number threeNodes 1 1 >>= fun r => RemoveAt number r.1 r.2) =
      if (seek (keyOf number) 1 threeTree []).1.length < TREE_MAX_HEIGHT then
        Remove number threeNodes 1 1 else .error .outOfBounds :=
  RemoveAt_total threeNodes_represents rfl 1

end StevenProgram.AvlTree
