/-
  The walks: `GetMinNode`, `GetMaxNode`, and `InitTraverse` followed by calls of `Traverse`.

  A traversal is a loop with its caller in the middle: it keeps a stack of the nodes it is still to
  come back to, and nobody may change the tree between two calls.

  1.  **The ends** — `GetPolarNode` goes to the first or the last node in order (`polar`), by
     induction on the tree.

  2.  **`Pending`** — the invariant between two calls: what a traversal still has to return.  Each
     node on its stack comes with its right subtree, and there is room for that subtree above the
     nodes below it, so that no later call can run over the array.  `leftSpine_spec` pushes a
     subtree, `Traverse_spec` takes the first of what is pending.

  3.  **The traversal** — `traverseCalls_spec`: the calls return the contents in order, and `NULL`
     from then on, by induction on the number of calls.
-/
import StevenProgram.AvlTree.Insertion

namespace StevenProgram.AvlTree

open BinaryTree Store

variable {ι K : Type} [Comparable K] {key : ι → K} {m : Store ι} {t : NodeTree ι}
  {s : SortedMap key} {d : Side} {i this : ι}
  {fuel : Nat}

/-! ## The ends -/

/-- The first of a list, or the last. -/
def polar (d : Side) (xs : List ι) : Option ι := d.pick xs.head? xs.getLast?

/-- The end of a node on a side is the end of its subtree there, or itself. -/
theorem polar_on (d : Side) (a : ι × Option Side) (u v : NodeTree ι) :
    polar d (on d a u v).names = some ((polar d u.names).getD a.1) := by
  cases d
  · simp [polar, Side.pick, on, names, List.head?_append]
  · simp [polar, Side.pick, on, names, List.getLast?_append, List.getLast?_cons]

/-- **`GetPolarNode`** goes down one side to its end. -/
theorem GetPolarNode_spec (d : Side) (h : m.Holds (some i) t) (hfuel : t.height ≤ fuel) :
    ∃ x, GetPolarNode m d fuel i = .ok x ∧ polar d t.names = some x := by
  induction fuel generalizing i t with
  | zero =>
    have hnil : t = nil := height_eq_zero.mp (by omega)
    subst hnil
    cases h
  | succ fuel ih =>
    have hne : t ≠ nil := by rintro rfl; cases h
    obtain ⟨⟨j, b⟩, u, v, rfl⟩ := exists_on d hne
    obtain ⟨hi, -, hu, -⟩ := holds_on.mp h
    cases hi
    rw [GetPolarNode, polar_on]
    rw [height_on] at hfuel
    cases hp : m.m_pChild i d with
    | none =>
      have hnil : u = nil := (hp ▸ hu : m.Holds none u).eq_none.mp rfl
      subst hnil
      exact ⟨i, rfl, by cases d <;> rfl⟩
    | some p =>
      obtain ⟨x, hx, hpolar⟩ := ih (hp ▸ hu : m.Holds (some p) u) (by omega)
      exact ⟨x, hx, by rw [hpolar]; rfl⟩

/-! ## What is still to come -/

/-- A traversal with this stack still has to return `xs`. -/
def Pending (m : Store ι) : List ι → List ι → Prop
  | [], xs => xs = []
  | i :: stack, xs => ∃ (r : NodeTree ι) (ys : List ι), m.Holds (m.m_pChild i .right) r ∧
      stack.length + r.height ≤ TREE_MAX_HEIGHT ∧
      Pending m stack ys ∧ xs = i :: (r.names ++ ys)

/-- The way down the left side puts the subtree on the stack, with its names before what was
    pending.  By induction on the tree: the left spine is what comes first of it. -/
theorem leftSpine_spec {stack ys : List ι} (h : m.Holds (some i) t) (hfuel : t.height ≤ fuel)
    (hroom : stack.length + t.height ≤ TREE_MAX_HEIGHT)
    (hys : Pending m stack ys) : ∃ stack', leftSpine m fuel stack i = .ok stack' ∧ Pending m stack'
      (t.names ++ ys) := by
  induction fuel generalizing i t stack ys with
  | zero =>
    have hnil : t = nil := height_eq_zero.mp (by omega)
    subst hnil
    cases h
  | succ fuel ih =>
    cases t with
    | nil => cases h
    | node a l r =>
      obtain ⟨hi, -, hl, hr⟩ := h
      cases hi
      rw [height] at hfuel hroom
      -- the node itself and its right subtree wait below the left subtree
      have hpush : Pending m (a.1 :: stack) (a.1 :: (r.names ++ ys)) :=
        ⟨r, ys, hr, by omega, hys, rfl⟩
      have hnames : (node a l r).names ++ ys = l.names ++ a.1 :: (r.names ++ ys) := by simp [names]
      rw [leftSpine, if_pos (by omega), hnames]
      cases hp : m.m_pChild a.1 .left with
      | none =>
        have hnil : l = nil := (hp ▸ hl : m.Holds none l).eq_none.mp rfl
        subst hnil
        exact ⟨_, rfl, hpush⟩
      | some p =>
        exact ih (hp ▸ hl : m.Holds (some p) l) (by omega) (by rw [List.length_cons]; omega) hpush

/-- **One call of `Traverse`** returns the first of what is to come. -/
theorem Traverse_spec {pPath : TraversePath ι} {xs : List ι} (h : Pending m pPath.stack xs) :
    ∃ pPath', Traverse m pPath = .ok (xs.head?, pPath') ∧ Pending m pPath'.stack xs.tail := by
  obtain ⟨stack⟩ := pPath
  cases stack with
  | nil =>
    cases (h : xs = [])
    exact ⟨⟨[]⟩, rfl, rfl⟩
  | cons i stack =>
    obtain ⟨r, ys, hr, hroom, hys, rfl⟩ := h
    rw [Traverse]
    dsimp only
    cases hp : m.m_pChild i .right with
    | none =>
      have hnil : r = nil := (hp ▸ hr : m.Holds none r).eq_none.mp rfl
      subst hnil
      exact ⟨⟨stack⟩, rfl, hys⟩
    | some p =>
      obtain ⟨stack', hspine, hpend⟩ := leftSpine_spec (hp ▸ hr : m.Holds (some p) r)
        (show r.height ≤ TREE_MAX_HEIGHT + 1 by omega) hroom hys
      dsimp only
      rw [hspine]
      exact ⟨⟨stack'⟩, rfl, hpend⟩

/-! ## The traversal -/

/-- `n` calls of `Traverse`. -/
def traverseCalls (m : Store ι) : Nat → TraversePath ι → Run (List (Option ι))
  | 0, _ => .ok []
  | n + 1, pPath => do
    let (p, pPath) ← Traverse m pPath
    return p :: (← traverseCalls m n pPath)

/-- The calls give what is pending, one by one, and `NULL` from then on. -/
theorem traverseCalls_pending {pPath : TraversePath ι} {xs : List ι} (n : Nat)
    (h : Pending m pPath.stack xs) :
    traverseCalls m n pPath = .ok ((List.range n).map (xs[·]?)) := by
  induction n generalizing pPath xs with
  | zero => rfl
  | succ n ih =>
    obtain ⟨pPath', hcall, htail⟩ := Traverse_spec h
    rw [traverseCalls, hcall, Run.ok_bind]
    dsimp only
    rw [ih htail, Run.ok_bind, List.range_succ_eq_map, List.map_cons, List.map_map]
    refine congrArg Except.ok
      (List.cons_eq_cons.mpr ⟨List.head?_eq_getElem?, List.map_congr_left fun i _ => ?_⟩)
    exact List.getElem?_tail

/-- **A traversal returns the contents in order**, each node once, and `NULL` after the last. -/
theorem traverseCalls_spec (h : Represents m t s) (hroot : m.pRoot = some this)
    (hheight : t.height ≤ TREE_MAX_HEIGHT) (n : Nat) :
    (InitTraverse m this >>= traverseCalls m n) = .ok ((List.range n).map (s.elems[·]?)) := by
  obtain ⟨stack, hspine, hpend⟩ := leftSpine_spec (hroot ▸ h.holds : m.Holds (some this) t)
    (show t.height ≤ TREE_MAX_HEIGHT + 1 by omega) (by simpa using hheight)
      (show Pending m [] [] from rfl)
  rw [InitTraverse, hspine]
  rw [List.append_nil, h.names] at hpend
  exact traverseCalls_pending n hpend

end StevenProgram.AvlTree
