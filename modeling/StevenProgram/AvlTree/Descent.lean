/-
  The loops that walk down: `Probe` and the first loops of `Insert` and `Remove`.

  Each goes where `seek` or `descend` goes on the tree the nodes form, and leaves the path in its
  arrays as long as it has at most `TREE_MAX_HEIGHT` nodes.  The bounds differ: `Insert(1)` lets a
  path of 33 nodes pass and puts the new node below them, `Probe` keeps the last entry for the empty
  place and reports `FULL` after 33 nodes, and `Remove` writes past the array at the 34th.

  1.  **Comparing** — the sign of `CompareTo` against the order of the keys: the index the source
     computes from it is `towards`, the side on which the search goes on.

  2.  **A turn** — `Walk` is what every loop keeps: the tree hangs in the slot, the arrays hold the
     path, and there is fuel for every node they can take yet.  `Walk.turn` is what one turn does to
     it, `Walk.full` what happens without room, and `Walk.induct` the induction along the way down
     from which the loops are proved.  A loop adds to it only what it does at the key and at the
     empty place.

  3.  **`Insert(1)`** — `insertLoop_place` and `insertLoop_stop`.

  4.  **`Probe`** — `probeLoop_place`, `probeLoop_found` and `probeLoop_full`; its turn is
     `probeLoop_turn`.

  5.  **`Remove`** — `removeAtLoop_spec` and `removeAtLoop_over`; `Remove(1)` keeps a target
     besides, and its path is that of `Remove(2)` (`removeLoop_path`).
-/
import StevenProgram.AvlTree.Layout

namespace StevenProgram.AvlTree

open BinaryTree Store

variable {ι K : Type} [Comparable K] {key : ι → K} {k : K} {m : Store ι} {t : NodeTree ι}
  {c c' : NodePath ι}
  {st : Path ι} {fuel : Nat}

/-- The key of a labelled node. -/
abbrev keyOf (key : ι → K) (x : ι × Option Side) : K := key x.1

/-! ## Comparing -/

/-- Zero is equality. -/
theorem CompareTo_eq {a b : K} : CompareTo a b = 0 ↔ a = b := Comparable.zero_iff a b

/-- The index of `CompareTo`'s result is the side on which the key is looked for. -/
theorem dirOf_eq (x : ι × Option Side) :
    dirOf (CompareTo (key x.1) k) = towards (keyOf key) k x := by
  rw [dirOf, towards]
  exact if_congr (Comparable.neg_iff _ _) rfl rfl

/-- At the key itself the loops go left. -/
theorem towards_found {x : ι × Option Side} (hx : keyOf key x = k) :
    towards (keyOf key) k x = .left :=
  if_neg (hx ▸ lt_irrefl _)

/-! ## A turn -/

/-- The subtrees of the node in a hole hang in the slots of the longer path. -/
theorem holds_step {x : ι × Option Side} {l r : NodeTree ι}
    (h : m.Holds (m.get (slotOf c)) (node x l r)) (d : Side) :
    m.Holds (m.get (slotOf (⟨d, x, d.other.pick l r⟩ :: c))) (d.pick l r) := by
  cases d
  · exact h.2.2.1
  · exact h.2.2.2

/-- A loop stands at the hole of `c`, where `t` hangs: its arrays hold the path to it, and there is
    a turn left for every node they can take yet. -/
structure Walk (m : Store ι) (c : NodePath ι) (t : NodeTree ι) (st : Path ι) (fuel : Nat) :
    Prop where
  holds : m.Holds (m.get (slotOf c)) t
  stacked : Stacked st c
  top : st.nStackTop = c.length
  fits : c.length ≤ TREE_MAX_HEIGHT
  turns : TREE_MAX_HEIGHT < fuel + c.length

/-- Every loop starts at the root, with nothing on its path. -/
theorem Walk.start (h : m.Holds (m.get (slotOf [])) t) : Walk m [] t .start (TREE_MAX_HEIGHT + 1) :=
  ⟨h, trivial, rfl, Nat.zero_le _, Nat.lt_succ_self _⟩

/-- The fuel does not run out on the way. -/
theorem Walk.succ (h : Walk m c t st fuel) : ∃ n, fuel = n + 1 := by
  have hfits := h.fits
  have hturns := h.turns
  exact ⟨fuel - 1, by omega⟩

/-- **A turn**: while there is room for one more node, the loop goes down to either side. -/
theorem Walk.turn {x : ι × Option Side} {l r : NodeTree ι} (h : Walk m c (node x l r) st (fuel + 1))
    (hroom : c.length < TREE_MAX_HEIGHT) (d : Side) :
    ∃ st', st.push (slotOf c) d = .ok st' ∧ Walk m (⟨d, x, d.other.pick l r⟩ :: c)
    (d.pick l r) st' fuel := by
  obtain ⟨st', hpush, htop, hstacked⟩ := h.stacked.push h.top hroom x d (d.other.pick l r)
  have hturns := h.turns
  exact ⟨st', hpush, holds_step h.holds d, hstacked, htop, hroom, by rw [List.length_cons]; omega⟩

/-- Where the arrays are full, the loop writes past them. -/
theorem Walk.full (h : Walk m c t st fuel) (hfull : c.length = TREE_MAX_HEIGHT) (d : Side) :
    st.push (slotOf c) d = .error .outOfBounds := by
  have htop := h.top
  rw [Path.push, Path.setNode, if_neg (by omega)]
  rfl

/-- **The induction of the loops**, along the way to the key: at an empty place, and at a node under
    the hypothesis that the statement holds below it on the side of the key.  It is an induction on
    the tree in the hole, with the path, the arrays and the fuel. -/
theorem Walk.induct (key : ι → K) (k : K) {motive : ∀ c t st fuel, Walk m c t st fuel → Prop}
    (nil : ∀ {c st fuel} (h : Walk m c nil st (fuel + 1)), motive c nil st (fuel + 1) h)
    (node : ∀ {c x l r st fuel} (h : Walk m c (node x l r) st (fuel + 1)),
      (∀ {st'} (h' : Walk m
        (⟨towards (keyOf key) k x, x, (towards (keyOf key) k x).other.pick l r⟩ :: c)
        ((towards (keyOf key) k x).pick l r) st' fuel), motive _ _ st' fuel h') →
          motive c (node x l r) st (fuel + 1) h)
    {c : NodePath ι} {t : NodeTree ι} {st : Path ι} {fuel : Nat} (h : Walk m c t st fuel) :
    motive c t st fuel h := by
  induction t generalizing c st fuel with
  | nil =>
    obtain ⟨fuel, rfl⟩ := h.succ
    exact nil h
  | node x l r ihl ihr =>
    obtain ⟨fuel, rfl⟩ := h.succ
    refine node h fun h' => ?_
    generalize towards (keyOf key) k x = d at *
    cases d
    · exact ihl h'
    · exact ihr h'

/-! ## `Insert(1)` -/

/-- **The first loop of `Insert(1)`** ends at the empty place the search ends at, with the path to
    it in its arrays. -/
theorem insertLoop_place (h : Walk m c t st fuel) (hseek : seek (keyOf key) k t c = (c', nil))
    (hlen : c'.length ≤ TREE_MAX_HEIGHT) :
    ∃ st', insertLoop key m k fuel (slotOf c) st = .ok (some (slotOf c', st')) ∧
    st'.nStackTop = c'.length ∧
      Stacked st' c' := by
  induction h using Walk.induct key k with
  | nil h =>
    cases hseek
    exact ⟨_, by rw [insertLoop, holds_nil.mp h.holds], h.top, h.stacked⟩
  | @node c x l r st fuel h ih =>
    have hx : keyOf key x ≠ k := fun hx => by rw [seek_found c hx] at hseek; cases hseek
    have hlt : c.length < c'.length := by simpa [hseek] using length_lt_seek (l := l) (r := r) c hx
    have htop := h.top
    obtain ⟨st1, hpush, h1⟩ := h.turn (by omega) (towards (keyOf key) k x)
    rw [seek_step l r c hx] at hseek
    rw [insertLoop, h.holds.1]
    dsimp only
    rw [if_neg (fun h0 => hx (CompareTo_eq.mp h0)), if_neg (by omega), dirOf_eq, hpush, Run.ok_bind]
    exact ih h1 hseek

/-- It returns the root where the search finds a node, or goes on after `TREE_MAX_HEIGHT` of
    them. -/
theorem insertLoop_stop (h : Walk m c t st fuel)
    (hstop : (seek (keyOf key) k t c).2 = nil →
      TREE_MAX_HEIGHT < (seek (keyOf key) k t c).1.length) :
    insertLoop key m k fuel (slotOf c) st = .ok none := by
  induction h using Walk.induct key k with
  | nil h => exact absurd (hstop rfl) (Nat.not_lt.mpr h.fits)
  | @node c x l r st fuel h ih =>
    rw [insertLoop, h.holds.1]
    dsimp only
    by_cases hx : keyOf key x = k
    · rw [if_pos (CompareTo_eq.mpr hx)]
    by_cases hfull : TREE_MAX_HEIGHT ≤ st.nStackTop
    · rw [if_neg (fun h0 => hx (CompareTo_eq.mp h0)), if_pos hfull]
    have htop := h.top
    obtain ⟨st1, hpush, h1⟩ := h.turn (by omega) (towards (keyOf key) k x)
    rw [seek_step l r c hx] at hstop
    rw [if_neg (fun h0 => hx (CompareTo_eq.mp h0)), if_neg hfull, dirOf_eq, hpush, Run.ok_bind]
    exact ih h1 hstop

/-! ## `Probe` -/

/-- A turn of `Probe` at a node with another key, before the arrays are full. -/
theorem probeLoop_turn {x : ι × Option Side} {l r : NodeTree ι}
    (h : Walk m c (node x l r) st (fuel + 1))
    (hx : keyOf key x ≠ k) (hroom : c.length + 1 < TREE_MAX_HEIGHT) :
    ∃ st', Walk m (⟨towards (keyOf key) k x, x, (towards (keyOf key) k x).other.pick l r⟩ :: c)
        ((towards (keyOf key) k x).pick l r) st' fuel ∧
      probeLoop key m k (fuel + 1) (slotOf c) st =
        probeLoop key m k fuel
          (slotOf (⟨towards (keyOf key) k x, x, (towards (keyOf key) k x).other.pick l r⟩ :: c))
          st' := by
  obtain ⟨st1, hpush, h1⟩ := h.turn (Nat.lt_of_succ_lt hroom) (towards (keyOf key) k x)
  have htop := h1.top
  rw [List.length_cons] at htop
  refine ⟨st1, h1, ?_⟩
  rw [probeLoop, h.holds.1]
  dsimp only
  rw [dirOf_eq, hpush, Run.ok_bind, if_neg (fun h0 => hx (CompareTo_eq.mp h0)), if_neg (by omega)]
  rfl

/-- **The loop of `Probe`** at the empty place where the key belongs: it reports `NOT_FOUND`, and
    the path has an entry to spare. -/
theorem probeLoop_place (h : Walk m c t st fuel) (hseek : seek (keyOf key) k t c = (c', nil))
    (hlen : c'.length < TREE_MAX_HEIGHT) :
    ∃ st', probeLoop key m k fuel (slotOf c) st = .ok (.NOT_FOUND, slotOf c', st') ∧
    st'.nStackTop = c'.length ∧
      Stacked st' c' := by
  induction h using Walk.induct key k with
  | nil h =>
    cases hseek
    exact ⟨_, by rw [probeLoop, holds_nil.mp h.holds], h.top, h.stacked⟩
  | @node c x l r st fuel h ih =>
    have hx : keyOf key x ≠ k := fun hx => by rw [seek_found c hx] at hseek; cases hseek
    have hlt : c.length < c'.length := by simpa [hseek] using length_lt_seek (l := l) (r := r) c hx
    obtain ⟨st1, h1, hturn⟩ := probeLoop_turn h hx (by omega)
    rw [seek_step l r c hx] at hseek
    rw [hturn]
    exact ih h1 hseek

/-- At the node with the key it reports `FOUND`, and the last entry of the path is the slot of that
    node. -/
theorem probeLoop_found {x : ι × Option Side} {l' r' : NodeTree ι} (h : Walk m c t st fuel)
    (hseek : seek (keyOf key) k t c = (c', node x l' r')) (hlen : c'.length < TREE_MAX_HEIGHT) :
    ∃ st', probeLoop key m k fuel (slotOf c) st = .ok (.FOUND, slotOf c', st') ∧
    st'.nStackTop = c'.length + 1 ∧
      Stacked st' (⟨.left, x, r'⟩ :: c') := by
  induction h using Walk.induct key k with
  | nil h => cases hseek
  | @node c y l r st fuel h ih =>
    by_cases hy : keyOf key y = k
    · rw [seek_found c hy] at hseek
      cases hseek
      obtain ⟨st1, hpush, h1⟩ := h.turn hlen .left
      rw [probeLoop, h.holds.1]
      dsimp only
      rw [dirOf_eq, towards_found hy, hpush, Run.ok_bind, if_pos (CompareTo_eq.mpr hy)]
      exact ⟨st1, rfl, h1.top, h1.stacked⟩
    · have hlt :
        c.length < c'.length := by simpa [hseek] using length_lt_seek (l := l) (r := r) c hy
      obtain ⟨st1, h1, hturn⟩ := probeLoop_turn h hy (by omega)
      rw [seek_step l r c hy] at hseek
      rw [hturn]
      exact ih h1 hseek

/-- `FULL`: the path ends at a node with another key, which the last entry leads to. -/
theorem probeLoop_full (h : Walk m c t st fuel) (hroom : c.length < TREE_MAX_HEIGHT)
    (hlen : TREE_MAX_HEIGHT ≤ (seek (keyOf key) k t c).1.length) :
    ∃ st' i, probeLoop key m k fuel (slotOf c) st = .ok
      (.FULL, st'.arppNodeStack (TREE_MAX_HEIGHT - 1), st') ∧
      st'.nStackTop = TREE_MAX_HEIGHT ∧ m.get (st'.arppNodeStack (TREE_MAX_HEIGHT - 1)) = some i ∧
      key i ≠ k := by
  induction h using Walk.induct key k with
  | nil h => exact absurd hlen (Nat.not_le.mpr hroom)
  | @node c y l r st fuel h ih =>
    by_cases hy : keyOf key y = k
    · rw [seek_found c hy] at hlen
      exact absurd hlen (Nat.not_le.mpr hroom)
    by_cases hlast : c.length + 1 < TREE_MAX_HEIGHT
    · obtain ⟨st1, h1, hturn⟩ := probeLoop_turn h hy hlast
      rw [seek_step l r c hy] at hlen
      rw [hturn]
      exact ih h1 hlast hlen
    · obtain ⟨st1, hpush, h1⟩ := h.turn hroom (towards (keyOf key) k y)
      have htop : st1.nStackTop = c.length + 1 := h1.top
      have hslot : st1.arppNodeStack (TREE_MAX_HEIGHT - 1) = slotOf c := by
        rw [show TREE_MAX_HEIGHT - 1 = c.length by omega]
        exact h1.stacked.1
      rw [probeLoop, h.holds.1]
      dsimp only
      rw [dirOf_eq, hpush, Run.ok_bind, if_neg (fun h0 => hy (CompareTo_eq.mp h0)),
        if_pos (by omega)]
      exact ⟨st1, y.1, by rw [hslot]; rfl, by omega, by rw [hslot]; exact h.holds.1, hy⟩

/-! ## `Remove` -/

/-- **The loop of `Remove(2)`** keeps the path to the end of the descent. -/
theorem removeAtLoop_spec (h : Walk m c t st fuel)
    (hlen : (descend (keyOf key) k t c).length ≤ TREE_MAX_HEIGHT) :
    ∃ st', removeAtLoop key m k fuel (slotOf c) st = .ok st' ∧
    st'.nStackTop = (descend (keyOf key) k t c).length ∧
      Stacked st' (descend (keyOf key) k t c) := by
  induction h using Walk.induct key k with
  | nil h => exact ⟨_, by rw [removeAtLoop, holds_nil.mp h.holds], h.top, h.stacked⟩
  | @node c x l r st fuel h ih =>
    rw [descend_step] at hlen ⊢
    have hlt := (length_le_descend (keyOf key) k _ _).trans hlen
    obtain ⟨st1, hpush, h1⟩ := h.turn hlt (towards (keyOf key) k x)
    rw [removeAtLoop, h.holds.1]
    dsimp only
    rw [dirOf_eq, hpush, Run.ok_bind]
    exact ih h1 hlen

/-- A path of more nodes runs over the array. -/
theorem removeAtLoop_over (h : Walk m c t st fuel)
    (hlen : TREE_MAX_HEIGHT < (descend (keyOf key) k t c).length) :
    removeAtLoop key m k fuel (slotOf c) st = .error .outOfBounds := by
  induction h using Walk.induct key k with
  | nil h => exact absurd hlen (Nat.not_lt.mpr h.fits)
  | @node c x l r st fuel h ih =>
    rw [removeAtLoop, h.holds.1]
    dsimp only
    rw [dirOf_eq]
    obtain hroom | hfull := Nat.lt_or_eq_of_le h.fits
    · obtain ⟨st1, hpush, h1⟩ := h.turn hroom (towards (keyOf key) k x)
      rw [descend_step] at hlen
      rw [hpush, Run.ok_bind]
      exact ih h1 hlen
    · rw [h.full hfull]
      rfl

/-- `Remove(1)` walks as `Remove(2)` does, and keeps a target besides. -/
theorem removeLoop_path (slot : Slot ι) (target : Option (Slot ι × Nat)) :
    (removeLoop key m k fuel slot st target).map Prod.snd = removeAtLoop key m k fuel slot st := by
  induction fuel generalizing slot st target with
  | zero => rfl
  | succ fuel ih =>
    rw [removeLoop, removeAtLoop]
    cases m.get slot with
    | none => rfl
    | some i =>
      dsimp only
      cases st.push slot (dirOf (CompareTo (key i) k)) with
      | error e => rfl
      | ok st1 => exact ih _ _

/-- So it runs over the array with it, whatever the target. -/
theorem removeLoop_over (h : Walk m c t st fuel)
    (hlen : TREE_MAX_HEIGHT < (descend (keyOf key) k t c).length)
    (target : Option (Slot ι × Nat)) :
    removeLoop key m k fuel (slotOf c) st target = .error .outOfBounds := by
  have hpath := (removeLoop_path (slotOf c) target).trans (removeAtLoop_over h hlen)
  cases hrun : removeLoop key m k fuel (slotOf c) st target with
  | error e =>
    rw [hrun] at hpath
    exact congrArg Except.error (Except.error.inj hpath)
  | ok r =>
    rw [hrun] at hpath
    cases hpath

/-- **The first loop of `Remove(1)`** keeps the same path, and with it the place of the node with
    the key: below that node all keys are smaller, so no later turn takes another target. -/
theorem removeLoop_spec (hsorted : t.inorder.Pairwise fun a b => keyOf key a < keyOf key b)
    (h : Walk m c t st fuel)
    (hlen : (descend (keyOf key) k t c).length ≤ TREE_MAX_HEIGHT) (target : Option (Slot ι × Nat)) :
    ∃ st', removeLoop key m k fuel (slotOf c) st target = .ok
      ((match (seek (keyOf key) k t c).2 with
        | nil => target
        | node _ _ _ => some (slotOf (seek (keyOf key) k t c).1, (seek (keyOf key) k t c).1.length +
            1)), st') ∧
      st'.nStackTop = (descend (keyOf key) k t c).length ∧
        Stacked st' (descend (keyOf key) k t c) := by
  induction h using Walk.induct key k generalizing target with
  | nil h => exact ⟨_, by rw [removeLoop, holds_nil.mp h.holds]; rfl, h.top, h.stacked⟩
  | @node c x l r st fuel h ih =>
    rw [inorder_node, List.pairwise_append, List.pairwise_cons] at hsorted
    obtain ⟨hl, ⟨_, hr⟩, hlx⟩ := hsorted
    rw [descend_step] at hlen ⊢
    have hlt := (length_le_descend (keyOf key) k _ _).trans hlen
    obtain ⟨st1, hpush, h1⟩ := h.turn hlt (towards (keyOf key) k x)
    have hside :
      ((towards (keyOf key) k x).pick l r).inorder.Pairwise
        fun a b => keyOf key a < keyOf key b := by
      generalize towards (keyOf key) k x = d
      cases d
      · exact hl
      · exact hr
    rw [removeLoop, h.holds.1]
    dsimp only
    rw [dirOf_eq, hpush, Run.ok_bind]
    by_cases hx : keyOf key x = k
    · -- the target: what is left of it has smaller keys
      rw [if_pos (CompareTo_eq.mpr hx), seek_found c hx, h.top]
      obtain ⟨st', hst', hrest⟩ := ih h1 hside hlen (some (slotOf c, c.length + 1))
      have habsent : ∀ b ∈ l.inorder, keyOf key b ≠ k := fun b hb => hx ▸ ne_of_lt
        (hlx b hb x (List.mem_cons_self ..))
      rw [towards_found hx] at hst' hrest ⊢
      rw [show (Side.left.pick l r) = l from rfl, seek_absent habsent] at hst'
      exact ⟨st', hst', hrest⟩
    · rw [if_neg (fun h0 => hx (CompareTo_eq.mp h0)), seek_step l r c hx]
      exact ih h1 hside hlen target

end StevenProgram.AvlTree
