/-
  What a tree of nodes stands for, and `Insert`.

  `Represents` ties the store to an ordered map from keys to nodes: the nodes from the root form a
  balanced tree that lists the map.  It is the invariant of every call of the class, and the map is
  what the class is for; that the tree is balanced matters for nothing but its height.

  1.  **`Represents`** — the search in the tree against the map: `seek_cases` says that it ends at
     the node `find` gives, or at the place where the list of the map splits into smaller and larger
     keys.

  2.  **The new leaf** (`place_spec`) — put into the empty place the search found, with the walk
     back.  The leaf must not lean and have no children, as the constructor leaves it.

  3.  **`Insert(1)`** (`Insert_spec`) — it inserts as the map does as long as the way there has at
     most `TREE_MAX_HEIGHT` nodes; on a longer one, and where the key is there, it leaves everything
     as it is (`Insert_stop`).

  4.  **`Probe`** (`Probe_found`, `Probe_place`, `Probe_full`) and **`Insert(2)`** (`InsertAt_eq`):
     the second form walks back along the path that the first call recorded, and only the entries of
     the path matter for that (`insertRebalance_stacked`).
-/
import StevenProgram.Lib.SortedMap
import StevenProgram.AvlTree.Descent
import StevenProgram.AvlTree.Rebalance

namespace StevenProgram.AvlTree

open BinaryTree Store

variable {ι K : Type} [Comparable K] {key : ι → K} {k : K} {m m' : Store ι} {t t' : NodeTree ι}
  {s : SortedMap key}
  {c : NodePath ι} {st : Path ι} {i this : ι}

/-! ## Trees and maps

  The labels of the tree without their states are the elements of the map, in order, so a statement
  about the list of the map is one about `names`. -/

/-- The nodes from the root form the balanced tree `t`, which lists the map `s`. -/
structure Represents (m : Store ι) (t : NodeTree ι) (s : SortedMap key) : Prop where
  holds : m.Holds m.pRoot t
  avl : t.Avl
  names : t.names = s.elems

/-- The tree is in the order of the map. -/
theorem Represents.sorted (h : Represents m t s) :
    t.inorder.Pairwise fun a b => keyOf key a < keyOf key b := by
  have hs := s.sorted
  rw [← h.names, BinaryTree.names, List.pairwise_map] at hs
  exact hs

/-- No node is there twice. -/
theorem Represents.nodup (h : Represents m t s) : t.names.Nodup := h.names ▸ s.nodup

/-- The root is `NULL` exactly if the map is empty. -/
theorem Represents.pRoot_eq_none (h : Represents m t s) : m.pRoot = none ↔ s.elems = [] := by
  rw [h.holds.eq_none, ← h.names]
  cases t with
  | nil => simp
  | node a l r => simp [BinaryTree.names]

/-- **What a search in the tree says about the map.** Either it ends at an empty place, the map
    splits there into smaller and larger keys, and the key is absent; or it ends at a node with the
    key, which is the one the map gives. -/
theorem Represents.seek_cases (h : Represents m t s) (k : K) :
    (∃ c xs ys, seek (keyOf key) k t [] = (c, nil) ∧ t = plug c nil ∧ (before c).map Prod.fst = xs ∧
      (after c).map Prod.fst = ys ∧
      s.elems = xs ++ ys ∧ (∀ a ∈ xs, key a < k) ∧ (∀ a ∈ ys, k < key a) ∧ s.find k = none) ∨
    ∃ c x l r, seek (keyOf key) k t [] = (c, node x l r) ∧ t = plug c (node x l r) ∧ key x.1 = k ∧
    s.find k = some x.1 := by
  have hplug := plug_seek (keyOf key) k t []
  obtain ⟨hbefore, hafter⟩ := seek_split (k := k) (c := []) h.sorted (by simp [before])
    (by simp [after])
  rcases hseek : seek (keyOf key) k t [] with ⟨c, t'⟩
  rw [hseek] at hplug hbefore hafter
  rcases seek_ends (keyOf key) k t [] with hnil | ⟨x, l, r, hnode, hx⟩
  · rw [hseek] at hnil
    cases hnil
    have helems : s.elems = (before c).map Prod.fst ++ (after c).map Prod.fst := by
      rw [← h.names, ← plug_nil (t := t), ← hplug, names_plug]; simp
    have hxs : ∀ a ∈ (before c).map Prod.fst, key a < k := by
      intro a ha
      obtain ⟨y, hy, rfl⟩ := List.mem_map.mp ha
      exact hbefore y hy
    have hys : ∀ a ∈ (after c).map Prod.fst, k < key a := by
      intro a ha
      obtain ⟨y, hy, rfl⟩ := List.mem_map.mp ha
      exact hafter y hy
    refine .inl ⟨c, _, _, rfl, hplug.symm, rfl, rfl, helems, hxs, hys,
      SortedMap.find_eq_none.mpr fun a ha => ?_⟩
    rcases List.mem_append.mp (helems ▸ ha) with ha | ha
    · exact ne_of_lt (hxs a ha)
    · exact ne_of_gt (hys a ha)
  · rw [hseek] at hnode
    cases hnode
    refine .inr ⟨c, x, l, r, rfl, hplug.symm, hx, SortedMap.find_eq_some.mpr ⟨?_, hx⟩⟩
    rw [← h.names, ← plug_nil (t := t), ← hplug, (names_plug_perm c _).mem_iff, List.mem_append]
    exact .inl (by simp [BinaryTree.names])

/-- A change around a hole of the tree. -/
theorem Represents.whole {S : List ι} (h : Represents m (plug c t) s)
    (hc : ChangesOnly (slotOf c) S m m') (hS : ∀ j ∈ S, j ∈ t.names) :
    ChangesOnly .root s.elems m m' :=
  hc.whole (fun j hj => h.names ▸ mem_names_plug.mpr (.inl (hS j hj)))
    (fun _ hj => h.names ▸ mem_names_plug.mpr (.inr hj))

/-- A node in the store, and the map around it. -/
theorem target_at {x : ι} {b : Option Side} {l r : NodeTree ι}
    (h : Represents m (plug c (node (x, b) l r)) s) :
    m.get (slotOf c) = some x ∧ m.m_nState x = b ∧ m.Holds (m.m_pChild x .left) l ∧
    m.Holds (m.m_pChild x .right) r ∧
      (x :: (l.names ++ r.names)).Nodup ∧ (∀ j ∈ x :: (l.names ++ r.names), j ∉ around c) ∧
      (∀ j ∈ x :: (l.names ++ r.names), j ∈ (node (x, b) l r).names) ∧
      s.elems =
        ((before c).map Prod.fst ++ l.names) ++ x :: (r.names ++ (after c).map Prod.fst) := by
  have hperm := names_on_perm .left (x, b) l r
  have hnodup := h.nodup
  rw [(names_plug_perm c _).nodup_iff] at hnodup
  obtain ⟨hnode, -, hdisj⟩ := List.nodup_append.mp hnodup
  obtain ⟨hpi, hbi, hl, hr⟩ := ((holds_plug_root c _).mp h.holds).2
  refine ⟨hpi, hbi, hl, hr, hperm.nodup_iff.mp hnode, fun j hj hin =>
    hdisj j (hperm.mem_iff.mpr hj) j hin rfl,
    fun j hj => hperm.mem_iff.mpr hj, ?_⟩
  rw [← h.names, names_plug]
  simp [BinaryTree.names]

/-! ## The new leaf -/

variable [DecidableEq ι]

/-- A new leaf in the place where its key belongs, with the balance it has. -/
theorem place_holds (h : Represents m t s) (hseek : seek (keyOf key) (key i) t [] = (c, nil))
    (hchild : ∀ n, m.m_pChild i n = none) :
    plug c nil = t ∧ s.find (key i) = none ∧ (plug c (node (i, m.m_nState i) nil nil)).names =
      (s.insert i).elems ∧
      (m.set (slotOf c) (some i)).Holds (m.set (slotOf c) (some i)).pRoot
        (plug c (node (i, m.m_nState i) nil nil)) := by
  obtain ⟨c', xs, ys, hseek', hplug, hbefore, hafter, helems, hxs, hys, hfind⟩ | ⟨c', x, l, r,
    hseek', -⟩ := h.seek_cases (key i)
  · rw [hseek] at hseek'
    cases hseek'
    have hi : i ∉ s.elems := SortedMap.not_mem_of_find hfind
    have hplug : plug c nil = t := hplug.symm
    have hin : ∀ j, j ∈ around c → j ∈ s.elems := fun j hj => by
      rw [← h.names, ← hplug, (names_plug_perm c _).mem_iff]; simpa using hj
    have hc : ChangesOnly (slotOf c) [] m (m.set (slotOf c) (some i)) := changesOnly_set (.inl rfl)
    have hslot :
      ∀ n, Slot.child i n ≠ slotOf c := fun n heq => hi (hin i (slotOf_eq_child heq.symm))
    refine ⟨hplug, hfind, ?_, ?_⟩
    · rw [names_plug, hbefore, hafter, (SortedMap.insert_split helems hxs hys).2]
      simp [BinaryTree.names]
    · refine hc.holds_plug (t := nil) (by rw [hplug]; exact h.nodup) (by simp) (by simp)
        (by rw [hplug]; exact h.holds) ⟨?_, ?_, ?_, ?_⟩
      · simp [get_set]
      · rw [m_nState_set]
      · rw [holds_nil, m_pChild_set, if_neg (hslot _)]; exact hchild _
      · rw [holds_nil, m_pChild_set, if_neg (hslot _)]; exact hchild _
  · rw [hseek] at hseek'
    cases hseek'

/-- **A new leaf that does not lean**, and the walk back: the tree in the hole became one higher, so
    `grow` balances it, and its names are those of the map with the new node in its place. -/
theorem place_spec (h : Represents m t s) (hseek : seek (keyOf key) (key i) t [] = (c, nil))
    (hst : Stacked st c)
    (hnew : m.Constructed i) :
    ∃ m' t', insertRebalance st c.length (m.set (slotOf c) (some i)) = .ok m' ∧ Represents m' t'
      (s.insert i) ∧
      ChangesOnly .root (s.insert i).elems m m' := by
  obtain ⟨hplug, hfind, hleafnames, hleaf⟩ := place_holds h hseek hnew.2
  rw [hnew.1] at hleafnames hleaf
  have hnodup : (plug c (node (i, none) nil nil)).names.Nodup := hleafnames ▸ (s.insert i).nodup
  obtain ⟨t', hgrow, havl⟩ := grow_avl (t := nil) c (by rw [hplug]; exact h.avl) (avl_leaf i) rfl
    (fun _ => rfl)
  obtain ⟨m', hm', hT, hc'⟩ := insertRebalance_spec hst hnodup hleaf hgrow
  refine ⟨m', t', hm', ⟨hT, havl, by rw [names_grow hgrow, hleafnames]⟩,
    ChangesOnly.trans (changesOnly_set ?_) (hleafnames ▸ hc')⟩
  cases hc : c with
  | nil => exact .inl rfl
  | cons f c0 =>
    refine .inr ⟨f.label.1, ?_, f.side, rfl⟩
    rw [← hleafnames, hc]
    exact mem_names_plug.mpr (.inr (by simp [around]))

/-! ## `Insert(1)` -/

omit [DecidableEq ι] in
/-- The calls set the root to the node they are called on, which it is already. -/
theorem setRoot_eq (hroot : m.pRoot = some this) : { m with pRoot := some this } = m := by
  rw [← hroot]

omit [DecidableEq ι] in
/-- The hole of the empty path is the root. -/
theorem Represents.holds_root (h : Represents m t s) : m.Holds (m.get (slotOf [])) t := h.holds

omit [DecidableEq ι] in
/-- Where the loops start. -/
theorem Represents.walk (h : Represents m t s) : Walk m [] t .start (TREE_MAX_HEIGHT + 1) :=
  .start h.holds

/-- `Insert(1)` where the search ends at an empty place: the node is put there, and the path is gone
    back. -/
theorem Insert_place (h : Represents m t s) (hroot : m.pRoot = some this)
    (hseek : seek (keyOf key) (key i) t [] = (c, nil))
    (hlen : c.length ≤ TREE_MAX_HEIGHT) :
    ∃ st, st.nStackTop = c.length ∧ Stacked st c ∧ Insert key m this i = insertRebalance st c.length
      (m.set (slotOf c) (some i)) := by
  obtain ⟨st, hst, htop, hstack⟩ := insertLoop_place h.walk hseek hlen
  refine ⟨st, htop, hstack, ?_⟩
  rw [Insert, setRoot_eq hroot]
  show (insertLoop key m (key i) (TREE_MAX_HEIGHT + 1) (slotOf []) .start >>= _) = _
  rw [hst, Run.ok_bind]
  dsimp only
  rw [htop]

/-- It does nothing where the key is found, or where the path is too long. -/
theorem Insert_stop (h : Represents m t s) (hroot : m.pRoot = some this)
    (hstop : (seek (keyOf key) (key i) t []).2 = nil →
      TREE_MAX_HEIGHT < (seek (keyOf key) (key i) t []).1.length) :
    Insert key m this i = .ok m := by
  have hloop := insertLoop_stop h.walk hstop
  rw [Insert, setRoot_eq hroot]
  show (insertLoop key m (key i) (TREE_MAX_HEIGHT + 1) (slotOf []) .start >>= _) = _
  rw [hloop]
  rfl

/-- **`Insert(1)` inserts as the map does** where the way down has at most `TREE_MAX_HEIGHT`
    nodes. -/
theorem Insert_spec (h : Represents m t s) (hroot : m.pRoot = some this)
    (hlen : (seek (keyOf key) (key i) t []).1.length ≤ TREE_MAX_HEIGHT)
    (hnew : s.find (key i) = none → m.Constructed i) :
    ∃ m' t', Insert key m this i = .ok m' ∧ Represents m' t' (s.insert i) ∧ ChangesOnly .root
      (s.insert i).elems m m' := by
  obtain ⟨c, xs, ys, hseek, -, -, -, -, -, -, hfind⟩ | ⟨c, x, l, r, hseek, -, -, hfind⟩ :=
    h.seek_cases (key i)
  · rw [hseek] at hlen
    obtain ⟨st, htop, hst, hins⟩ := Insert_place h hroot hseek hlen
    obtain ⟨m', t', hm', hrep, hc⟩ := place_spec h hseek hst (hnew hfind)
    exact ⟨m', t', hins.trans hm', hrep, hc⟩
  · refine ⟨m, t, Insert_stop h hroot (fun hnil => ?_), ?_, .refl ..⟩
    · rw [hseek] at hnil; cases hnil
    · rw [SortedMap.insert, if_neg (by simp [hfind])]
      exact h

/-! ## `Probe` and `Insert(2)`

  A `ProbePath` outlives the call that filled it.  Its arrays hold one entry more than the loop
  left, the slot of the empty place, which is where `Insert(2)` puts the node. -/

/-- The walk back reads the path and nothing else. -/
theorem insertRebalance_congr {st st' : Path ι} :
    ∀ (n : Nat) (m : Store ι), (∀ j < n, st'.arppNodeStack j = st.arppNodeStack j) →
    (∀ j < n, st'.arnDirStack j = st.arnDirStack j) →
      insertRebalance st' n m = insertRebalance st n m
  | 0, _, _, _ => rfl
  | n + 1, m, hnode, hdir => by
      have ih : ∀ m, insertRebalance st' n m = insertRebalance st n m := fun m =>
        insertRebalance_congr n m (fun j hj => hnode j (by omega)) (fun j hj => hdir j (by omega))
      simp only [insertRebalance, hnode n (by omega), hdir n (by omega), ih]

omit [DecidableEq ι] in
/-- Two records of one path. -/
theorem Stacked.agree {st st' : Path ι} (h : Stacked st c) (h' : Stacked st' c) :
    ∀ j < c.length, st'.arppNodeStack j = st.arppNodeStack j ∧
    st'.arnDirStack j = st.arnDirStack j := by
  induction c with
  | nil => intro j hj; simp at hj
  | cons f c ih =>
    intro j hj
    rcases Nat.lt_succ_iff_lt_or_eq.mp hj with hlt | rfl
    · exact ih h.2.2 h'.2.2 j hlt
    · exact ⟨h'.1.trans h.1.symm, h'.2.1.trans h.2.1.symm⟩

/-- The way back depends on the path only, not on what else is in the arrays. -/
theorem insertRebalance_stacked {st st' : Path ι} (h : Stacked st c) (h' : Stacked st' c)
    (m : Store ι) :
    insertRebalance st' c.length m = insertRebalance st c.length m :=
  insertRebalance_congr c.length m (fun j hj => (Stacked.agree h h' j hj).1)
    (fun j hj => (Stacked.agree h h' j hj).2)

section Probe

omit [DecidableEq ι]

/-- `Probe` at an empty place: the last entry of the path is that place. -/
theorem Probe_place (h : Represents m t s) (hroot : m.pRoot = some this)
    (hseek : seek (keyOf key) k t [] = (c, nil))
    (hlen : c.length < TREE_MAX_HEIGHT) :
    ∃ p, Probe key m this k = .ok (m, p) ∧ p.m_eResult = .NOT_FOUND ∧ p.nStackTop = c.length + 1 ∧
      p.arppNodeStack c.length = slotOf c ∧ Stacked p.toPath c ∧ m.get (slotOf c) = none := by
  obtain ⟨st, hst, htop, hstack⟩ := probeLoop_place h.walk hseek hlen
  have hplug := plug_seek (keyOf key) k t []
  rw [hseek] at hplug
  have hnone : m.get (slotOf c) = none := by
    have := h.holds
    rw [← plug_nil (t := t), ← hplug, holds_plug_root] at this
    exact this.2
  refine ⟨⟨{ (⟨st.nStackTop, Function.update st.arppNodeStack c.length (slotOf c), st.arnDirStack⟩ :
    Path ι) with
    nStackTop := st.nStackTop + 1 }, .NOT_FOUND⟩, ?_, rfl, by rw [← htop], by simp, ?_, hnone⟩
  · rw [Probe, setRoot_eq hroot]
    show (probeLoop key m k (TREE_MAX_HEIGHT + 1) (slotOf []) .start >>= _) = _
    rw [hst, Run.ok_bind]
    dsimp only
    rw [if_pos hnone, Path.setNode, htop, if_pos hlen]
    rfl
  · exact hstack.congr (fun j hj => Function.update_of_ne (by omega) _ _) (fun _ _ => rfl)

/-- `Probe` at the node with the key. -/
theorem Probe_found {x : ι × Option Side} {l r : NodeTree ι} (h : Represents m t s)
    (hroot : m.pRoot = some this)
    (hseek : seek (keyOf key) k t [] = (c, node x l r)) (hlen : c.length < TREE_MAX_HEIGHT) :
    ∃ p, Probe key m this k = .ok (m, p) ∧ p.m_eResult = .FOUND ∧ p.nStackTop = c.length + 1 ∧
      Stacked p.toPath (⟨.left, x, r⟩ :: c) ∧ m.get (slotOf c) = some x.1 := by
  obtain ⟨st, hst, htop, hstack⟩ := probeLoop_found h.walk hseek hlen
  have hplug := plug_seek (keyOf key) k t []
  rw [hseek] at hplug
  have hsome : m.get (slotOf c) = some x.1 := by
    have := h.holds
    rw [← plug_nil (t := t), ← hplug, holds_plug_root] at this
    exact this.2.1
  refine ⟨⟨st, .FOUND⟩, ?_, rfl, htop, hstack, hsome⟩
  rw [Probe, setRoot_eq hroot]
  show (probeLoop key m k (TREE_MAX_HEIGHT + 1) (slotOf []) .start >>= _) = _
  rw [hst, Run.ok_bind]
  dsimp only
  rw [if_neg (by simp [hsome])]
  rfl

/-- `Probe` after `TREE_MAX_HEIGHT` nodes: the last entry leads to a node with another key. -/
theorem Probe_full (h : Represents m t s) (hroot : m.pRoot = some this)
    (hlen : TREE_MAX_HEIGHT ≤ (seek (keyOf key) k t []).1.length) :
    ∃ p i, Probe key m this k = .ok (m, p) ∧ p.m_eResult = .FULL ∧ p.nStackTop = TREE_MAX_HEIGHT ∧
      m.get (p.arppNodeStack (TREE_MAX_HEIGHT - 1)) = some i ∧ key i ≠ k := by
  obtain ⟨st, i, hst, htop, hi, hkey⟩ := probeLoop_full h.walk (by simp [TREE_MAX_HEIGHT]) hlen
  refine ⟨⟨st, .FULL⟩, i, ?_, rfl, htop, hi, hkey⟩
  rw [Probe, setRoot_eq hroot]
  show (probeLoop key m k (TREE_MAX_HEIGHT + 1) (slotOf []) .start >>= _) = _
  rw [hst, Run.ok_bind]
  dsimp only
  rw [if_neg (by simp [hi])]
  rfl

/-- **`Probe` is the look-up**, in a tree of fewer than `TREE_MAX_HEIGHT` levels: it changes
    nothing, and `Access` gives the node with the key. -/
theorem Probe_spec (h : Represents m t s) (hroot : m.pRoot = some this)
    (hheight : t.height < TREE_MAX_HEIGHT) (k : K) :
    ∃ p, Probe key m this k = .ok (m, p) ∧
    p.m_eResult = (if s.find k = none then .NOT_FOUND else .FOUND) ∧
      p.Access m = s.find k := by
  have hlen := seek_length (keyOf key) k t
  obtain ⟨c, xs, ys, hseek, -, -, -, -, -, -, hfind⟩ | ⟨c, x, l, r, hseek, -, -, hfind⟩ :=
    h.seek_cases k
  · simp only [hseek] at hlen
    obtain ⟨p, hp, hres, -⟩ := Probe_place h hroot hseek (by omega)
    exact ⟨p, hp,
      by rw [hres, if_pos hfind], by rw [ProbePath.Access, hres, if_neg (by simp), hfind]⟩
  · simp only [hseek] at hlen
    obtain ⟨p, hp, hres, htop, hst, hget⟩ := Probe_found h hroot hseek (by omega)
    refine ⟨p, hp, by rw [hres, if_neg (by simp [hfind])], ?_⟩
    rw [ProbePath.Access, hres, if_pos rfl, htop, Nat.add_sub_cancel, hst.1, hget, hfind]

end Probe

/-- After `FULL`, `Insert(2)` leaves everything as it is. -/
theorem InsertAt_full (h : Represents m t s) (hroot : m.pRoot = some this)
    (hlen : TREE_MAX_HEIGHT ≤ (seek (keyOf key) (key i) t []).1.length) :
    (Probe key m this (key i) >>= fun r => InsertAt r.1 r.2 i) = .ok m := by
  obtain ⟨p, j, hp, -, htop, hget, -⟩ := Probe_full h hroot hlen
  have htop' : p.nStackTop = TREE_MAX_HEIGHT - 1 + 1 := htop
  rw [hp, Run.ok_bind, InsertAt]
  dsimp only
  rw [htop']
  dsimp only
  rw [hget]

/-- **The two forms of `Insert` agree**, but where the way to the place has `TREE_MAX_HEIGHT` nodes.
    At the empty place both walk back along the same path; where the key is found neither does
    anything. -/
theorem InsertAt_eq (h : Represents m t s) (hroot : m.pRoot = some this)
    (hlen : (seek (keyOf key) (key i) t []).2 = nil → (seek (keyOf key) (key i) t []).1.length ≠
      TREE_MAX_HEIGHT) :
    (Probe key m this (key i) >>= fun r => InsertAt r.1 r.2 i) = Insert key m this i := by
  rcases Nat.lt_or_ge (seek (keyOf key) (key i) t []).1.length TREE_MAX_HEIGHT with hshort | hlong
  · obtain ⟨c, xs, ys, hseek, -⟩ | ⟨c, x, l, r, hseek, -⟩ := h.seek_cases (key i)
    · rw [hseek] at hshort
      obtain ⟨p, hp, -, htop, hlast, hst, hnone⟩ := Probe_place h hroot hseek hshort
      obtain ⟨st, -, hst', hins⟩ := Insert_place h hroot hseek (Nat.le_of_lt hshort)
      rw [hp, hins, Run.ok_bind, InsertAt]
      dsimp only
      rw [htop]
      dsimp only
      rw [hlast, hnone]
      exact insertRebalance_stacked hst' hst _
    · rw [hseek] at hshort
      obtain ⟨p, hp, -, htop, hst, hget⟩ := Probe_found h hroot hseek hshort
      rw [hp, Insert_stop h hroot (fun hnil => by rw [hseek] at hnil; cases hnil), Run.ok_bind,
        InsertAt]
      dsimp only
      rw [htop]
      dsimp only
      rw [hst.1, hget]
  · rw [InsertAt_full h hroot hlong, Insert_stop h hroot fun hnil => lt_of_le_of_ne hlong
      (Ne.symm (hlen hnil))]

end StevenProgram.AvlTree
