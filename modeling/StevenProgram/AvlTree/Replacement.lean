/-
  `Replace`: another node in the place of the one with its key.

  Nothing is rebalanced: the new node takes over the slot, the two children and the state of the old
  one, and the old one is left as its constructor leaves a node, so that it may be inserted again at
  once.  That is the difference to `Remove`, which leaves the state.

  1.  **`replaceNode_spec`** — the new node gets the place, the children and the balance, whatever
     it held before; the old one is as the constructor left it.  The writes go through the slot of
     the old node and the new node's own fields, which are told apart by the names being different.

  2.  **The calls** — `replaceLoop_spec`: the loop of `Replace(1)` ends where the search ends.  It
     keeps no path, and so has no bound on the height; `Replace_spec` at any height, and that the
     two forms agree (`ReplaceAt_eq`), which needs a path that `Probe` could record.
-/
import StevenProgram.AvlTree.Insertion

namespace StevenProgram.AvlTree

open BinaryTree Store

variable {ι K : Type} [Comparable K] [DecidableEq ι] {key : ι → K} {k : K} {m m' : Store ι}
  {t t' l r : NodeTree ι} {s : SortedMap key}
  {c c' : NodePath ι} {i j this : ι} {b : Option Side} {fuel : Nat}

/-- **The new node in the place of the old one.** Field by field: the slot above names the new node,
    its children are those of the old one and its state too; the rest of the tree stays by the frame
    rule, and the old node's three fields are cleared. -/
theorem replaceNode_spec (h : Represents m (plug c (node (i, b) l r)) s) (hj : j ∉ s.elems)
    (hkey : key i = key j) :
    (replaceNode m (slotOf c) i j).2 = i ∧ Represents (replaceNode m (slotOf c) i j).1
      (plug c (node (j, b) l r)) (s.replace j) ∧
      (replaceNode m (slotOf c) i j).1.Constructed i ∧ ChangesOnly .root (j :: s.elems) m
        (replaceNode m (slotOf c) i j).1 := by
  obtain ⟨hpi, hbi, hl, hr, hlocal, haway, hsub, helems⟩ := target_at h
  have hlocal := List.nodup_cons.mp hlocal
  have hin : ∀ x ∈ i :: (l.names ++ r.names), x ∈ s.elems :=
    fun x hx => h.names ▸ mem_names_plug.mpr (.inl (hsub x hx))
  have haround : ∀ x ∈ around c, x ∈ s.elems := fun x hx => h.names ▸ mem_names_plug.mpr (.inr hx)
  have hji : j ≠ i := fun heq => hj (heq ▸ hin i (List.mem_cons_self ..))
  have houtj :
    ∀ n, ¬ Slot.child j n = slotOf c := fun n heq => hj (haround j (slotOf_eq_child heq.symm))
  have hout : ∀ x ∈ i :: (l.names ++ r.names), ∀ n, ¬ Slot.child x n = slotOf c :=
    fun x hx n heq => haway x hx (slotOf_eq_child heq.symm)
  have houti := hout i (List.mem_cons_self ..)
  have houtj' : ∀ n, ¬ slotOf c = Slot.child j n := fun n heq => houtj n heq.symm
  have houti' : ∀ n, ¬ slotOf c = Slot.child i n := fun n heq => houti n heq.symm
  rw [replaceNode, if_neg hji]
  dsimp only
  -- the new node is hung in, gets the children and the state, and the old one is reset
  let m1 := m.set (slotOf c) (some j)
  let m2 := m1.set (.child j .left) (m1.m_pChild i .left)
  let m3 := m2.set (.child j .right) (m2.m_pChild i .right)
  let m4 := m3.setState j (m3.m_nState i)
  let m5 := (m4.set (.child i .left) none).set (.child i .right) none
  have hc : ChangesOnly (slotOf c) [i, j] m (m5.setState i none) :=
    ((((((changesOnly_set (.inl rfl)).trans (changesOnly_set (.inr ⟨j, by simp, _, rfl⟩))).trans
      (changesOnly_set (.inr ⟨j, by simp, _, rfl⟩))).trans
      (changesOnly_setState (by simp))).trans (changesOnly_set (.inr ⟨i, by simp, _, rfl⟩))).trans
      (changesOnly_set (.inr ⟨i, by simp, _, rfl⟩))).trans (changesOnly_setState (by simp))
  -- the subtrees are away from both nodes
  have hkeep : ∀ {p : Option ι} {u : NodeTree ι}, (∀ x ∈ u.names, x ∈ l.names ++ r.names) →
    m.Holds p u → (m5.setState i none).Holds p u := by
    intro p u hu h
    refine hc.holds (fun x hx hxS => ?_) (fun x hx => hout x (List.mem_cons_of_mem _ (hu x hx))) h
    simp only [List.mem_cons, List.not_mem_nil, or_false] at hxS
    rcases hxS with rfl | rfl
    · exact hlocal.1 (hu x hx)
    · exact hj (hin x (List.mem_cons_of_mem _ (hu x hx)))
  have hT : (m5.setState i none).Holds ((m5.setState i none).get (slotOf c)) (node (j, b) l r) := by
    refine ⟨?_, ?_, ?_, ?_⟩
    · simp [m5, m4, m3, m2, m1, get_set, houtj', houti']
    · simp [m5, m4, m3, m2, m1, m_nState_setState, hji, hbi]
    · rw [show (m5.setState i none).m_pChild j .left =
        m.m_pChild i .left by simp [m5, m4, m3, m2, m1, m_pChild_set, hji, houti]]
      exact hkeep (fun x hx => List.mem_append_left _ hx) hl
    · rw [show (m5.setState i none).m_pChild j .right =
        m.m_pChild i .right by simp [m5, m4, m3, m2, m1, m_pChild_set, hji, hji.symm, houti]]
      exact hkeep (fun x hx => List.mem_append_right _ hx) hr
  refine ⟨rfl, ⟨?_, ?_, ?_⟩, ⟨?_, ?_⟩, ?_⟩
  · -- what is around the hole stays
    have hnodup := h.nodup
    rw [(names_plug_perm c _).nodup_iff] at hnodup
    refine (holds_plug_root c _).mpr
      ⟨hc.framed (List.nodup_append.mp hnodup).2.1 (fun x hx hxS => ?_) (by simp)
      ((holds_plug_root c _).mp h.holds).1, hT⟩
    simp only [List.mem_cons, List.not_mem_nil, or_false] at hxS
    rcases hxS with rfl | rfl
    · exact haway x (List.mem_cons_self ..) hx
    · exact hj (haround x hx)
  · have havl := avl_on.mp (avl_of_plug c (t := on .left (i, b) l r) h.avl)
    exact avl_plug c h.avl (avl_on.mpr havl : (on .left (j, b) l r).Avl) rfl
  · rw [names_plug, SortedMap.replace_split helems hkey]
    simp [BinaryTree.names]
  · simp [m_nState_setState]
  · intro n
    cases n
    · simp [m_pChild_set]
    · simp [m_pChild_set]
  · refine hc.whole (fun x hx => ?_) (fun x hx => List.mem_cons_of_mem _ (haround x hx))
    simp only [List.mem_cons, List.not_mem_nil, or_false] at hx
    rcases hx with rfl | rfl
    · exact List.mem_cons_of_mem _ (hin x (List.mem_cons_self ..))
    · exact List.mem_cons_self ..

/-! ## The calls -/

/-- The loop of `Replace(1)` ends where the search ends. -/
theorem replaceLoop_spec (h : m.Holds (m.get (slotOf c)) t) (hfuel : t.height < fuel) :
    replaceLoop key m k j fuel (slotOf c) = match (seek (keyOf key) k t c).2 with
      | nil => .ok (m, j)
      | node x _ _ => .ok (replaceNode m (slotOf (seek (keyOf key) k t c).1) x.1 j) := by
  obtain ⟨fuel, rfl⟩ : ∃ n, fuel = n + 1 := ⟨fuel - 1, by omega⟩
  induction t generalizing c fuel with
  | nil => rw [replaceLoop, holds_nil.mp h]; rfl
  | node x l r ihl ihr =>
    rw [replaceLoop, h.1]
    dsimp only
    by_cases hx : keyOf key x = k
    · rw [if_pos (CompareTo_eq.mpr hx), seek_found c hx]
    · rw [if_neg (fun h0 => hx (CompareTo_eq.mp h0)), dirOf_eq, seek_step l r c hx]
      have hkid := holds_step h (towards (keyOf key) k x)
      rw [height] at hfuel
      obtain ⟨fuel, rfl⟩ : ∃ n, fuel = n + 1 := ⟨fuel - 1, by omega⟩
      generalize towards (keyOf key) k x = d at *
      cases d
      · exact ihl hkid fuel (by omega)
      · exact ihr hkid fuel (by omega)

/-- `Replace` goes where the search goes: it ends at the node with the key, or at an empty place. -/
theorem Replace_eq (h : Represents m t s) (hroot : m.pRoot = some this) (hfuel : t.height < fuel) :
    Replace key m this k j fuel = match (seek (keyOf key) k t []).2 with
      | nil => .ok (m, j)
      | node x _ _ => .ok (replaceNode m (slotOf (seek (keyOf key) k t []).1) x.1 j) := by
  rw [Replace, setRoot_eq hroot]
  exact replaceLoop_spec h.holds_root hfuel

/-- **`Replace(1)` replaces as the map does**, at any height: what it hands back is the node that
    was there, ready to be inserted again, or the one it was given. -/
theorem Replace_spec (h : Represents m t s) (hroot : m.pRoot = some this) (hfuel : t.height < fuel)
    (j : ι) :
    ∃ m' t', Replace key m this (key j) j fuel = .ok (m', (s.find (key j)).getD j) ∧
    Represents m' t' (s.replace j) ∧
      t'.height = t.height ∧ ChangesOnly .root (s.elems ++ (s.replace j).elems) m m' ∧
      ∀ i, s.find (key j) = some i → i ≠ j → m'.Constructed i := by
  rw [Replace_eq h hroot hfuel]
  obtain ⟨c, xs, ys, hseek, -, -, -, -, -, -, hfind⟩ | ⟨c, ⟨i, b⟩, l, r, hseek, hplug, hkey,
    hfind⟩ := h.seek_cases (key j)
  · rw [hseek, hfind]
    refine ⟨m, t, rfl,
      by rw [SortedMap.replace_absent hfind]; exact h, rfl, .refl .., fun i hi => ?_⟩
    cases hi
  · rw [hseek, hfind]
    dsimp only
    subst hplug
    by_cases hij : j = i
    · -- the same object: nothing to do
      subst hij
      rw [replaceNode, if_pos rfl]
      refine ⟨m, _, rfl, ?_, rfl, .refl .., fun x hx hne => absurd (Option.some.inj hx).symm hne⟩
      have hsame :
        s.replace j = s := SortedMap.ext_elems
        ((SortedMap.replace_split (target_at h).2.2.2.2.2.2.2 rfl).trans
        (target_at h).2.2.2.2.2.2.2.symm)
      rw [hsame]
      exact h
    · have hj :
        j ∉ s.elems :=
        fun hin => hij (Option.some.inj ((SortedMap.find_eq_some.mpr ⟨hin, rfl⟩).symm.trans hfind))
      obtain ⟨hret, hrep, hnew, hc⟩ := replaceNode_spec h hj hkey
      have hin : j ∈ (s.replace j).elems := by
        rw [SortedMap.replace_split (target_at h).2.2.2.2.2.2.2 hkey]
        simp
      refine ⟨_, _, congrArg Except.ok (Prod.ext rfl hret), hrep, height_plug_congr c rfl,
        hc.mono fun x hx => ?_,
        fun x hx _ => Option.some.inj hx ▸ hnew⟩
      rcases List.mem_cons.mp hx with rfl | hx
      · exact List.mem_append_right _ hin
      · exact List.mem_append_left _ hx

/-- **The two forms of `Replace` agree**, unless `Probe` gave up. -/
theorem ReplaceAt_eq (h : Represents m t s) (hroot : m.pRoot = some this) (hfuel : t.height < fuel)
    (hlen : (seek (keyOf key) k t []).1.length < TREE_MAX_HEIGHT) :
    (Probe key m this k >>= fun r => ReplaceAt r.1 r.2 j) = Replace key m this k j fuel := by
  rw [Replace_eq h hroot hfuel]
  obtain ⟨c, xs, ys, hseek, -⟩ | ⟨c, ⟨i, b⟩, l, r, hseek, -⟩ := h.seek_cases k
  · rw [hseek] at hlen
    obtain ⟨p, hp, -, htop, hlast, -, hnone⟩ := Probe_place h hroot hseek hlen
    rw [hseek, hp, Run.ok_bind, ReplaceAt]
    dsimp only
    rw [htop]
    dsimp only
    rw [hlast, hnone]
  · rw [hseek] at hlen
    obtain ⟨p, hp, -, htop, hst, hget⟩ := Probe_found h hroot hseek hlen
    rw [hseek, hp, Run.ok_bind, ReplaceAt]
    dsimp only
    rw [htop]
    dsimp only
    rw [hst.1, hget]

end StevenProgram.AvlTree
