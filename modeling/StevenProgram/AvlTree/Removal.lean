/-
  `Remove`: the swap of the target with the last node in front of it, and the walk back.

  The descent does not stop at the target.  It goes left there and then right to the end, so the
  last node `p` of the path is the one in front of the target in the order.  `p` takes the target's
  place, its children and its state, and leaves its own place to its left subtree; one entry of the
  path still names a field of the target, and `*pppStack` mends it before the walk back.

  1.  **The path** (`stacked_swap`) — after the swap the arrays hold the path on which `p` stands
     where the target stood.

  2.  **The store** — `unlink_leaf` where the target has no left subtree and leaves its place to the
     right one, `unlink_swap` where `p` comes up.  The crux is that the fields are read and written
     in the source's order while `p` may be a child of the target itself; with the names all
     different the writes are told apart slot by slot.

  3.  **The swap and the walk back** — `removeSwap_spec`: the target is out, and keeps the balance
     it had, which is why it must be constructed anew before it is inserted again;
     `removeSwap_full`: without room for the entry above the target, `*pppStack` is past the array.

  4.  **The calls** — `Remove_fits` and `Remove_overrun` between them settle `Remove(1)` at any
     height, `Remove_spec` below the bound; `RemoveAt_eq`: the two forms agree, unless `Probe` gave
     up.
-/
import StevenProgram.AvlTree.Insertion

namespace StevenProgram.AvlTree

open BinaryTree Store

variable {ι K : Type} [Comparable K] {key : ι → K} {k : K} {m m' : Store ι}
  {t t' l r lp : NodeTree ι} {s : SortedMap key}
  {c c2 : NodePath ι} {st st' : Path ι} {i p this : ι} {b ps : Option Side}

/-! ## The path -/

/-- The hole of a longer path, from the hole of its outer part. -/
theorem slotFrom_append (c c' : NodePath ι) : slotOf (c ++ c') = slotFrom (slotOf c') c := by
  cases c <;> rfl

/-- **The mended path**: the node `p` stands where `i` stood. -/
theorem stacked_swap (h : Stacked st (c2 ++ ⟨.left, (i, b), r⟩ :: c))
    (hnode : st'.arppNodeStack = Function.update st.arppNodeStack (c.length + 1) (.child p .left))
    (hdir : st'.arnDirStack = st.arnDirStack) : Stacked st' (c2 ++ ⟨.left, (p, b), r⟩ :: c) := by
  induction c2 with
  | nil =>
    refine ⟨?_, by rw [hdir]; exact h.2.1, h.2.2.congr (fun j hj => ?_) (fun _ _ => by rw [hdir])⟩
    · rw [hnode, Function.update_of_ne (by omega)]; exact h.1
    · rw [hnode, Function.update_of_ne (by omega)]
  | cons f c2 ih =>
    rw [List.cons_append] at h ⊢
    obtain ⟨hn, hd, hrest⟩ := h
    refine ⟨?_, ?_, ih hrest⟩
    · rw [hnode, slotFrom_append]
      cases c2 with
      | nil => simp [slotFrom]
      | cons g c2 =>
        rw [Function.update_of_ne (by simp; omega),
          show (g :: c2 ++ ⟨.left, (p, b), r⟩ :: c).length =
          (g :: c2 ++ ⟨.left, (i, b), r⟩ :: c).length by simp, hn,
          slotFrom_append]
        rfl
    · rw [hdir, show (c2 ++ ⟨.left, (p, b), r⟩ :: c).length =
        (c2 ++ ⟨.left, (i, b), r⟩ :: c).length by simp]
      exact hd

/-! ## The store

  Both lemmas are about the writes alone: which tree hangs in the target's slot afterwards, and that
  nothing outside the tree changed. -/

variable [DecidableEq ι]

/-- What `Remove` stores where the last node on the path is the target itself. -/
theorem unlink_leaf (pp : Slot ι) (hr : m.Holds (m.m_pChild i .right) r) (hi : i ∉ r.names)
    (hout : ∀ n, Slot.child i n ≠ pp)
    (hrout : ∀ j ∈ r.names, ∀ n, Slot.child j n ≠ pp) :
    let m1 := m.set pp (some i)
    let m2 := m1.set pp (m1.m_pChild i .right)
    let m3 := m2.set (.child i .left) (m2.m_pChild i .left)
    let m4 := m3.set (.child i .right) (m3.m_pChild i .right)
    let m5 := m4.setState i (m4.m_nState i)
    let m6 := (m5.set (.child i .right) none).set (.child i .left) none
    m6.Holds (m6.get pp) r ∧ m6.m_nState i = m.m_nState i ∧ (∀ n, m6.m_pChild i n = none) ∧
      ChangesOnly pp [i] m m6 := by
  intro m1 m2 m3 m4 m5 m6
  have hc : ChangesOnly pp [i] m m6 :=
    ((((((changesOnly_set (.inl rfl)).trans (changesOnly_set (.inl rfl))).trans
      (changesOnly_set (.inr ⟨i, by simp, _, rfl⟩))).trans
      (changesOnly_set (.inr ⟨i, by simp, _, rfl⟩))).trans (changesOnly_setState (by simp))).trans
      (changesOnly_set (.inr ⟨i, by simp, _, rfl⟩))).trans
        (changesOnly_set (.inr ⟨i, by simp, _, rfl⟩))
  have hout' : ∀ n, ¬ pp = .child i n := fun n h => hout n h.symm
  have hget : m6.get pp = m.m_pChild i .right := by
    simp [m6, m5, m4, m3, m2, m1, get_set, m_pChild_set, hout', hout]
  refine ⟨?_, ?_, ?_, hc⟩
  · rw [hget]
    refine hc.holds (fun j hj hin => hi (List.mem_singleton.mp hin ▸ hj)) hrout hr
  · simp [m6, m5, m4, m3, m2, m1, m_nState_setState]
  · intro n
    cases n
    · simp [m6, m_pChild_set]
    · simp [m6, m_pChild_set]

/-- What it stores where the node `p` below takes the target's place.  The writes in the order of
    the source, each followed through the slots it does not touch: first the slot above goes to `p`,
    then `p`'s own place to its left subtree, then the target's children and state to `p`, and last
    the target's own fields are cleared. -/
theorem unlink_swap (pp : Slot ι)
    (hl : m.Holds (m.m_pChild i .left) (plug c2 (node (p, ps) lp nil)))
    (hr : m.Holds (m.m_pChild i .right) r)
    (hnodup : (i :: ((plug c2 (node (p, ps) lp nil)).names ++ r.names)).Nodup)
    (hout : ∀ j ∈ i :: ((plug c2 (node (p, ps) lp nil)).names ++ r.names), ∀ n,
      Slot.child j n ≠ pp) :
    let m1 := m.set pp (some p)
    let m2 := m1.set (slotFrom (.child i .left) c2) (m1.m_pChild p .left)
    let m3 := m2.set (.child p .left) (m2.m_pChild i .left)
    let m4 := m3.set (.child p .right) (m3.m_pChild i .right)
    let m5 := m4.setState p (m4.m_nState i)
    let m6 := (m5.set (.child i .right) none).set (.child i .left) none
    m6.Holds (m6.get pp) (on .left (p, m.m_nState i) (plug c2 lp) r) ∧
      m6.m_nState i = m.m_nState i ∧ (∀ n, m6.m_pChild i n = none) ∧
      ChangesOnly pp (i :: (plug c2 (node (p, ps) lp nil)).names) m m6 := by
  intro m1 m2 m3 m4 m5 m6
  obtain ⟨hiN, hnodup⟩ := List.nodup_cons.mp hnodup
  obtain ⟨hN, -, hNr⟩ := List.nodup_append.mp hnodup
  have hmemN : ∀ j, j ∈ (plug c2 (node (p, ps) lp nil)).names ↔ (j = p ∨ j ∈ lp.names) ∨
    j ∈ around c2 := by
    intro j
    rw [(names_plug_perm c2 _).mem_iff, List.mem_append]
    simp [BinaryTree.names, or_comm]
  have hmem : ∀ j, j ∈ (plug c2 lp).names ↔ j ∈ lp.names ∨ j ∈ around c2 := by
    intro j
    rw [(names_plug_perm c2 _).mem_iff, List.mem_append]
  have hsub : ∀ j ∈ (plug c2 lp).names, j ∈ (plug c2 (node (p, ps) lp nil)).names := fun j hj =>
    (hmemN j).mpr (((hmem j).mp hj).imp_left .inr)
  have hN' := hN
  rw [(names_plug_perm c2 _).nodup_iff, List.nodup_append] at hN'
  obtain ⟨hpl, -, hpc⟩ := hN'
  have hplp : p ∉ lp.names := by
    rw [show (node (p, ps) lp nil).names = lp.names ++ [p] by
      simp [BinaryTree.names], List.nodup_append] at hpl
    exact fun hin => hpl.2.2 p hin p (by simp) rfl
  have hpc2 : p ∉ around c2 := fun hin => hpc p (by simp [BinaryTree.names]) p hin rfl
  have hplug : p ∉ (plug c2 lp).names := fun hin => ((hmem p).mp hin).elim hplp hpc2
  have hpN : p ∈ (plug c2 (node (p, ps) lp nil)).names := (hmemN p).mpr (.inl (.inl rfl))
  have hip : i ≠ p := fun heq => hiN (List.mem_append_left _ (heq ▸ hpN))
  have houtN : ∀ j ∈ (plug c2 (node (p, ps) lp nil)).names, ∀ n, Slot.child j n ≠ pp :=
    fun j hj => hout j (by simp [hj])
  have houti : ∀ n, ¬ Slot.child i n = pp := hout i (by simp)
  have houtp : ∀ n, ¬ Slot.child p n = pp := houtN p hpN
  have houti' : ∀ n, ¬ pp = .child i n := fun n h => houti n h.symm
  have houtp' : ∀ n, ¬ pp = .child p n := fun n h => houtp n h.symm
  -- the slot the last node leaves: the target's left one, or the right one of a node between them
  have hhole : ∀ j n, slotFrom (.child i .left) c2 = .child j n → (j = i ∧ n = .left) ∨
    j ∈ around c2 := by
    intro j n h
    rcases slotFrom_eq_child h with h | h
    · cases h; exact .inl ⟨rfl, rfl⟩
    · exact .inr h
  have hhole_pp : ¬ pp = slotFrom (.child i .left) c2 := by
    intro h
    cases c2 with
    | nil => exact houti' .left h
    | cons f c2 => exact houtN f.label.1 ((hmemN _).mpr (.inr (by simp [around]))) f.side h.symm
  have hhole_p : ∀ n, ¬ Slot.child p n = slotFrom (.child i .left) c2 := by
    intro n h
    rcases hhole p n h.symm with ⟨h, -⟩ | h
    · exact hip h.symm
    · exact hpc2 h
  have hhole_r : ¬ Slot.child i .right = slotFrom (.child i .left) c2 := by
    intro h
    rcases hhole i .right h.symm with ⟨-, h⟩ | h
    · cases h
    · exact hiN (List.mem_append_left _ ((hmemN i).mpr (.inr h)))
  -- the left subtree without its last node, still on the target
  have hm1 : ChangesOnly pp [] m m1 := changesOnly_set (.inl rfl)
  have hl1 : m1.Holds (m1.get (.child i .left)) (plug c2 (node (p, ps) lp nil)) := by
    rw [show m1.get (.child i .left) = m.m_pChild i .left by simp [m1, m_pChild_set, houti]]
    exact hm1.holds (by simp) houtN hl
  have hm2 : ChangesOnly (slotFrom (.child i .left) c2) [] m1 m2 := changesOnly_set (.inl rfl)
  have hl2 : m2.Holds (m2.get (.child i .left)) (plug c2 lp) := by
    refine hm2.holds_plug hN (by simp) (fun j n h => ?_) hl1 ?_
    · cases h
      exact fun hin => hiN (List.mem_append_left _ hin)
    · rw [show m2.get (slotFrom (.child i .left) c2) = m1.m_pChild p .left by simp [m2, get_set]]
      refine hm2.holds (by simp) (fun j hj n h => ?_) ((Store.holds_plug c2 _).mp hl1).2.2.2.1
      rcases hhole j n h.symm with ⟨rfl, -⟩ | h
      · exact hiN (List.mem_append_left _ (hsub j ((hmem j).mpr (.inl hj))))
      · exact hpc j
          (by simp [BinaryTree.names]; exact .inl (by simpa [BinaryTree.names] using hj)) j h rfl
  have hm6 : ChangesOnly pp [i, p] m2 m6 :=
    ((((changesOnly_set (.inr ⟨p, by simp, _, rfl⟩)).trans
      (changesOnly_set (.inr ⟨p, by simp, _, rfl⟩))).trans (changesOnly_setState (by simp))).trans
      (changesOnly_set (.inr ⟨i, by simp, _, rfl⟩))).trans
        (changesOnly_set (.inr ⟨i, by simp, _, rfl⟩))
  have hall : ChangesOnly pp (i :: (plug c2 (node (p, ps) lp nil)).names) m m6 := by
    refine ((hm1.mono (by simp)).trans ?_).trans (hm6.mono ?_)
    · refine changesOnly_set (.inr ?_)
      cases hc2 : c2 with
      | nil => exact ⟨i, by simp, .left, rfl⟩
      | cons f c3 =>
        exact ⟨f.label.1,
          List.mem_cons_of_mem _ (hc2 ▸ (hmemN _).mpr (.inr (by simp [hc2, around]))), f.side, rfl⟩
    · intro j hj
      simp only [List.mem_cons, List.not_mem_nil, or_false] at hj
      rcases hj with rfl | rfl
      · exact List.mem_cons_self ..
      · exact List.mem_cons_of_mem _ hpN
  have hget : m6.get pp = some p := by
    simp [m6, m5, m4, m3, m2, m1, get_set, houti', houtp', hhole_pp]
  have hleft : m6.m_pChild p .left = m2.m_pChild i .left := by
    simp [m6, m5, m4, m3, m_pChild_set, hip.symm]
  have hright : m6.m_pChild p .right = m.m_pChild i .right := by
    simp [m6, m5, m4, m3, m2, m1, m_pChild_set, hip, hip.symm, houti, hhole_r]
  refine ⟨?_, ?_, ?_, hall⟩
  · rw [hget]
    refine holds_on.mpr ⟨rfl, by simp [m6, m5, m4, m3, m2, m1, m_nState_setState], ?_, ?_⟩
    · rw [hleft]
      refine hm6.holds (fun j hj hin => ?_) (fun j hj => houtN j (hsub j hj)) hl2
      simp only [List.mem_cons, List.not_mem_nil, or_false] at hin
      rcases hin with rfl | rfl
      · exact hiN (List.mem_append_left _ (hsub j hj))
      · exact hplug hj
    · show m6.Holds (m6.m_pChild p .right) r
      rw [hright]
      refine hall.holds (fun j hj hin => ?_) (fun j hj => hout j (by simp [hj])) hr
      rcases List.mem_cons.mp hin with rfl | hin
      · exact hiN (List.mem_append_right _ hj)
      · exact hNr j hin j hj rfl
  · simp [m6, m5, m4, m3, m2, m1, m_nState_setState, hip]
  · intro n
    cases n
    · simp [m6, m_pChild_set]
    · simp [m6, m_pChild_set]

/-! ## The swap and the walk back

  What the descent left on the path is known from `descend_target`: nothing below the target, or the
  way to the last node of its left subtree. -/

/-- The store after the swap, walked back through. -/
theorem walk_out {m6 : Store ι} {C : NodePath ι} {T : NodeTree ι} (hst : Stacked st C)
    (hT : m6.Holds m6.pRoot (plug C T))
    (hnames : (plug C T).names = (s.erase (key i)).elems) (hc : ChangesOnly .root s.elems m m6)
    (hstate : m6.m_nState i = b) (hchild : ∀ n, m6.m_pChild i n = none)
    (hshrink : ∃ t', shrink C T = some t' ∧ t'.Avl) :
    ∃ m' t', removeRebalance st C.length m6 = .ok m' ∧ Represents m' t' (s.erase (key i)) ∧
    m'.m_nState i = b ∧
      (∀ n, m'.m_pChild i n = none) ∧ ChangesOnly .root s.elems m m' := by
  obtain ⟨t', ht', havl⟩ := hshrink
  obtain ⟨m', hm', hrep, hc'⟩ := removeRebalance_spec hst (hnames ▸ (s.erase (key i)).nodup) hT ht'
  have hout : i ∉ (plug C T).names := by
    rw [hnames, SortedMap.elems_erase, List.mem_filter]
    simp
  refine ⟨m', t', hm', ⟨hrep, havl, (names_shrink ht').trans hnames⟩, (hc'.1 i hout).trans hstate,
    fun n => ?_, hc.trans (hc'.mono ?_)⟩
  · rw [hc'.2.1 i n hout (by simp)]; exact hchild n
  · intro j hj
    rw [hnames, SortedMap.elems_erase] at hj
    exact (List.mem_filter.mp hj).1

/-- Without a left subtree, the target leaves its place to the right one: the last node of the path
    is the target, and the tree in its hole became one lower. -/
theorem removeSwap_leaf (h : Represents m (plug c (node (i, b) nil r)) s)
    (hst : Stacked st (⟨.left, (i, b), r⟩ :: c))
    (htop : st.nStackTop = c.length + 1) (hroom : c.length + 1 < TREE_MAX_HEIGHT) :
    ∃ m' t', removeSwap m st (slotOf c) (c.length + 1) = .ok (m', some i) ∧ Represents m' t'
      (s.erase (key i)) ∧
      m'.m_nState i = b ∧ (∀ n, m'.m_pChild i n = none) ∧ ChangesOnly .root s.elems m m' := by
  obtain ⟨hpi, hbi, -, hr, hlocal, haway, hsub, helems⟩ := target_at h
  have hout : ∀ j ∈ i :: (([] : List ι) ++ r.names), ∀ n, Slot.child j n ≠ slotOf c :=
    fun j hj n heq => haway j hj (slotOf_eq_child heq.symm)
  have herase := SortedMap.erase_split helems
  obtain ⟨hn, hd, hst'⟩ := hst
  obtain ⟨hT, hstate, hchild, hc⟩ := unlink_leaf (slotOf c) hr
    (fun hin => (List.nodup_cons.mp hlocal).1 (by simpa using hin))
    (hout i (by simp)) (fun j hj => hout j (by simp [hj]))
  have hin : ∀ j ∈ [i], j ∈ (node (i, b) nil r).names := fun j hj => hsub j
    (List.mem_cons.mpr (.inl (List.mem_singleton.mp hj)))
  have hplug := hc.holds_plug h.nodup hin (by simp) h.holds hT
  obtain ⟨hlean, -, havl⟩ := avl_on.mp (avl_of_plug c (t := on .left (i, b) nil r) h.avl)
  have hshrink := shrink_avl c h.avl havl (by simp)
  have hmend :
    Stacked { st with
      arppNodeStack := Function.update st.arppNodeStack (c.length + 1) (.child i .right) } c :=
    hst'.congr (fun j hj => Function.update_of_ne (by omega) _ _) (fun _ _ => rfl)
  obtain ⟨m', t', hm', hrep, hrest⟩ := walk_out (s := s) (i := i) hmend hplug
    (by rw [names_plug, herase]; simp) (h.whole hc hin)
    (hstate.trans hbi) hchild hshrink
  refine ⟨m', t', ?_, hrep, hrest⟩
  rw [removeSwap, htop]
  dsimp only
  rw [hn, hd, hpi, deref_some, Run.ok_bind, Run.ok_bind, Path.setNode, if_pos hroom, Run.ok_bind]
  exact congrArg (fun x => x >>= fun m => pure (m, some i)) hm'

/-- With one, the last node of it takes the target's place: the hole is below, in the mended path,
    and the tree in it became one lower. -/
theorem removeSwap_deep
    (h : Represents m (plug c (node (i, b) (plug c2 (node (p, ps) lp nil)) r)) s)
    (hafter : after c2 = [])
    (hst : Stacked st (⟨.right, (p, ps), lp⟩ :: (c2 ++ ⟨.left, (i, b), r⟩ :: c)))
    (htop : st.nStackTop = (c2 ++ ⟨.left, (i, b), r⟩ :: c).length + 1)
    (hroom : c.length + 1 < TREE_MAX_HEIGHT) :
    ∃ m' t', removeSwap m st (slotOf c) (c.length + 1) = .ok (m', some i) ∧ Represents m' t'
      (s.erase (key i)) ∧
      m'.m_nState i = b ∧ (∀ n, m'.m_pChild i n = none) ∧ ChangesOnly .root s.elems m m' := by
  obtain ⟨hpi, hbi, hl, hr, hlocal, haway, hsub, helems⟩ := target_at h
  have hout :
    ∀ j ∈ i :: ((plug c2 (node (p, ps) lp nil)).names ++ r.names), ∀ n, Slot.child j n ≠ slotOf c :=
    fun j hj n heq =>
    haway j hj (slotOf_eq_child heq.symm)
  have herase := SortedMap.erase_split helems
  obtain ⟨hn, hd, hst'⟩ := hst
  obtain ⟨hT, hstate, hchild, hc⟩ := unlink_swap (slotOf c) hl hr hlocal hout
  rw [hbi] at hT hstate
  have hin :
    ∀ j ∈ i :: (plug c2 (node (p, ps) lp nil)).names,
    j ∈ (node (i, b) (plug c2 (node (p, ps) lp nil)) r).names := fun j hj => by
    refine hsub j ?_
    rcases List.mem_cons.mp hj with rfl | hj
    · exact List.mem_cons_self ..
    · exact List.mem_cons_of_mem _ (List.mem_append_left _ hj)
  have hplug := hc.holds_plug h.nodup hin (by simp) h.holds hT
  -- the tree seen from the place of `p`
  have hpath : plug c (on .left (p, b) (plug c2 lp) r) = plug (c2 ++ ⟨.left, (p, b), r⟩ :: c) lp :=
    by rw [plug_append]; rfl
  rw [hpath] at hplug
  have havl : (plug (c2 ++ ⟨.left, (p, b), r⟩ :: c) (node (p, ps) lp nil)).Avl := by
    have hnode :=
      avl_on.mp (avl_of_plug c (t := on .left (i, b) (plug c2 (node (p, ps) lp nil)) r) h.avl)
    rw [plug_append]
    exact avl_plug c h.avl (avl_on.mpr hnode) (by rw [height_on]; rfl)
  obtain ⟨hlean, hlp, -⟩ := avl_on.mp (avl_of_plug _ (t := on .left (p, ps) lp nil) havl)
  have hshrink := shrink_avl _ havl hlp (by simp)
  have hmend :
    Stacked { st with
      arppNodeStack := Function.update st.arppNodeStack (c.length + 1) (.child p .left) }
      (c2 ++ ⟨.left, (p, b), r⟩ :: c) := stacked_swap hst' rfl rfl
  have hnames : (plug (c2 ++ ⟨.left, (p, b), r⟩ :: c) lp).names = (s.erase (key i)).elems := by
    rw [herase, names_plug, before_append, after_append, hafter, names_plug, hafter]
    simp [before, after, BinaryTree.names]
  obtain ⟨m', t', hm', hrep, hrest⟩ := walk_out (s := s) (i := i) hmend hplug hnames
    (h.whole hc hin) hstate hchild hshrink
  refine ⟨m', t', ?_, hrep, hrest⟩
  have hlast : m.get (slotOf (c2 ++ ⟨.left, (i, b), r⟩ :: c)) = some p := by
    have hl' : m.Holds (m.get (.child i .left)) (plug c2 (node (p, ps) lp nil)) := hl
    rw [slotFrom_append]
    exact ((Store.holds_plug c2 _).mp hl').2.1
  rw [removeSwap, htop]
  dsimp only
  rw [hn, hd, hpi, deref_some, Run.ok_bind, hlast, deref_some, Run.ok_bind, Path.setNode,
    if_pos hroom, Run.ok_bind, slotFrom_append]
  rw [show (c2 ++ ⟨.left, (p, b), r⟩ :: c).length = (c2 ++ ⟨.left, (i, b), r⟩ :: c).length by simp]
    at hm'
  exact congrArg (fun x => x >>= fun m => pure (m, some i)) hm'

omit [DecidableEq ι] in
/-- Where the descent goes from the target. -/
theorem descend_target (h : Represents m (plug c (node (i, b) l r)) s) (C : NodePath ι) :
    (l = nil ∧ descend (keyOf key) (key i) l C = C) ∨
      ∃ c2 p ps lp, l = plug c2 (node (p, ps) lp nil) ∧ after c2 = [] ∧ descend (keyOf key)
      (key i) l C = ⟨.right, (p, ps), lp⟩ :: (c2 ++ C) := by
  by_cases hnil : l = nil
  · exact .inl ⟨hnil, by rw [hnil]; rfl⟩
  · have hsorted := h.sorted
    rw [inorder_plug, inorder_node, List.append_assoc, List.append_assoc, ← List.append_assoc]
      at hsorted
    have hl : ∀ a ∈ l.inorder, keyOf key a < key i := fun a ha =>
      (SortedMap.sorted_around hsorted).2.1 a (List.mem_append_right _ ha)
    obtain ⟨c2, ⟨p, ps⟩, lp, hplug, hafter, hd⟩ := descend_last hl hnil C
    exact .inr ⟨c2, p, ps, lp, hplug, hafter, hd⟩

/-- **From the swap to the end of `Remove`**: the target is out, with the balance it had, and the
    tree is balanced again. -/
theorem removeSwap_spec (h : Represents m (plug c (node (i, b) l r)) s)
    (hst : Stacked st (descend (keyOf key) (key i) l (⟨.left, (i, b), r⟩ :: c)))
    (htop : st.nStackTop = (descend (keyOf key) (key i) l (⟨.left, (i, b), r⟩ :: c)).length)
    (hroom : c.length + 1 < TREE_MAX_HEIGHT) :
    ∃ m' t', removeSwap m st (slotOf c) (c.length + 1) = .ok (m', some i) ∧ Represents m' t'
      (s.erase (key i)) ∧
      m'.m_nState i = b ∧ (∀ n, m'.m_pChild i n = none) ∧ ChangesOnly .root s.elems m m' := by
  obtain ⟨rfl, hd⟩ | ⟨c2, p, ps, lp, rfl, hafter, hd⟩ := descend_target h (⟨.left, (i, b), r⟩ :: c)
  · rw [hd] at hst htop
    exact removeSwap_leaf h hst htop hroom
  · rw [hd] at hst htop
    exact removeSwap_deep h hafter hst htop hroom

/-- Without room for the entry above the target, `*pppStack` is past the array. -/
theorem removeSwap_full (h : Represents m (plug c (node (i, b) l r)) s)
    (hst : Stacked st (descend (keyOf key) (key i) l (⟨.left, (i, b), r⟩ :: c)))
    (htop : st.nStackTop = (descend (keyOf key) (key i) l (⟨.left, (i, b), r⟩ :: c)).length)
    (hroom : TREE_MAX_HEIGHT ≤ c.length + 1) :
    removeSwap m st (slotOf c) (c.length + 1) = .error .outOfBounds := by
  obtain ⟨hpi, -, hl, -⟩ := target_at h
  obtain ⟨rfl, hd⟩ | ⟨c2, p, ps, lp, rfl, hafter, hd⟩ := descend_target h (⟨.left, (i, b), r⟩ :: c)
  · rw [hd] at hst htop
    rw [removeSwap, htop]
    dsimp only [List.length_cons]
    rw [hst.1, hpi, deref_some, Run.ok_bind, Run.ok_bind, Path.setNode, if_neg (by omega)]
    rfl
  · rw [hd] at hst htop
    have hl' : m.Holds (m.get (.child i .left)) (plug c2 (node (p, ps) lp nil)) := hl
    rw [removeSwap, htop]
    dsimp only [List.length_cons]
    rw [hst.1, hpi, deref_some, Run.ok_bind, slotFrom_append,
      show slotOf (⟨.left, (i, b), r⟩ :: c) = .child i .left from rfl,
      ((Store.holds_plug c2 _).mp hl').2.1, deref_some, Run.ok_bind, Path.setNode,
        if_neg (by omega)]
    rfl

/-! ## The calls -/

section Calls

variable {x : ι × Option Side}

/-- The first loop of `Remove(1)` from the root. -/
theorem Remove_eq (h : Represents m t s) (hroot : m.pRoot = some this)
    (hlen : (descend (keyOf key) k t []).length ≤ TREE_MAX_HEIGHT) :
    ∃ st, st.nStackTop = (descend (keyOf key) k t []).length ∧
    Stacked st (descend (keyOf key) k t []) ∧
      Remove key m this k = match (seek (keyOf key) k t []).2 with
        | nil => .ok (m, none)
        | node _ _ _ => removeSwap m st (slotOf (seek (keyOf key) k t []).1)
            ((seek (keyOf key) k t []).1.length + 1) := by
  obtain ⟨st, hst, htop, hstack⟩ := removeLoop_spec h.sorted h.walk hlen none
  refine ⟨st, htop, hstack, ?_⟩
  rw [Remove, setRoot_eq hroot]
  show (removeLoop key m k (TREE_MAX_HEIGHT + 1) (slotOf []) .start none >>= _) = _
  rw [hst, Run.ok_bind]
  cases (seek (keyOf key) k t []).2 <;> rfl

/-- **`Remove(1)` removes as the map does**, and returns what it removed, where the path and the
    entry above the target have room. -/
theorem Remove_fits (h : Represents m t s) (hroot : m.pRoot = some this)
    (hlen : (descend (keyOf key) k t []).length ≤ TREE_MAX_HEIGHT)
    (hroom : (seek (keyOf key) k t []).2 ≠ nil → (seek (keyOf key) k t []).1.length + 1 <
      TREE_MAX_HEIGHT) :
    ∃ m' t', Remove key m this k = .ok (m', s.find k) ∧ Represents m' t' (s.erase k) ∧
    ChangesOnly .root s.elems m m' ∧
      ∀ i, s.find k = some i → m'.m_nState i = m.m_nState i ∧ ∀ n, m'.m_pChild i n = none := by
  obtain ⟨st, htop, hst, hrem⟩ := Remove_eq h hroot hlen
  obtain ⟨c, xs, ys, hseek, -, -, -, -, -, -, hfind⟩ | ⟨c, ⟨i, b⟩, l, r, hseek, hplug, hkey,
    hfind⟩ := h.seek_cases k
  · rw [hseek] at hrem
    refine ⟨m, t,
      by rw [hrem, hfind], by rw [SortedMap.erase_absent hfind]; exact h, .refl .., fun i hi => ?_⟩
    rw [hfind] at hi
    cases hi
  · rw [descend_seek, hseek] at htop hst
    rw [hseek] at hrem hroom
    subst hkey hplug
    obtain ⟨m', t', hm', hrep, hstate, hchild, hc⟩ := removeSwap_spec h hst htop (hroom (by simp))
    refine ⟨m', t', by rw [hrem, hm', hfind], hrep, hc, fun j hj => ?_⟩
    rw [hfind] at hj
    cases hj
    exact ⟨hstate.trans (target_at h).2.1.symm, hchild⟩

/-- **`Remove(1)` runs over its arrays** exactly when the descent meets more than `TREE_MAX_HEIGHT`
    nodes, or the target is the last one there is room for. -/
theorem Remove_overrun (h : Represents m t s) (hroot : m.pRoot = some this) :
    Remove key m this k = .error .outOfBounds ↔
      TREE_MAX_HEIGHT < (descend (keyOf key) k t []).length ∨
      ((seek (keyOf key) k t []).2 ≠ nil ∧ TREE_MAX_HEIGHT ≤ (seek (keyOf key) k t []).1.length +
        1) := by
  rcases Nat.lt_or_ge TREE_MAX_HEIGHT (descend (keyOf key) k t []).length with hover | hlen
  · refine ⟨fun _ => .inl hover, fun _ => ?_⟩
    rw [Remove, setRoot_eq hroot]
    show (removeLoop key m k (TREE_MAX_HEIGHT + 1) (slotOf []) .start none >>= _) = _
    rw [removeLoop_over h.walk hover]
    rfl
  by_cases hroom :
    (seek (keyOf key) k t []).2 ≠ nil ∧ TREE_MAX_HEIGHT ≤ (seek (keyOf key) k t []).1.length + 1
  · refine ⟨fun _ => .inr hroom, fun _ => ?_⟩
    obtain ⟨st, htop, hst, hrem⟩ := Remove_eq h hroot hlen
    obtain ⟨c, xs, ys, hseek, -⟩ | ⟨c, ⟨i, b⟩, l, r, hseek, hplug, hkey, -⟩ := h.seek_cases k
    · exact absurd (by rw [hseek]) hroom.1
    · rw [descend_seek, hseek] at htop hst
      rw [hseek] at hrem hroom
      subst hkey hplug
      rw [hrem]
      exact removeSwap_full h hst htop hroom.2
  · refine ⟨fun herr => ?_, fun hor => ?_⟩
    · obtain ⟨m', t', hok, -⟩ := Remove_fits h hroot hlen (fun hne => Nat.lt_of_not_le fun hle =>
        hroom ⟨hne, hle⟩)
      rw [hok] at herr
      cases herr
    · rcases hor with hlt | hr
      · omega
      · exact absurd hr hroom

/-- **`Remove(1)`** in a tree of fewer than `TREE_MAX_HEIGHT` levels. -/
theorem Remove_spec (h : Represents m t s) (hroot : m.pRoot = some this)
    (hheight : t.height < TREE_MAX_HEIGHT) (k : K) :
    ∃ m' t', Remove key m this k = .ok (m', s.find k) ∧ Represents m' t' (s.erase k) ∧
    ChangesOnly .root s.elems m m' ∧
      ∀ i, s.find k = some i → m'.m_nState i = m.m_nState i ∧ ∀ n, m'.m_pChild i n = none := by
  have hlen := descend_length (keyOf key) k t []
  have hdeep := seek_length (keyOf key) k t
  refine Remove_fits h hroot (by simp only [List.length_nil] at hlen; omega) (fun hne => ?_)
  have hpos : 0 < (seek (keyOf key) k t []).2.height := Nat.pos_of_ne_zero
    (mt height_eq_zero.mp hne)
  omega

/-! ## `Remove(2)` -/

/-- Only the entries below the top matter on the way back. -/
theorem removeRebalance_congr {st st' : Path ι} :
    ∀ (n : Nat) (m : Store ι), (∀ j < n, st'.arppNodeStack j = st.arppNodeStack j) →
    (∀ j < n, st'.arnDirStack j = st.arnDirStack j) →
      removeRebalance st' n m = removeRebalance st n m
  | 0, _, _, _ => rfl
  | n + 1, m, hnode, hdir => by
      have ih : ∀ m, removeRebalance st' n m = removeRebalance st n m := fun m =>
        removeRebalance_congr n m (fun j hj => hnode j (by omega)) (fun j hj => hdir j (by omega))
      simp only [removeRebalance, hnode n (by omega), hdir n (by omega), ih]

/-- The rest of `Remove` reads the path and nothing else. -/
theorem removeSwap_stacked {st st' : Path ι} {C : NodePath ι} (hst : Stacked st C)
    (hst' : Stacked st' C) (htop : st.nStackTop = C.length)
    (htop' : st'.nStackTop = C.length) (m : Store ι) (pp : Slot ι) (n : Nat) :
    removeSwap m st' pp n = removeSwap m st pp n := by
  cases C with
  | nil => rw [removeSwap, removeSwap, htop, htop']; rfl
  | cons f C =>
    obtain ⟨hn, hd⟩ := Stacked.agree hst hst' C.length (by simp)
    have hwalk :
      ∀ q m, removeRebalance
      { st' with arppNodeStack := Function.update st'.arppNodeStack n q } C.length m =
        removeRebalance
          { st with arppNodeStack := Function.update st.arppNodeStack n q } C.length m := by
      intro q m
      refine removeRebalance_congr C.length m (fun j hj => ?_)
        (fun j hj => (Stacked.agree hst.2.2 hst'.2.2 j hj).2)
      show Function.update st'.arppNodeStack n q j = Function.update st.arppNodeStack n q j
      rw [Function.update_apply, Function.update_apply, (Stacked.agree hst.2.2 hst'.2.2 j hj).1]
    rw [removeSwap, removeSwap, htop, htop']
    dsimp only [List.length_cons]
    rw [hn, hd]
    simp only [Path.setNode]
    by_cases hroom : n < TREE_MAX_HEIGHT
    · simp only [if_pos hroom, Run.ok_bind, hwalk]
    · simp only [if_neg hroom]

/-- **The two forms of `Remove` agree**, unless `Probe` gave up.  `Remove(2)` starts its loop at the
    target, with the path of `Probe`; the two loops together make the descent of `Remove(1)`, so
    both come to the same swap with the same path. -/
theorem RemoveAt_eq (h : Represents m t s) (hroot : m.pRoot = some this)
    (hlen : (seek (keyOf key) k t []).1.length < TREE_MAX_HEIGHT) :
    (Probe key m this k >>= fun r => RemoveAt key r.1 r.2) = Remove key m this k := by
  obtain ⟨c, xs, ys, hseek, -⟩ | ⟨c, ⟨i, b⟩, l, r, hseek, hplug, hkey, hfind⟩ := h.seek_cases k
  · -- not there: the path ends at a null child, and both return
    rw [hseek] at hlen
    obtain ⟨p, hp, -, htop, hlast, -, hnone⟩ := Probe_place h hroot hseek hlen
    have hd : descend (keyOf key) k t [] = c := by rw [descend_seek, hseek]
    obtain ⟨st, -, -, hrem⟩ := Remove_eq h hroot (k := k) (by rw [hd]; exact Nat.le_of_lt hlen)
    rw [hrem, hseek, hp, Run.ok_bind, RemoveAt]
    dsimp only
    rw [htop]
    dsimp only
    rw [hlast, hnone]
  · rw [hseek] at hlen
    have hlen : c.length < TREE_MAX_HEIGHT := hlen
    obtain ⟨p, hp, -, htop, hst, hget⟩ := Probe_found h hroot hseek hlen
    have hd : descend (keyOf key) k t [] = descend (keyOf key) k l (⟨.left, (i, b), r⟩ :: c) := by
      rw [descend_seek, hseek]
    have hl : m.Holds (m.get (slotOf (⟨.left, (i, b), r⟩ :: c))) l := by
      subst hplug
      exact (target_at h).2.2.1
    rw [hp, Run.ok_bind, RemoveAt]
    dsimp only
    rw [htop]
    dsimp only
    rw [hst.1, hget, hst.2.1]
    show (removeAtLoop key m (key i) (TREE_MAX_HEIGHT + 1)
      (slotOf (⟨.left, (i, b), r⟩ :: c)) p.toPath >>= _) = _
    have hkey : key i = k := hkey
    -- there: both go on from the same path, with the same walk to the place of the neighbour
    have hwalk : Walk m (⟨.left, (i, b), r⟩ :: c) l p.toPath (TREE_MAX_HEIGHT + 1) :=
      ⟨hl, hst, htop, hlen, by omega⟩
    rw [hkey]
    rcases Nat.lt_or_ge TREE_MAX_HEIGHT (descend (keyOf key) k t []).length with hover | hfits
    · rw [(Remove_overrun h hroot).mpr (.inl hover), removeAtLoop_over hwalk (hd ▸ hover)]
      rfl
    · obtain ⟨st, htop', hst', hrem⟩ := Remove_eq h hroot hfits
      obtain ⟨st2, hloop, htop2, hst2⟩ := removeAtLoop_spec hwalk (hd ▸ hfits)
      rw [hrem, hseek, hloop, Run.ok_bind]
      rw [hd] at htop' hst'
      exact removeSwap_stacked hst' hst2 htop' htop2 m _ _

/-- After `FULL` there is no room for anything `Remove(2)` writes. -/
theorem RemoveAt_full (h : Represents m t s) (hroot : m.pRoot = some this)
    (hlen : TREE_MAX_HEIGHT ≤ (seek (keyOf key) k t []).1.length) :
    (Probe key m this k >>= fun r => RemoveAt key r.1 r.2) = .error .outOfBounds := by
  obtain ⟨p, i, hp, -, htop, hget, -⟩ := Probe_full h hroot hlen
  have htop : p.nStackTop = 32 + 1 := htop
  have hget : m.get (p.arppNodeStack 32) = some i := hget
  rw [hp, Run.ok_bind, RemoveAt]
  dsimp only
  rw [htop]
  dsimp only
  rw [hget]
  dsimp only
  rw [removeAtLoop]
  cases hnext : m.get (.child i (p.arnDirStack 32)) with
  | none =>
    dsimp only
    rw [Run.ok_bind, removeSwap, htop]
    dsimp only
    rw [hget, deref_some, Run.ok_bind, Run.ok_bind, Path.setNode, if_neg (by decide)]
    rfl
  | some j =>
    dsimp only
    rw [Path.push, Path.setNode, htop, if_neg (by decide)]
    rfl

end Calls

end StevenProgram.AvlTree
