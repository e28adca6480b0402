/-
  `Rotate` and the loops that walk back to the root.

  The rotations are the place where the class is most easily wrong: up to five pointers and three
  states change, in an order in which each is read before it is overwritten.  They are followed here
  field by field, once (`Rotate_single`, `Rotate_double`); everything later knows only which tree
  comes out.

  1.  **`Rotate`** (`Rotate_spec`) — on nodes that form a tree it makes the tree `rotateUp` makes,
     with the same answer, and changes nothing else.  The side is a variable, so the left and the
     right rotation are one proof.  What the proof needs is that the two or three nodes are
     different ones and stand in none of the subtrees; that is the `Nodup` of the names.

  2.  **Walking back** — `insertRebalance_spec` and `removeRebalance_spec`: the loops make of a path
     and the tree in its hole what `grow` and `shrink` make of them.  By induction on the path:
     `walk_step` reads the top entry, and one turn either sets a state (`holds_setState`) or rotates
     (`holds_Rotate`), in the hole of what is left of the path.
-/
import StevenProgram.AvlTree.Layout

namespace StevenProgram.AvlTree

open BinaryTree Store

variable {ι : Type} {m : Store ι} {pp : Slot ι} {a b g : ι} {d : Side} {s sb sg : Option Side}
  {t t' u x y p q : NodeTree ι} {c : NodePath ι} {r : NodeTree ι × Bool}

/-! ## Rotation

  `a` is the node that is rotated, `b` its child on the side `d` and `g` the inner child of that;
  `x`, `p`, `q`, `y` and `u` are the subtrees between them, from the side `d` on. -/

@[simp] theorem deref_some {α : Type} (a : α) : deref (some a) = .ok a := rfl

/-- The node the walk looks at next: the top entry of the arrays is the slot it hangs in and the
    side the path took. -/
theorem walk_step {st : Path ι} (hst : Stacked st (⟨d, (a, s), u⟩ :: c))
    (h : m.Holds m.pRoot (plug c (on d (a, s) t u))) :
    st.arppNodeStack c.length = slotOf c ∧ st.arnDirStack c.length = d ∧ m.get (slotOf c) = some a ∧
    m.m_nState a = s := by
  obtain ⟨hn, hd, -⟩ := hst
  obtain ⟨hp, hs, -, -⟩ := holds_on.mp ((holds_plug_root c _).mp h).2
  exact ⟨hn, hd, hp, hs⟩

variable [DecidableEq ι]

/-- The single rotation: the subtree `y` between the two nodes changes hands. -/
theorem Rotate_single (ha : m.Holds (some a) (on d (a, s) (on d (b, sb) x y) u))
    (hsb : sb ≠ some d.other)
    (hab : a ≠ b) (hax : a ∉ x.names ++ y.names ++ u.names)
    (hbx : b ∉ x.names ++ y.names ++ u.names)
    (hout : ∀ i ∈ a :: b :: (x.names ++ y.names ++ u.names), ∀ n, Slot.child i n ≠ pp) :
    ∃ m', Rotate m a pp d = .ok (m', decide (sb = none)) ∧
      m'.Holds (m'.get pp)
        (if sb = none then on d (b, some d.other) x (on d (a, s) y u)
          else on d (b, none) x (on d (a, none) y u)) ∧
      ChangesOnly pp [a, b] m m' := by
  obtain ⟨-, hs, ht, hu⟩ := holds_on.mp ha
  obtain ⟨hb, hsb', hx, hy⟩ := holds_on.mp ht
  have hppa : ∀ n, ¬ Slot.child a n = pp := hout a (by simp)
  have hppb : ∀ n, ¬ Slot.child b n = pp := hout b (by simp)
  -- the three pointers, in the order of the source
  let m1 := ((m.set (.child a d) (m.m_pChild b d.other)).set (.child b d.other) (some a)).set pp
    (some b)
  have hm1 : ChangesOnly pp [a, b] m m1 :=
    ((changesOnly_set (.inr ⟨a, by simp, d, rfl⟩)).trans
      (changesOnly_set (.inr ⟨b, by simp, d.other, rfl⟩))).trans
      (changesOnly_set (.inl rfl))
  have htop : m1.get pp = some b := by simp [m1, get_set]
  have hbd : m1.m_pChild b d = m.m_pChild b d := by simp [m1, m_pChild_set, hppb, hab.symm]
  have hbr : m1.m_pChild b d.other = some a := by simp [m1, m_pChild_set, hppb]
  have had : m1.m_pChild a d = m.m_pChild b d.other := by simp [m1, m_pChild_set, hppa, hab]
  have har : m1.m_pChild a d.other = m.m_pChild a d.other := by simp [m1, m_pChild_set, hppa, hab]
  have hstate : m1.m_nState = m.m_nState := by simp [m1]
  -- the subtrees are away from `a`, from `b` and from the slot above, and stay
  have hkeep :
    ∀ {m' p z}, ChangesOnly pp [a, b] m m' → (∀ i ∈ z.names, i ∈ x.names ++ y.names ++ u.names) →
    m.Holds p z → m'.Holds p z := by
    intro m' p z hc hz h
    refine hc.holds (fun i hi hin => ?_)
      (fun i hi n => hout i (List.mem_cons_of_mem _ (List.mem_cons_of_mem _ (hz i hi))) n) h
    rcases List.mem_cons.mp hin with rfl | hin
    · exact hax (hz i hi)
    · exact hbx (List.mem_singleton.mp hin ▸ hz i hi)
  have hxS : ∀ i ∈ x.names, i ∈ x.names ++ y.names ++ u.names := fun i hi => by simp [hi]
  have hyS : ∀ i ∈ y.names, i ∈ x.names ++ y.names ++ u.names := fun i hi => by simp [hi]
  have huS : ∀ i ∈ u.names, i ∈ x.names ++ y.names ++ u.names := fun i hi => by simp [hi]
  -- a balanced child leans the other way afterwards, and the height is as before
  by_cases hnone : sb = none
  · have hm' : ChangesOnly pp [a, b] m (m1.setState b (some d.other)) :=
      hm1.trans (changesOnly_setState (by simp))
    refine ⟨m1.setState b (some d.other), ?_, ?_, hm'⟩
    · simp [Rotate, hb, hsb', hnone, m1]
      rfl
    rw [if_pos hnone, get_setState, htop, holds_on, m_pChild_setState, hbd, hbr, holds_on,
      m_pChild_setState, had, har]
    refine ⟨rfl,
      by simp [m_nState_setState], hkeep hm' hxS hx, rfl, ?_, hkeep hm' hyS hy, hkeep hm' huS hu⟩
    rw [m_nState_setState, if_neg hab, hstate, hs]
  · have hm' : ChangesOnly pp [a, b] m ((m1.setState a none).setState b none) :=
      (hm1.trans (changesOnly_setState (by simp))).trans (changesOnly_setState (by simp))
    refine ⟨(m1.setState a none).setState b none, ?_, ?_, hm'⟩
    · simp [Rotate, hb, hsb', hnone, hsb, m1, get_set]
    rw [if_neg hnone, get_setState, get_setState, htop, holds_on, m_pChild_setState,
      m_pChild_setState, hbd, hbr, holds_on,
      m_pChild_setState, m_pChild_setState, had, har]
    refine ⟨rfl,
      by simp [m_nState_setState], hkeep hm' hxS hx, rfl, ?_, hkeep hm' hyS hy, hkeep hm' huS hu⟩
    simp [m_nState_setState]

/-- The double rotation: the root `g` of the subtree between the two nodes comes to the top, and
    hands out its own. -/
theorem Rotate_double
    (ha : m.Holds (some a) (on d (a, s) (on d (b, some d.other) x (on d (g, sg) p q)) u))
    (hab : a ≠ b) (hag : a ≠ g) (hbg : b ≠ g) (hax : a ∉ x.names ++ p.names ++ q.names ++ u.names)
    (hbx : b ∉ x.names ++ p.names ++ q.names ++ u.names)
    (hgx : g ∉ x.names ++ p.names ++ q.names ++ u.names)
    (hout : ∀ i ∈ a :: b :: g :: (x.names ++ p.names ++ q.names ++ u.names), ∀ n,
      Slot.child i n ≠ pp) :
    ∃ m', Rotate m a pp d = .ok (m', false) ∧
      m'.Holds (m'.get pp)
      (on d (g, none) (on d (b, if sg = some d.other then some d else none) x p)
        (on d (a, if sg = some d then some d.other else none) q u)) ∧
      ChangesOnly pp [a, b, g] m m' := by
  obtain ⟨-, hs, ht, hu⟩ := holds_on.mp ha
  obtain ⟨hb, hsb, hx, hy⟩ := holds_on.mp ht
  obtain ⟨hg, hsg, hp, hq⟩ := holds_on.mp hy
  have hppa : ∀ n, ¬ Slot.child a n = pp := hout a (by simp)
  have hppb : ∀ n, ¬ Slot.child b n = pp := hout b (by simp)
  have hppg : ∀ n, ¬ Slot.child g n = pp := hout g (by simp)
  -- the five pointers, and then the states; `m3` is behind the test of the middle node's state
  let m1 :=
    ((((m.set (.child b d.other) (m.m_pChild g d)).set (.child a d) (m.m_pChild g d.other)).set
    (.child g d) (some b)).set
    (.child g d.other) (some a)).set pp (some g)
  let m2 := (m1.setState a none).setState b none
  let m3 :=
    if sg = some d then m2.setState a (some d.other)
    else if sg = some d.other then m2.setState b (some d) else m2
  have hm1 : ChangesOnly pp [a, b, g] m m1 :=
    ((((changesOnly_set (.inr ⟨b, by simp, d.other, rfl⟩)).trans
      (changesOnly_set (.inr ⟨a, by simp, d, rfl⟩))).trans
      (changesOnly_set (.inr ⟨g, by simp, d, rfl⟩))).trans
        (changesOnly_set (.inr ⟨g, by simp, d.other, rfl⟩))).trans
      (changesOnly_set (.inl rfl))
  have hm' : ChangesOnly pp [a, b, g] m (m3.setState g none) := by
    have hm2 : ChangesOnly pp [a, b, g] m m2 := (hm1.trans (changesOnly_setState (by simp))).trans
      (changesOnly_setState (by simp))
    refine ChangesOnly.trans ?_ (changesOnly_setState (by simp))
    unfold m3
    split_ifs
    · exact hm2.trans (changesOnly_setState (by simp))
    · exact hm2.trans (changesOnly_setState (by simp))
    · exact hm2
  have hchild : m3.m_pChild = m1.m_pChild := by unfold m3 m2; split_ifs <;> rfl
  have htop : m3.get pp = some g := by
    have h1 : m1.get pp = some g := by simp [m1, get_set]
    unfold m3 m2
    split_ifs <;> simp only [get_setState, h1]
  -- the state of `g` is read behind the first two states are set, and is still the old one
  have hstate_g : m2.m_nState g = sg := by
    rw [m_nState_setState, if_neg hbg.symm, m_nState_setState, if_neg hag.symm]
    simpa [m1] using hsg
  have hstate_b : m3.m_nState b = if sg = some d.other then some d else none := by
    unfold m3 m2
    split_ifs with h1 h2 h2
    · rw [h1] at h2; exact absurd (Option.some.inj h2) (Side.ne_other d)
    · simp [m_nState_setState, hab.symm]
    · simp [m_nState_setState]
    · simp [m_nState_setState]
  have hstate_a : m3.m_nState a = if sg = some d then some d.other else none := by
    unfold m3 m2
    split_ifs with h1 h2
    · simp [m_nState_setState]
    · simp [m_nState_setState, hab]
    · simp [m_nState_setState, hab]
  have hgd : m1.m_pChild g d = some b := by simp [m1, m_pChild_set, hppg]
  have hgr : m1.m_pChild g d.other = some a := by simp [m1, m_pChild_set, hppg]
  have hbd : m1.m_pChild b d = m.m_pChild b d := by simp [m1, m_pChild_set, hppb, hab.symm, hbg]
  have hbr : m1.m_pChild b d.other = m.m_pChild g d := by
    simp [m1, m_pChild_set, hppb, hab.symm, hbg]
  have had : m1.m_pChild a d = m.m_pChild g d.other := by simp [m1, m_pChild_set, hppa, hag]
  have har : m1.m_pChild a d.other = m.m_pChild a d.other := by
    simp [m1, m_pChild_set, hppa, hab, hag]
  -- the four subtrees stay
  have hkeep : ∀ {p' z}, (∀ i ∈ z.names, i ∈ x.names ++ p.names ++ q.names ++ u.names) →
    m.Holds p' z → (m3.setState g none).Holds p' z := by
    intro p' z hz h
    refine hm'.holds (fun i hi hin => ?_) (fun i hi n => hout i ?_ n) h
    · simp only [List.mem_cons, List.not_mem_nil, or_false] at hin
      rcases hin with rfl | rfl | rfl
      · exact hax (hz i hi)
      · exact hbx (hz i hi)
      · exact hgx (hz i hi)
    · exact List.mem_cons_of_mem _ (List.mem_cons_of_mem _ (List.mem_cons_of_mem _ (hz i hi)))
  refine ⟨m3.setState g none, ?_, ?_, hm'⟩
  · have hgo :
      (m.set (.child b d.other) (m.m_pChild g d)).m_pChild g d.other = m.m_pChild g d.other := by
      simp [m_pChild_set, hbg.symm]
    unfold Rotate
    simp only [hb, deref_some, Run.ok_bind, hsb, hg, ne_eq, not_true_eq_false, if_false, hgo]
    show (deref (Store.get (if m2.m_nState g = some d then _ else if m2.m_nState g = some d.other
      then _ else m2) pp) >>= fun top => _) = _
    rw [hstate_g]
    show (deref (m3.get pp) >>= fun top => pure (m3.setState top none, false)) = _
    rw [htop]
    rfl
  · rw [get_setState, htop, holds_on, m_pChild_setState, hchild, hgd, hgr, holds_on, holds_on,
      m_pChild_setState, hchild, hbd, hbr, had, har]
    refine ⟨rfl,
      by simp [m_nState_setState],
      ⟨rfl, ?_, hkeep (fun i hi => by simp [hi]) hx, hkeep (fun i hi => by simp [hi]) hp⟩, rfl, ?_,
      hkeep (fun i hi => by simp [hi]) hq, hkeep (fun i hi => by simp [hi]) hu⟩
    · rw [m_nState_setState, if_neg hbg, hstate_b]
    · rw [m_nState_setState, if_neg hag, hstate_a]

/-- **`Rotate` is the rotation of trees.** The shapes of `rotateUp_cases`: the single rotation where
    the child does not lean inwards, and the double one where it does. -/
theorem Rotate_spec (hpp : m.get pp = some a) (ha : m.Holds (m.get pp) (on d (a, s) t u))
    (hnodup : (on d (a, s) t u).names.Nodup)
    (hout : ∀ i ∈ (on d (a, s) t u).names, ∀ n, Slot.child i n ≠ pp)
    (hr : rotateUp d (a, s) t u = some r) :
    ∃ m', Rotate m a pp d = .ok (m', r.2) ∧ m'.Holds (m'.get pp) r.1 ∧
    ChangesOnly pp (on d (a, s) t u).names m m' := by
  rw [hpp] at ha
  -- from here on only the names: that they are different, and which of them are written
  obtain ⟨b, x, y, rfl, rfl⟩ | ⟨b, x, y, rfl, rfl⟩ | ⟨b, x, g, sg, p, q, rfl, rfl⟩ :=
    rotateUp_cases hr
  · have hperm :
      (on d (a, s) (on d (b, none) x y) u).names.Perm (a :: b :: (x.names ++ y.names ++ u.names)) :=
      (names_on_perm ..).trans (((names_on_perm ..).append_right _).cons a)
    rw [hperm.nodup_iff, List.nodup_cons, List.nodup_cons, List.mem_cons, not_or] at hnodup
    obtain ⟨⟨hab, hax⟩, hbx, -⟩ := hnodup
    obtain ⟨m', hm', hT, hc⟩ := Rotate_single ha (by simp) hab hax hbx
      (fun i hi => hout i (hperm.mem_iff.mpr hi))
    refine ⟨m', hm', hT, hc.mono fun i hi => hperm.mem_iff.mpr ?_⟩
    simp only [List.mem_cons, List.not_mem_nil, or_false] at hi
    rcases hi with rfl | rfl <;> simp
  · have hperm :
      (on d (a, s) (on d (b, some d) x y) u).names.Perm
      (a :: b :: (x.names ++ y.names ++ u.names)) :=
      (names_on_perm ..).trans (((names_on_perm ..).append_right _).cons a)
    rw [hperm.nodup_iff, List.nodup_cons, List.nodup_cons, List.mem_cons, not_or] at hnodup
    obtain ⟨⟨hab, hax⟩, hbx, -⟩ := hnodup
    obtain ⟨m', hm', hT, hc⟩ := Rotate_single ha (by simp) hab hax hbx
      (fun i hi => hout i (hperm.mem_iff.mpr hi))
    refine ⟨m', hm', hT, hc.mono fun i hi => hperm.mem_iff.mpr ?_⟩
    simp only [List.mem_cons, List.not_mem_nil, or_false] at hi
    rcases hi with rfl | rfl <;> simp
  · have hperm : (on d (a, s) (on d (b, some d.other) x (on d (g, sg) p q)) u).names.Perm
        (a :: b :: g :: (x.names ++ p.names ++ q.names ++ u.names)) := by
      refine (names_on_perm ..).trans ((((names_on_perm ..).append_right _).cons a).trans ?_)
      refine List.Perm.cons a (List.Perm.cons b ?_)
      refine (((names_on_perm d (g, sg) p q).append_left x.names).append_right u.names).trans ?_
      rw [List.append_assoc, List.cons_append]
      refine List.perm_middle.trans (List.Perm.cons g ?_)
      simp only [List.append_assoc]
      exact List.Perm.refl _
    rw [hperm.nodup_iff, List.nodup_cons, List.nodup_cons, List.nodup_cons] at hnodup
    simp only [List.mem_cons, not_or] at hnodup
    obtain ⟨⟨hab, hag, hax⟩, ⟨hbg, hbx⟩, hgx, -⟩ := hnodup
    obtain ⟨m', hm', hT, hc⟩ := Rotate_double ha hab hag hbg hax hbx hgx
      (fun i hi => hout i (hperm.mem_iff.mpr hi))
    refine ⟨m', hm', hT, hc.mono fun i hi => hperm.mem_iff.mpr ?_⟩
    simp only [List.mem_cons, List.not_mem_nil, or_false] at hi
    rcases hi with rfl | rfl | rfl <;> simp

/-! ## Walking back

  The loops count down from `nStackTop`; as the path is stacked, turn number `n` sees the frame that
  has `n` frames above it. -/

/-- A node's balance set, with the node in the hole of a path. -/
theorem holds_setState (hnodup : (plug c (on d (a, s) t u)).names.Nodup)
    (h : m.Holds m.pRoot (plug c (on d (a, s) t u))) (b : Option Side) :
    (m.setState a b).Holds (m.setState a b).pRoot (plug c (on d (a, b) t u)) := by
  have hin : ∀ i, i ∈ (on d (a, s) t u).names ↔ i = a ∨ i ∈ t.names ∨ i ∈ u.names := by
    intro i
    rw [(names_on_perm d (a, s) t u).mem_iff]; simp
  have hc : ChangesOnly (slotOf c) [a] m (m.setState a b) := changesOnly_setState
    (List.mem_singleton.mpr rfl)
  refine hc.holds_plug hnodup (fun i hi => (hin i).mpr (.inl (List.mem_singleton.mp hi)))
    (by simp) h ?_
  obtain ⟨hp, -, ht, hu⟩ := holds_on.mp ((holds_plug_root c _).mp h).2
  rw [(names_plug_perm c _).nodup_iff] at hnodup
  have hnode := (List.nodup_append.mp hnodup).1
  rw [(names_on_perm d (a, s) t u).nodup_iff] at hnode
  have ha := (List.nodup_cons.mp hnode).1
  refine holds_on.mpr ⟨by rw [get_setState]; exact hp, by simp [m_nState_setState], ?_, ?_⟩
  · rw [m_pChild_setState]
    refine ht.congr (fun i hi => ?_) (fun i _ n => by rw [m_pChild_setState])
    rw [m_nState_setState, if_neg]
    rintro rfl
    exact ha (by simp [hi])
  · rw [m_pChild_setState]
    refine hu.congr (fun i hi => ?_) (fun i _ n => by rw [m_pChild_setState])
    rw [m_nState_setState, if_neg]
    rintro rfl
    exact ha (by simp [hi])

/-- A rotation in the hole of a path. -/
theorem holds_Rotate (hnodup : (plug c (on d (a, s) t u)).names.Nodup)
    (h : m.Holds m.pRoot (plug c (on d (a, s) t u)))
    (hr : rotateUp d (a, s) t u = some r) :
    ∃ m', Rotate m a (slotOf c) d = .ok (m', r.2) ∧ m'.Holds m'.pRoot (plug c r.1) ∧
      ChangesOnly .root (plug c (on d (a, s) t u)).names m m' := by
  have hnodup' := hnodup
  rw [(names_plug_perm c _).nodup_iff] at hnodup'
  obtain ⟨hnode, -, hdisj⟩ := List.nodup_append.mp hnodup'
  have ht := ((holds_plug_root c _).mp h).2
  obtain ⟨m', hm', hT, hc⟩ := Rotate_spec (holds_on.mp ht).1 ht hnode
    (fun i hi n heq => hdisj i hi i (slotOf_eq_child heq.symm) rfl) hr
  exact ⟨m', hm', hc.holds_plug hnodup (fun _ hi => hi) (by simp) h hT,
    hc.whole (fun i hi => mem_names_plug.mpr (.inl hi)) (fun i hi => mem_names_plug.mpr (.inr hi))⟩

/-- **The second loop of `Insert`** makes what `grow` makes.  By induction on the path with the
    store and the tree in the hole; the three cases are the three branches of `grow`, and of the
    loop. -/
theorem insertRebalance_spec {st : Path ι} (hst : Stacked st c) (hnodup : (plug c t).names.Nodup)
    (h : m.Holds m.pRoot (plug c t))
    (hgrow : grow c t = some t') :
    ∃ m', insertRebalance st c.length m = .ok m' ∧ m'.Holds m'.pRoot t' ∧ ChangesOnly .root
      (plug c t).names m m' := by
  induction c generalizing m t with
  | nil =>
    cases hgrow
    exact ⟨m, rfl, h, .refl ..⟩
  | cons f c ih =>
    obtain ⟨d, ⟨a, s⟩, u⟩ := f
    obtain ⟨hn, hd, hp, hs⟩ := walk_step hst h
    have hnames : ∀ b, (plug c (on d (a, b) t u)).names = (plug c (on d (a, s) t u)).names :=
      fun b => names_plug_congr c (names_on ..)
    have hmem : a ∈ (plug c (on d (a, s) t u)).names := by
      rw [(names_plug_perm c _).mem_iff, List.mem_append, (names_on_perm d (a, s) t u).mem_iff]
      exact .inl (List.mem_cons_self ..)
    rw [grow] at hgrow
    rw [List.length_cons, insertRebalance, hn, hd, hp, deref_some, Run.ok_bind, hs]
    split_ifs at hgrow ⊢ with hnone hother
    · obtain ⟨m', hm', hT, hc⟩ := ih hst.2.2 (hnames _ ▸ hnodup)
        (holds_setState hnodup h (some d)) hgrow
      exact ⟨m', hm', hT, (changesOnly_setState hmem).trans (hnames _ ▸ hc)⟩
    · cases hgrow
      exact ⟨_, rfl, holds_setState hnodup h none, changesOnly_setState hmem⟩
    · obtain ⟨r, hr, rfl⟩ := Option.map_eq_some_iff.mp hgrow
      obtain ⟨m', hm', hT, hc⟩ := holds_Rotate hnodup h hr
      exact ⟨m', by rw [hm']; rfl, hT, hc⟩

/-- **The last loop of `Remove`** makes what `shrink` makes, by the same induction; after a rotation
    it goes on exactly where `Rotate` answered that the height went down. -/
theorem removeRebalance_spec {st : Path ι} (hst : Stacked st c) (hnodup : (plug c t).names.Nodup)
    (h : m.Holds m.pRoot (plug c t))
    (hshrink : shrink c t = some t') :
    ∃ m', removeRebalance st c.length m = .ok m' ∧ m'.Holds m'.pRoot t' ∧ ChangesOnly .root
      (plug c t).names m m' := by
  induction c generalizing m t with
  | nil =>
    cases hshrink
    exact ⟨m, rfl, h, .refl ..⟩
  | cons f c ih =>
    obtain ⟨d, ⟨a, s⟩, u⟩ := f
    obtain ⟨hn, hd, hp, hs⟩ := walk_step hst h
    have hnames : ∀ b, (plug c (on d (a, b) t u)).names = (plug c (on d (a, s) t u)).names :=
      fun b => names_plug_congr c (names_on ..)
    have hmem : a ∈ (plug c (on d (a, s) t u)).names := by
      rw [(names_plug_perm c _).mem_iff, List.mem_append, (names_on_perm d (a, s) t u).mem_iff]
      exact .inl (List.mem_cons_self ..)
    rw [shrink] at hshrink
    rw [List.length_cons, removeRebalance, hn, hd, hp, deref_some, Run.ok_bind, hs]
    split_ifs at hshrink ⊢ with hnone hsame
    · cases hshrink
      exact ⟨_, rfl, holds_setState hnodup h (some d.other), changesOnly_setState hmem⟩
    · obtain ⟨m', hm', hT, hc⟩ := ih hst.2.2 (hnames _ ▸ hnodup)
        (holds_setState hnodup h none) hshrink
      exact ⟨m', hm', hT, (changesOnly_setState hmem).trans (hnames _ ▸ hc)⟩
    · obtain ⟨r, hr, hrest⟩ := Option.bind_eq_some_iff.mp hshrink
      -- the rotation is to the side that became shorter, so the node is seen from the other one
      have hflip : plug (⟨d, (a, s), u⟩ :: c) t = plug c (on d.other (a, s) u t) := by
        rw [plug_cons, on_other]
      rw [hflip] at hnodup h ⊢
      obtain ⟨m1, hm1, hT, hc⟩ := holds_Rotate hnodup h hr
      have hsub : (plug c r.1).names = (plug c (on d.other (a, s) u t)).names := names_plug_congr c
        (names_rotateUp hr)
      rw [hm1, Run.ok_bind]
      split_ifs at hrest with hstop
      · cases hrest
        exact ⟨m1, by simp [hstop]; rfl, hT, hc⟩
      · obtain ⟨m', hm', hT', hc'⟩ := ih hst.2.2 (hsub ▸ hnodup) hT hrest
        exact ⟨m', by simp [hstop, hm'], hT', hc.trans (hsub ▸ hc')⟩

end StevenProgram.AvlTree
