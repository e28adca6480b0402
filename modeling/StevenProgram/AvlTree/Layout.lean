/-
  Trees in the store.

  `Holds p t` says that the nodes from `p` on form the tree `t`, whose labels are the nodes' names
  and `m_nState`s; a path of `Frame`s lies in the store as `Framed` says, and its hole is the slot
  `slotOf`.  From here on the calls are told by trees and paths, and a store is looked at through
  these two only.

  1.  **Slots** — what a store through one slot leaves in the others.

  2.  **`Holds` and `Framed`** — a node seen from a side, a tree taken apart at a hole
     (`holds_plug`): the whole is in the store exactly if its frames are and the tree in the hole
     hangs in the slot of the hole.

  3.  **What a call changes** — `ChangesOnly pp S`: nodes of the list `S` and the slot `pp`, nothing
     else.  It is kept by composing steps (`ChangesOnly.trans`), and it is the frame rule of the
     development: a tree without these nodes stays (`Holds.congr`), so does a path around the slot
     (`ChangesOnly.framed`), and another tree in a hole makes another whole
     (`ChangesOnly.holds_plug`).  No two places of the tree have a node in common (`Nodup` of the
     names), which is what the frame rule needs of the tree.

  4.  **`Stacked`** — the two arrays hold the path: the entry number `k` is the slot the frame
     number `k` from the top hangs in, and the side that was taken there.
-/
import StevenProgram.Lib.Balance
import StevenProgram.AvlTree.AvlTreeNode

namespace StevenProgram.AvlTree

open BinaryTree

variable {ι : Type}

/-- A tree of nodes with their `m_nState`. -/
abbrev NodeTree (ι : Type) : Type := BinaryTree (ι × Option Side)

/-- A path through the nodes. -/
abbrev NodePath (ι : Type) : Type := List (Frame (ι × Option Side))

namespace Store

variable {m m' m'' : Store ι} {base : Slot ι} {i j : ι} {n d : Side} {p q : Option ι}
  {s : Option Side} {t u : NodeTree ι} {c : NodePath ι}

/-! ## Slots

  One lemma for each field and each update, as simp lemmas where the field is another one. -/

@[simp] theorem get_root : m.get .root = m.pRoot := rfl
@[simp] theorem get_child : m.get (.child i n) = m.m_pChild i n := rfl
section Assign

variable [DecidableEq ι]

/-- A pointer that is set changes no state. -/
@[simp] theorem m_nState_set (pp : Slot ι) : (m.set pp p).m_nState = m.m_nState := by
  cases pp <;> rfl
/-- A state that is set changes no pointer. -/
@[simp] theorem m_pChild_setState : (m.setState i s).m_pChild = m.m_pChild := rfl
@[simp] theorem pRoot_setState : (m.setState i s).pRoot = m.pRoot := rfl
@[simp] theorem get_setState (pp : Slot ι) : (m.setState i s).get pp = m.get pp := by
  cases pp <;> rfl

/-- Only the node it is set for. -/
theorem m_nState_setState : (m.setState i s).m_nState j = if j = i then s else m.m_nState j := by
  simp [setState, Function.update_apply]

/-- Only the slot that is set. -/
theorem get_set (pp qq : Slot ι) : (m.set pp p).get qq = if qq = pp then p else m.get qq := by
  cases pp with
  | root =>
    cases qq with
    | root => rfl
    | child j e => rfl
  | child i n =>
    cases qq with
    | root => rfl
    | child j e =>
      by_cases hj : j = i
      · subst hj; simp [set, Function.update_apply]
      · simp [set, hj]

/-- The children after a slot is set: the slot may be one of them. -/
theorem m_pChild_set (pp : Slot ι) (j : ι) (e : Side) :
    (m.set pp p).m_pChild j e = if Slot.child j e = pp then p else m.m_pChild j e :=
  get_set (m := m) pp (.child j e)

/-- So may the root. -/
theorem pRoot_set (pp : Slot ι) : (m.set pp p).pRoot = if Slot.root = pp then p else m.pRoot :=
  get_set (m := m) pp .root

end Assign

/-! ## Trees and paths

  `Holds` is by recursion on the tree, so it says at once that the pointers end and make no cycle.
  -/

/-- The nodes from `p` on form the tree. -/
def Holds (m : Store ι) : Option ι → NodeTree ι → Prop
  | p, nil => p = none
  | p, node a l r => p = some a.1 ∧ m.m_nState a.1 = a.2 ∧ m.Holds (m.m_pChild a.1 .left) l ∧
      m.Holds (m.m_pChild a.1 .right) r

@[simp] theorem holds_nil : m.Holds p nil ↔ p = none := Iff.rfl

/-- A node as the nodes form it, told from either side. -/
theorem holds_on : m.Holds p (on d (i, s) t u) ↔
    p = some i ∧ m.m_nState i = s ∧ m.Holds (m.m_pChild i d) t ∧
      m.Holds (m.m_pChild i d.other) u := by
  cases d
  · exact Iff.rfl
  · show _ ∧ _ ∧ _ ∧ _ ↔ _
    rw [and_comm (a := m.Holds _ u)]
    exact Iff.rfl

/-- The pointer is `NULL` exactly over the empty tree. -/
theorem Holds.eq_none (h : m.Holds p t) : p = none ↔ t = nil := by
  cases t with
  | nil => exact ⟨fun _ => rfl, fun _ => h⟩
  | node a l r => simp [h.1]

/-- The slot that is the hole of a path from `base` down. -/
def slotFrom (base : Slot ι) : NodePath ι → Slot ι
  | [] => base
  | f :: _ => .child f.label.1 f.side

/-- The slot that is the hole of a path from the root variable down. -/
abbrev slotOf : NodePath ι → Slot ι := slotFrom .root

/-- The frames of the path lie in the store, one in the slot left by those above it. -/
def Framed (m : Store ι) (base : Slot ι) : NodePath ι → Prop
  | [] => True
  | f :: c => m.get (slotFrom base c) = some f.label.1 ∧ m.m_nState f.label.1 = f.label.2 ∧
      m.Holds (m.m_pChild f.label.1 f.side.other) f.sibling ∧ m.Framed base c

/-- **A tree in the store, taken apart at a hole.** By induction on the path: the innermost frame is
    a node whose field on its side is the slot of the hole. -/
theorem holds_plug (c : NodePath ι) (t : NodeTree ι) :
    m.Holds (m.get base) (plug c t) ↔ m.Framed base c ∧ m.Holds (m.get (slotFrom base c)) t := by
  induction c generalizing t with
  | nil => simp [Framed, slotFrom]
  | cons f c ih =>
    obtain ⟨d, ⟨i, s⟩, u⟩ := f
    rw [plug_cons, ih, holds_on]
    simp only [Framed, slotFrom, get_child]
    constructor
    · rintro ⟨hc, hp, hs, ht, hu⟩
      exact ⟨⟨hp, hs, hu, hc⟩, ht⟩
    · rintro ⟨⟨hp, hs, hu, hc⟩, ht⟩
      exact ⟨hc, hp, hs, ht, hu⟩

/-- **A tree in a hole**: the whole is there exactly if its frames are and the tree hangs in the
    slot of the hole. -/
theorem holds_plug_root (c : NodePath ι) (t : NodeTree ι) :
    m.Holds m.pRoot (plug c t) ↔ m.Framed .root c ∧ m.Holds (m.get (slotOf c)) t := by
  rw [← get_root]
  exact holds_plug c t

/-! ## What a call changes

  Bounds on the change rather than an exact description of it: a rotation may write a state it need
  not write, and nobody has to know. -/

/-- The names on a path and in the subtrees beside it. -/
def around : NodePath ι → List ι
  | [] => []
  | f :: c => f.label.1 :: f.sibling.names ++ around c

/-- The names of a node, from whichever side. -/
theorem names_on_perm (d : Side) (a : ι × Option Side) (t u : NodeTree ι) :
    (on d a t u).names.Perm (a.1 :: (t.names ++ u.names)) := by
  cases d
  · simp only [on, names, inorder_node, List.map_append, List.map_cons]
    exact List.perm_middle
  · simp only [on, names, inorder_node, List.map_append, List.map_cons]
    exact List.perm_middle.trans ((List.perm_append_comm).cons _)

/-- The names of the whole are those in the hole and those around it. -/
theorem names_plug_perm (c : NodePath ι) (t : NodeTree ι) :
    (plug c t).names.Perm (t.names ++ around c) := by
  induction c generalizing t with
  | nil => simp [around]
  | cons f c ih =>
    refine (ih _).trans ?_
    rw [around]
    refine ((names_on_perm f.side f.label t f.sibling).append_right (around c)).trans ?_
    rw [List.cons_append, List.cons_append, List.append_assoc]
    exact List.perm_middle.symm

/-- Only nodes of the list and the slot `pp` may differ. -/
def ChangesOnly (pp : Slot ι) (S : List ι) (m m' : Store ι) : Prop :=
  (∀ i, i ∉ S → m'.m_nState i = m.m_nState i) ∧
    (∀ i n, i ∉ S → Slot.child i n ≠ pp → m'.m_pChild i n = m.m_pChild i n) ∧
      (Slot.root ≠ pp → m'.pRoot = m.pRoot)

/-- Nothing changes where nothing is done. -/
theorem ChangesOnly.refl (pp : Slot ι) (S : List ι) (m : Store ι) : ChangesOnly pp S m m :=
  ⟨fun _ _ => rfl, fun _ _ _ _ => rfl, fun _ => rfl⟩

/-- Two changes inside the same bounds. -/
theorem ChangesOnly.trans {pp : Slot ι} {S : List ι} (h : ChangesOnly pp S m m')
    (h' : ChangesOnly pp S m' m'') : ChangesOnly pp S m m'' :=
  ⟨fun i hi => (h'.1 i hi).trans (h.1 i hi), fun i n hi hn => (h'.2.1 i n hi hn).trans
    (h.2.1 i n hi hn),
    fun hp => (h'.2.2 hp).trans (h.2.2 hp)⟩

/-- The bounds may be wider. -/
theorem ChangesOnly.mono {pp : Slot ι} {S S' : List ι} (h : ChangesOnly pp S m m')
    (hS : ∀ i ∈ S, i ∈ S') : ChangesOnly pp S' m m' :=
  ⟨fun i hi => h.1 i (fun hs => hi (hS i hs)), fun i n hi hn =>
    h.2.1 i n (fun hs => hi (hS i hs)) hn, h.2.2⟩

/-- Setting a slot stays inside bounds that have the slot. -/
theorem changesOnly_set [DecidableEq ι] {pp qq : Slot ι} {S : List ι}
    (h : qq = pp ∨ ∃ i ∈ S, ∃ n, qq = .child i n) : ChangesOnly pp S m (m.set qq p) := by
  refine ⟨fun i _ => by rw [m_nState_set], fun i n hi hn => ?_, fun hp => ?_⟩
  · rw [m_pChild_set, if_neg]
    rintro rfl
    obtain h | ⟨j, hj, e, h⟩ := h
    · exact hn h
    · cases h; exact hi hj
  · rw [pRoot_set, if_neg]
    rintro rfl
    obtain h | ⟨j, hj, e, h⟩ := h
    · exact hp h
    · cases h

/-- And setting a state inside those that have the node. -/
theorem changesOnly_setState [DecidableEq ι] {pp : Slot ι} {S : List ι} (h : i ∈ S) :
    ChangesOnly pp S m (m.setState i s) := by
  refine ⟨fun j hj => ?_, fun _ _ _ _ => rfl, fun _ => rfl⟩
  rw [m_nState_setState, if_neg]
  rintro rfl
  exact hj h

/-- A tree whose nodes are left alone. -/
theorem Holds.congr (hstate : ∀ i ∈ t.names, m'.m_nState i = m.m_nState i)
    (hchild : ∀ i ∈ t.names, ∀ n, m'.m_pChild i n = m.m_pChild i n)
    (h : m.Holds p t) : m'.Holds p t := by
  induction t generalizing p with
  | nil => exact h
  | node a l r ihl ihr =>
    obtain ⟨hp, hs, hl, hr⟩ := h
    have ha : a.1 ∈ (node a l r).names := by simp [names]
    have hlmem : ∀ i ∈ l.names, i ∈ (node a l r).names :=
      fun i hi => by simp only [names, inorder_node, List.map_append] at hi ⊢; simp [hi]
    have hrmem : ∀ i ∈ r.names, i ∈ (node a l r).names := fun i hi => by
      simp only [names, inorder_node, List.map_append, List.map_cons] at hi ⊢
      exact List.mem_append_right _ (List.mem_cons_of_mem _ hi)
    refine ⟨hp, (hstate _ ha).trans hs, ?_, ?_⟩
    · rw [hchild _ ha]
      exact ihl (fun i hi => hstate i (hlmem i hi)) (fun i hi => hchild i (hlmem i hi)) hl
    · rw [hchild _ ha]
      exact ihr (fun i hi => hstate i (hrmem i hi)) (fun i hi => hchild i (hrmem i hi)) hr

/-- **Frame**: a tree with no node inside the bounds stays as it is. -/
theorem ChangesOnly.holds {pp : Slot ι} {S : List ι} (hc : ChangesOnly pp S m m')
    (hS : ∀ i ∈ t.names, i ∉ S)
    (hpp : ∀ i ∈ t.names, ∀ n, Slot.child i n ≠ pp) (h : m.Holds p t) : m'.Holds p t :=
  h.congr (fun i hi => hc.1 i (hS i hi)) (fun i hi n => hc.2.1 i n (hS i hi) (hpp i hi n))

/-- The slots of a path belong to its nodes, but for the first. -/
theorem slotFrom_eq_child {c : NodePath ι} (h : slotFrom base c = .child i n) :
    base = .child i n ∨ i ∈ around c := by
  cases c with
  | nil => exact .inl h
  | cons f c => cases h; exact .inr (by simp [around])

/-- The slot of a hole belongs to a node around it. -/
theorem slotOf_eq_child {c : NodePath ι} (h : slotOf c = .child i n) : i ∈ around c :=
  (slotFrom_eq_child h).resolve_left (fun h => by cases h)

/-- What a slot holds, where neither it nor its node changed. -/
theorem ChangesOnly.get_eq {pp qq : Slot ι} {S : List ι} (hc : ChangesOnly pp S m m')
    (hne : qq ≠ pp) (hS : ∀ i n, qq = .child i n → i ∉ S) :
    m'.get qq = m.get qq := by
  cases qq with
  | root => exact hc.2.2 hne
  | child i n => exact hc.2.1 i n (hS i n rfl) hne

/-- A path away from the slot and the nodes that change. -/
theorem ChangesOnly.framed_away {pp : Slot ι} {S : List ι} (hc : ChangesOnly pp S m m')
    (hS : ∀ i ∈ around c, i ∉ S)
    (hpp : ∀ i ∈ around c, ∀ n, Slot.child i n ≠ pp) (hbase : base ≠ pp)
    (hbaseS : ∀ i n, base = .child i n → i ∉ S)
    (h : m.Framed base c) : m'.Framed base c := by
  induction c with
  | nil => trivial
  | cons f c ih =>
    obtain ⟨hp, hs, hu, hf⟩ := h
    have hmem : f.label.1 ∈ around (f :: c) := by simp [around]
    have hsib : ∀ i ∈ f.sibling.names, i ∈ around (f :: c) := fun i hi => by simp [around, hi]
    have hrest : ∀ i ∈ around c, i ∈ around (f :: c) := fun i hi => by simp [around, hi]
    refine ⟨?_, (hc.1 _ (hS _ hmem)).trans hs, ?_,
      ih (fun i hi => hS i (hrest i hi)) (fun i hi => hpp i (hrest i hi)) hf⟩
    · rw [← hp]
      refine hc.get_eq ?_ (fun i n hin => ?_)
      · cases c with
        | nil => exact hbase
        | cons g c => exact hpp _ (hrest _ (by simp [around])) _
      · rcases slotFrom_eq_child hin with hin | hin
        · exact hbaseS i n hin
        · exact hS i (hrest i hin)
    · rw [hc.2.1 _ _ (hS _ hmem) (hpp _ hmem _)]
      exact hc.holds (fun i hi => hS i (hsib i hi)) (fun i hi => hpp i (hsib i hi)) hu

/-- **The path stays** when nodes off it change and the slot of its hole. -/
theorem ChangesOnly.framed {S : List ι} (hc : ChangesOnly (slotFrom base c) S m m')
    (hnodup : (around c).Nodup)
    (hS : ∀ i ∈ around c, i ∉ S) (hbase : ∀ i n, base = .child i n → i ∉ S ∧ i ∉ around c)
    (h : m.Framed base c) : m'.Framed base c := by
  cases c with
  | nil => trivial
  | cons f c =>
    obtain ⟨hp, hs, hu, hf⟩ := h
    rw [around, List.cons_append, List.nodup_cons] at hnodup
    have hmem : f.label.1 ∈ around (f :: c) := by simp [around]
    have hsib : ∀ i ∈ f.sibling.names, i ∈ around (f :: c) := fun i hi => by simp [around, hi]
    have hrest : ∀ i ∈ around c, i ∈ around (f :: c) := fun i hi => by simp [around, hi]
    have hne : ∀ i n, i ∈ f.sibling.names ++ around c → Slot.child i n ≠ slotFrom base
      (f :: c) := by
      rintro i n hi heq
      cases heq
      exact hnodup.1 hi
    have hbase' : base ≠ slotFrom base (f :: c) := fun heq => (hbase f.label.1 f.side heq).2 hmem
    refine ⟨?_, (hc.1 _ (hS _ hmem)).trans hs, ?_, ?_⟩
    · rw [← hp]
      refine hc.get_eq ?_ (fun i n hin => ?_)
      · cases c with
        | nil => exact hbase'
        | cons g c => exact hne _ _ (List.mem_append_right _ (by simp [around]))
      · rcases slotFrom_eq_child hin with hin | hin
        · exact (hbase i n hin).1
        · exact hS i (hrest i hin)
    · rw [hc.2.1 _ _ (hS _ hmem) (by simp [slotFrom])]
      exact hc.holds (fun i hi => hS i (hsib i hi))
        (fun i hi n => hne i n (List.mem_append_left _ hi)) hu
    · exact hc.framed_away (fun i hi => hS i (hrest i hi))
        (fun i hi n => hne i n (List.mem_append_right _ hi)) hbase'
        (fun i n hin => (hbase i n hin).1) hf

/-- **Another tree in the hole.** The frames stay, since no node of them is among those that change,
    and what the slot of the hole holds is given. -/
theorem ChangesOnly.holds_plug {S : List ι} {t' : NodeTree ι}
    (hc : ChangesOnly (slotFrom base c) S m m') (hnodup : (plug c t).names.Nodup)
    (hS : ∀ i ∈ S, i ∈ t.names) (hbase : ∀ i n, base = .child i n → i ∉ (plug c t).names)
    (h : m.Holds (m.get base) (plug c t))
    (ht' : m'.Holds (m'.get (slotFrom base c)) t') : m'.Holds (m'.get base) (plug c t') := by
  have hin : ∀ i, i ∈ (plug c t).names ↔ i ∈ t.names ∨ i ∈ around c := by
    intro i
    rw [(names_plug_perm c t).mem_iff, List.mem_append]
  rw [(names_plug_perm c t).nodup_iff] at hnodup
  obtain ⟨_, haround, hdisj⟩ := List.nodup_append.mp hnodup
  refine (Store.holds_plug c t').mpr
    ⟨hc.framed haround (fun i hi hiS => hdisj i (hS i hiS) i hi rfl) (fun i n hi => ?_)
    ((Store.holds_plug c t).mp h).1, ht'⟩
  exact ⟨fun hiS => hbase i n hi ((hin i).mpr (.inl (hS i hiS))),
    fun hia => hbase i n hi ((hin i).mpr (.inr hia))⟩

/-- The same change, seen from the root. -/
theorem ChangesOnly.whole {S L : List ι} (hc : ChangesOnly (slotOf c) S m m') (hS : ∀ i ∈ S, i ∈ L)
    (hL : ∀ i ∈ around c, i ∈ L) :
    ChangesOnly .root L m m' := by
  refine ⟨fun i hi => hc.1 i (fun hiS => hi (hS i hiS)), fun i n hi _ => ?_, fun h => absurd rfl h⟩
  exact hc.2.1 i n (fun hiS => hi (hS i hiS)) (fun heq => hi (hL i (slotOf_eq_child heq.symm)))

/-- A node of the whole is in the hole or around it. -/
theorem mem_names_plug {c : NodePath ι} {t : NodeTree ι} :
    i ∈ (plug c t).names ↔ i ∈ t.names ∨ i ∈ around c := by
  rw [(names_plug_perm c t).mem_iff, List.mem_append]

/-! ## Stacks

  The arrays in terms of the path; what is above `nStackTop` is not mentioned. -/

/-- The first `c.length` entries of the arrays are the path, the outermost frame first. -/
def Stacked (st : Path ι) : NodePath ι → Prop
  | [] => True
  | f :: c => st.arppNodeStack c.length = slotOf c ∧ st.arnDirStack c.length = f.side ∧ Stacked st c

/-- Only the entries of the path matter. -/
theorem Stacked.congr {st st' : Path ι}
    (hnode : ∀ k, k < c.length → st'.arppNodeStack k = st.arppNodeStack k)
    (hdir : ∀ k, k < c.length → st'.arnDirStack k = st.arnDirStack k) (h : Stacked st c) :
    Stacked st' c := by
  induction c with
  | nil => trivial
  | cons f c ih =>
    obtain ⟨hn, hd, hc⟩ := h
    refine ⟨(hnode _ ?_).trans hn, (hdir _ ?_).trans hd,
      ih (fun k hk => hnode k ?_) (fun k hk => hdir k ?_) hc⟩ <;>
      simp only [List.length_cons] <;> omega

/-- One more frame: `push` writes the next entry of both arrays, and those below it are the old
    ones. -/
theorem Stacked.push {st : Path ι} (htop : st.nStackTop = c.length)
    (hroom : c.length < TREE_MAX_HEIGHT) (h : Stacked st c)
    (a : ι × Option Side) (n : Side) (u : NodeTree ι) :
    ∃ st', st.push (slotOf c) n = .ok st' ∧ st'.nStackTop = c.length + 1 ∧
    Stacked st' (⟨n, a, u⟩ :: c) := by
  refine ⟨⟨c.length + 1, Function.update st.arppNodeStack c.length (slotOf c),
    Function.update st.arnDirStack c.length n⟩, ?_, rfl, ?_⟩
  · simp only [Path.push, Path.setNode, htop, if_pos hroom, Run.ok_bind]
    rfl
  · refine ⟨by simp, by simp, h.congr (fun k hk => ?_) (fun k hk => ?_)⟩
    · exact Function.update_of_ne (by omega) _ _
    · exact Function.update_of_ne (by omega) _ _

end Store

end StevenProgram.AvlTree
