/-
  Circular doubly linked lists.

  `Links` holds the two pointers of every node there may be, one map for each.  A list of nodes is a
  ring (`IsRing`) when following `next` runs through it and back to its first node, and `prev` leads
  the other way; it does not matter where the list starts (`IsRing.rotate`).

  1. **Rings** — `IsRing`, neighbours in a ring, following `next` (`IsRing.iterate`), and links that
     agree on it (`IsRing.congr`).
  2. **Operations** — `insertBefore` and `unlink`, assignment by assignment.
  3. **Inserting** (`IsRing.insertBefore`) and **unlinking** (`IsRing.unlink`), and what they leave
     alone.
-/
import Mathlib.Data.List.Cycle

/-- The two pointers of every node there may be. -/
structure Links (α : Type) where
  next : α → α
  prev : α → α

namespace Links

variable {α : Type} {L L' : Links α} {p x a b : α} {xs ys : List α}

/-! ## Rings

  A ring is given as the list of its nodes, in the order of `next` and without repetition.  Every
  list of one ring is a rotation of every other. -/

/-- `b` follows `a`. -/
def Step (L : Links α) (a b : α) : Prop := L.next a = b ∧ L.prev b = a

def IsRing (L : Links α) (xs : List α) : Prop := xs.Nodup ∧ Cycle.Chain L.Step (xs : Cycle α)

/-- A ring is a chain that comes back to where it began. -/
theorem isRing_cons : L.IsRing (x :: xs) ↔ (x :: xs).Nodup ∧ (x :: (xs ++ [x])).IsChain L.Step :=
  Iff.rfl

/-- It does not matter where the list starts: a ring is a ring from each of its nodes. -/
theorem IsRing.rotate (h : L.IsRing (xs ++ ys)) : L.IsRing (ys ++ xs) := by
  have hc : ((xs ++ ys : List α) : Cycle α) = ((ys ++ xs : List α) : Cycle α) :=
    Cycle.coe_eq_coe.mpr List.isRotated_append
  exact ⟨List.nodup_append_comm.mp h.1, hc ▸ h.2⟩

/-- What stands next to each other in a list without repetition: the first of two is not its last
    element, and the second not its first. -/
theorem isChain_imp_ends {R S : α → α → Prop} :
    ∀ {l : List α} {first last : α}, l.Nodup → l.head? = some first →
    l.getLast? = some last → (∀ a b, a ∈ l → b ∈ l → a ≠ last → b ≠ first → R a b → S a b) →
      l.IsChain R → l.IsChain S := by
  intro l
  induction l with
  | nil => intro _ _ _ _ _ _ _; exact .nil
  | cons a l ih =>
    intro first last hnodup hfirst hlast h hl
    cases l with
    | nil => exact .singleton a
    | cons b l =>
      obtain ⟨hab, hl⟩ := List.isChain_cons_cons.mp hl
      obtain ⟨ha, hnodup'⟩ := List.nodup_cons.mp hnodup
      have hlast' : (b :: l).getLast? = some last := by rwa [List.getLast?_cons_cons] at hlast
      cases hfirst
      refine List.isChain_cons_cons.mpr ⟨?_, ?_⟩
      · refine h a b (List.mem_cons_self ..) (by simp) ?_ (fun hb => ha (by simp [hb])) hab
        rintro rfl
        exact ha (List.mem_of_getLast? hlast')
      · refine ih hnodup' rfl hlast' (fun c d hc hd hcl hdf hcd => ?_) hl
        refine h c d (List.mem_cons_of_mem a hc) (List.mem_cons_of_mem a hd) hcl ?_ hcd
        rintro rfl
        exact ha hd

/-- A ring taken apart at its first node. -/
theorem isRing_cons_iff {last : α} (hlast : (x :: xs).getLast? = some last) :
    L.IsRing (x :: xs) ↔ (x :: xs).Nodup ∧ (x :: xs).IsChain L.Step ∧ L.Step last x := by
  rw [isRing_cons, ← List.cons_append, List.isChain_append]
  refine and_congr_right fun _ => and_congr_right fun _ => ?_
  simp [hlast]

/-- A ring with an element has a last one. -/
theorem getLast?_isSome (x : α) (xs : List α) : ∃ last, (x :: xs).getLast? = some last :=
  ⟨_, List.getLast?_eq_some_getLast (List.cons_ne_nil x xs)⟩

/-- Only the links of its own elements matter to a ring. -/
theorem IsRing.congr (hL : ∀ a ∈ xs, L'.next a = L.next a ∧ L'.prev a = L.prev a)
    (h : L.IsRing xs) : L'.IsRing xs := by
  cases xs with
  | nil => exact h
  | cons x xs =>
    obtain ⟨last, hlast⟩ := getLast?_isSome x xs
    obtain ⟨hn, hc, hs⟩ := (isRing_cons_iff hlast).mp h
    have hstep : ∀ a b, a ∈ x :: xs → b ∈ x :: xs → L.Step a b → L'.Step a b := fun a b ha hb hab =>
      ⟨(hL a ha).1.trans hab.1, (hL b hb).2.trans hab.2⟩
    refine (isRing_cons_iff hlast).mpr
      ⟨hn, ?_, hstep last x (List.mem_of_getLast? hlast) (List.mem_cons_self ..) hs⟩
    exact isChain_imp_ends hn rfl hlast (fun a b ha hb _ _ hab => hstep a b ha hb hab) hc

/-- Two nodes next to each other. -/
theorem IsRing.step_of_infix {pre post : List α} (h : L.IsRing (pre ++ a :: b :: post)) :
    L.Step a b := by
  have hr : L.IsRing ((a :: b :: post) ++ pre) := h.rotate
  rw [List.cons_append, List.cons_append] at hr
  exact (List.isChain_cons_cons.mp (isRing_cons.mp hr).2).1

/-- The last node and the first. -/
theorem IsRing.step_last (h : L.IsRing (p :: xs)) {last : α}
    (hlast : (p :: xs).getLast? = some last) : L.Step last p :=
  ((isRing_cons_iff hlast).mp h).2.2

/-- The neighbours of an element are in the ring: the one before. -/
theorem IsRing.prev_mem {pre post : List α} (h : L.IsRing (pre ++ x :: post)) :
    L.prev x ∈ pre ++ x :: post := by
  have hr : L.IsRing (x :: (post ++ pre)) := h.rotate
  obtain ⟨last, hlast⟩ := getLast?_isSome x (post ++ pre)
  rw [(hr.step_last hlast).2]
  have hmem := List.mem_of_getLast? hlast
  simpa [or_comm, or_left_comm] using hmem

/-- And the one behind. -/
theorem IsRing.next_mem {pre post : List α} (h : L.IsRing (pre ++ x :: post)) :
    L.next x ∈ pre ++ x :: post := by
  have hr : L.IsRing (x :: (post ++ pre)) := h.rotate
  have hmem : L.next x ∈ x :: (post ++ pre) := by
    generalize post ++ pre = ys at hr
    cases ys with
    | nil =>
      have hx : L.Step x x := hr.step_last rfl
      rw [hx.1]
      exact List.mem_cons_self ..
    | cons y ys =>
      have hxy := IsRing.step_of_infix (show L.IsRing ([] ++ x :: y :: ys) from hr)
      rw [hxy.1]
      simp
  simpa [or_comm, or_left_comm] using hmem

/-- The two pointers are inverse. -/
theorem IsRing.inverse {pre post : List α} (h : L.IsRing (pre ++ x :: post)) :
    L.next (L.prev x) = x ∧ L.prev (L.next x) = x := by
  have hr : L.IsRing (x :: (post ++ pre)) := h.rotate
  obtain ⟨last, hlast⟩ := getLast?_isSome x (post ++ pre)
  have hs := hr.step_last hlast
  refine ⟨by rw [hs.2, hs.1], ?_⟩
  generalize post ++ pre = ys at hr
  cases ys with
  | nil =>
    have hx : L.Step x x := hr.step_last rfl
    rw [hx.1, hx.2]
  | cons y ys =>
    have hxy := IsRing.step_of_infix (show L.IsRing ([] ++ x :: y :: ys) from hr)
    rw [hxy.1, hxy.2]

/-- Following `next` for as many steps as there are nodes between two of them leads from one to the
    other. -/
theorem IsRing.iterate : ∀ (k : Nat) {p : α} {xs : List α}, L.IsRing (p :: xs) →
    (p :: xs)[k % (p :: xs).length]? = some (L.next^[k] p) := by
  have hrot :
    ∀ (k : Nat) {p : α} {xs : List α}, L.IsRing (p :: xs) → ((p :: xs).rotate k).head? =
    some (L.next^[k] p) := by
    intro k
    induction k with
    | zero => intro p xs _; rw [List.rotate_zero]; rfl
    | succ k ih =>
      intro p xs h
      have hr : L.IsRing (xs ++ [p]) := IsRing.rotate (show L.IsRing ([p] ++ xs) from h)
      rw [List.rotate_cons_succ, Function.iterate_succ_apply]
      cases xs with
      | nil =>
        have hp : L.Step p p := h.step_last rfl
        rw [hp.1]
        exact ih hr
      | cons y ys =>
        have hpy := IsRing.step_of_infix (show L.IsRing ([] ++ p :: y :: ys) from h)
        rw [hpy.1]
        exact ih hr
  intro k p xs h
  have hlt : k % (p :: xs).length < (p :: xs).length := Nat.mod_lt k (Nat.succ_pos xs.length)
  rw [← List.head?_rotate hlt, List.rotate_mod]
  exact hrot k h

/-- There is one ring through a node. -/
theorem IsRing.unique (h : L.IsRing (p :: xs)) (h' : L.IsRing (p :: ys)) : xs = ys := by
  have hlen :
    ∀ {xs ys : List α}, L.IsRing (p :: xs) → L.IsRing (p :: ys) →
    (p :: ys).length ≤ (p :: xs).length := by
    intro xs ys h h'
    refine Nat.le_of_not_lt fun hlt => ?_
    -- after as many steps as the shorter ring has nodes, both are back at `p`
    have hk := h.iterate (p :: xs).length
    have hk' := h'.iterate (p :: xs).length
    rw [Nat.mod_self] at hk
    rw [Nat.mod_eq_of_lt hlt, ← hk] at hk'
    exact absurd ((List.getElem?_inj hlt h'.1).mp hk') (Nat.succ_ne_zero _)
  have heq : (p :: xs).length = (p :: ys).length := Nat.le_antisymm (hlen h' h) (hlen h h')
  refine List.tail_eq_of_cons_eq (show p :: xs = p :: ys from List.ext_getElem? fun k => ?_)
  rcases Nat.lt_or_ge k (p :: xs).length with hk | hk
  · have hit := h.iterate k
    have hit' := h'.iterate k
    rw [Nat.mod_eq_of_lt hk] at hit
    rw [Nat.mod_eq_of_lt (heq ▸ hk)] at hit'
    rw [hit, hit']
  · rw [List.getElem?_eq_none hk, List.getElem?_eq_none (heq ▸ hk)]

/-- Alone in its ring, or not. -/
theorem IsRing.prev_eq_self_iff {pre post : List α} (h : L.IsRing (pre ++ x :: post)) :
    L.prev x = x ↔ pre = [] ∧ post = [] := by
  have hr : L.IsRing (x :: (post ++ pre)) := h.rotate
  obtain ⟨last, hlast⟩ := getLast?_isSome x (post ++ pre)
  have hprev := (hr.step_last hlast).2
  rw [hprev]
  constructor
  · rintro rfl
    rcases List.eq_nil_or_concat (post ++ pre) with hnil | ⟨ys, y, hy⟩
    · exact (List.append_eq_nil_iff.mp hnil).symm
    · -- a last node behind the first would be the first
      rw [hy, List.concat_eq_append, ← List.cons_append, List.getLast?_concat] at hlast
      obtain rfl := Option.some.inj hlast
      have hn := hr.1
      rw [hy, List.concat_eq_append] at hn
      exact absurd (List.mem_append_right ys (List.mem_singleton_self y)) (List.nodup_cons.mp hn).1
  · rintro ⟨rfl, rfl⟩
    exact (Option.some.inj hlast).symm

/-! ## Operations

  The pointers of a node are written one at a time, as a program does it.  Behind the last
  assignment the links are those of a ring again, and in between they are not. -/

variable [DecidableEq α]

/-- `p->next = q`. -/
def setNext (L : Links α) (p q : α) : Links α :=
  { L with next := fun r => if r = p then q else L.next r }

/-- `p->prev = q`. -/
def setPrev (L : Links α) (p q : α) : Links α :=
  { L with prev := fun r => if r = p then q else L.prev r }

@[simp] theorem setNext_next (L : Links α) (p q r : α) :
    (L.setNext p q).next r = if r = p then q else L.next r := rfl
@[simp] theorem setNext_prev (L : Links α) (p q : α) : (L.setNext p q).prev = L.prev := rfl
@[simp] theorem setPrev_prev (L : Links α) (p q r : α) :
    (L.setPrev p q).prev r = if r = p then q else L.prev r := rfl
@[simp] theorem setPrev_next (L : Links α) (p q : α) : (L.setPrev p q).next = L.next := rfl

/-- A node of its own. -/
def single (L : Links α) (x : α) : Links α := (L.setNext x x).setPrev x x

/-- `x` in front of `p`. -/
def insertBefore (L : Links α) (p x : α) : Links α :=
  let L := L.setNext x p
  let L := L.setPrev x (L.prev p)
  let L := L.setNext (L.prev p) x
  L.setPrev p x

/-- The neighbours of `x` next to each other. -/
def unlink (L : Links α) (x : α) : Links α :=
  let L := L.setNext (L.prev x) (L.next x)
  L.setPrev (L.next x) (L.prev x)

/-- The links after an insertion: forward. -/
theorem insertBefore_next (hx : x ≠ p) : (L.insertBefore p x).next a =
    if a = L.prev p then x else if a = x then p else L.next a := by
  simp [insertBefore, hx.symm]

/-- And back. -/
theorem insertBefore_prev (hx : x ≠ p) : (L.insertBefore p x).prev a =
    if a = p then x else if a = x then L.prev p else L.prev a := by
  simp [insertBefore, hx.symm]

/-- The links after an element is taken out: forward. -/
theorem unlink_next : (L.unlink x).next a = if a = L.prev x then L.next x else L.next a := by
  simp [unlink]

/-- And back. -/
theorem unlink_prev (hx : L.prev x ≠ x) :
    (L.unlink x).prev a = if a = L.next x then L.prev x else L.prev a := by
  simp [unlink, hx.symm]

/-- One element that points at itself. -/
theorem isRing_single (L : Links α) (x : α) : (L.single x).IsRing [x] := by
  refine isRing_cons.mpr ⟨List.nodup_singleton x, ?_⟩
  simp [Step, single]

/-- `unlink`, unless the node is alone. -/
def detach (L : Links α) (x : α) : Links α := if L.prev x ≠ x then L.unlink x else L

/-- The node itself still points to where it was. -/
theorem detach_self (L : Links α) (x : α) :
    (L.detach x).next x = L.next x ∧ (L.detach x).prev x = L.prev x := by
  rw [detach]
  split
  · next hne =>
    rw [unlink_next, unlink_prev hne, ite_self]
    refine ⟨rfl, ?_⟩
    split <;> rfl
  · exact ⟨rfl, rfl⟩

/-- Detaching twice is detaching once. -/
theorem detach_detach (L : Links α) (x : α) : (L.detach x).detach x = L.detach x := by
  have hself := L.detach_self x
  by_cases hne : L.prev x ≠ x
  · have hd : L.detach x = L.unlink x := if_pos hne
    rw [hd] at hself ⊢
    rw [detach, if_pos (by rw [hself.2]; exact hne)]
    have hnext : ((L.unlink x).unlink x).next = (L.unlink x).next := by
      funext a
      rw [unlink_next, hself.1, hself.2, unlink_next]
      split <;> rfl
    have hprev : ((L.unlink x).unlink x).prev = (L.unlink x).prev := by
      funext a
      rw [unlink_prev (by rw [hself.2]; exact hne), hself.1, hself.2, unlink_prev hne]
      split <;> rfl
    cases hu : (L.unlink x).unlink x
    cases hv : L.unlink x
    rw [hu, hv] at hnext hprev
    cases hnext
    cases hprev
    rfl
  · rw [detach, detach, if_neg hne, if_neg hne]

/-! ## Inserting

  The new node goes in front of another, so between that and the one before it. -/

/-- **A node in front of the first one becomes the last.** -/
theorem IsRing.insertBefore (h : L.IsRing (p :: xs)) (hx : x ∉ p :: xs) :
    (L.insertBefore p x).IsRing (p :: xs ++ [x]) := by
  obtain ⟨last, hlast⟩ := getLast?_isSome p xs
  obtain ⟨hn, hc, hs⟩ := (isRing_cons_iff hlast).mp h
  have hxp : x ≠ p := fun he => hx (he ▸ List.mem_cons_self ..)
  have hxl : x ≠ last := fun he => hx (he ▸ List.mem_of_getLast? hlast)
  have hprev : L.prev p = last := hs.2
  have hring : (L.insertBefore p x).IsRing (x :: (p :: xs)) := by
    have hlast' : (x :: p :: xs).getLast? = some last := by rwa [List.getLast?_cons_cons]
    refine (isRing_cons_iff hlast').mpr ⟨List.nodup_cons.mpr ⟨hx, hn⟩,
      List.isChain_cons_cons.mpr ⟨?_, ?_⟩, ?_⟩
    · rw [Step, insertBefore_next hxp, insertBefore_prev hxp, hprev, if_neg hxl, if_pos rfl,
        if_pos rfl]
      exact ⟨rfl, rfl⟩
    · refine isChain_imp_ends hn rfl hlast (fun a b ha hb hal hbp hab => ?_) hc
      have hax : a ≠ x := fun he => hx (he ▸ ha)
      have hbx : b ≠ x := fun he => hx (he ▸ hb)
      rw [Step, insertBefore_next hxp, insertBefore_prev hxp, hprev, if_neg hal, if_neg hax,
        if_neg hbp, if_neg hbx]
      exact hab
    · rw [Step, insertBefore_next hxp, insertBefore_prev hxp, hprev, if_pos rfl, if_neg hxp,
        if_pos rfl]
      exact ⟨rfl, rfl⟩
  exact IsRing.rotate (show (L.insertBefore p x).IsRing ([x] ++ p :: xs) from hring)

/-- Nodes outside the ring keep their links. -/
theorem IsRing.insertBefore_other (h : L.IsRing (p :: xs)) (hx : x ∉ p :: xs) (ha : a ∉ p :: xs)
    (hax : a ≠ x) :
    (L.insertBefore p x).next a = L.next a ∧ (L.insertBefore p x).prev a = L.prev a := by
  obtain ⟨last, hlast⟩ := getLast?_isSome p xs
  have hxp : x ≠ p := fun he => hx (he ▸ List.mem_cons_self ..)
  have hal : a ≠ last := fun he => ha (he ▸ List.mem_of_getLast? hlast)
  have hap : a ≠ p := fun he => ha (he ▸ List.mem_cons_self ..)
  rw [insertBefore_next hxp, insertBefore_prev hxp, (h.step_last hlast).2, if_neg hal, if_neg hax,
    if_neg hap, if_neg hax]
  exact ⟨rfl, rfl⟩

/-- Nobody else is touched by that. -/
theorem single_other (hax : a ≠ x) :
    (L.single x).next a = L.next a ∧ (L.single x).prev a = L.prev a := by
  simp [single, hax]

/-- A new node into the ring that begins at `head`, or into none. -/
def enter (L : Links α) (head : Option α) (x : α) : Links α :=
  match head with
  | none => L.single x
  | some p => (L.single x).insertBefore p x

/-- So another ring stays one. -/
theorem IsRing.single_ring (h : L.IsRing xs) (hx : x ∉ xs) : (L.single x).IsRing xs :=
  h.congr fun _ ha => single_other fun hax => hx (hax ▸ ha)

/-- **The new node is the last one.** -/
theorem IsRing.enter (h : L.IsRing xs) (hx : x ∉ xs) : (L.enter xs.head? x).IsRing (xs ++ [x]) := by
  cases xs with
  | nil => exact isRing_single L x
  | cons p xs => exact (h.single_ring hx).insertBefore hx

/-- An element that enters a ring touches the links of nobody outside. -/
theorem IsRing.enter_other (h : L.IsRing xs) (hx : x ∉ xs) (ha : a ∉ xs) (hax : a ≠ x) :
    (L.enter xs.head? x).next a = L.next a ∧ (L.enter xs.head? x).prev a = L.prev a := by
  have hsingle : (L.single x).next a = L.next a ∧ (L.single x).prev a = L.prev a := single_other hax
  cases xs with
  | nil => exact hsingle
  | cons p xs =>
    have hother := (h.single_ring hx).insertBefore_other hx ha hax
    exact ⟨hother.1.trans hsingle.1, hother.2.trans hsingle.2⟩

/-! ## Unlinking

  The node is left alone in a ring of its own, and the others close up; other rings see nothing of
  it. -/

/-- **Without one of its nodes a ring is a ring.** -/
theorem IsRing.unlink {pre post : List α} (h : L.IsRing (pre ++ x :: post)) :
    (L.unlink x).IsRing (pre ++ post) := by
  suffices hmain : (L.unlink x).IsRing (post ++ pre) from hmain.rotate
  have hr : L.IsRing (x :: (post ++ pre)) := h.rotate
  generalize post ++ pre = ys at hr
  cases ys with
  | nil => exact ⟨List.nodup_nil, Cycle.Chain.nil _⟩
  | cons y ys =>
    obtain ⟨last, hlast⟩ := getLast?_isSome y ys
    have hlast' : (x :: y :: ys).getLast? = some last := by rwa [List.getLast?_cons_cons]
    obtain ⟨hn, hc, hs⟩ := (isRing_cons_iff hlast').mp hr
    obtain ⟨hxy, hc⟩ := List.isChain_cons_cons.mp hc
    obtain ⟨hx, hn⟩ := List.nodup_cons.mp hn
    have hne : L.prev x ≠ x := by
      rw [hs.2]
      exact fun he => hx (he ▸ List.mem_of_getLast? hlast)
    refine (isRing_cons_iff hlast).mpr ⟨hn, ?_, ?_⟩
    · refine isChain_imp_ends hn rfl hlast (fun a b _ _ hal hby hab => ?_) hc
      rw [Step, unlink_next, unlink_prev hne, hs.2, hxy.1, if_neg hal, if_neg hby]
      exact hab
    · rw [Step, unlink_next, unlink_prev hne, hs.2, hxy.1, if_pos rfl, if_pos rfl]
      exact ⟨rfl, rfl⟩

/-- And neither does one that is unlinked. -/
theorem IsRing.unlink_other {pre post : List α} (h : L.IsRing (pre ++ x :: post))
    (hne : L.prev x ≠ x)
    (ha : a ∉ pre ++ x :: post) :
    (L.unlink x).next a = L.next a ∧ (L.unlink x).prev a = L.prev a := by
  have hr : L.IsRing (x :: (post ++ pre)) := h.rotate
  have ha' : a ∉ x :: (post ++ pre) := fun hm => ha (by simpa [or_comm, or_left_comm] using hm)
  obtain ⟨last, hlast⟩ := getLast?_isSome x (post ++ pre)
  have hs := hr.step_last hlast
  have hal : a ≠ last := fun he => ha' (he ▸ List.mem_of_getLast? hlast)
  have hnext : a ≠ L.next x := by
    rintro rfl
    rcases hys : post ++ pre with _ | ⟨y, ys⟩
    · rw [hys] at hlast
      exact hne (hs.2.trans (Option.some.inj hlast).symm)
    · rw [hys] at hr ha'
      have hxy := (List.isChain_cons_cons.mp (isRing_cons.mp hr).2).1.1
      exact ha' (by simp [hxy])
  rw [unlink_next, unlink_prev hne, hs.2, if_neg hal, if_neg hnext]
  exact ⟨rfl, rfl⟩

/-- **A ring without an element** is a ring of the others. -/
theorem IsRing.detach {pre post : List α} (h : L.IsRing (pre ++ x :: post)) :
    (L.detach x).IsRing (pre ++ post) := by
  rw [Links.detach]
  split
  · exact h.unlink
  · next hself =>
    obtain ⟨rfl, rfl⟩ := h.prev_eq_self_iff.mp (Classical.not_not.mp hself)
    exact ⟨List.nodup_nil, Cycle.Chain.nil _⟩

/-- Nobody outside is touched by that. -/
theorem IsRing.detach_other {pre post : List α} (h : L.IsRing (pre ++ x :: post))
    (ha : a ∉ pre ++ x :: post) :
    (L.detach x).next a = L.next a ∧ (L.detach x).prev a = L.prev a := by
  rw [Links.detach]
  split
  · next hne => exact h.unlink_other hne ha
  · exact ⟨rfl, rfl⟩

end Links
