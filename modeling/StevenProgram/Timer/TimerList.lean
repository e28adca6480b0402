/-
  The list of pending timers (`mTimerList`) and `addToTimerList`.

  A new block goes in front of the first block that is due later, as `getTimeDiff` sees it, or to
  the end; the caller is told to wake the timer thread when the iterator it inserted at is
  `begin()`.

  1. **What is inserted where** (`addToTimerList_toList`).
  2. **Order** — `Ordered`: a block's deadline is less than a millisecond later than that of any
     block behind it.  Insertion keeps it as long as no comparison wraps (`addToTimerList_ordered`).
  3. **The answer** (`addToTimerList_status`) — `STATUS_WAKE_UP` comes only from an empty list: the
     iterator points to the block BEHIND the new one, which is never `begin()` after the insertion.
-/
import StevenProgram.Lib.NodeList
import StevenProgram.Timer.TimeVal

namespace StevenProgram

/-- The members of `miniTimerBlock_t` that the timer uses.  `addr` is the address `malloc` gave,
    which is never freed; `born` and `interval` are what `time` was computed from. -/
structure TimerBlock where
  addr : Nat
  timerId : Nat
  time : TimeVal
  Func : Nat
  para : Nat
  born : Timespec
  interval : Nat
  deriving DecidableEq

/-- The values of `mxStatus.h` the timer returns. -/
inductive TimerStatus where
  | success | errMalloc | wakeUp
  deriving DecidableEq, Repr

/-- `getTimeDiff(&pTmIndex->time, &pTmBlk->time) > 0`: `e` is due later than `b`. -/
def dueLater (b e : TimerBlock) : Bool := decide (0 < getTimeDiff e.time b.time)

/-- `addToTimerList(pTmBlk)`: the list, and the answer to the caller. -/
def addToTimerList (l : NodeList TimerBlock) (b : TimerBlock) : NodeList TimerBlock × TimerStatus :=
  if l.isEmpty then (l.pushBack b, .wakeUp)
  else
    let it := l.findIt (dueLater b)
    if it = NodeList.endIt then (l.pushBack b, .success)
    else
      let l' := l.insert it b
      if it = l'.beginIt then (l', .wakeUp) else (l', .success)

namespace TimerList

open NodeList

variable (l : NodeList TimerBlock) (b : TimerBlock)

/-- **The new block stands in front of the first block due later.** -/
theorem addToTimerList_toList :
    (addToTimerList l b).1.toList = insertFirst (dueLater b) b l.toList := by
  rw [addToTimerList]
  split
  · rename_i he
    rw [toList_pushBack, (isEmpty_eq l).mp he]; rfl
  · simp only []
    split
    · rename_i hend
      rw [toList_pushBack, insertFirst_of_none b (findIt_eq_end.mp hend)]
    · rename_i hit
      have := toList_insert_findIt hit b
      split <;> exact this

/-- An insertion adds its block. -/
theorem addToTimerList_perm : (addToTimerList l b).1.toList.Perm (b :: l.toList) := by
  rw [addToTimerList_toList]; exact insertFirst_perm _ _ _

/-- **The caller is told to wake the timer thread exactly when the list was empty.** -/
theorem addToTimerList_status :
    (addToTimerList l b).2 = if l.toList = [] then .wakeUp else .success := by
  rw [addToTimerList]
  split
  · rename_i he
    rw [if_pos ((isEmpty_eq l).mp he)]
  · rename_i hne
    rw [if_neg (fun he => hne ((isEmpty_eq l).mpr he))]
    simp only []
    split
    · rfl
    · rename_i hit
      rw [if_neg (beginIt_insert_ne (findIt_mem hit) b)]

/-- The new block is in front when there is no other, or the first is due later. -/
theorem addToTimerList_head : (addToTimerList l b).1.toList.head? =
    match l.toList with
    | [] => some b
    | e :: _ => if dueLater b e then some b else some e := by
  rw [addToTimerList_toList]
  cases l.toList with
  | nil => rfl
  | cons e es =>
    rw [insertFirst]
    simp only []
    split <;> rfl

/-- A new block's answer is right exactly when no first block is due later than it. -/
theorem wakeUp_iff_front (hb : b ∉ l.toList) :
    ((addToTimerList l b).2 = .wakeUp ↔ (addToTimerList l b).1.front? = some b) ↔
      ∀ e, l.front? = some e → getTimeDiff e.time b.time ≤ 0 := by
  rw [addToTimerList_status, front?_eq, front?_eq, addToTimerList_head]
  cases hl : l.toList with
  | nil => simp
  | cons e es =>
    have hne : e ≠ b := fun he => hb (by rw [hl, he]; exact List.mem_cons_self ..)
    simp only [reduceCtorEq, if_false, false_iff, List.head?_cons, Option.some.injEq, forall_eq',
      dueLater,
      decide_eq_true_eq]
    split
    · rename_i hlt
      exact ⟨fun h => absurd rfl h, fun h => absurd hlt (by omega)⟩
    · rename_i hle
      exact ⟨fun _ => by omega, fun _ => by simpa using hne⟩

/-! ## Order -/

/-- No block is due a millisecond later than one behind it. -/
def Ordered (l : List TimerBlock) : Prop := l.Pairwise fun x y => x.time.us - y.time.us < 1000

/-- And keeps the order where no difference wraps. -/
theorem addToTimerList_ordered (h : Ordered l.toList)
    (hnear : ∀ e ∈ l.toList, getTimeDiff e.time b.time = timeDiff e.time b.time) :
    Ordered (addToTimerList l b).1.toList := by
  have hlater : ∀ e ∈ l.toList, dueLater b e = decide (0 < timeDiff e.time b.time) :=
    fun e he => by rw [dueLater, hnear e he]
  rw [addToTimerList_toList]
  apply insertFirst_pairwise h
  -- `e` stays in front
  · intro e he hp
    rw [hlater e he] at hp
    exact (timeDiff_spec e.time b.time).2.1 (by simpa using hp)
  -- `e` is the first behind the new block
  · intro e he hp
    rw [hlater e he] at hp
    have := (timeDiff_spec e.time b.time).1 (by simpa using hp)
    omega
  -- what stands behind `e` is at most a millisecond earlier than `e`
  · intro e he hp y _ hy
    rw [hlater e he] at hp
    have := (timeDiff_spec e.time b.time).1 (by simpa using hp)
    omega

/-- The pending deadlines are within `2^31 - 1` ms of each other. -/
def Near (l : NodeList TimerBlock) : Prop :=
  ∀ b ∈ l.toList, ∀ c ∈ l.toList, b.time.us - c.time.us ≤ nearUs

instance : Decidable (Near l) :=
  inferInstanceAs (Decidable (∀ b ∈ l.toList, ∀ c ∈ l.toList, b.time.us - c.time.us ≤ nearUs))

/-- Then no comparison wraps. -/
theorem addToTimerList_near (h : Ordered l.toList) (hnear : Near (addToTimerList l b).1) :
    Ordered (addToTimerList l b).1.toList := by
  apply addToTimerList_ordered l b h
  intro e he
  -- the new block and `e` are both in the list afterwards
  have hmem := fun c => (addToTimerList_perm l b).mem_iff (a := c)
  have he' := (hmem e).mpr (List.mem_cons_of_mem _ he)
  have hb' := (hmem b).mpr (List.mem_cons_self ..)
  exact getTimeDiff_eq_of_near (hnear e he' b hb') (hnear b hb' e he')

/-- Without its first the list is still ordered. -/
theorem popFront_ordered {l : NodeList TimerBlock} (h : Ordered l.toList) :
    Ordered l.popFront.toList := by
  rw [toList_popFront]; exact h.sublist (List.tail_sublist _)

end TimerList

end StevenProgram
