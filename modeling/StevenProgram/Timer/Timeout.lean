/-
  The order of the timer list, and the timeout that `select` gets.

  `addToTimerList` compares deadlines to the millisecond, in a way that is not transitive; still a
  block is due less than a millisecond later than any block behind it, however many were inserted in
  front of it.

  `processTimeout` subtracts the clock from the front's deadline with a borrow.  The deadline comes
  from a carry that leaves 1000000 microseconds as they are, and then nothing is borrowed: on a
  clock at a whole second the timeout has 1000000 microseconds, which `select` refuses.  A front
  that was due 2^31 ms ago or earlier is taken for one that is not due, with a negative timeout.

  1.  **The list** (`timer_list_order`) — over every sequence of insertions and removals at the
     front.

  2.  **The timeout** (`nextTime_iff`) — `InTime` is the condition for a front that is not popped.

  3.  **Headline** (`select_timeout_runs`) — for every look at a front, and along runs.

  A front that stays may be due in less than a millisecond; the code then waits for one, which is
  why `timeoutUs` has a maximum.
-/
import StevenProgram.Timer.Deadlines

namespace StevenProgram

/-! ## The list

  The list by itself, without clock or threads: its order is a matter of the insertions alone, as
  long as its deadlines stay near each other. -/

namespace TimerList

/-- What is done to the list. -/
inductive ListOp where
  | addToTimerList (pTmBlk : TimerBlock)
  | pop_front

/-- `mTimerList` by itself. -/
def listSys : TransSys (NodeList TimerBlock) ListOp where
  init := .empty
  step l
    | .addToTimerList pTmBlk => some (addToTimerList l pTmBlk).1
    | .pop_front => if l.isEmpty then none else some l.popFront

/-- **Step lemma.** -/
theorem ordered_listStep {l l' : NodeList TimerBlock} {op : ListOp} (h : Ordered l.toList)
    (hs : listSys.step l op = some l')
    (hnear : Near l') : Ordered l'.toList := by
  cases op with
  | addToTimerList b =>
    obtain rfl := Option.some.inj hs
    exact addToTimerList_near l b h hnear
  | pop_front =>
    simp only [listSys] at hs
    split at hs
    · cases hs
    · obtain rfl := Option.some.inj hs
      exact popFront_ordered h

/-- **The timer list is in order up to a millisecond**, whatever is inserted, with whatever
    microseconds. -/
theorem timer_list_order {l : NodeList TimerBlock}
    (h : TransSys.Runs listSys (fun _ _ l' => Near l') l) :
    l.toList.Pairwise fun earlier later => earlier.time.us - later.time.us < 1000 := by
  refine TransSys.Runs.invariant (I := fun l : NodeList TimerBlock => Ordered l.toList) ?_ ?_ h
  · exact List.Pairwise.nil
  · intro l op l' ho hs hnear
    exact ordered_listStep ho hs hnear

/-- Two deadlines in one millisecond, the later one in front. -/
theorem timer_list_order_close : ∃ l : NodeList TimerBlock,
    listSys.exec .empty [.addToTimerList ⟨0, 1, ⟨1, 999⟩, 0, 0, .zero, 0⟩,
      .addToTimerList ⟨1, 2, ⟨1, 0⟩, 0, 0, .zero, 0⟩] = some l ∧
    l.toList.map (fun b => b.time.us) = [1000999, 1000000] ∧
    l.toList.Pairwise fun earlier later => earlier.time.us - later.time.us < 1000 := by
  have h1 : TransSys.Runs listSys (fun _ _ l' => Near l') _ :=
    .step .init (e := .addToTimerList ⟨0, 1, ⟨1, 999⟩, 0, 0, .zero, 0⟩) rfl (by decide)
  have h2 : TransSys.Runs listSys (fun _ _ l' => Near l') _ :=
    .step h1 (e := .addToTimerList ⟨1, 2, ⟨1, 0⟩, 0, 0, .zero, 0⟩) rfl (by decide)
  exact ⟨_, rfl, by decide, timer_list_order h2⟩

end TimerList

/-! ## The timeout

  `RightTimeout` is what `select` accepts and what the front asks for, said in microseconds.
  `InTime` speaks of the two times only. -/

namespace TimerSys

open TimerList

variable {θ : Type} {now : Timespec}

/-- The microseconds that the timeout should denote. -/
def timeoutUs (curr : Timespec) : Option TimerBlock → Int
  | none => 2000000
  | some b => max (b.time.us - curr.toTimeVal.us) 1000

/-- A timeout that `select` accepts, and the right one. -/
structure RightTimeout (curr : Timespec) (front : Option TimerBlock) (tv : TimeVal) : Prop where
  sec : 0 ≤ tv.tv_sec
  usec : 0 ≤ tv.tv_usec ∧ tv.tv_usec < 1000000
  exact : tv.us = timeoutUs curr front

/-- The deadline is behind the clock, and not at 1000000 microseconds on a clock at a whole
    second. -/
def InTime (curr t : TimeVal) : Prop := curr.us < t.us ∧ ¬ (t.tv_usec = 1000000 ∧ curr.tv_usec = 0)

/-- The microseconds of a deadline reach a whole second, and no more. -/
theorem deadline_usec (ts : Timespec) (interval : Nat) :
    0 ≤ (deadline ts interval).tv_usec ∧ (deadline ts interval).tv_usec ≤ 1000000 := by
  have hnsec := ts.nsec_lt
  rw [deadline]
  split <;> simp only [] <;> omega

/-- A clock in microseconds is normalised. -/
theorem toTimeVal_usec (ts : Timespec) :
    0 ≤ ts.toTimeVal.tv_usec ∧ ts.toTimeVal.tv_usec < 1000000 := by
  have hnsec := ts.nsec_lt
  rw [Timespec.toTimeVal]
  simp only []
  omega

/-- A deadline that is not behind the clock counts as due, or as 2^31 ms or more away. -/
theorem overdue_of_le {curr t : TimeVal} (hdue : getTimeDiff curr t < 0) (hle : t.us ≤ curr.us) :
    t.us + 1000000000 < curr.us := by
  obtain ⟨r, hr, hlo, hhi⟩ := timeDiff_rest curr t
  rw [getTimeDiff, Int.bmod_def] at hdue
  split at hdue <;> omega

/-- **The timeout for a front that is not popped** is right exactly if its deadline is in time.  The
    cases are those of the borrow, and of a whole second in the deadline. -/
theorem nextTime_iff {curr : Timespec} {b : TimerBlock} (hb : b.time = deadline b.born b.interval)
    (hdue : getTimeDiff curr.toTimeVal b.time < 0) :
    RightTimeout curr (some b) (nextTime curr.toTimeVal b.time) ↔ InTime curr.toTimeVal b.time := by
  have hfront := deadline_usec b.born b.interval
  rw [← hb] at hfront
  have hclock := toTimeVal_usec curr
  have hover := @overdue_of_le curr.toTimeVal b.time hdue
  rw [InTime]
  generalize hc : curr.toTimeVal = c at *
  generalize ht : b.time = t at *
  have hright : RightTimeout curr (some b) (nextTime c t) ↔ 0 ≤ (nextTime c t).tv_sec ∧
      (0 ≤ (nextTime c t).tv_usec ∧ (nextTime c t).tv_usec < 1000000) ∧ (nextTime c t).us = max
        (t.us - c.us) 1000 := by
    rw [← hc, ← ht]
    exact ⟨fun h => ⟨h.sec, h.usec, h.exact⟩, fun h => ⟨h.1, h.2.1, h.2.2⟩⟩
  rw [hright]
  rw [TimeVal.us, TimeVal.us] at hover ⊢
  rw [nextTime, TimeVal.us]
  by_cases hborrow : t.tv_usec < c.tv_usec
  · simp only [if_pos hborrow]
    split <;> simp only [] <;> omega
  · simp only [if_neg hborrow]
    split <;> simp only [] <;> omega

/-- Whoever is in `select` has the right timeout for the front that `processTimeout` saw. -/
def TimeoutRight (s : TimerSys θ) : Prop :=
  ∀ curr f tv, s.timer = .waiting curr f tv → RightTimeout curr f tv

/-- A front that `processTimeout` would not pop is in time. -/
def FrontInTime (s : TimerSys θ) : Prop :=
  ∀ curr b, s.timer = .draining curr → s.mTimerList.front? = some b →
    getTimeDiff curr.toTimeVal b.time < 0 →
    InTime curr.toTimeVal b.time

/-- With no timer the two seconds are right. -/
theorem rightTimeout_empty (curr : Timespec) : RightTimeout curr none ⟨2, 0⟩ where
  sec := by decide
  usec := by decide
  exact := rfl

/-- An empty list is in time. -/
theorem frontInTime_none {s : TimerSys θ} (hb : s.mTimerList.front? = none) : s.FrontInTime := by
  intro curr b _ hb'
  rw [hb] at hb'
  cases hb'

/-- Whether the first timer is in time. -/
theorem frontInTime_some {s : TimerSys θ} {curr : Timespec} {b : TimerBlock}
    (ht : s.timer = .draining curr)
    (hb : s.mTimerList.front? = some b) :
    s.FrontInTime ↔ (getTimeDiff curr.toTimeVal b.time < 0 → InTime curr.toTimeVal b.time) := by
  constructor
  · intro h
    exact h curr b ht hb
  · intro h curr' b' ht' hb'
    rw [ht] at ht'
    rw [hb] at hb'
    cases ht'
    cases hb'
    exact h

/-- What is asked of the timeout while the thread waits. -/
theorem timeoutRight_waiting {s : TimerSys θ} {curr : Timespec} {f : Option TimerBlock}
    {tv : TimeVal}
    (hw : s.timer = .waiting curr f tv) : s.TimeoutRight ↔ RightTimeout curr f tv := by
  constructor
  · intro h
    exact h curr f tv hw
  · intro h curr' f' tv' hw'
    rw [hw] at hw'
    cases hw'
    exact h

variable [DecidableEq θ]

/-- At every look at the front. -/
def InspectInTime (s : TimerSys θ) (e : Event θ) (_ : TimerSys θ) : Prop :=
  e = .inspect → s.FrontInTime

/-- The first timer has the deadline it was made with. -/
theorem front_time {s : TimerSys θ} (hr : (sys θ now).Reachable s) {b : TimerBlock}
    (hb : s.mTimerList.front? = some b) :
    b.time = deadline b.born b.interval :=
  (made hr).1 b (mem_added (accounts hr) (mem_of_front hb))

/-- **Step lemma.** Only a look at the front begins a wait, so no other step has anything to show.
    -/
theorem timeoutRight_step {s s' : TimerSys θ} {e : Event θ} (h : s.TimeoutRight)
    (hm : ∀ b, s.mTimerList.front? = some b → b.time = deadline b.born b.interval)
    (hs : Step s e s')
    (hg : InspectInTime s e s') : s'.TimeoutRight := by
  cases hs with
  | @empty curr _ _ =>
    intro curr' f tv hw
    cases hw
    exact rightTimeout_empty curr
  | @notDue curr b ht hb hdue =>
    intro curr' f tv hw
    cases hw
    exact (nextTime_iff (hm b hb) hdue).mpr (hg rfl curr b ht hb hdue)
  | tick _ | addFails | addSample _ | addInsert _ | addWake _ => exact h
  | sample _ | pop _ _ _ | call _ | callReturn _ | selectReadable _ | selectTimeout _ =>
    intro curr f tv hw
    cases hw

/-- One look at the front. -/
theorem inspect_iff {s s' : TimerSys θ} (hr : (sys θ now).Reachable s)
    (hs : s.step .inspect = some s') :
    (∀ curr f tv, s'.timer = .waiting curr f tv → f = s'.mTimerList.front?) ∧
    (s'.TimeoutRight ↔ s.FrontInTime) := by
  cases step_cases hs with
  | @empty curr ht hb =>
    refine ⟨fun _ _ _ hw => by cases hw; exact hb.symm, ?_⟩
    rw [timeoutRight_waiting rfl]
    exact iff_of_true (rightTimeout_empty curr) (frontInTime_none hb)
  | @pop curr b ht hb hdue =>
    refine ⟨fun _ _ _ hw => (by cases hw), ?_⟩
    rw [frontInTime_some ht hb]
    apply iff_of_true
    · intro _ _ _ hw
      cases hw
    · intro hnot
      exact absurd hnot (by omega)
  | @notDue curr b ht hb hdue =>
    refine ⟨fun _ _ _ hw => by cases hw; exact hb.symm, ?_⟩
    rw [timeoutRight_waiting rfl, frontInTime_some ht hb, nextTime_iff (front_time hr hb) hdue]
    exact ⟨fun h _ => h, fun h => h hdue⟩

/-- **Headline.**  A deadline is the time of the call plus the interval; a look at the front leaves
    the right timeout exactly if a front that stays is in time; and in a run in which it always is,
    `select` never gets another one. -/
theorem select_timeout_runs (now : Timespec) :
    (∀ s : TimerSys θ, (sys θ now).Reachable s →
      (∀ b ∈ s.added, b.time.us = b.born.toTimeVal.us + 1000 * b.interval) ∧
      ∀ s', s.step .inspect = some s' →
        (∀ curr f tv, s'.timer = .waiting curr f tv → f = s'.mTimerList.front?) ∧
        (s'.TimeoutRight ↔ s.FrontInTime)) ∧
    (∀ s : TimerSys θ, TransSys.Runs (sys θ now) InspectInTime s → s.TimeoutRight) := by
  constructor
  · intro s hr
    refine ⟨fun b hb => ?_, fun s' hs => inspect_iff hr hs⟩
    rw [(made hr).1 b hb]
    exact deadline_us b.born b.interval
  · intro s hr
    refine TransSys.Runs.and (I := fun s : TimerSys θ => ∀ b, s.mTimerList.front? = some b →
      b.time = deadline b.born b.interval) (J := TimeoutRight)
        (fun hr b hb => front_time hr hb) ?_ ?_ hr
    · intro _ _ _ hw
      cases hw
    · intro s e s' hm h hs hg
      exact timeoutRight_step h hm (step_cases hs) hg

/-- The clock may go on by any amount. -/
theorem tick_step {s : TimerSys θ} {ts : Timespec} (h : s.now.ns ≤ ts.ns) :
    (sys θ now).step s (.tick ts) = some { s with now := ts } := if_pos h

/-- Half a second into a second. -/
def halfSecond : Timespec := ⟨0, 500000000, by decide⟩

/-- A timer of 1.5 s, on a clock that is not at a whole second. -/
theorem select_timeout_runs_carry :
    ∃ s s' : TimerSys Nat,
      (sys Nat halfSecond).Reachable s ∧ s.step .inspect = some s' ∧
      (∀ b ∈ s.added, b.time.us = b.born.toTimeVal.us + 1000 * b.interval) ∧
      (s'.TimeoutRight ↔ s.FrontInTime) ∧
      ∃ curr f tv, s'.timer = .waiting curr f tv ∧ RightTimeout curr f tv := by
  have h1 : TransSys.Runs (sys Nat halfSecond) InspectInTime _ :=
    .step .init (e := .addSample (.thread 0) ⟨1500, 0, 0, by decide⟩) rfl (by intro he; cases he)
  have h2 : TransSys.Runs (sys Nat halfSecond) InspectInTime _ :=
    .step h1 (e := .addInsert (.thread 0)) rfl (by intro he; cases he)
  have h3 : TransSys.Runs (sys Nat halfSecond) InspectInTime _ :=
    .step h2 (e := .tick ⟨0, 500001000, by decide⟩) (tick_step (by decide)) (by intro he; cases he)
  have h4 : TransSys.Runs (sys Nat halfSecond) InspectInTime _ := .step h3 (e := .sample) rfl
    (by intro he; cases he)
  have h5 : TransSys.Runs (sys Nat halfSecond) InspectInTime _ :=
    .step h4 (e := .inspect) rfl
      (by intro _ curr b ht hb _; cases ht; cases hb; exact ⟨by decide, by decide⟩)
  have hstep := (select_timeout_runs halfSecond).1 _ h4.reachable
  have hright := (select_timeout_runs halfSecond).2 _ h5
  exact ⟨_, _, h4.reachable, rfl, hstep.1, (hstep.2 _ rfl).2, _, _, _, rfl, hright _ _ _ rfl⟩

/-- **The carry that leaves 1000000 microseconds**: half a second into a second a timer of 1.5 s is
    added, and the clock is sampled at the next whole second.  `select` gets `(0, 1000000)`. -/
theorem select_timeout_whole_second :
    ¬ ∀ s s' : TimerSys Nat, (sys Nat halfSecond).Reachable s →
      (∀ b ∈ s.added, b.interval < 2 ^ 31) → s.step .inspect = some s' → s'.TimeoutRight := by
  intro h
  have h2 := TransSys.Reachable.exec (T := sys Nat halfSecond) .init
    [.addSample (.thread 0) ⟨1500, 0, 0, by decide⟩, .addInsert (.thread 0)] rfl
  have h3 : (sys Nat halfSecond).Reachable _ := .step h2 (e := .tick ⟨1, 0, by decide⟩)
    (tick_step (by decide)) trivial
  have h4 : (sys Nat halfSecond).Reachable _ := .step h3 (e := .sample) rfl trivial
  have hright := h _ _ h4 (by decide) rfl
  have husec := (hright _ _ _ rfl).usec.2
  revert husec
  decide

end TimerSys

end StevenProgram
