/-
  When timers fire, and when the timer thread is woken: results over whole runs of `TimerSys`.

  1.  **Accounts and order** (`no_timer_lost`) — the accounts of every reachable state; and, as long
     as no comparison wraps (`Close`), a list in order and nothing left behind that was due.

  2.  **Never early** (`no_callback_early`) — a callback comes no sooner than a millisecond before
     its time unless the front was due so far ahead that `getTimeDiff` wrapped (`Ahead`).

  3.  **Wake-ups** (`wakeUp_runs`) — the timer thread does not sleep on an old front unless a block
     was inserted in front of another (`InsertBehind` fails): `STATUS_WAKE_UP` comes only from an
     empty list.

  Each part has its condition on a step, the invariant it carries, the step lemma and the run; the
  runs at which the unconditional statement fails come last.

  The conditions differ because the defects do: the order of the list is spoilt by two deadlines
  that are far apart, a callback by one that is far from the clock, and a wake-up by any insertion
  in front.
-/
import StevenProgram.Timer.System

namespace StevenProgram

namespace TimerSys

open TimerList

variable {θ : Type} {now : Timespec}

/-- A block in the list was added. -/
theorem mem_added {s : TimerSys θ} (h : s.Accounts) {b : TimerBlock}
    (hb : b ∈ s.mTimerList.toList) : b ∈ s.added :=
  h.perm.mem_iff.mp (List.mem_append_left _ hb)

/-- The first timer is one of the list. -/
theorem mem_of_front {s : TimerSys θ} {b : TimerBlock} (hb : s.mTimerList.front? = some b) :
    b ∈ s.mTimerList.toList := by
  rw [NodeList.front?_eq] at hb; exact List.mem_of_mem_head? hb

/-! ## Accounts and order

  The accounts hold without a condition; the order needs the deadlines to be near each other in
  every state of the run. -/

/-- The pending deadlines are within `2^31 - 1` ms of each other, and none is further behind the
    clock that `processTimeout` sampled. -/
def Close (s : TimerSys θ) : Prop :=
  (∀ b ∈ s.mTimerList.toList, ∀ c ∈ s.mTimerList.toList, b.time.us - c.time.us ≤ nearUs) ∧
  ∀ curr, s.timer = .draining curr → ∀ b ∈ s.mTimerList.toList,
    curr.toTimeVal.us - b.time.us ≤ nearUs

/-- Nothing is far away before the first timer. -/
theorem close_init :
    (init θ now).Close := ⟨fun _ h => absurd h List.not_mem_nil, fun _ h => nomatch h⟩

variable [DecidableEq θ]

/-- **Step lemma.** Blocks enter at the place that `addToTimerList` finds and leave at the front;
    every other step keeps the list. -/
theorem ordered_step {s s' : TimerSys θ} {e : Event θ} (h : Ordered s.mTimerList.toList)
    (hc : s'.Close)
    (hs : Step s e s') : Ordered s'.mTimerList.toList := by
  cases hs with
  | addInsert _ => exact addToTimerList_near _ _ h hc.1
  | pop _ _ _ => exact popFront_ordered h
  | tick _ | addFails | addSample _ | addWake _ | sample _ | empty _ _ | notDue _ _ _ | call _
  | callReturn _
  | selectReadable _ | selectTimeout _ => exact h

/-- **The list stays ordered** while its deadlines stay close. -/
theorem ordered {s : TimerSys θ} (h : TransSys.Runs (sys θ now) (fun _ _ s' => s'.Close) s) :
    Ordered s.mTimerList.toList ∧ s.Close := by
  refine TransSys.Runs.invariant (I := fun s : TimerSys θ => Ordered s.mTimerList.toList ∧ s.Close)
    ⟨?_, close_init⟩ (fun hi hs hg => ⟨ordered_step hi.1 hg (step_cases hs), hg⟩) h
  exact List.Pairwise.nil

/-- `processTimeout` leaves nothing behind that was due a millisecond before the sampled clock. -/
theorem inspect_leaves {s s' : TimerSys θ} (ho : Ordered s.mTimerList.toList) (hc : s.Close)
    (hs : Step s .inspect s') {curr : Timespec} {f : Option TimerBlock} {tv : TimeVal}
    (hw : s'.timer = .waiting curr f tv) :
    ∀ b ∈ s'.mTimerList.toList, curr.toTimeVal.us - 1000 < b.time.us := by
  cases hs with
  | empty _ hb =>
    rw [NodeList.front?_eq, List.head?_eq_none_iff] at hb
    intro b hmem
    rw [show s.mTimerList.toList = [] from hb] at hmem
    exact absurd hmem List.not_mem_nil
  | pop _ _ _ => nomatch hw
  | @notDue curr' b ht hb hlt =>
    cases hw
    have hfront : curr.toTimeVal.us < b.time.us := by
      rcases Int.lt_or_le (timeDiff curr.toTimeVal b.time) 0 with hneg | hpos
      · exact (timeDiff_spec _ _).2.2.2 hneg
      · -- a difference that is not negative does not wrap, the front being close
        have hnear := hc.2 curr ht b (mem_of_front hb)
        obtain ⟨r, hr, hlo, hhi⟩ := timeDiff_rest curr.toTimeVal b.time
        rw [nearUs] at hnear
        rw [getTimeDiff_eq (by omega) (by omega)] at hlt
        omega
    intro c hmem
    rw [NodeList.front?_eq] at hb
    obtain ⟨rest, hrest⟩ := List.head?_eq_some_iff.mp hb
    have hmem : c ∈ s.mTimerList.toList := hmem
    rw [hrest] at hmem ho
    rcases List.mem_cons.mp hmem with rfl | hmem
    · omega
    · have := (List.pairwise_cons.mp ho).1 c hmem
      omega

/-- **Headline.**  In every run each added block is once in the list or popped, and the callbacks
    are the pops, in order, but for one in hand.  In a run without wrapping, nothing that stays in
    the list when `processTimeout` returns was due a millisecond before the clock it had sampled. -/
theorem no_timer_lost (now : Timespec) :
    (∀ s : TimerSys θ, (sys θ now).Reachable s →
      (s.mTimerList.toList ++ s.pops).Perm s.added ∧ (s.added.map TimerBlock.addr).Nodup ∧
      s.calls.map Prod.fst ++ inHand s.timer = s.pops) ∧
    (∀ s : TimerSys θ, TransSys.Runs (sys θ now) (fun _ _ s' => s'.Close) s →
      ∀ s' curr f tv, s.step .inspect = some s' → s'.timer = .waiting curr f tv →
        ∀ b ∈ s'.mTimerList.toList, curr.toTimeVal.us - 1000 < b.time.us) := by
  constructor
  · intro s hr
    have h := accounts hr
    exact ⟨h.perm, h.nodup, h.calls⟩
  · intro s hr s' curr f tv hs hw
    obtain ⟨ho, hc⟩ := ordered hr
    exact inspect_leaves ho hc (step_cases hs) hw

/-- Ten milliseconds after the origin. -/
def tenMs : Timespec := ⟨0, 10000000, by decide⟩

def fiveMs : TimerPara := ⟨5, 0, 0, by decide⟩

def fiftyMs : TimerPara := ⟨50, 0, 0, by decide⟩

/-- Timers of 5 ms and of 50 ms, from two threads; 10 ms later the first is popped and called
    back. -/
def twoTimers : List (Event Nat) :=
  [.addSample (.thread 0) fiveMs, .addInsert (.thread 0), .addSample (.thread 1) fiftyMs,
    .addInsert (.thread 1), .tick tenMs, .sample, .inspect, .call, .callReturn]

/-- Two timers, of which one was popped and called back and the other is pending. -/
theorem no_timer_lost_pending :
    ∃ s s' : TimerSys Nat, (sys Nat .zero).exec (init Nat .zero) twoTimers = some s ∧
      s.step .inspect = some s' ∧ s'.mTimerList.toList.length = 1 ∧ s.calls.length = 1 ∧
      ((s.mTimerList.toList ++ s.pops).Perm s.added ∧ (s.added.map TimerBlock.addr).Nodup ∧
        s.calls.map Prod.fst ++ inHand s.timer = s.pops) ∧
      ∀ b ∈ s'.mTimerList.toList, tenMs.toTimeVal.us - 1000 < b.time.us := by
  have h1 : TransSys.Runs (sys Nat .zero) (fun _ _ s' => s'.Close) _ :=
    .step .init (e := .addSample (.thread 0) fiveMs) rfl ⟨by decide, by nofun⟩
  have h2 := h1.step (e := .addInsert (.thread 0)) rfl ⟨by decide, by nofun⟩
  have h3 := h2.step (e := .addSample (.thread 1) fiftyMs) rfl ⟨by decide, by nofun⟩
  have h4 := h3.step (e := .addInsert (.thread 1)) rfl ⟨by decide, by nofun⟩
  have htick : ∀ s : TimerSys Nat, s.now = .zero →
      (sys Nat .zero).step s (.tick tenMs) = some { s with now := tenMs } := by
    intro s hs
    exact if_pos (hs ▸ by decide)
  have h5 := h4.step (htick _ rfl) ⟨by decide, by nofun⟩
  have h6 := h5.step (e := .sample) rfl ⟨by decide, fun curr hc => by cases hc; decide⟩
  have h7 := h6.step (e := .inspect) rfl ⟨by decide, by nofun⟩
  have h8 := h7.step (e := .call) rfl ⟨by decide, by nofun⟩
  have h9 := h8.step (e := .callReturn) rfl ⟨by decide, fun curr hc => by cases hc; decide⟩
  exact ⟨_, _, rfl, rfl, rfl, rfl, (no_timer_lost .zero).1 _ h9.reachable,
    (no_timer_lost .zero).2 _ h9 _ tenMs _ _ rfl rfl⟩

/-! ## Never early

  A block carries the moment it was made at, which the code does not keep; the deadline is compared
  with that moment and the interval. -/

/-- The clock is later than the call of `addTimer` plus the interval minus a millisecond. -/
def NotEarly (b : TimerBlock) (curr : Timespec) : Prop :=
  (b.born.ns : Int) + b.interval * 1000000 - 1000000 < curr.ns

instance (b : TimerBlock) (curr : Timespec) : Decidable (NotEarly b curr) := inferInstanceAs
    (Decidable (_ < _))

/-- The difference in milliseconds to the front is not one that becomes positive when it is
    narrowed. -/
def Ahead (curr t : TimeVal) : Prop := -2 ^ 31 ≤ timeDiff curr t ∨ 2 ^ 31 ≤ timeDiff curr t % 2 ^ 32

/-- At every look at a front block. -/
def InspectAhead (s : TimerSys θ) (e : Event θ) (_ : TimerSys θ) : Prop :=
  e = .inspect → ∀ curr b, s.timer = .draining curr → s.mTimerList.front? = some b →
    Ahead curr.toTimeVal b.time

/-- The test of `processTimeout`, on a block `addTimer` made. -/
theorem due_notEarly_iff {curr : Timespec} {b : TimerBlock}
    (hb : b.time = deadline b.born b.interval) :
    (0 ≤ getTimeDiff curr.toTimeVal b.time → NotEarly b curr) ↔ Ahead curr.toTimeVal b.time := by
  have hus := deadline_us b.born b.interval
  rw [← hb] at hus
  have hborn := toTimeVal_us b.born
  have hcurr := toTimeVal_us curr
  obtain ⟨r, hr, hlo, hhi⟩ := timeDiff_rest curr.toTimeVal b.time
  rw [getTimeDiff, NotEarly, Ahead, Int.bmod_def]
  generalize timeDiff curr.toTimeVal b.time = d at hr ⊢
  constructor
  · intro h
    rcases Int.lt_or_le d (-2 ^ 31) with hd | hd
    · refine .inr ?_
      rcases Int.lt_or_le (d % 2 ^ 32) (2 ^ 31) with hm | hm
      · -- it wrapped: the callback would be due, and is far too early
        have := h (by rw [if_pos (by omega)]; omega)
        omega
      · exact hm
    · exact .inl hd
  · intro h hdue
    have hd : 0 ≤ d := by
      split at hdue <;> omega
    omega

/-- Every block's time was computed by `addTimer`. -/
def Made (s : TimerSys θ) : Prop :=
  (∀ b ∈ s.added, b.time = deadline b.born b.interval) ∧
  ∀ k b, s.adders k = .sampled b → b.time = deadline b.born b.interval

omit [DecidableEq θ] in
/-- Before the first call there is no block. -/
theorem made_init :
    (init θ now).Made := ⟨fun _ hb => absurd hb List.not_mem_nil, fun _ _ hk => nomatch hk⟩

/-- The deadline of a block is set once, from the moment and the interval it was made with. -/
theorem made_step {s s' : TimerSys θ} {e : Event θ} (h : s.Made) (hs : Step s e s') : s'.Made := by
  obtain ⟨hm, hf⟩ := h
  cases hs with
  | @addSample k param _ =>
    refine ⟨hm, ?_⟩
    intro j b hj
    rw [addSample_adders] at hj
    by_cases hjk : j = k
    · rw [hjk, Function.update_self] at hj; cases hj; rfl
    · rw [Function.update_of_ne hjk] at hj; exact hf j b hj
  | @addInsert k b hk =>
    constructor
    · intro c hc
      rcases List.mem_append.mp hc with hc | hc
      · exact hm c hc
      · rw [List.mem_singleton.mp hc]
        exact hf k b hk
    · intro j c hj
      exact hf j c (sampled_of_update (fun _ => by nofun) hj).2
  | addWake _ => exact ⟨hm, fun j c hj => hf j c (sampled_of_update (fun _ => by nofun) hj).2⟩
  | tick _ | addFails | sample _ | empty _ _ | pop _ _ _ | notDue _ _ _ | call _ | callReturn _
  | selectReadable _
  | selectTimeout _ => exact ⟨hm, hf⟩

/-- So every block has it in every reachable state. -/
theorem made {s : TimerSys θ} (h : (sys θ now).Reachable s) : s.Made :=
  TransSys.Runs.invariant (I := Made) made_init (fun hi hs _ => made_step hi (step_cases hs)) h

/-- What has been called back, or is about to be, was not early. -/
def Punctual (s : TimerSys θ) : Prop :=
  (∀ c ∈ s.calls, NotEarly c.1 c.2) ∧ ∀ curr b, s.timer = .popped curr b → NotEarly b curr

omit [DecidableEq θ] in
/-- Before the first call none was made. -/
theorem punctual_init :
    (init θ now).Punctual := ⟨fun _ hc => absurd hc List.not_mem_nil, fun _ _ hp => nomatch hp⟩

/-- **Step lemma.** A block is popped by the test alone, which is right where the difference is
    `Ahead`; the call back is of the popped block, and the clock that was sampled does not change in
    between. -/
theorem punctual_step {s s' : TimerSys θ} {e : Event θ}
    (hm : ∀ b ∈ s.mTimerList.toList, b.time = deadline b.born b.interval)
    (h : s.Punctual) (hs : Step s e s') (hg : InspectAhead s e s') : s'.Punctual := by
  cases hs with
  | @pop curr b ht hb hdue =>
    refine ⟨h.1, ?_⟩
    intro curr' b' hp
    cases hp
    exact (due_notEarly_iff (hm b (mem_of_front hb))).mpr (hg rfl curr b ht hb) hdue
  | @call curr b ht =>
    constructor
    · intro c hc
      rcases List.mem_append.mp hc with hc | hc
      · exact h.1 c hc
      · rw [List.mem_singleton.mp hc]
        exact h.2 curr b ht
    · intro curr' b' hp
      cases hp
  | tick _ | addFails | addSample _ | addInsert _ | addWake _ => exact h
  | sample _ | empty _ _ | notDue _ _ _ | callReturn _ | selectReadable _ | selectTimeout _ =>
    exact ⟨h.1, by nofun⟩

/-- **Headline.**  On every reachable look at a front block, the test is right exactly when the
    difference is `Ahead`; and in a run in which it always is, no callback comes early. -/
theorem no_callback_early (now : Timespec) :
    (∀ s : TimerSys θ, (sys θ now).Reachable s →
      ∀ curr b, s.timer = .draining curr → s.mTimerList.front? = some b →
        ((0 ≤ getTimeDiff curr.toTimeVal b.time → NotEarly b curr) ↔ Ahead curr.toTimeVal b.time)) ∧
    (∀ s : TimerSys θ, TransSys.Runs (sys θ now) InspectAhead s → ∀ c ∈ s.calls,
      NotEarly c.1 c.2) := by
  have hlist : ∀ {s : TimerSys θ}, (sys θ now).Reachable s →
      ∀ b ∈ s.mTimerList.toList, b.time = deadline b.born b.interval :=
    fun hr b hb => (made hr).1 b (mem_added (accounts hr) hb)
  refine ⟨fun s hr curr b _ hb => due_notEarly_iff (hlist hr b (mem_of_front hb)), ?_⟩
  intro s hr
  exact (TransSys.Runs.and (J := Punctual) hlist punctual_init
    (fun hm hi hs hg => punctual_step hm hi (step_cases hs) hg) hr).1

/-- A timer of 0 ms, due when the clock is sampled. -/
theorem no_callback_early_due :
    ∃ s : TimerSys Nat,
      (sys Nat .zero).exec (init Nat .zero) [.addSample (.thread 0) ⟨0, 0, 0, by decide⟩,
        .addInsert (.thread 0),
        .sample, .inspect, .call] = some s ∧
      s.calls.length = 1 ∧ (∀ c ∈ s.calls, NotEarly c.1 c.2) ∧
      ∃ s0 : TimerSys Nat, ∃ b,
        (sys Nat .zero).exec (init Nat .zero) [.addSample (.thread 0) ⟨0, 0, 0, by decide⟩,
          .addInsert (.thread 0),
          .sample] = some s0 ∧ s0.mTimerList.front? = some b ∧
        ((0 ≤ getTimeDiff Timespec.zero.toTimeVal b.time → NotEarly b .zero) ↔
          Ahead Timespec.zero.toTimeVal b.time) := by
  have h1 : TransSys.Runs (sys Nat .zero) InspectAhead _ :=
    .step .init (e := .addSample (.thread 0) ⟨0, 0, 0, by decide⟩) rfl (by nofun)
  have h2 : TransSys.Runs (sys Nat .zero) InspectAhead _ :=
    .step h1 (e := .addInsert (.thread 0)) rfl (by nofun)
  have h3 : TransSys.Runs (sys Nat .zero) InspectAhead _ := .step h2 (e := .sample) rfl (by nofun)
  have h4 : TransSys.Runs (sys Nat .zero) InspectAhead _ :=
    .step h3 (e := .inspect) rfl fun _ curr b ht hb => by cases ht; cases hb; exact .inl (by decide)
  have h5 : TransSys.Runs (sys Nat .zero) InspectAhead _ := .step h4 (e := .call) rfl (by nofun)
  exact ⟨_, rfl, rfl, (no_callback_early .zero).2 _ h5, _, _, rfl, rfl,
    (no_callback_early .zero).1 _ h3.reachable .zero _ rfl rfl⟩

/-- **The wrapped difference**: an interval of 3000000000 ms, called back at once. -/
theorem no_callback_early_wraps :
    ¬ ∀ s : TimerSys Nat, (sys Nat .zero).Reachable s → ∀ c ∈ s.calls, NotEarly c.1 c.2 := by
  intro h
  have hall :=
    h _ (TransSys.Reachable.exec .init [.addSample (.thread 0) ⟨3000000000, 0, 0, by decide⟩,
    .addInsert (.thread 0), .sample, .inspect, .call] rfl)
  revert hall
  decide

/-! ## Wake-ups

  While the timer thread sleeps, a new front is harmless only if something is going to wake it: a
  byte in the pipe, or an adder that has been told to write one. -/

/-- The block that is inserted is not in front of another one. -/
def InsertBehind (s : TimerSys θ) (e : Event θ) (_ : TimerSys θ) : Prop :=
  ∀ k b, e = .addInsert k → s.adders k = .sampled b → ∀ f, s.mTimerList.front? = some f →
    getTimeDiff f.time b.time ≤ 0

/-- While the timer thread is in `select`, the front is still the block its timeout comes from, or a
    wake-up byte is in the pipe or about to be written. -/
def Awake (s : TimerSys θ) : Prop :=
  ∀ curr f tv, s.timer = .waiting curr f tv →
    s.mTimerList.front? = f ∨ s.pipe = true ∨ ∃ k, s.adders k = .inserted .wakeUp

omit [DecidableEq θ] in
/-- And the timer thread does not wait. -/
theorem awake_init : (init θ now).Awake := fun _ _ _ hw => nomatch hw

/-- **Step lemma.** Only an insertion changes the front under a thread that waits; behind another
    block it does not, and into an empty list it tells its caller to write the byte. -/
theorem awake_step {s s' : TimerSys θ} {e : Event θ} (h : s.Awake) (hs : Step s e s')
    (hg : InsertBehind s e s') :
    s'.Awake := by
  cases hs with
  | tick _ | addFails => exact h
  | @addSample k param hk =>
    intro curr f tv hw
    rcases h curr f tv hw with hf | hp | ⟨j, hj⟩
    · exact .inl hf
    · exact .inr (.inl hp)
    · have hjk : j ≠ k := by rintro rfl; rw [hk] at hj; cases hj
      exact .inr (.inr ⟨j, by rw [addSample_adders, Function.update_of_ne hjk]; exact hj⟩)
  | @addInsert k b hk =>
    intro curr f tv hw
    have hstat := addToTimerList_status s.mTimerList { b with timerId := s.nextId }
    have hhead := addToTimerList_head s.mTimerList { b with timerId := s.nextId }
    cases hl : s.mTimerList.toList with
    | nil =>
      -- the caller is told
      rw [hl, if_pos rfl] at hstat
      exact .inr (.inr ⟨k, (Function.update_self k _ s.adders).trans (by rw [hstat])⟩)
    | cons g gs =>
      have hfront : s.mTimerList.front? = some g := by rw [NodeList.front?_eq, hl]; rfl
      have hle := hg k b rfl hk g hfront
      have hkeep : (s.addInsert k b).mTimerList.front? = s.mTimerList.front? := by
        rw [hfront, NodeList.front?_eq]
        refine hhead.trans ?_
        rw [hl]
        exact if_neg (by rw [dueLater, decide_eq_true_eq]; exact Int.not_lt.mpr hle)
      rcases h curr f tv hw with hf | hp | ⟨j, hj⟩
      · exact .inl (hkeep.trans hf)
      · exact .inr (.inl hp)
      · have hjk : j ≠ k := by rintro rfl; rw [hk] at hj; cases hj
        exact .inr (.inr ⟨j, (Function.update_of_ne hjk _ s.adders).trans hj⟩)
  | @addWake k ret hk =>
    intro curr f tv hw
    rcases h curr f tv hw with hf | hp | ⟨j, hj⟩
    · exact .inl hf
    · exact .inr (.inl (by rw [addWake, hp]; rfl))
    · by_cases hjk : j = k
      · -- the byte is written
        rw [hjk, hk] at hj
        cases hj
        exact .inr (.inl (by rw [addWake]; exact Bool.or_true _))
      · exact .inr (.inr ⟨j, (Function.update_of_ne hjk _ s.adders).trans hj⟩)
  | empty _ hb => intro curr f tv hw; cases hw; exact .inl hb
  | notDue _ hb _ => intro curr f tv hw; cases hw; exact .inl hb
  | sample _ | pop _ _ _ | call _ | callReturn _ | selectReadable _ | selectTimeout _ =>
    intro curr f tv hw; cases hw

/-- **Headline.**  Of a new block, `STATUS_WAKE_UP` says that it is in front exactly when no block
    was in front that is due later; and in a run in which that is so at every insertion, the timer
    thread never sleeps on a front that has changed without being woken. -/
theorem wakeUp_runs (now : Timespec) :
    (∀ s : TimerSys θ, (sys θ now).Reachable s → ∀ k b, s.adders k = .sampled b →
      (((addToTimerList s.mTimerList { b with timerId := s.nextId }).2 = .wakeUp ↔
          (s.addInsert k b).mTimerList.front? = some { b with timerId := s.nextId }) ↔
        ∀ f, s.mTimerList.front? = some f → getTimeDiff f.time b.time ≤ 0)) ∧
    (∀ s : TimerSys θ, TransSys.Runs (sys θ now) InsertBehind s → s.Awake) := by
  constructor
  · intro s hr k b hk
    have ha := accounts hr
    apply wakeUp_iff_front s.mTimerList { b with timerId := s.nextId }
    -- a filled block is not in the list
    intro hmem
    exact (ha.pending hk).2 _ (mem_added ha hmem) rfl
  · intro s hr
    exact TransSys.Runs.invariant (I := Awake) awake_init
      (fun hi hs hg => awake_step hi (step_cases hs) hg) hr

/-- A timer of 1 s is pending, and a thread has filled a block for 5 s. -/
theorem wakeUp_runs_behind :
    ∃ s : TimerSys Nat, ∃ b,
      (sys Nat .zero).exec (init Nat .zero) [.addSample (.thread 0) ⟨1000, 0, 0, by decide⟩,
        .addInsert (.thread 0),
        .addSample (.thread 1) ⟨5000, 0, 0, by decide⟩] = some s ∧
      (((addToTimerList s.mTimerList { b with timerId := s.nextId }).2 = .wakeUp ↔
          (s.addInsert (.thread 1) b).mTimerList.front? = some { b with timerId := s.nextId }) ↔
        ∀ f, s.mTimerList.front? = some f → getTimeDiff f.time b.time ≤ 0) ∧
      s.Awake := by
  have h1 : TransSys.Runs (sys Nat .zero) InsertBehind _ :=
    .step .init (e := .addSample (.thread 0) ⟨1000, 0, 0, by decide⟩) rfl (by nofun)
  have h2 : TransSys.Runs (sys Nat .zero) InsertBehind _ :=
    .step h1 (e := .addInsert (.thread 0)) rfl fun _ _ _ _ f hf => nomatch
      (show none = some f from hf)
  have h3 : TransSys.Runs (sys Nat .zero) InsertBehind _ :=
    .step h2 (e := .addSample (.thread 1) ⟨5000, 0, 0, by decide⟩) rfl (by nofun)
  exact ⟨_, _, rfl, (wakeUp_runs .zero).1 _ h3.reachable (.thread 1) _ rfl,
    (wakeUp_runs .zero).2 _ h3⟩

/-- **The missed wake-up**: 10 s are pending and 1 s is added.  The new block is in front, and
    `addToTimerList` returns `STATUS_SUCCESS`. -/
theorem wakeUp_missed :
    ¬ ∀ s : TimerSys Nat, (sys Nat .zero).Reachable s → ∀ k b, s.adders k = .sampled b →
      ((addToTimerList s.mTimerList { b with timerId := s.nextId }).2 = .wakeUp ↔
        (s.addInsert k b).mTimerList.front? = some { b with timerId := s.nextId }) := by
  intro h
  have hiff := h _ (TransSys.Reachable.exec .init [.addSample (.thread 0) ⟨10000, 0, 0, by decide⟩,
    .addInsert (.thread 0), .addSample (.thread 1) ⟨1000, 0, 0, by decide⟩] rfl) (.thread 1) _ rfl
  revert hiff
  decide

end TimerSys

end StevenProgram
