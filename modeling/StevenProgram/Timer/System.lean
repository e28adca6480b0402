/-
  `mxMiniTimer` as a transition system: the clock, any number of threads in `addTimer`, and the
  timer thread in `runTimerTask`.

  A step is what a thread does between two points at which the mutex changes hands: `addTimer`
  samples the clock and fills its block outside the mutex (`addSample`), inserts it inside
  (`addInsert`), and writes the wake-up byte outside (`addWake`); `processTimeout` samples the clock
  once (`sample`) and then, each turn, inspects the front inside the mutex (`inspect`: pop it, or
  leave with a timeout for `select`) and calls back outside (`call`, `callReturn`).  A callback may
  call `addTimer` too, on the timer thread.  Any of these may happen at any time the thread in
  question has reached it.

  1.  **The system** — `TimerSys`, `Event`, `step`; `Step` has one constructor for each thing that
     can happen and `step_cases` is the inversion every invariant starts from.

  2.  **Accounts** — every block is exactly once in the list or popped, and popped blocks are called
     back once, in order (`accounts`).

  `added`, `pops` and `calls` are histories: nothing of the code reads them, and the results are
  said with them.
-/
import Mathlib.Logic.Function.Basic
import StevenProgram.Lib.TransSys
import StevenProgram.Timer.TimerList

namespace StevenProgram

/-- The members of `timerPara_t` the timer uses; `interval` is a `u32_t`. -/
structure TimerPara where
  interval : Nat
  para : Nat
  Func : Nat
  interval_lt : interval < 2 ^ 32
  deriving DecidableEq

/-- Who calls `addTimer`: a thread, or the callback that the timer thread is in. -/
inductive Caller (θ : Type) where
  | thread (t : θ)
  | callback
  deriving DecidableEq

/-- Where a caller is in `addTimer`. -/
inductive AddPhase where
  | idle
  /-- the block is filled; at `mMutex.lock()` -/
  | sampled (b : TimerBlock)
  /-- after `mMutex.unlock()` -/
  | inserted (ret : TimerStatus)
  deriving DecidableEq

/-- Where the timer thread is. -/
inductive TimerPhase where
  /-- at the call of `processTimeout` -/
  | idle
  /-- at `mMutex.lock()`, with the clock it sampled -/
  | draining (curr : Timespec)
  /-- the front is popped and the mutex released -/
  | popped (curr : Timespec) (b : TimerBlock)
  /-- in `pTmBlk->Func(pTmBlk->para)` -/
  | calling (curr : Timespec) (b : TimerBlock)
  /-- in `select` with the timeout `tv`, computed from the block `front` -/
  | waiting (curr : Timespec) (front : Option TimerBlock) (tv : TimeVal)
  deriving DecidableEq

/-- The members of the timer, where its threads are, and the histories of the run. -/
structure TimerSys (θ : Type) where
  /-- `CLOCK_MONOTONIC` -/
  now : Timespec
  mTimerList : NodeList TimerBlock
  mActiveTimerCount : Nat
  /-- a byte can be read from `mWakerPipeRecv` -/
  pipe : Bool
  adders : Caller θ → AddPhase
  timer : TimerPhase
  /-- the next address `malloc` gives -/
  nextAddr : Nat
  /-- the blocks inserted so far -/
  added : List TimerBlock
  /-- the blocks taken out so far -/
  pops : List TimerBlock
  /-- the callbacks so far, each with the clock `processTimeout` had sampled -/
  calls : List (TimerBlock × Timespec)

/-- What can happen next. -/
inductive Event (θ : Type) where
  | tick (ts : Timespec)
  | addFails (k : Caller θ)
  | addSample (k : Caller θ) (param : TimerPara)
  | addInsert (k : Caller θ)
  | addWake (k : Caller θ)
  | sample
  | inspect
  | call
  | callReturn
  | selectReadable
  | selectTimeout
  deriving DecidableEq

namespace TimerSys

variable {θ : Type}

/-- The timer thread has been started, nothing is pending and the clock shows `now`. -/
def init (θ : Type) (now : Timespec) : TimerSys θ :=
  ⟨now, .empty, 0, false, fun _ => .idle, .idle, 0, [], [], []⟩

/-- `time_value` of `processTimeout`, with the front's deadline `t` behind the sampled clock. -/
def nextTime (curr_time t : TimeVal) : TimeVal :=
  let time_value : TimeVal :=
    if t.tv_usec < curr_time.tv_usec then
      ⟨t.tv_sec - curr_time.tv_sec - 1, 1000000 + t.tv_usec - curr_time.tv_usec⟩
    else ⟨t.tv_sec - curr_time.tv_sec, t.tv_usec - curr_time.tv_usec⟩
  -- less than 1ms
  if time_value.tv_sec = 0 ∧ time_value.tv_usec < 1000 then ⟨time_value.tv_sec, 1000⟩ else
    time_value

/-- The caller is not in `addTimer`, and a callback is in its function. -/
def canAdd (s : TimerSys θ) (k : Caller θ) : Bool :=
  match s.adders k, k, s.timer with
  | .idle, .thread _, _ => true
  | .idle, .callback, .calling _ _ => true
  | _, _, _ => false

/-- A caller begins to add when it is idle. -/
theorem canAdd_idle {s : TimerSys θ} {k : Caller θ} (h : s.canAdd k = true) :
    s.adders k = .idle := by
  cases hk : s.adders k with
  | idle => rfl
  | sampled b => simp [canAdd, hk] at h
  | inserted ret => simp [canAdd, hk] at h

variable [DecidableEq θ]

/-- The block `addTimer` fills outside the mutex. -/
def newBlock (s : TimerSys θ) (param : TimerPara) : TimerBlock where
  addr := s.nextAddr
  timerId := 0
  time := deadline s.now param.interval
  Func := param.Func
  para := param.para
  born := s.now
  interval := param.interval

/-- `addTimer` up to the mutex. -/
def addSample (s : TimerSys θ) (k : Caller θ) (param : TimerPara) : TimerSys θ :=
  { s with
    adders := Function.update s.adders k (.sampled (s.newBlock param))
    nextAddr := s.nextAddr + 1 }

/-- `mActiveTimerCount++`. -/
def nextId (s : TimerSys θ) : Nat := (s.mActiveTimerCount + 1) % 2 ^ 32

/-- The critical section of `addTimer`. -/
def addInsert (s : TimerSys θ) (k : Caller θ) (b : TimerBlock) : TimerSys θ :=
  let pTmBlk := { b with timerId := s.nextId }
  let r := addToTimerList s.mTimerList pTmBlk
  { s with
    mActiveTimerCount := s.nextId
    mTimerList := r.1
    adders := Function.update s.adders k (.inserted r.2)
    added := s.added ++ [pTmBlk] }

/-- `if (ret == STATUS_WAKE_UP) sendWakeSignal();` — a full pipe stays readable. -/
def addWake (s : TimerSys θ) (k : Caller θ) (ret : TimerStatus) : TimerSys θ :=
  { s with pipe := s.pipe || ret == .wakeUp, adders := Function.update s.adders k .idle }

/-- One turn of the loop of `processTimeout`, up to the `unlock`. -/
def inspect (s : TimerSys θ) (curr : Timespec) : TimerSys θ :=
  match s.mTimerList.front? with
  | none => { s with timer := .waiting curr none ⟨2, 0⟩ }
  | some b =>
      if 0 ≤ getTimeDiff curr.toTimeVal b.time then
        { s with
          mTimerList := s.mTimerList.popFront
          timer := .popped curr b
          pops := s.pops ++ [b] }
      else { s with timer := .waiting curr (some b) (nextTime curr.toTimeVal b.time) }

/-- `none`: the event cannot happen here.  `selectTimeout` is every return of `select` that reads no
    byte, an error included. -/
def step (s : TimerSys θ) : Event θ → Option (TimerSys θ)
  | .tick ts => if s.now.ns ≤ ts.ns then some { s with now := ts } else none
  | .addFails k => if s.canAdd k then some s else none
  | .addSample k param => if s.canAdd k then some (s.addSample k param) else none
  | .addInsert k => match s.adders k with
      | .sampled b => some (s.addInsert k b)
      | _ => none
  | .addWake k => match s.adders k with
      | .inserted ret => some (s.addWake k ret)
      | _ => none
  | .sample => match s.timer with
      | .idle => some { s with timer := .draining s.now }
      | _ => none
  | .inspect => match s.timer with
      | .draining curr => some (s.inspect curr)
      | _ => none
  | .call => match s.timer with
      | .popped curr b => some { s with timer := .calling curr b, calls := s.calls ++ [(b, curr)] }
      | _ => none
  | .callReturn => match s.timer with
      | .calling curr _ => if s.adders .callback = .idle then
          some { s with timer := .draining curr } else none
      | _ => none
  | .selectReadable => match s.timer with
      | .waiting .. => if s.pipe then some { s with timer := .idle, pipe := false } else none
      | _ => none
  | .selectTimeout => match s.timer with
      | .waiting .. => some { s with timer := .idle }
      | _ => none

/-- The system whose clock starts at `now`. -/
def sys (θ : Type) [DecidableEq θ] (now : Timespec) : TransSys (TimerSys θ) (Event θ) :=
  ⟨init θ now, step⟩

/-! ## What can happen

  `step` computes; `Step` is for proofs.  Its constructors have the guards as premises, so a case
  analysis leaves no branch that cannot be taken. -/

/-- The steps, one constructor for each outcome. -/
inductive Step (s : TimerSys θ) : Event θ → TimerSys θ → Prop
  | tick {ts : Timespec} : s.now.ns ≤ ts.ns → Step s (.tick ts) { s with now := ts }
  | addFails {k : Caller θ} : Step s (.addFails k) s
  | addSample {k : Caller θ} {param : TimerPara} :
    s.adders k = .idle → Step s (.addSample k param) (s.addSample k param)
  | addInsert {k : Caller θ} {b : TimerBlock} :
    s.adders k = .sampled b → Step s (.addInsert k) (s.addInsert k b)
  | addWake {k : Caller θ} {ret : TimerStatus} :
    s.adders k = .inserted ret → Step s (.addWake k) (s.addWake k ret)
  | sample : s.timer = .idle → Step s .sample { s with timer := .draining s.now }
  | empty {curr : Timespec} : s.timer = .draining curr → s.mTimerList.front? = none →
      Step s .inspect { s with timer := .waiting curr none ⟨2, 0⟩ }
  | pop {curr : Timespec} {b : TimerBlock} :
    s.timer = .draining curr → s.mTimerList.front? = some b →
      0 ≤ getTimeDiff curr.toTimeVal b.time →
      Step s .inspect { s with
        mTimerList := s.mTimerList.popFront, timer := .popped curr b, pops := s.pops ++ [b] }
  | notDue {curr : Timespec} {b : TimerBlock} :
    s.timer = .draining curr → s.mTimerList.front? = some b →
      getTimeDiff curr.toTimeVal b.time < 0 →
      Step s .inspect { s with timer := .waiting curr (some b) (nextTime curr.toTimeVal b.time) }
  | call {curr : Timespec} {b : TimerBlock} : s.timer = .popped curr b →
      Step s .call { s with timer := .calling curr b, calls := s.calls ++ [(b, curr)] }
  | callReturn {curr : Timespec} {b : TimerBlock} : s.timer = .calling curr b →
      Step s .callReturn { s with timer := .draining curr }
  | selectReadable {curr : Timespec} {f : Option TimerBlock} {tv : TimeVal} :
    s.timer = .waiting curr f tv →
      Step s .selectReadable { s with timer := .idle, pipe := false }
  | selectTimeout {curr : Timespec} {f : Option TimerBlock} {tv : TimeVal} :
    s.timer = .waiting curr f tv →
      Step s .selectTimeout { s with timer := .idle }

/-- The three outcomes of looking at the front of the list. -/
theorem inspect_cases {s : TimerSys θ} {curr : Timespec} (hcurr : s.timer = .draining curr) :
    Step s .inspect (s.inspect curr) := by
  rw [inspect]
  split
  · next hfront => exact .empty hcurr hfront
  · next b hfront =>
    split
    · next hdue => exact .pop hcurr hfront hdue
    · next hdue => exact .notDue hcurr hfront (Int.not_le.mp hdue)

/-- **What a step can do**, event by event. -/
theorem step_cases {s s' : TimerSys θ} {e : Event θ} (h : s.step e = some s') : Step s e s' := by
  cases e with
  | tick ts =>
    rw [step] at h
    split at h
    · cases h; exact .tick ‹_›
    · nomatch h
  | addFails k =>
    rw [step] at h
    split at h
    · cases h; exact .addFails
    · nomatch h
  | addSample k param =>
    rw [step] at h
    split at h
    · cases h; exact .addSample (canAdd_idle ‹_›)
    · nomatch h
  | addInsert k =>
    rw [step] at h
    split at h
    · cases h; exact .addInsert ‹_›
    · nomatch h
  | addWake k =>
    rw [step] at h
    split at h
    · cases h; exact .addWake ‹_›
    · nomatch h
  | sample =>
    rw [step] at h
    split at h
    · cases h; exact .sample ‹_›
    · nomatch h
  | inspect =>
    rw [step] at h
    split at h
    · next curr hcurr => cases h; exact inspect_cases hcurr
    · nomatch h
  | call =>
    rw [step] at h
    split at h
    · cases h; exact .call ‹_›
    · nomatch h
  | callReturn =>
    rw [step] at h
    split at h
    · rename_i curr b hcurr
      split at h
      · cases h; exact .callReturn hcurr
      · nomatch h
    · nomatch h
  | selectReadable =>
    rw [step] at h
    split at h
    · rename_i hw
      split at h
      · cases h; exact .selectReadable hw
      · nomatch h
    · nomatch h
  | selectTimeout =>
    rw [step] at h
    split at h
    · rename_i hw; cases h; exact .selectTimeout hw
    · nomatch h

/-- The caller that took the time has its block in hand. -/
theorem addSample_adders (s : TimerSys θ) (k : Caller θ) (param : TimerPara) :
    (s.addSample k param).adders = Function.update s.adders k (.sampled (s.newBlock param)) := rfl

/-- Who holds a filled block after one caller has moved to a phase without one. -/
theorem sampled_of_update {s : TimerSys θ} {k j : Caller θ} {p : AddPhase} {b : TimerBlock}
    (hp : ∀ c, p ≠ .sampled c) (h : Function.update s.adders k p j = .sampled b) :
    j ≠ k ∧ s.adders j = .sampled b := by
  by_cases hj : j = k
  · rw [hj, Function.update_self] at h; exact absurd h (hp b)
  · exact ⟨hj, by rw [← Function.update_of_ne hj p s.adders]; exact h⟩

/-! ## Accounts

  A block goes from the hand of its adder into the list, from there into the hand of the timer
  thread, and is called back.  Each lemma below is one of these moves. -/

/-- The block that is out of the list and not called back yet. -/
def inHand : TimerPhase → List TimerBlock
  | .popped _ b => [b]
  | _ => []

/-- **Nothing is lost, nothing is there twice.** -/
structure Accounts (s : TimerSys θ) : Prop where
  /-- the list and the popped blocks are the added ones -/
  perm : (s.mTimerList.toList ++ s.pops).Perm s.added
  /-- which are all different blocks -/
  nodup : (s.added.map TimerBlock.addr).Nodup
  addedLt : ∀ b ∈ s.added, b.addr < s.nextAddr
  /-- a filled block is not added yet -/
  pending : ∀ {k b}, s.adders k = .sampled b → b.addr < s.nextAddr ∧ ∀ c ∈ s.added, c.addr ≠ b.addr
  /-- and its caller's alone -/
  pendingNe : ∀ {k j b c}, s.adders k = .sampled b → s.adders j = .sampled c → k ≠ j →
    b.addr ≠ c.addr
  /-- the callbacks are the pops, in order, but for the one block in hand -/
  calls : s.calls.map Prod.fst ++ inHand s.timer = s.pops

omit [DecidableEq θ] in
/-- Before the first call everything is accounted for. -/
theorem accounts_init (now : Timespec) : (init θ now).Accounts where
  perm := .refl _
  nodup := List.nodup_nil
  addedLt _ h := absurd h List.not_mem_nil
  pending h := nomatch h
  pendingNe h := nomatch h
  calls := rfl

/-- A block that was made is one more in hand. -/
theorem accounts_addSample {s : TimerSys θ} (h : s.Accounts) (k : Caller θ) (param : TimerPara) :
    (s.addSample k param).Accounts where
  perm := h.perm
  nodup := h.nodup
  addedLt b hb := Nat.lt_succ_of_lt (h.addedLt b hb)
  pending {j b} hj := by
    by_cases hjk : j = k
    · -- the new block has the address nothing had before
      rw [hjk, addSample_adders, Function.update_self] at hj
      cases hj
      exact ⟨Nat.lt_succ_self _, fun c hc => Nat.ne_of_lt (h.addedLt c hc)⟩
    · rw [addSample_adders, Function.update_of_ne hjk] at hj
      exact ⟨Nat.lt_succ_of_lt (h.pending hj).1, (h.pending hj).2⟩
  pendingNe {i j b c} hi hj hij := by
    rw [addSample_adders] at hi hj
    by_cases hik : i = k
    · have hjk : j ≠ k := fun hjk => hij (hik.trans hjk.symm)
      rw [hik, Function.update_self] at hi
      rw [Function.update_of_ne hjk] at hj
      cases hi
      exact Nat.ne_of_gt (h.pending hj).1
    · rw [Function.update_of_ne hik] at hi
      by_cases hjk : j = k
      · rw [hjk, Function.update_self] at hj
        cases hj
        exact Nat.ne_of_lt (h.pending hi).1
      · rw [Function.update_of_ne hjk] at hj
        exact h.pendingNe hi hj hij
  calls := h.calls

/-- Inserted, it is in the list. -/
theorem accounts_addInsert {s : TimerSys θ} (h : s.Accounts) {k : Caller θ} {b : TimerBlock}
    (hk : s.adders k = .sampled b) : (s.addInsert k b).Accounts where
  perm := by
    have hl := TimerList.addToTimerList_perm s.mTimerList { b with timerId := s.nextId }
    refine ((hl.append_right s.pops).trans ?_).trans (List.perm_append_singleton _ s.added).symm
    exact (h.perm).cons _
  nodup := by
    rw [addInsert, List.map_append, List.nodup_append]
    refine ⟨h.nodup, List.pairwise_singleton .., fun i hi j hj => ?_⟩
    obtain ⟨c, hc, rfl⟩ := List.mem_map.mp hi
    obtain rfl := List.mem_singleton.mp hj
    exact (h.pending hk).2 c hc
  addedLt c hc := by
    rcases List.mem_append.mp hc with hc | hc
    · exact h.addedLt c hc
    · obtain rfl := List.mem_singleton.mp hc; exact (h.pending hk).1
  pending {j c} hj := by
    obtain ⟨hjk, hj⟩ := sampled_of_update (fun _ => by nofun) hj
    refine ⟨(h.pending hj).1, fun d hd => ?_⟩
    rcases List.mem_append.mp hd with hd | hd
    · exact (h.pending hj).2 d hd
    · -- the inserted block was another caller's
      have hne := h.pendingNe hk hj hjk.symm
      rw [List.mem_singleton.mp hd]
      exact hne
  pendingNe hi hj hij := by
    exact h.pendingNe (sampled_of_update (fun _ => by nofun) hi).2
      (sampled_of_update (fun _ => by nofun) hj).2 hij
  calls := h.calls

/-- Waking the thread moves no block. -/
theorem accounts_addWake {s : TimerSys θ} (h : s.Accounts) (k : Caller θ) (ret : TimerStatus) :
    (s.addWake k ret).Accounts where
  perm := h.perm
  nodup := h.nodup
  addedLt := h.addedLt
  pending hj := h.pending (sampled_of_update (fun _ => by nofun) hj).2
  pendingNe hi hj hij := h.pendingNe (sampled_of_update (fun _ => by nofun) hi).2
    (sampled_of_update (fun _ => by nofun) hj).2 hij
  calls := h.calls

omit [DecidableEq θ] in
/-- Steps that leave the list, the blocks and the histories alone. -/
theorem accounts_timer {s : TimerSys θ} (h : s.Accounts) {p : TimerPhase}
    (hp : inHand p = inHand s.timer)
    (now : Timespec) (pipe : Bool) :
    ({ s with timer := p, now := now, pipe := pipe } : TimerSys θ).Accounts :=
  ⟨h.perm, h.nodup, h.addedLt, h.pending, h.pendingNe, by rw [← h.calls, ← hp]⟩

omit [DecidableEq θ] in
/-- A popped block is in the hand of the timer thread. -/
theorem accounts_pop {s : TimerSys θ} (h : s.Accounts) {curr : Timespec} {b : TimerBlock}
    (ht : s.timer = .draining curr) (hb : s.mTimerList.front? = some b) :
    ({ s with mTimerList := s.mTimerList.popFront, timer := .popped curr b, pops := s.pops ++ [b] }
      : TimerSys θ).Accounts where
  perm := by
    rw [NodeList.front?_eq] at hb
    obtain ⟨rest, hrest⟩ := List.head?_eq_some_iff.mp hb
    have hp := h.perm
    rw [hrest] at hp
    simp only [NodeList.toList_popFront, hrest, List.tail_cons]
    refine List.Perm.trans ?_ hp
    rw [← List.append_assoc]
    exact List.perm_append_singleton b (rest ++ s.pops)
  nodup := h.nodup
  addedLt := h.addedLt
  pending := h.pending
  pendingNe := h.pendingNe
  calls := by
    have hc := h.calls
    rw [ht, inHand, List.append_nil] at hc
    · rw [inHand, hc]
    · nofun

/-- **Step lemma**: each of the moves keeps the accounts, and the other steps move no block. -/
theorem accounts_step {s s' : TimerSys θ} {e : Event θ} (h : s.Accounts) (hs : Step s e s') :
    s'.Accounts := by
  cases hs with
  | tick _ => exact accounts_timer h rfl _ _
  | addFails => exact h
  | addSample _ => exact accounts_addSample h _ _
  | addInsert hk => exact accounts_addInsert h hk
  | addWake _ => exact accounts_addWake h _ _
  | sample ht => exact accounts_timer h (by rw [ht]; rfl) _ _
  | empty ht _ => exact accounts_timer h (by rw [ht]; rfl) _ _
  | pop ht hb _ => exact accounts_pop h ht hb
  | notDue ht _ _ => exact accounts_timer h (by rw [ht]; rfl) _ _
  | call ht =>
    refine ⟨h.perm, h.nodup, h.addedLt, h.pending, h.pendingNe, ?_⟩
    have hc := h.calls
    rw [ht] at hc
    simp only [List.map_append, inHand, List.append_nil]
    exact hc
  | callReturn ht => exact accounts_timer h (by rw [ht]; rfl) _ _
  | selectReadable ht => exact accounts_timer h (by rw [ht]; rfl) _ _
  | selectTimeout ht => exact accounts_timer h (by rw [ht]; rfl) _ _

/-- **Run lemma**: so they hold in every reachable state. -/
theorem accounts {now : Timespec} {s : TimerSys θ} (h : (sys θ now).Reachable s) : s.Accounts :=
  TransSys.Runs.invariant (I := Accounts) (accounts_init now)
    (fun hi hs _ => accounts_step hi (step_cases hs)) h

end TimerSys

end StevenProgram
