/-
  The thread of an engine (`mxEngineBase.cpp`): `startEngine`, `stopEngine` and the `mainThread`
  they start and join.

  A step is one statement of one thread, and any thread may take the next one.  `startEngine` reads
  `mEngineStatus` before it has the mutex, creates the thread under it and waits for the signal,
  which `mainThread` gives once it has set `ES_READY`.  `service` is its loop on `isOnService`, a
  round being one step; the rounds themselves are in `Net.Engines`.  A round ends with its
  `epoll_wait` or `select`, and that is the kernel's to end: with `mTimeout` at 0, as it is
  constructed, the wait has no timeout, and `stopEngine` wakes nobody.  `pthread_create` is taken to
  succeed, and a thread that calls is none that was created: a handler may call `stopService`.

  1. **Code** — `mxEngineBase.step`.
  2. **Usage** — `usage`: one call at a time, `startEngine` on an engine that is off and
     `stopEngine` on one that is not, no `stopService` during `startEngine`, and no return from
     `pthread_cond_wait` without a signal.
  3. **Stages** — with such callers the engine is always at one of a few points (`Stands`), and
     `Next` lists the ways on (`step_next`).
-/
import Mathlib.Logic.Function.Basic
import StevenProgram.Lib.TransSys
import StevenProgram.Sync.MonitoredMutex

namespace StevenProgram

namespace Engine

/-! ## Code

  The phases are the statements at which a thread can be found.  `none` means that the statement
  cannot be executed: the thread is elsewhere, the mutex is taken, or what it waits for has not
  come. -/

/-- `mEngineStatus`. -/
inductive EngineStatus where
  | ES_SHUTDOWN
  | ES_READY
  | ES_BUSY
  deriving DecidableEq

/-- Where a caller is in `startEngine` or `stopEngine`. -/
inductive CallPhase where
  | idle
  /-- at `mMutex.lock()` -/
  | starting
  /-- at `pthread_create` -/
  | creating
  /-- at `mMutex.wait()` -/
  | created
  /-- in `mMutex.wait()` -/
  | waiting
  /-- at `mMutex.unlock()` -/
  | started
  /-- behind `stopService()` -/
  | stopping
  /-- in `pthread_join` -/
  | joining (n : Nat)
  /-- has joined what is no thread any more, or never was -/
  | undefined
  deriving DecidableEq

/-- Where a created thread is in `mainThread`. -/
inductive MainPhase where
  | unborn
  /-- at `mMutex.lock()` -/
  | entering
  /-- at `mEngineStatus = ES_READY` -/
  | entered
  /-- at `mMutex.signal()` -/
  | readied
  /-- at `mMutex.unlock()` -/
  | signalled
  /-- at `isOnService()`, in `service` -/
  | testing
  /-- in a round of `service` -/
  | serving
  | ended
  | joined
  deriving DecidableEq

/-- The members of the class, and where every caller and every thread is. -/
structure mxEngineBase where
  mMutex : mxMonitoredMutex
  mEngineStatus : EngineStatus
  /-- zero is `none` -/
  mThreadId : Option Nat
  calls : Nat → CallPhase
  mains : Nat → MainPhase
  /-- the threads created so far -/
  created : Nat

/-- The caller `i`, the thread `n`, and the thread that a signal wakes. -/
inductive EngineEvent where
  | startCall (i : Nat)
  | startRefused (i : Nat)
  | startLock (i : Nat)
  | create (i : Nat)
  | wait (i : Nat)
  | waitReturns (i : Nat)
  | startReturn (i : Nat)
  | stopService
  | stopCall (i : Nat)
  | joinCall (i : Nat)
  | stopReturn (i n : Nat)
  /-- a waiting thread wakes up without a signal -/
  | wake (i : Nat)
  | mainLock (n : Nat)
  | mainReady (n : Nat)
  | mainSignal (n : Nat) (woken : Option Thread)
  | mainUnlock (n : Nat)
  | test (n : Nat)
  /-- the wait of a round comes back, and its handlers with it; it may never do so -/
  | round (n : Nat)

namespace mxEngineBase

/-- `mxEngineBase()` -/
def new : mxEngineBase := ⟨.free, .ES_SHUTDOWN, none, fun _ => .idle, fun _ => .unborn, 0⟩

variable (s : mxEngineBase)

/-- The caller goes on to another statement. -/
def atCall (i : Nat) (c : CallPhase) : mxEngineBase :=
  { s with calls := Function.update s.calls i c }

/-- The thread goes on to another statement. -/
def atMain (n : Nat) (w : MainPhase) : mxEngineBase :=
  { s with mains := Function.update s.mains n w }

def isOnService : Bool := s.mEngineStatus ≠ .ES_SHUTDOWN

def stopService : mxEngineBase := { s with mEngineStatus := .ES_SHUTDOWN }

/-- `pthread_create(&mThreadId, NULL, mainThreadEntry, this)` -/
def pthreadCreate : mxEngineBase :=
  { s.atMain s.created .entering with mThreadId := some s.created, created := s.created + 1 }

/-- Where `pthread_join(mThreadId, NULL)` begins. -/
def joinPhase : CallPhase :=
  match s.mThreadId with
  | none => .undefined
  | some n => if s.mains n = .joined then .undefined else .joining n

/-- One statement; `none` where it cannot be executed. -/
def step : EngineEvent → Option mxEngineBase
  | .startCall i => if s.calls i = .idle ∧ s.mEngineStatus = .ES_SHUTDOWN then
    some (s.atCall i .starting) else none
  | .startRefused i => if s.calls i = .idle ∧ s.mEngineStatus ≠ .ES_SHUTDOWN then some s else none
  | .startLock i => if s.calls i = .starting then (s.mMutex.lock (.caller i)).map fun m =>
      { s.atCall i .creating with mMutex := m } else none
  | .create i => if s.calls i = .creating then some (s.pthreadCreate.atCall i .created) else none
  | .wait i => if s.calls i = .created then
      some { s.atCall i .waiting with mMutex := s.mMutex.wait (.caller i) } else none
  | .waitReturns i =>
      if s.calls i = .waiting then (s.mMutex.waitReturns (.caller i)).map fun m =>
        { s.atCall i .started with mMutex := m } else none
  | .startReturn i => if s.calls i = .started then
      some { s.atCall i .idle with mMutex := s.mMutex.unlock } else none
  | .stopService => some s.stopService
  | .stopCall i => if s.calls i = .idle then some (s.stopService.atCall i .stopping) else none
  | .joinCall i => if s.calls i = .stopping then some (s.atCall i s.joinPhase) else none
  | .stopReturn i n => if s.calls i = .joining n ∧ s.mains n = .ended then
      some ((s.atMain n .joined).atCall i .idle) else none
  | .wake i => (s.mMutex.wake (.caller i)).map fun m => { s with mMutex := m }
  | .mainLock n => if s.mains n = .entering then (s.mMutex.lock (.worker n)).map fun m =>
      { s.atMain n .entered with mMutex := m } else none
  | .mainReady n => if s.mains n = .entered then
      some { s.atMain n .readied with mEngineStatus := .ES_READY } else none
  | .mainSignal n woken =>
      if s.mains n = .readied then (s.mMutex.signal woken).map fun m =>
        { s.atMain n .signalled with mMutex := m } else none
  | .mainUnlock n => if s.mains n = .signalled then
      some { s.atMain n .testing with mMutex := s.mMutex.unlock } else none
  | .test n => if s.mains n = .testing then
      some (s.atMain n (if s.isOnService then .serving else .ended)) else none
  | .round n => if s.mains n = .serving then some (s.atMain n .testing) else none

end mxEngineBase

/-- The engine with its threads, in any order of statements. -/
def engineSys : TransSys mxEngineBase EngineEvent := ⟨.new, mxEngineBase.step⟩

/-- A thread that has a statement to execute, or whoever ends the wait of the thread `n`. -/
inductive Actor where
  | thread (t : Thread)
  | waker (n : Nat)
  deriving DecidableEq

/-- Who takes a step; calls come from outside. -/
def actor : EngineEvent → Option Actor
  | .startLock i | .create i | .wait i | .waitReturns i | .startReturn i | .joinCall i
    | .stopReturn i _ =>
      some (.thread (.caller i))
  | .mainLock n | .mainReady n | .mainSignal n _ | .mainUnlock n
  | .test n => some (.thread (.worker n))
  | .round n => some (.waker n)
  | .startCall _ | .startRefused _ | .stopService | .stopCall _ | .wake _ => none

/-! ## Usage

  The protocol of the callers, with the two ways in which a call may end. -/

/-- The engine as its callers know it. -/
inductive Usage where
  | off
  | starting (i : Nat)
  | on
  /-- told to stop, not joined -/
  | ending
  | stopping (i : Nat)

/-- What callers may do, and how their calls end. -/
def usage : TransSys Usage EngineEvent where
  init := .off
  step
    | .off, .startCall i => some (.starting i)
    | .starting i, .startRefused _ => some (.starting i)
    | .on, .startRefused _ => some .on
    | .starting i, .startReturn j => if i = j then some .on else none
    | .off, .stopService => some .off
    | .on, .stopService | .ending, .stopService => some .ending
    | .stopping i, .stopService => some (.stopping i)
    | .on, .stopCall i | .ending, .stopCall i => some (.stopping i)
    | .stopping i, .stopReturn j _ => if i = j then some .off else none
    | _, .startCall _ | _, .startRefused _ | _, .startReturn _ | _, .stopService | _, .stopCall _
    | _, .stopReturn _ _ | _, .wake _ => none
    | u, _ => some u

/-! ## Stages

  With one call at a time there are few points at which the engine can be, and each fixes
  everything: the phase of every caller and every thread, the status, and who has the mutex. -/

/-- What else goes on while the thread is in `service`. -/
inductive Beside where
  /-- the waiting caller has been signalled -/
  | woken (i : Nat)
  | started (i : Nat)
  | on
  | ending
  | stopping (i : Nat)
  | joining (i : Nat)

namespace Beside

def usage : Beside → Usage
  | woken i | started i => .starting i
  | on => .on
  | ending => .ending
  | stopping i | joining i => .stopping i

def call (n : Nat) : Beside → Option (Nat × CallPhase)
  | woken i => some (i, .waiting)
  | started i => some (i, .started)
  | on | ending => none
  | stopping i => some (i, .stopping)
  | joining i => some (i, .joining n)

def status : Beside → EngineStatus
  | woken _ | started _ | on => .ES_READY
  | ending | stopping _ | joining _ => .ES_SHUTDOWN

def mutex : Beside → mxMonitoredMutex
  | started i => ⟨some (.caller i), []⟩
  | _ => .free

end Beside

/-- The points at which an engine can be, when its callers keep to `usage`. -/
inductive Stage where
  | off
  | starting (i : Nat)
  | creating (i : Nat)
  | created (i : Nat)
  | parked (i : Nat)
  | entered (i : Nat)
  | readied (i : Nat)
  | signalled (i : Nat)
  | running (o : Beside) (w : MainPhase)

namespace Stage

def usage : Stage → Usage
  | off => .off
  | starting i | creating i | created i | parked i | entered i | readied i
  | signalled i => .starting i
  | running o _ => o.usage

/-- The call that is going on, in the engine's life number `n`. -/
def call (n : Nat) : Stage → Option (Nat × CallPhase)
  | off => none
  | starting i => some (i, .starting)
  | creating i => some (i, .creating)
  | created i => some (i, .created)
  | parked i | entered i | readied i | signalled i => some (i, .waiting)
  | running o _ => o.call n

def main : Stage → MainPhase
  | off | starting _ | creating _ => .unborn
  | created _ | parked _ => .entering
  | entered _ => .entered
  | readied _ => .readied
  | signalled _ => .signalled
  | running _ w => w

def status : Stage → EngineStatus
  | readied _ | signalled _ => .ES_READY
  | running o _ => o.status
  | _ => .ES_SHUTDOWN

def mutex (n : Nat) : Stage → mxMonitoredMutex
  | off | starting _ => .free
  | creating i | created i => ⟨some (.caller i), []⟩
  | parked i => ⟨none, [.caller i]⟩
  | entered i | readied i => ⟨some (.worker n), [.caller i]⟩
  | signalled _ => ⟨some (.worker n), []⟩
  | running o _ => o.mutex

/-- In `service`, and out of it only once the status has gone. -/
def Sound : Stage → Prop
  | running o w => w = .testing ∨ w = .serving ∨ (w = .ended ∧ o.status = .ES_SHUTDOWN)
  | _ => True

end Stage

/-- One thread in a call. -/
def callsOf : Option (Nat × CallPhase) → Nat → CallPhase
  | none => fun _ => .idle
  | some (i, c) => Function.update (fun _ => .idle) i c

/-- The threads before number `n` are joined. -/
def mainsOf (n : Nat) (w : MainPhase) : Nat → MainPhase :=
  fun m => if m < n then .joined else if m = n then w else .unborn

/-- The engine is at a stage of its life number `n`. -/
structure Stands (st : Stage) (n : Nat) (s : mxEngineBase) : Prop where
  sound : st.Sound
  calls : s.calls = callsOf (st.call n)
  mains : s.mains = mainsOf n st.main
  status : s.mEngineStatus = st.status
  mutex : s.mMutex = st.mutex n
  thread : st.main ≠ .unborn → s.mThreadId = some n
  created : s.created = if st.main = .unborn then n else n + 1

/-- A turn of the loop of `service`. -/
inductive Turn (n : Nat) (status : EngineStatus) : MainPhase → EngineEvent → MainPhase → Prop
  | serve : status ≠ .ES_SHUTDOWN → Turn n status .testing (.test n) .serving
  | leave : status = .ES_SHUTDOWN → Turn n status .testing (.test n) .ended
  | round : Turn n status .serving (.round n) .testing

/-- The ways on, with callers that keep to `usage`; with the thread joined the next life begins. -/
inductive Next (n : Nat) : Stage → EngineEvent → Stage → Nat → Prop
  | startCall (i : Nat) : Next n .off (.startCall i) (.starting i) n
  | startRefused {st : Stage} (i : Nat) :
    st.status ≠ .ES_SHUTDOWN → Next n st (.startRefused i) st n
  | startLock (i : Nat) : Next n (.starting i) (.startLock i) (.creating i) n
  | create (i : Nat) : Next n (.creating i) (.create i) (.created i) n
  | wait (i : Nat) : Next n (.created i) (.wait i) (.parked i) n
  | mainLock (i : Nat) : Next n (.parked i) (.mainLock n) (.entered i) n
  | mainReady (i : Nat) : Next n (.entered i) (.mainReady n) (.readied i) n
  | mainSignal (i : Nat) : Next n (.readied i) (.mainSignal n (some (.caller i))) (.signalled i) n
  | mainUnlock (i : Nat) : Next n (.signalled i) (.mainUnlock n) (.running (.woken i) .testing) n
  | waitReturns (i : Nat) (w : MainPhase) :
    Next n (.running (.woken i) w) (.waitReturns i) (.running (.started i) w) n
  | startReturn (i : Nat) (w : MainPhase) :
    Next n (.running (.started i) w) (.startReturn i) (.running .on w) n
  | turn {o : Beside} {w w' : MainPhase} {e : EngineEvent} :
    Turn n o.status w e w' → Next n (.running o w) e (.running o w') n
  | stopOff : Next n .off .stopService .off n
  | stopService {o : Beside} (w : MainPhase) :
    o.status = .ES_SHUTDOWN → Next n (.running o w) .stopService (.running o w) n
  | stopOn (w : MainPhase) : Next n (.running .on w) .stopService (.running .ending w) n
  | stopCall (i : Nat) {o : Beside} (w : MainPhase) :
    o = .on ∨ o = .ending → Next n (.running o w) (.stopCall i) (.running (.stopping i) w) n
  | joinCall (i : Nat) (w : MainPhase) :
    Next n (.running (.stopping i) w) (.joinCall i) (.running (.joining i) w) n
  | stopReturn (i : Nat) : Next n (.running (.joining i) .ended) (.stopReturn i n) .off (n + 1)

/-! ## Ways on

  From the state to its stage: a caller or a thread that can take a step is the one the stage names,
  and behind the step the engine is at the next stage. -/

section Steps

variable {st : Stage} {n : Nat} {s s' : mxEngineBase} {u' : Usage}

/-- A call that is not idle is the one that goes on. -/
theorem callsOf_at {o : Option (Nat × CallPhase)} {i : Nat} {c : CallPhase} (h : callsOf o i = c)
    (hc : c ≠ .idle) : o = some (i, c) := by
  rcases o with - | ⟨j, c'⟩
  · exact absurd h.symm hc
  · by_cases hij : i = j
    · subst hij
      rw [callsOf, Function.update_self] at h
      rw [h]
    · rw [callsOf, Function.update_of_ne hij] at h
      exact absurd h.symm hc

/-- It takes a step. -/
theorem callsOf_next (i : Nat) (c c' : CallPhase) :
    Function.update (callsOf (some (i, c))) i c' = callsOf (some (i, c')) :=
  Function.update_idem ..

/-- It returns. -/
theorem callsOf_last (i : Nat) (c : CallPhase) :
    Function.update (callsOf (some (i, c))) i .idle = callsOf none :=
  (Function.update_idem ..).trans (Function.update_eq_self i _)

/-- A thread that is neither unborn nor joined is the one of now. -/
theorem mainsOf_at {w v : MainPhase} {m : Nat} (h : mainsOf n w m = v) (hj : v ≠ .joined)
    (hu : v ≠ .unborn) : m = n ∧ w = v := by
  rw [mainsOf] at h
  split at h
  · exact absurd h.symm hj
  · split at h
    · next heq => exact ⟨heq, h⟩
    · exact absurd h.symm hu

/-- Its own phase. -/
theorem mainsOf_self (n : Nat) (w : MainPhase) : mainsOf n w n = w := by
  rw [mainsOf, if_neg (Nat.lt_irrefl n), if_pos rfl]

/-- It takes a step. -/
theorem mainsOf_next (n : Nat) (w w' : MainPhase) :
    Function.update (mainsOf n w) n w' = mainsOf n w' := by
  funext m
  by_cases h : m = n
  · subst h
    rw [Function.update_self, mainsOf_self]
  · rw [Function.update_of_ne h, mainsOf, mainsOf, if_neg h, if_neg h]

/-- When it is joined, the next one is yet to be born. -/
theorem mainsOf_joined (n : Nat) : mainsOf n .joined = mainsOf (n + 1) .unborn := by
  funext m
  simp only [mainsOf]
  grind

/-- A caller goes on. -/
theorem Stands.call_next (h : Stands st n s) {st' : Stage} {i : Nat} {c c' : CallPhase}
    {m : mxMonitoredMutex} (hc : st.call n = some (i, c))
    (hc' : st'.call n = some (i, c')) (hsound : st'.Sound) (hmain : st'.main = st.main)
    (hstatus : st'.status = st.status)
    (hm : m = st'.mutex n) : Stands st' n { s.atCall i c' with mMutex := m } where
  sound := hsound
  calls := by rw [hc', ← callsOf_next i c, ← hc, ← h.calls]; rfl
  mains := hmain ▸ h.mains
  status := hstatus ▸ h.status
  mutex := hm
  thread hne := h.thread (hmain ▸ hne)
  created := hmain ▸ h.created

/-- The thread goes on. -/
theorem Stands.main_next (h : Stands st n s) {st' : Stage} {w : MainPhase} {m : mxMonitoredMutex}
    {status : EngineStatus}
    (hborn : st.main ≠ .unborn) (hw : st'.main = w) (hne : w ≠ .unborn)
    (hcall : st'.call n = st.call n) (hsound : st'.Sound)
    (hstatus : status = st'.status) (hm : m = st'.mutex n) :
    Stands st' n { s.atMain n w with mMutex := m, mEngineStatus := status } where
  sound := hsound
  calls := hcall ▸ h.calls
  mains := by rw [hw, ← mainsOf_next n st.main, ← h.mains]; rfl
  status := hstatus
  mutex := hm
  thread _ := h.thread hborn
  created := by rw [if_neg (hw ▸ hne)]; exact h.created.trans (if_neg hborn)

/-- Where the engine is while `i` is in a call. -/
def Stage.InCall (st : Stage) (n i : Nat) : CallPhase → Prop
  | .idle | .undefined => False
  | .starting => st = .starting i
  | .creating => st = .creating i
  | .created => st = .created i
  | .waiting => st = .parked i ∨ st = .entered i ∨ st = .readied i ∨ st = .signalled i ∨ ∃ w,
      st = .running (.woken i) w
  | .started => ∃ w, st = .running (.started i) w
  | .stopping => ∃ w, st = .running (.stopping i) w
  | .joining m => m = n ∧ ∃ w, st = .running (.joining i) w

/-- The call that a stage names is in it. -/
theorem inCall_of_call {i : Nat} {c : CallPhase} (h : st.call n = some (i, c)) :
    st.InCall n i c := by
  cases st with
  | off => cases h
  | running o w =>
    cases o <;> simp only [Stage.call, Beside.call, Option.some.injEq, Prod.mk.injEq, reduceCtorEq]
      at h <;>
      obtain ⟨rfl, rfl⟩ := h <;> simp [Stage.InCall]
  | _ => obtain ⟨rfl, rfl⟩ := Prod.mk.inj (Option.some.inj h); simp [Stage.InCall]

/-- Where the engine is while its thread is at `w`. -/
def Stage.InMain (st : Stage) : MainPhase → Prop
  | .unborn | .joined => True
  | .entering => ∃ i, st = .created i ∨ st = .parked i
  | .entered => ∃ i, st = .entered i
  | .readied => ∃ i, st = .readied i
  | .signalled => ∃ i, st = .signalled i
  | .testing => ∃ o, st = .running o .testing
  | .serving => ∃ o, st = .running o .serving
  | .ended => ∃ o, st = .running o .ended

/-- And so is its thread. -/
theorem inMain_of_main (hsound : st.Sound) : st.InMain st.main := by
  cases st with
  | running o w => obtain rfl | rfl | ⟨rfl, -⟩ := hsound <;> exact ⟨o, rfl⟩
  | _ => simp [Stage.main, Stage.InMain]

/-- What the stage says of a call that goes on. -/
theorem Stands.inCall (h : Stands st n s) {i : Nat} {c : CallPhase} (hi : s.calls i = c)
    (hc : c ≠ .idle) : st.InCall n i c :=
  inCall_of_call (callsOf_at (h.calls ▸ hi) hc)

/-- What it says of the thread. -/
theorem Stands.inMain (h : Stands st n s) {m : Nat} {w : MainPhase} (hm : s.mains m = w)
    (hj : w ≠ .joined) (hu : w ≠ .unborn) :
    m = n ∧ st.main = w ∧ st.InMain w := by
  obtain ⟨rfl, rfl⟩ := mainsOf_at (h.mains ▸ hm) hj hu
  exact ⟨rfl, rfl, inMain_of_main h.sound⟩

/-- A statement of a caller: by its phase, which by the stage leaves one or two cases. -/
theorem call_step (h : Stands st n s) {e : EngineEvent} {i : Nat}
    (ha : actor e = some (.thread (.caller i)))
    (hs : s.step e = some s') :
    ∃ st' n', Next n st e st' n' ∧ Stands st' n' s' := by
  cases e with
  | startLock j =>
    obtain ⟨hj, hs⟩ := Option.ite_none_right_eq_some.mp hs
    obtain ⟨m, hm, rfl⟩ := Option.map_eq_some_iff.mp hs
    obtain rfl : st = .starting j := h.inCall hj (by decide)
    obtain ⟨-, rfl⟩ := Monitor.acquire_eq_some.mp hm
    exact ⟨.creating j, n, .startLock j, h.call_next rfl rfl trivial rfl rfl (by rw [h.mutex]; rfl)⟩
  | create j =>
    obtain ⟨hj, hs⟩ := Option.ite_none_right_eq_some.mp hs
    obtain rfl : st = .creating j := h.inCall hj (by decide)
    obtain rfl := Option.some.inj hs
    have hn : s.created = n := h.created
    refine ⟨.created j, n, .create j, trivial, ?_, ?_, h.status, h.mutex, fun _ => congrArg some hn,
      congrArg (· + 1) hn⟩
    · show Function.update s.calls j .created = _
      rw [h.calls]
      exact callsOf_next j .creating .created
    · show Function.update s.mains s.created .entering = _
      rw [h.mains, hn]
      exact mainsOf_next n .unborn .entering
  | wait j =>
    obtain ⟨hj, hs⟩ := Option.ite_none_right_eq_some.mp hs
    obtain rfl : st = .created j := h.inCall hj (by decide)
    obtain rfl := Option.some.inj hs
    exact ⟨.parked j, n, .wait j, h.call_next rfl rfl trivial rfl rfl (by rw [h.mutex]; rfl)⟩
  | waitReturns j =>
    obtain ⟨hj, hs⟩ := Option.ite_none_right_eq_some.mp hs
    obtain ⟨m, hm, rfl⟩ := Option.map_eq_some_iff.mp hs
    obtain ⟨hnot, hfree, rfl⟩ := Monitor.unpark_eq_some.mp hm
    rw [h.mutex] at hnot hfree
    -- before the signal the caller is among those that wait, and until the unlock the thread has
    -- the mutex
    obtain rfl | rfl | rfl | rfl | ⟨w, rfl⟩ := h.inCall hj (by decide)
    · simp [Stage.mutex] at hnot
    · cases hfree
    · cases hfree
    · cases hfree
    · exact ⟨.running (.started j) w, n, .waitReturns j w, h.call_next rfl rfl h.sound rfl rfl
        (by rw [h.mutex]; rfl)⟩
  | startReturn j =>
    obtain ⟨hj, hs⟩ := Option.ite_none_right_eq_some.mp hs
    obtain ⟨w, rfl⟩ := h.inCall hj (by decide)
    obtain rfl := Option.some.inj hs
    refine ⟨.running .on w, n, .startReturn j w, h.sound, ?_, h.mains, h.status, ?_, h.thread,
      h.created⟩
    · show Function.update s.calls j .idle = _
      rw [h.calls]
      exact callsOf_last j .started
    · show s.mMutex.unlock = _
      rw [h.mutex]
      rfl
  | joinCall j =>
    obtain ⟨hj, hs⟩ := Option.ite_none_right_eq_some.mp hs
    obtain ⟨w, rfl⟩ := h.inCall hj (by decide)
    obtain rfl := Option.some.inj hs
    have hjoin : s.joinPhase = .joining n := by
      have hw : w ≠ .unborn ∧ w ≠ .joined := by obtain rfl | rfl | ⟨rfl, -⟩ := h.sound <;> decide
      rw [mxEngineBase.joinPhase, h.thread hw.1, h.mains]
      show (if mainsOf n w n = .joined then _ else _) = _
      rw [mainsOf_self, if_neg hw.2]
    rw [hjoin]
    exact ⟨.running (.joining j) w, n, .joinCall j w,
      h.call_next (m := s.mMutex) rfl rfl h.sound rfl rfl h.mutex⟩
  | stopReturn j m =>
    obtain ⟨⟨hj, hm⟩, hs⟩ := Option.ite_none_right_eq_some.mp hs
    obtain ⟨rfl, w, rfl⟩ := h.inCall hj (by simp)
    obtain ⟨-, hw, -⟩ := h.inMain hm (by decide) (by decide)
    obtain rfl : w = .ended := hw
    obtain rfl := Option.some.inj hs
    refine ⟨.off, m + 1, .stopReturn j, trivial, ?_, ?_, h.status, h.mutex,
      fun hne => absurd rfl hne, h.created⟩
    · show Function.update s.calls j .idle = _
      rw [h.calls]
      exact callsOf_last j _
    · show Function.update s.mains m .joined = _
      rw [h.mains]
      exact (mainsOf_next m _ _).trans (mainsOf_joined m)
  | _ => cases ha

/-- The thread goes on in `service`. -/
theorem Stands.turn {o : Beside} {w w' : MainPhase} (h : Stands (.running o w) n s)
    (hw' : w' ≠ .unborn) (hsound : (Stage.running o w').Sound) :
    Stands (.running o w') n (s.atMain n w') := by
  have hborn : w ≠ .unborn := by obtain rfl | rfl | ⟨rfl, -⟩ := h.sound <;> decide
  have next :
    Stands (.running o w') n
    { s.atMain n w' with mMutex := s.mMutex, mEngineStatus := s.mEngineStatus } :=
    h.main_next hborn rfl hw' rfl hsound h.status h.mutex
  exact next

/-- A statement of the thread, in the same way. -/
theorem main_step (h : Stands st n s) {e : EngineEvent} {m : Nat}
    (ha : actor e = some (.thread (.worker m)))
    (hs : s.step e = some s') :
    ∃ st', Next n st e st' n ∧ Stands st' n s' := by
  cases e with
  | mainLock k =>
    obtain ⟨hk, hs⟩ := Option.ite_none_right_eq_some.mp hs
    obtain ⟨m, hm, rfl⟩ := Option.map_eq_some_iff.mp hs
    obtain ⟨hfree, rfl⟩ := Monitor.acquire_eq_some.mp hm
    obtain ⟨rfl, -, i, rfl | rfl⟩ := h.inMain hk (by decide) (by decide)
    · rw [h.mutex] at hfree
      cases hfree
    · exact ⟨.entered i, .mainLock i,
        h.main_next nofun rfl (by decide) rfl trivial h.status (by rw [h.mutex]; rfl)⟩
  | mainReady k =>
    obtain ⟨hk, hs⟩ := Option.ite_none_right_eq_some.mp hs
    obtain ⟨rfl, -, i, rfl⟩ := h.inMain hk (by decide) (by decide)
    obtain rfl := Option.some.inj hs
    exact ⟨.readied i, .mainReady i, h.main_next nofun rfl (by decide) rfl trivial rfl h.mutex⟩
  -- the caller waits, so the signal has somebody to wake
  | mainSignal k woken =>
    obtain ⟨hk, hs⟩ := Option.ite_none_right_eq_some.mp hs
    obtain ⟨m, hm, rfl⟩ := Option.map_eq_some_iff.mp hs
    obtain ⟨rfl, -, i, rfl⟩ := h.inMain hk (by decide) (by decide)
    rw [h.mutex] at hm
    cases woken with
    | none => simp [mxMonitoredMutex.signal, Monitor.notify, Stage.mutex] at hm
    | some t =>
      obtain ⟨ht, rfl⟩ := Monitor.wake_eq_some.mp hm
      obtain rfl := List.mem_singleton.mp ht
      exact ⟨.signalled i, .mainSignal i,
        h.main_next nofun rfl (by decide) rfl trivial h.status (by simp [Stage.mutex])⟩
  | mainUnlock k =>
    obtain ⟨hk, hs⟩ := Option.ite_none_right_eq_some.mp hs
    obtain ⟨rfl, -, i, rfl⟩ := h.inMain hk (by decide) (by decide)
    obtain rfl := Option.some.inj hs
    exact ⟨.running (.woken i) .testing, .mainUnlock i,
      h.main_next nofun rfl (by decide) rfl (.inl rfl) h.status (by rw [h.mutex]; rfl)⟩
  | test k =>
    obtain ⟨hk, hs⟩ := Option.ite_none_right_eq_some.mp hs
    obtain ⟨rfl, -, o, rfl⟩ := h.inMain hk (by decide) (by decide)
    obtain rfl := Option.some.inj hs
    -- the status is that of the stage, and so the test is settled
    by_cases hst : s.mEngineStatus = .ES_SHUTDOWN
    · have htest : (if s.isOnService then MainPhase.serving else .ended) = .ended :=
        by simp [mxEngineBase.isOnService, hst]
      rw [htest]
      have hoff : o.status = .ES_SHUTDOWN := h.status.symm.trans hst
      exact ⟨.running o .ended, .turn (.leave hoff), h.turn (by decide) (.inr (.inr ⟨rfl, hoff⟩))⟩
    · have htest : (if s.isOnService then MainPhase.serving else .ended) = .serving :=
        by simp [mxEngineBase.isOnService, hst]
      rw [htest]
      have hon : o.status ≠ .ES_SHUTDOWN := fun hoff => hst (h.status.trans hoff)
      exact ⟨.running o .serving, .turn (.serve hon), h.turn (by decide) (.inr (.inl rfl))⟩
  | _ => cases ha

/-- The end of a wait. -/
theorem round_step (h : Stands st n s) {m : Nat} (hs : s.step (.round m) = some s') :
    ∃ st', Next n st (.round m) st' n ∧ Stands st' n s' := by
  obtain ⟨hk, hs⟩ := Option.ite_none_right_eq_some.mp hs
  obtain ⟨rfl, -, o, rfl⟩ := h.inMain hk (by decide) (by decide)
  obtain rfl := Option.some.inj hs
  exact ⟨.running o .testing, .turn .round, h.turn (by decide) (.inl rfl)⟩

/-- What callers decide, or nobody. -/
def fromOutside : EngineEvent → Bool
  | .startCall _ | .stopService | .stopCall _ | .wake _ => true
  | _ => false

/-- What is not from outside needs no usage to be a way on. -/
theorem inside_step (h : Stands st n s) {e : EngineEvent} (he : fromOutside e = false)
    (hs : s.step e = some s') :
    ∃ st' n', Next n st e st' n' ∧ Stands st' n' s' := by
  cases ha : actor e with
  | some a =>
    match a with
    | .thread (.caller i) => exact call_step h ha hs
    | .thread (.worker m) =>
      obtain ⟨st', hnext, hst'⟩ := main_step h ha hs
      exact ⟨st', n, hnext, hst'⟩
    | .waker m =>
      obtain rfl : e = .round m := by cases e <;> cases ha <;> rfl
      obtain ⟨st', hnext, hst'⟩ := round_step h hs
      exact ⟨st', n, hnext, hst'⟩
  | none =>
    cases e with
    | startRefused i =>
      obtain ⟨⟨-, hst⟩, hs⟩ := Option.ite_none_right_eq_some.mp hs
      obtain rfl := Option.some.inj hs
      exact ⟨st, n, .startRefused i (h.status ▸ hst), h⟩
    | _ => simp [actor, fromOutside] at ha he

/-- **Every step is a way on.** -/
theorem step_next (h : Stands st n s) {e : EngineEvent} (hs : s.step e = some s')
    (hu : usage.step st.usage e = some u') :
    ∃ st' n', Next n st e st' n' ∧ Stands st' n' s' := by
  cases he : fromOutside e with
  | false => exact inside_step h he hs
  | true =>
    cases e with
    -- only an engine that is off may be started
    | startCall i =>
      obtain ⟨⟨hi, -⟩, hs⟩ := Option.ite_none_right_eq_some.mp hs
      obtain rfl := Option.some.inj hs
      cases st with
      | off =>
        refine ⟨.starting i, n, .startCall i, trivial, ?_, h.mains, h.status, h.mutex,
          fun hne => absurd rfl hne, h.created⟩
        show Function.update s.calls i .starting = _
        rw [h.calls]
        rfl
      | running o w => cases o <;> cases hu
      | _ => cases hu
    | stopService =>
      obtain rfl := Option.some.inj hs
      cases st with
      | off => exact ⟨.off, n, .stopOff, { h with status := rfl }⟩
      | running o w =>
        cases o with
        | on =>
          refine ⟨.running .ending w, n, .stopOn w, { h with status := rfl, sound := ?_ }⟩
          exact h.sound.imp_right (.imp_right fun hw => ⟨hw.1, rfl⟩)
        | woken i => cases hu
        | started i => cases hu
        | _ => exact ⟨_, n, .stopService w rfl, { h with status := rfl }⟩
      | _ => cases hu
    -- only one that is on, whether `stopService` was called or not
    | stopCall i =>
      obtain ⟨hi, hs⟩ := Option.ite_none_right_eq_some.mp hs
      obtain rfl := Option.some.inj hs
      cases st with
      | running o w =>
        have ho :
          o = .on ∨ o = .ending := by cases o <;> simp_all [usage, Stage.usage, Beside.usage]
        refine ⟨.running (.stopping i) w, n, .stopCall i w ho,
          { h with status := rfl, sound := ?_, calls := ?_, mutex := ?_ }⟩
        · exact h.sound.imp_right (.imp_right fun hw => ⟨hw.1, rfl⟩)
        · show Function.update s.calls i .stopping = _
          rw [h.calls]
          rcases ho with rfl | rfl <;> rfl
        · exact h.mutex.trans (by rcases ho with rfl | rfl <;> rfl)
      | _ => cases hu
    | wake i => cases hst : st.usage <;> rw [hst] at hu <;> cases hu
    | _ => cases he

/-- Callers see of a way on what `usage` says. -/
theorem next_usage {e : EngineEvent} {st' : Stage} {n' : Nat} (h : Next n st e st' n') :
    usage.step st.usage e = some st'.usage := by
  cases h with
  | startRefused i hst =>
    cases st with
    | running o w => cases o <;> first | rfl | exact absurd rfl hst
    | _ => first | rfl | exact absurd rfl hst
  | stopService w ho => cases ‹Beside› <;> first | rfl | cases ho
  | stopCall i w ho => rcases ho with rfl | rfl <;> rfl
  | turn ht => cases ht <;> cases ‹Beside› <;> rfl
  | startReturn i w => exact if_pos rfl
  | stopReturn i => exact if_pos rfl
  | _ => rfl

end Steps

end Engine

end StevenProgram
