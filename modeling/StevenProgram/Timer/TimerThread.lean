/-
  The thread of the timer (`mxMiniTimer.cpp`): `startTimer` and `stopTimer`, called by any number of
  threads.

  A step is one statement.  `startTimer` looks at `mThreadId` under the mutex, which it gives up
  only in `mMutex.wait()`, so that of calls that overlap one creates the thread and the others are
  refused.  `runTimerTask` signals, and then loops on `mStatus`; a round takes the mutex and gives
  it back (`Timer.System`), here in one step that needs it free.  `pthread_create` is taken to
  succeed; the pipe of `initWakeSignal` and the log are left out.

  1. **Code** — `mxMiniTimer.step`.
  2. **Usage** — `timerUsage`: any calls of `startTimer`, and `stopTimer` next to no other call.

  The state of a thread is the statement it is at, so every interleaving of the statements is a run.
  A waiter of the condition variable may wake up without a signal.
-/
import Mathlib.Logic.Function.Basic
import StevenProgram.Lib.TransSys
import StevenProgram.Sync.MonitoredMutex

namespace StevenProgram

namespace TimerThread

/-! ## Code

  `none` means that the statement cannot be executed here: the thread is somewhere else, the mutex
  is taken, or the thread that is joined has not ended. -/

/-- Where a caller is in `startTimer` or `stopTimer`. -/
inductive CallPhase where
  | idle
  /-- at `mMutex.lock()` -/
  | locking
  /-- at `if ( mThreadId )` -/
  | checking
  /-- at the `mMutex.unlock()` of a call that fails -/
  | refusing
  /-- at `mStatus = true` -/
  | enabling
  /-- at `pthread_create` -/
  | creating
  /-- at `mMutex.wait()` -/
  | created
  /-- in `mMutex.wait()` -/
  | waiting
  /-- at the last `mMutex.unlock()` -/
  | started
  /-- at `if(mThreadId)`, in `stopTimer` -/
  | stopping
  /-- in `pthread_join` -/
  | joining (n : Nat)
  /-- at `mThreadId = 0` -/
  | clearing
  /-- has joined what is no thread any more -/
  | undefined
  deriving DecidableEq

/-- Where a created thread is in `runTimerTask`. -/
inductive MainPhase where
  | unborn
  /-- at `mMutex.lock()` -/
  | entering
  /-- at `mMutex.signal()` -/
  | entered
  /-- at `mMutex.unlock()` -/
  | signalled
  /-- at `while(mStatus)` -/
  | testing
  /-- in a round -/
  | serving
  | ended
  | joined
  deriving DecidableEq

/-- The members of the class that the two calls use, and where every thread is. -/
structure mxMiniTimer where
  mMutex : mxMonitoredMutex
  mStatus : Bool
  /-- zero is `none` -/
  mThreadId : Option Nat
  calls : Nat → CallPhase
  mains : Nat → MainPhase
  /-- the threads created so far -/
  created : Nat

/-- The caller `i`, the thread `n`, and the thread that a signal wakes. -/
inductive TimerEvent where
  | startCall (i : Nat)
  | startLock (i : Nat)
  | check (i : Nat)
  | startRefused (i : Nat)
  | enable (i : Nat)
  | create (i : Nat)
  | wait (i : Nat)
  | waitReturns (i : Nat)
  | startReturn (i : Nat)
  | stopCall (i : Nat)
  /-- there is no thread -/
  | stopNone (i : Nat)
  | joinCall (i n : Nat)
  | joinReturns (i n : Nat)
  | stopReturn (i : Nat)
  /-- a waiting thread wakes up without a signal -/
  | wake (i : Nat)
  | mainLock (n : Nat)
  | mainSignal (n : Nat) (woken : Option Thread)
  | mainUnlock (n : Nat)
  | test (n : Nat)
  | round (n : Nat)

namespace mxMiniTimer

/-- `mxMiniTimer()` -/
def new : mxMiniTimer := ⟨.free, false, none, fun _ => .idle, fun _ => .unborn, 0⟩

variable (s : mxMiniTimer)

/-- The caller goes on to another statement. -/
def atCall (i : Nat) (c : CallPhase) : mxMiniTimer :=
  { s with calls := Function.update s.calls i c }

/-- The thread goes on to another statement. -/
def atMain (n : Nat) (w : MainPhase) : mxMiniTimer :=
  { s with mains := Function.update s.mains n w }

/-- `pthread_create( &mThreadId, &attr, mainThreadEntry, this )` -/
def pthreadCreate :
    mxMiniTimer :=
  { s.atMain s.created .entering with mThreadId := some s.created, created := s.created + 1 }

/-- One statement; `none` where it cannot be executed. -/
def step : TimerEvent → Option mxMiniTimer
  | .startCall i => if s.calls i = .idle then some (s.atCall i .locking) else none
  | .startLock i => if s.calls i = .locking then (s.mMutex.lock (.caller i)).map fun m =>
      { s.atCall i .checking with mMutex := m } else none
  | .check i => if s.calls i = .checking then
      some (s.atCall i (if s.mThreadId = none then .enabling else .refusing)) else none
  | .startRefused i => if s.calls i = .refusing then
      some { s.atCall i .idle with mMutex := s.mMutex.unlock } else none
  | .enable i => if s.calls i = .enabling then some { s.atCall i .creating with mStatus := true }
      else none
  | .create i => if s.calls i = .creating then some (s.pthreadCreate.atCall i .created) else none
  | .wait i => if s.calls i = .created then
      some { s.atCall i .waiting with mMutex := s.mMutex.wait (.caller i) } else none
  | .waitReturns i =>
      if s.calls i = .waiting then (s.mMutex.waitReturns (.caller i)).map fun m =>
        { s.atCall i .started with mMutex := m } else none
  | .startReturn i => if s.calls i = .started then
      some { s.atCall i .idle with mMutex := s.mMutex.unlock } else none
  | .stopCall i => if s.calls i = .idle then some { s.atCall i .stopping with mStatus := false }
      else none
  | .stopNone i => if s.calls i = .stopping ∧ s.mThreadId = none then some (s.atCall i .idle)
      else none
  | .joinCall i n =>
      if s.calls i = .stopping ∧ s.mThreadId = some n then
        some (s.atCall i (if s.mains n = .joined then .undefined else .joining n)) else none
  | .joinReturns i n => if s.calls i = .joining n ∧ s.mains n = .ended then
      some ((s.atMain n .joined).atCall i .clearing) else none
  | .stopReturn i => if s.calls i = .clearing then some { s.atCall i .idle with mThreadId := none }
      else none
  | .wake i => (s.mMutex.wake (.caller i)).map fun m => { s with mMutex := m }
  | .mainLock n => if s.mains n = .entering then (s.mMutex.lock (.worker n)).map fun m =>
      { s.atMain n .entered with mMutex := m } else none
  | .mainSignal n woken =>
      if s.mains n = .entered then (s.mMutex.signal woken).map fun m =>
        { s.atMain n .signalled with mMutex := m } else none
  | .mainUnlock n => if s.mains n = .signalled then
      some { s.atMain n .testing with mMutex := s.mMutex.unlock } else none
  | .test n => if s.mains n = .testing then
      some (s.atMain n (if s.mStatus then .serving else .ended)) else none
  | .round n => if s.mains n = .serving ∧ s.mMutex.owner = none then some (s.atMain n .testing)
      else none

end mxMiniTimer

/-- The timer with its threads, in any order of statements. -/
def timerThreadSys : TransSys mxMiniTimer TimerEvent := ⟨.new, mxMiniTimer.step⟩

/-! ## Usage

  A specification of the callers and of what they are promised at once: an event that the protocol
  does not offer is either not made by the callers or must not happen. -/

/-- The timer as its callers know it. -/
inductive TimerUsage where
  /-- the callers in `startTimer`, and whether one has succeeded -/
  | starting (callers : List Nat) (on : Bool)
  | stopping (i : Nat)

/-- What callers may do, and how their calls end: of calls of `startTimer` one succeeds, and the
    others may fail. -/
def timerUsage : TransSys TimerUsage TimerEvent where
  init := .starting [] false
  step
    | .starting cs on, .startCall i => some (.starting (i :: cs) on)
    | .starting cs on, .startRefused i => if i ∈ cs ∧ (on ∨ ∃ j ∈ cs, j ≠ i) then
        some (.starting (cs.erase i) on) else none
    | .starting cs on, .startReturn i => if i ∈ cs ∧ on = false then
        some (.starting (cs.erase i) true) else none
    | .starting cs _, .stopCall i => if cs = [] then some (.stopping i) else none
    | .stopping i, .stopNone j | .stopping i, .stopReturn j => if i = j then
        some (.starting [] false) else none
    | _, .startCall _ | _, .startRefused _ | _, .startReturn _ | _, .stopCall _ | _, .stopNone _
    | _, .stopReturn _ => none
    | u, _ => some u

/-- What callers decide. -/
def fromCallers : TimerEvent → Bool
  | .startCall _ | .stopCall _ => true
  | _ => false

end TimerThread

end StevenProgram
