/-
  `mxMonitoredMutex` (`mxMutex.cpp`): a `pthread_mutex_t` with its `pthread_cond_t`.

  Its methods are the pthread calls, under other names: `set` is the broadcast.  `isLocked` is more
  than a question: it tries to lock, and where it answers no the mutex is locked from then on, by
  the thread that asked (`isLocked_takes`).
-/
import StevenProgram.Lib.Monitor

namespace StevenProgram

/-- A thread that makes calls, or one that `pthread_create` has made, each kind by number. -/
inductive Thread where
  | caller (i : Nat)
  | worker (n : Nat)
  deriving DecidableEq

abbrev mxMonitoredMutex : Type := Monitor Thread

namespace mxMonitoredMutex

variable (t : Thread) (m : mxMonitoredMutex)

/-- `none` while the mutex is locked. -/
def lock : Option mxMonitoredMutex := m.acquire t

/-- By the thread that has it. -/
def unlock : mxMonitoredMutex := m.release

/-- The first half of `wait()`, into `pthread_cond_wait`. -/
def wait : mxMonitoredMutex := m.park t

/-- The second half of `wait()`, back out of it. -/
def waitReturns : Option mxMonitoredMutex := m.unpark t

/-- `signal()`, with the thread it wakes. -/
def signal (woken : Option Thread) : Option mxMonitoredMutex := m.notify woken

/-- Wakes every thread that waits. -/
def set : mxMonitoredMutex := m.notifyAll

/-- A try to lock: true where it fails. -/
def isLocked : Bool × mxMonitoredMutex :=
  match m.acquire t with
  | none => (true, m)
  | some m' => (false, m')

/-- **Whatever `isLocked` answers, the mutex is locked behind it**; where it answers no, by the
    thread that asked. -/
theorem isLocked_takes :
    (isLocked t m).2.owner ≠ none ∧
      ((isLocked t m).1 = false → (isLocked t m).2.owner = some t) := by
  rw [isLocked]
  cases h : m.acquire t with
  | none =>
    refine ⟨fun howner => ?_, fun hanswer => by cases hanswer⟩
    rw [Monitor.acquire, if_pos howner] at h
    cases h
  | some m' =>
    obtain ⟨-, rfl⟩ := Monitor.acquire_eq_some.mp h
    exact ⟨by simp, fun _ => rfl⟩

end mxMonitoredMutex

end StevenProgram
