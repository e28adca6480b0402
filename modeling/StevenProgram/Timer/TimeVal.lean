/-
  Times as `mxMiniTimer.cpp` computes with them.

  The clock is read to the nanosecond (`timespec`) and cut to microseconds (`timeval`); a deadline
  is the sampled clock plus the interval; `getTimeDiff` is a difference in milliseconds that
  truncates the microseconds TOWARD ZERO and is narrowed from `long` to `s32_t`.

  1. **Deadlines** (`deadline_us`) — the deadline denotes exactly the sampled time plus the
     interval, though its microseconds may stand at 1000000 (`> 1000000` leaves them there).
  2. **Differences** — `timeDiff` is the `long` before the narrowing.  `timeDiff_spec` gives the
     four comparisons the timer makes; `getTimeDiff_eq_of_near` says when the narrowing is harmless.
-/
import Mathlib.Algebra.Group.Nat.Defs
import Mathlib.Algebra.Group.Int.Defs

namespace StevenProgram

/-- `struct timespec`, as `clock_gettime` fills it. -/
structure Timespec where
  tv_sec : Nat
  tv_nsec : Nat
  nsec_lt : tv_nsec < 1000000000
  deriving DecidableEq

/-- Nanoseconds since the clock's origin. -/
def Timespec.ns (ts : Timespec) : Nat := ts.tv_sec * 1000000000 + ts.tv_nsec

/-- The clock's origin. -/
def Timespec.zero : Timespec := ⟨0, 0, by decide⟩

/-- `struct timeval`: two `long`s. -/
structure TimeVal where
  tv_sec : Int
  tv_usec : Int
  deriving DecidableEq

/-- The microseconds a `timeval` denotes. -/
def TimeVal.us (t : TimeVal) : Int := t.tv_sec * 1000000 + t.tv_usec

/-- `curr_time.tv_sec = ts.tv_sec; curr_time.tv_usec = ts.tv_nsec / 1000;` -/
def Timespec.toTimeVal (ts : Timespec) : TimeVal := ⟨ts.tv_sec, (ts.tv_nsec / 1000 : Nat)⟩

/-- `pTmBlk->time` of `addTimer`; the interval is in milliseconds. -/
def deadline (ts : Timespec) (interval : Nat) : TimeVal :=
  let tv_sec := ts.tv_sec + interval / 1000
  let tv_usec := ts.tv_nsec / 1000 + interval % 1000 * 1000
  if 1000000 < tv_usec then ⟨(tv_sec + 1 : Nat), (tv_usec - 1000000 : Nat)⟩ else ⟨tv_sec, tv_usec⟩

/-- A deadline in microseconds. -/
theorem deadline_us (ts : Timespec) (interval : Nat) :
    (deadline ts interval).us = ts.toTimeVal.us + 1000 * interval := by
  rw [deadline, TimeVal.us, TimeVal.us, Timespec.toTimeVal]
  split <;> simp only [] <;> omega

/-- A `timeval` is the clock cut down to the microsecond. -/
theorem toTimeVal_us (ts : Timespec) :
    ts.toTimeVal.us * 1000 ≤ ts.ns ∧ (ts.ns : Int) < ts.toTimeVal.us * 1000 + 1000 := by
  rw [TimeVal.us, Timespec.toTimeVal, Timespec.ns]
  have := ts.nsec_lt
  simp only []
  omega

/-! ## Differences -/

/-- `getTimeDiff` before the result is narrowed. -/
def timeDiff (t1 t2 : TimeVal) : Int :=
  (t1.tv_sec - t2.tv_sec) * 1000 + (t1.tv_usec - t2.tv_usec).tdiv 1000

/-- `getTimeDiff`: the `long` as an `s32_t`. -/
def getTimeDiff (t1 t2 : TimeVal) : Int := (timeDiff t1 t2).bmod (2 ^ 32)

/-- Whole milliseconds and a rest of less than one, of either sign. -/
theorem timeDiff_rest (t1 t2 : TimeVal) :
    ∃ r : Int, t1.us - t2.us = 1000 * timeDiff t1 t2 + r ∧ -1000 < r ∧ r < 1000 := by
  refine ⟨(t1.tv_usec - t2.tv_usec).tmod 1000, ?_, Int.lt_tmod_of_pos _ (by decide),
    Int.tmod_lt_of_pos _ (by decide)⟩
  have h := Int.tmod_add_mul_tdiv (t1.tv_usec - t2.tv_usec) 1000
  rw [TimeVal.us, TimeVal.us, timeDiff]
  omega

/-- **What the sign of the difference says about the microseconds.** -/
theorem timeDiff_spec (t1 t2 : TimeVal) :
    (0 < timeDiff t1 t2 → t2.us < t1.us) ∧ (timeDiff t1 t2 ≤ 0 → t1.us - t2.us < 1000) ∧
    (0 ≤ timeDiff t1 t2 → -1000 < t1.us - t2.us) ∧ (timeDiff t1 t2 < 0 → t1.us < t2.us) := by
  obtain ⟨r, hr, hlo, hhi⟩ := timeDiff_rest t1 t2
  omega

/-- `2^31 - 1` milliseconds, in microseconds. -/
def nearUs : Int := (2 ^ 31 - 1) * 1000

/-- The difference is right while it fits into 32 bits. -/
theorem getTimeDiff_eq {t1 t2 : TimeVal} (hlo : -2 ^ 31 ≤ timeDiff t1 t2)
    (hhi : timeDiff t1 t2 < 2 ^ 31) :
    getTimeDiff t1 t2 = timeDiff t1 t2 := by
  rw [getTimeDiff, Int.bmod_eq_of_le] <;> omega

/-- Times within `2^31 - 1` ms of each other are compared without wrapping. -/
theorem getTimeDiff_eq_of_near {t1 t2 : TimeVal} (h12 : t1.us - t2.us ≤ nearUs)
    (h21 : t2.us - t1.us ≤ nearUs) :
    getTimeDiff t1 t2 = timeDiff t1 t2 := by
  obtain ⟨r, hr, hlo, hhi⟩ := timeDiff_rest t1 t2
  rw [nearUs] at h12 h21
  exact getTimeDiff_eq (by omega) (by omega)

end StevenProgram
