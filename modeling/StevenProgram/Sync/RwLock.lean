/-
  `mxRwLock` (`mxMutex.cpp`): readers and a writer, by any number of threads.

  `rlock` and `wlock` return nothing, and with a timeout they ignore what
  `pthread_rwlock_timedrdlock` and `pthread_rwlock_timedwrlock` return.  A thread whose call gave up
  goes on as if it had the lock, next to the one that has it.  Nor is the timeout one: the deadline
  is an absolute time, computed from the milliseconds alone (with `^` for a power), and so lies
  within 25 days of the clock's origin (`deadline_lt`).  And of a negative timeout, unless it is
  full seconds, it has negative nanoseconds, which pthreads refuses even when the lock is free
  (`tv_nsec_neg_iff`).

  1. **Code** — `mxRwLock.lock`, with `rlock` and `wlock`, over what pthreads counts for each
     thread.
  2. **Threads** — `rwSys`: calls that return, and the sections between a return and the matching
     unlock.
  3. **The nanoseconds** — `tv_nsec_neg_iff`: which timeouts are refused.
  4. **Exclusion** — `rwlock_exclusion`: as long as no call gives up (`Granted`), every open section
     holds the lock.
-/
import Mathlib.Data.List.Perm.Subperm
import StevenProgram.Lib.TransSys

namespace StevenProgram

namespace Sync

/-! ## Code

  What pthreads keeps for the lock is who holds it, and how often a reader does. -/

/-- To read or to write. -/
inductive Mode where
  | read
  | write
  deriving DecidableEq, Repr

/-- A `pthread_rwlock_t`: the locks that are held, by thread, the latest first. -/
abbrev Held (ι : Type) : Type := List (ι × Mode)

/-- What `pthread_rwlock_timedrdlock` and `pthread_rwlock_timedwrlock` return. -/
inductive PthreadResult where
  | acquired
  | ETIMEDOUT
  | EINVAL
  deriving DecidableEq, Repr

section Code

variable {ι : Type}

/-- Whether the lock can be had in this mode: for reading when nobody writes, for writing when
    nobody has it. -/
def Free (held : Held ι) : Mode → Prop
  | .read => ∀ e ∈ held, e.2 ≠ .write
  | .write => held = []

instance (held : Held ι) : (mode : Mode) → Decidable (Free held mode)
  | .read => inferInstanceAs (Decidable (∀ e ∈ held, e.2 ≠ .write))
  | .write => decidable_of_iff (held.isEmpty = true) List.isEmpty_iff

/-- `pthread_rwlock_rdlock` and `pthread_rwlock_wrlock`, once they have the lock. -/
def pthreadLock (mode : Mode) (i : ι) (held : Held ι) : Option (Held ι) :=
  if Free held mode then some ((i, mode) :: held) else none

/-- `struct timespec`. -/
structure Timespec where
  tv_sec : Int
  tv_nsec : Int
  deriving DecidableEq, Repr

/-- The time in nanoseconds. -/
def Timespec.ns (ts : Timespec) : Int := ts.tv_sec * 1000000000 + ts.tv_nsec

/-- `pthread_rwlock_timedrdlock` and `pthread_rwlock_timedwrlock`, once they return; `now` is in
    nanoseconds. The nanoseconds of `abstime` are looked at first. -/
def pthreadTimedLock (mode : Mode) (i : ι) (abstime : Timespec) (now : Int) (held : Held ι) :
    Option (PthreadResult × Held ι) :=
  if abstime.tv_nsec < 0 ∨ 1000000000 ≤ abstime.tv_nsec then some (.EINVAL, held)
  else if Free held mode then some (.acquired, (i, mode) :: held)
  else if abstime.ns ≤ now then some (.ETIMEDOUT, held)
  else none

namespace mxRwLock

/-- `ts`. -/
def deadline (millsec : Int32) : Timespec where
  tv_sec := (millsec / 1000).toInt
  tv_nsec := ((millsec % 1000) * 10 ^^^ 6).toInt

/-- `rlock` or `wlock` by thread `i`, once it returns. -/
def lock (mode : Mode) (i : ι) (millsec : Int32) (now : Int) (held : Held ι) : Option (Held ι) :=
  if millsec = 0 then pthreadLock mode i held
  else (pthreadTimedLock mode i (deadline millsec) now held).map Prod.snd

/-- `rlock(millsec)`. -/
def rlock (i : ι) (millsec : Int32) (now : Int) (held : Held ι) : Option (Held ι) :=
  lock .read i millsec now held

/-- `wlock(millsec)`. -/
def wlock (i : ι) (millsec : Int32) (now : Int) (held : Held ι) : Option (Held ι) :=
  lock .write i millsec now held

/-- `unlock` by thread `i`: its latest lock; without one nothing is said, and here nothing
    happens. -/
def unlock [DecidableEq ι] (i : ι) (held : Held ι) : Held ι := held.eraseP fun e => e.1 = i

end mxRwLock

end Code

/-! ## Threads

  A thread is in a section from the return of its call on; whether it has the lock is another
  question, and the code does not ask it. -/

/-- The lock at a time, and the calls that have returned and are not unlocked yet. -/
structure RwThreads (ι : Type) where
  now : Int
  mRwLock : Held ι
  sections : List (ι × Mode)

/-- The clock goes on, a call returns, or a thread unlocks. -/
inductive RwEvent (ι : Type) where
  | tick (ns : Nat)
  | rlock (i : ι) (millsec : Int32)
  | wlock (i : ι) (millsec : Int32)
  | unlock (i : ι)

/-- What comes back to its caller; a thread unlocks as often as it has locked. -/
def rwSys (ι : Type) [DecidableEq ι] (now : Int) : TransSys (RwThreads ι) (RwEvent ι) where
  init := ⟨now, [], []⟩
  step s
    | .tick ns => some { s with now := s.now + ns }
    | .rlock i millsec => (mxRwLock.rlock i millsec s.now s.mRwLock).map fun held =>
        { s with mRwLock := held, sections := (i, .read) :: s.sections }
    | .wlock i millsec => (mxRwLock.wlock i millsec s.now s.mRwLock).map fun held =>
        { s with mRwLock := held, sections := (i, .write) :: s.sections }
    | .unlock i =>
        if s.sections.any fun e => e.1 = i then
          some { s with
            mRwLock := mxRwLock.unlock i s.mRwLock
            sections := s.sections.eraseP fun e => e.1 = i }
        else none

/-- A timeout that is not negative, or one of full seconds. -/
def Sensible (millsec : Int32) : Prop := 0 ≤ millsec ∨ millsec % 1000 = 0

/-- A call that returns has a sensible timeout and finds the lock free for it. -/
def Granted {ι : Type} (s : RwThreads ι) : RwEvent ι → Prop
  | .rlock _ millsec => Sensible millsec ∧ Free s.mRwLock .read
  | .wlock _ millsec => Sensible millsec ∧ Free s.mRwLock .write
  | _ => True

/-- No other thread is in a section next to a writer, and every section has a lock of its own. -/
structure Protected {ι : Type} (s : RwThreads ι) : Prop where
  exclusive : ∀ i, (i, .write) ∈ s.sections → ∀ e ∈ s.sections, e.1 = i
  holds : s.sections.Subperm s.mRwLock

/-! ## The nanoseconds

  C rounds toward zero, so what is left over by the division by 1000 has the sign of the timeout. -/

/-- The exclusive or keeps the sign, and what is small stays small. -/
theorem xor_six_toInt (x : Int32) :
    ((x ^^^ 6).toInt < 0 ↔ x.toInt < 0) ∧ (x.toInt < 16384 → (x ^^^ 6).toInt < 16384) := by
  have hsign : (x ^^^ 6).toInt < 0 ↔ x.toInt < 0 := by
    have hmsb : (x.toBitVec ^^^ 6#32).msb = x.toBitVec.msb := by
      rw [BitVec.msb_xor]
      exact Bool.xor_false _
    rw [BitVec.msb_eq_toInt, BitVec.msb_eq_toInt] at hmsb
    exact decide_eq_decide.mp hmsb
  refine ⟨hsign, fun hlt => ?_⟩
  by_cases hneg : x.toInt < 0
  · have := hsign.mpr hneg
    omega
  · -- both are their own natural numbers, of fourteen bits
    have hx : x.toInt = x.toBitVec.toNat := BitVec.toInt_eq_toNat_of_msb (by
      rw [BitVec.msb_eq_toInt]
      exact decide_eq_false hneg)
    have hy : (x ^^^ 6).toInt = (x.toBitVec ^^^ 6#32).toNat := BitVec.toInt_eq_toNat_of_msb (by
      rw [BitVec.msb_eq_toInt]
      exact decide_eq_false (mt hsign.mp hneg))
    have hbits : x.toBitVec.toNat ^^^ 6 < 2 ^ 14 := Nat.xor_lt_two_pow (by omega) (by decide)
    rw [hy, BitVec.toNat_xor]
    exact Int.ofNat_lt.mpr hbits

/-- What is left over of the seconds, times ten. -/
theorem rest_toInt (millsec : Int32) :
    (millsec % 1000 * 10).toInt = 10 * millsec.toInt.tmod 1000 := by
  have hmod : (millsec % 1000).toInt = millsec.toInt.tmod 1000 := Int32.toInt_mod _ _
  have hlt := Int.tmod_lt_of_pos millsec.toInt (show (0 : Int) < 1000 by decide)
  have hgt := Int.lt_tmod_of_pos millsec.toInt (show (0 : Int) < 1000 by decide)
  rw [Int32.toInt_mul, hmod, show (10 : Int32).toInt = 10 from rfl, Int.bmod_eq_of_le] <;> omega

/-- **Which timeouts have negative nanoseconds**: the negative ones that are not full seconds. -/
theorem tv_nsec_neg_iff (millsec : Int32) : (mxRwLock.deadline millsec).tv_nsec < 0 ↔
    ¬ Sensible millsec := by
  have hmod : (millsec % 1000).toInt = millsec.toInt.tmod 1000 := Int32.toInt_mod _ _
  have hzero : millsec % 1000 = 0 ↔ millsec.toInt.tmod 1000 = 0 := by
    rw [← Int32.toInt_inj, hmod]
    rfl
  rw [mxRwLock.deadline, (xor_six_toInt _).1, rest_toInt, Sensible, Int32.le_iff_toInt_le, hzero,
    show (0 : Int32).toInt = 0 from rfl]
  -- the rest has the sign of the whole
  rcases Int.lt_or_le millsec.toInt 0 with hneg | hpos
  · have hflip := Int.neg_tmod millsec.toInt 1000
    have := Int.tmod_nonneg 1000 (show 0 ≤ -millsec.toInt by omega)
    omega
  · have := Int.tmod_nonneg 1000 hpos
    omega

/-- The nanoseconds of a deadline are less than a second. -/
theorem tv_nsec_lt (millsec : Int32) : (mxRwLock.deadline millsec).tv_nsec < 1000000000 := by
  have hlt := Int.tmod_lt_of_pos millsec.toInt (show (0 : Int) < 1000 by decide)
  have hsmall := (xor_six_toInt (millsec % 1000 * 10)).2 (by rw [rest_toInt]; omega)
  exact Int.lt_trans hsmall (by decide)

section Exclusion

variable {ι : Type}

/-! ## Exclusion

  While every call gets what it asked for, being in a section and holding the lock are the same. -/

/-- Whether a call gets the lock when it returns. -/
abbrev Gets (millsec : Int32) (mode : Mode) (held : Held ι) : Prop :=
  Sensible millsec ∧ Free held mode

/-- **How a call returns**: with the lock, or without it and as if it had it. -/
theorem lock_cases {mode : Mode} {i : ι} {millsec : Int32} {now : Int} {held held' : Held ι}
    (h : mxRwLock.lock mode i millsec now held = some held') :
    (Gets millsec mode held ∧ held' = (i, mode) :: held) ∨
      (¬ Gets millsec mode held ∧ held' = held) := by
  rw [mxRwLock.lock] at h
  by_cases hms : millsec = 0
  · -- the untimed call blocks until it has the lock
    subst hms
    rw [if_pos rfl, pthreadLock] at h
    obtain ⟨hfree, h⟩ := Option.ite_none_right_eq_some.mp h
    exact .inl ⟨⟨.inl (Int32.le_refl 0), hfree⟩, (Option.some.inj h).symm⟩
  rw [if_neg hms, pthreadTimedLock] at h
  have hlt := tv_nsec_lt millsec
  by_cases hsens : Sensible millsec
  · have hvalid :
      ¬ ((mxRwLock.deadline millsec).tv_nsec < 0 ∨
      1000000000 ≤ (mxRwLock.deadline millsec).tv_nsec) := by
      rintro (hneg | hge)
      · exact (tv_nsec_neg_iff millsec).mp hneg hsens
      · omega
    rw [if_neg hvalid] at h
    by_cases hfree : Free held mode
    · rw [if_pos hfree] at h
      exact .inl ⟨⟨hsens, hfree⟩, (Option.some.inj h).symm⟩
    · rw [if_neg hfree] at h
      split at h
      · exact .inr ⟨fun hg => hfree hg.2, (Option.some.inj h).symm⟩
      · cases h
  · rw [if_pos (.inl ((tv_nsec_neg_iff millsec).mpr hsens))] at h
    exact .inr ⟨fun hg => hsens hg.1, (Option.some.inj h).symm⟩

/-- The lock as pthreads keeps it: a writer is alone. -/
def Compatible (held : Held ι) : Prop := ∀ i, (i, .write) ∈ held → held = [(i, .write)]

/-- A lock that is free for a mode can be taken in it. -/
theorem compatible_cons {mode : Mode} {i : ι} {held : Held ι} (h : Compatible held)
    (hfree : Free held mode) : Compatible ((i, mode) :: held) := by
  intro j hj
  cases mode with
  | read =>
    rcases List.mem_cons.mp hj with heq | hmem
    · cases heq
    · exact absurd rfl (hfree _ hmem)
  | write =>
    obtain rfl : held = [] := hfree
    rw [List.mem_singleton.mp hj]

/-- A lock can be given back. -/
theorem compatible_erase {held : Held ι} (h : Compatible held) (p : ι × Mode → Bool) :
    Compatible (held.eraseP p) := by
  intro i hi
  have hall := h i (List.mem_of_mem_eraseP hi)
  subst hall
  by_cases hp : p (i, .write)
  · rw [List.eraseP_cons_of_pos hp] at hi
    cases hi
  · rw [List.eraseP_cons_of_neg hp]
    rfl

/-- Every section holds the lock, and nobody else does. -/
structure Matched (s : RwThreads ι) : Prop where
  same : s.mRwLock = s.sections
  compatible : Compatible s.mRwLock

/-- Where what is held is what the lock knows, writers are alone. -/
theorem Matched.protected {s : RwThreads ι} (h : Matched s) : Protected s := by
  constructor
  · intro i hi e he
    rw [← h.same] at hi he
    rw [h.compatible i hi] at he
    rw [List.mem_singleton.mp he]
  · rw [h.same]

/-- A call that is granted. -/
theorem matched_lock {s : RwThreads ι} {mode : Mode} {i : ι} {millsec : Int32} {held' : Held ι}
    (h : Matched s)
    (hl : mxRwLock.lock mode i millsec s.now s.mRwLock = some held')
    (hg : Gets millsec mode s.mRwLock) :
    Matched { s with mRwLock := held', sections := (i, mode) :: s.sections } := by
  rcases lock_cases hl with ⟨-, rfl⟩ | ⟨hnot, -⟩
  · constructor
    · show (i, mode) :: s.mRwLock = (i, mode) :: s.sections
      rw [h.same]
    · exact compatible_cons h.compatible hg.2
  · exact absurd hg hnot

/-- A call that gives up leaves more sections than locks. -/
theorem not_protected_lock {s : RwThreads ι} {mode : Mode} {i : ι} {millsec : Int32}
    {held' : Held ι} (h : Matched s)
    (hl : mxRwLock.lock mode i millsec s.now s.mRwLock = some held')
    (hg : ¬ Gets millsec mode s.mRwLock) :
    ¬ Protected { s with mRwLock := held', sections := (i, mode) :: s.sections } := by
  rcases lock_cases hl with ⟨hgets, -⟩ | ⟨-, rfl⟩
  · exact absurd hgets hg
  · intro hp
    have hle : ((i, mode) :: s.sections).length ≤ s.mRwLock.length := hp.holds.length_le
    rw [h.same, List.length_cons] at hle
    omega

variable [DecidableEq ι] {now : Int}

/-- **Step lemma**: a step keeps the locks and the sections together exactly when it is granted. -/
theorem matched_step {s s' : RwThreads ι} {e : RwEvent ι} (h : Matched s)
    (hs : (rwSys ι now).step s e = some s') :
    (Granted s e → Matched s') ∧ (¬ Granted s e → ¬ Protected s') := by
  cases e with
  | tick ns =>
    obtain rfl := Option.some.inj hs
    exact ⟨fun _ => ⟨h.same, h.compatible⟩, fun hg => absurd trivial hg⟩
  | rlock i millsec =>
    obtain ⟨held', hl, rfl⟩ := Option.map_eq_some_iff.mp hs
    exact ⟨matched_lock h hl, not_protected_lock h hl⟩
  | wlock i millsec =>
    obtain ⟨held', hl, rfl⟩ := Option.map_eq_some_iff.mp hs
    exact ⟨matched_lock h hl, not_protected_lock h hl⟩
  | unlock i =>
    refine ⟨fun _ => ?_, fun hg => absurd trivial hg⟩
    obtain ⟨-, hs⟩ := Option.ite_none_right_eq_some.mp hs
    obtain rfl := Option.some.inj hs
    constructor
    · show mxRwLock.unlock i s.mRwLock = _
      rw [h.same]
      rfl
    · exact compatible_erase h.compatible _

/-- **It is so in every run whose locks are granted.** -/
theorem matched_of_runs {s : RwThreads ι} (h : (rwSys ι now).Runs (fun s e _ => Granted s e) s) :
    Matched s := by
  refine TransSys.Runs.invariant (I := Matched) ?_ (fun hi hs hg => (matched_step hi hs).1 hg) h
  constructor
  · rfl
  · intro i hi
    cases hi

/-- The thread of a call to `unlock` is in a section. -/
theorem section_of_unlock {s s' : RwThreads ι} {i : ι}
    (hs : (rwSys ι now).step s (.unlock i) = some s') :
    ∃ mode, (i, mode) ∈ s.sections := by
  obtain ⟨hany, -⟩ := Option.ite_none_right_eq_some.mp hs
  obtain ⟨e, he, hi⟩ := List.any_eq_true.mp hany
  obtain rfl : e.1 = i := of_decide_eq_true hi
  exact ⟨e.2, he⟩

/-- **Readers and writers exclude each other as long as every call that returns has a sensible
    timeout and finds the lock free**: a writer's section is next to no other thread's, and `unlock`
    is for a lock that its caller holds.  A step that is not granted ends this. -/
theorem rwlock_exclusion {s : RwThreads ι} (h : (rwSys ι now).Runs (fun s e _ => Granted s e) s) :
    (∀ i, (i, .write) ∈ s.sections → ∀ e ∈ s.sections, e.1 = i) ∧
    (∀ i s', (rwSys ι now).step s (.unlock i) = some s' → ∃ mode, (i, mode) ∈ s.mRwLock) ∧
    ∀ e s', (rwSys ι now).step s e = some s' → (Protected s' ↔ Granted s e) := by
  have hmatched := matched_of_runs h
  refine ⟨hmatched.protected.exclusive, ?_, ?_⟩
  · intro i s' hs
    obtain ⟨mode, hmode⟩ := section_of_unlock hs
    rw [hmatched.same]
    exact ⟨mode, hmode⟩
  · intro e s' hs
    obtain ⟨hgranted, hnot⟩ := matched_step hmatched hs
    constructor
    · intro hp
      by_contra hg
      exact hnot hg hp
    · intro hg
      exact (hgranted hg).protected

/-- Two readers, who leave; then a writer with a timeout. -/
theorem rwlock_exclusion_writer : ∃ s : RwThreads Nat, (rwSys Nat 0).exec ⟨0, [], []⟩
      [.rlock 0 0, .rlock 1 5, .unlock 0, .unlock 1, .wlock 0 5] = some s ∧
      (0, .write) ∈ s.sections ∧ ∀ e ∈ s.sections, e.1 = 0 := by
  have h0 : (rwSys Nat 0).Runs (fun s e _ => Granted s e) _ := .init
  have h1 := h0.step (e := RwEvent.rlock 0 0) rfl ⟨.inl (by decide), by rintro _ ⟨⟩⟩
  have h2 := h1.step (e := RwEvent.rlock 1 5) rfl
    ⟨.inl (by decide), show ∀ e ∈ [(0, Mode.read)], e.2 ≠ .write by decide⟩
  have h3 := h2.step (e := RwEvent.unlock 0) rfl trivial
  have h4 := h3.step (e := RwEvent.unlock 1) rfl trivial
  have h5 := h4.step (e := RwEvent.wlock 0 5) rfl ⟨.inl (by decide), rfl⟩
  exact ⟨_, rfl, List.mem_cons_self .., (rwlock_exclusion h5).1 0 (List.mem_cons_self ..)⟩

/-- A second past the clock's origin: thread 0 writes, and thread 1, which would wait for 5 ms,
    writes too. -/
theorem timed_writer_enters : ¬ ∀ (now : Int) (s : RwThreads Nat), (rwSys Nat now).Reachable s →
    ∀ i, (i, .write) ∈ s.sections → ∀ e ∈ s.sections, e.1 = i := by
  intro hall
  have h0 : (rwSys Nat 1000000000).Reachable _ := .init
  have h1 := h0.step (e := RwEvent.wlock 0 0) rfl trivial
  have h2 := h1.step (e := RwEvent.wlock 1 5) rfl trivial
  exact absurd (hall _ _ h2 0 (by decide) (1, .write) (by decide)) (by decide)

end Exclusion

/-! ## The deadline

  With `^` for a power the nanoseconds are few, and the seconds are those of the timeout alone; the
  clock is not read. -/

/-- The deadline is less than a month away. -/
theorem deadline_lt (millsec : Int32) : (mxRwLock.deadline millsec).ns < 2147486 * 1000000000 := by
  have hsec : (millsec / 1000).toInt ≤ 2147483 := by
    rw [Int32.toInt_div_of_ne_right _ _ (by decide)]
    exact Int.tdiv_le_tdiv (a := millsec.toInt) (b := 2147483647) (by decide)
      (Int.le_of_lt_add_one (Int32.toInt_lt millsec))
  have hnsec := Int32.toInt_lt (millsec % 1000 * 10 ^^^ 6)
  show (millsec / 1000).toInt * 1000000000 + (millsec % 1000 * 10 ^^^ 6).toInt < _
  omega

/-- **The timeout is none**: for a clock past the 25th day of 1970 every call with one returns at
    once. -/
theorem timed_lock_returns {ι : Type} {mode : Mode} {i : ι} {millsec : Int32} {now : Int}
    {held : Held ι} (hms : millsec ≠ 0) (hnow : 2147486 * 1000000000 ≤ now) :
    ∃ held', mxRwLock.lock mode i millsec now held = some held' := by
  have htime : (mxRwLock.deadline millsec).ns ≤ now := by
    have hlt := deadline_lt millsec
    omega
  rw [mxRwLock.lock, if_neg hms, pthreadTimedLock, if_pos htime]
  split
  · exact ⟨_, rfl⟩
  · split <;> exact ⟨_, rfl⟩

end Sync

end StevenProgram
