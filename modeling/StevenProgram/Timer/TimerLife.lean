/-
  What the callers of the timer may rely on.

  One caller at a time has the mutex, and between the look at `mThreadId` and `mMutex.wait()` nobody
  else has it.  Any number of threads may be in `startTimer` at once, or a single one in
  `stopTimer`; `TimerUsage` says which, and what it says is all the callers have to keep to.

  1.  **Invariant** — `Inv`: `Guards` for the mutex, `Starting` while calls of `startTimer` go on
     and `Stopping` while one of `stopTimer` does; `CallOk` says what is so while a caller is at a
     phase.

  2.  **Steps** — `start_call`, `main_step` and the calls and returns, which make `step_inv`.

  3.  **Runs** — `timer_life`: at most one thread that is not joined, one call that succeeds for
     each thread, and no caller left without its signal.

  The crux is the wait of the caller that has created the thread.  It leaves the mutex and sleeps in
  one step, and the thread can signal only with the mutex, so the signal finds it asleep: a caller
  that waits always has a thread that is still at its start (`Parked`).
-/
import StevenProgram.Timer.TimerThread

namespace StevenProgram

namespace TimerThread

/-! ## The invariant

  The mutex, the callers and the threads have their own parts; `live` ties them together, since a
  thread that is alive is the one of `mThreadId`. -/

/-- Has the mutex. -/
def CallPhase.inside : CallPhase → Bool
  | checking | refusing | enabling | creating | created | started => true
  | _ => false

/-- Has the mutex. -/
def MainPhase.inside : MainPhase → Bool
  | entered | signalled => true
  | _ => false

/-- Has created the thread. -/
def CallPhase.winner : CallPhase → Bool
  | created | waiting | started => true
  | _ => false

/-- Created and not joined. -/
def MainPhase.Live (w : MainPhase) : Prop := w ≠ .unborn ∧ w ≠ .joined

/-- A thread that holds the mutex is alive. -/
theorem MainPhase.live_of_inside {w : MainPhase} (h : w.inside = true) : w.Live := by
  constructor <;> rintro rfl <;> cases h

namespace mxMiniTimer

variable (s : mxMiniTimer)

/-- Whether a thread has the mutex, by where it is. -/
def inside : Thread → Bool
  | .caller i => (s.calls i).inside
  | .worker n => (s.mains n).inside

/-- What is so while a caller is at `c`, and no call of `stopTimer` goes on. -/
def CallOk (on : Bool) : CallPhase → Prop
  | .idle | .locking | .checking => True
  | .refusing => s.mThreadId ≠ none
  | .enabling => s.mThreadId = none
  | .creating => s.mThreadId = none ∧ s.mStatus = true
  | .created => on = false ∧ ∃ n, s.mThreadId = some n ∧ s.mains n = .entering
  | .waiting | .started => on = false ∧ s.mThreadId ≠ none
  | .stopping | .joining _ | .clearing | .undefined => False

/-- The callers `cs` are in `startTimer`. -/
structure Starting (cs : List Nat) (on : Bool) : Prop where
  nodup : cs.Nodup
  /-- they and nobody else are in a call -/
  busy : ∀ i, i ∈ cs ↔ s.calls i ≠ .idle
  calls : ∀ i, s.CallOk on (s.calls i)
  /-- at most one caller has created a thread -/
  winner : ∀ i j, (s.calls i).winner → (s.calls j).winner → i = j
  /-- without a thread no start has returned -/
  off : s.mThreadId = none → on = false
  /-- a thread that there is has not ended, and a start has returned or is about to -/
  thread : ∀ n, s.mThreadId = some n → s.mStatus = true ∧ (s.mains n).Live ∧ s.mains n ≠ .ended ∧
    (on = true ∨ ∃ i, (s.calls i).winner)

/-- The caller `i` is in `stopTimer`. -/
structure Stopping (i : Nat) : Prop where
  /-- nobody else is in a call -/
  alone : ∀ j, j ≠ i → s.calls j = .idle
  /-- so the thread ends at its next test -/
  status : s.mStatus = false
  /-- in front of the join, in it, or behind it -/
  here : (s.calls i = .stopping ∧ ∀ n, s.mThreadId = some n → (s.mains n).Live) ∨
    (∃ n, s.calls i = .joining n ∧ s.mThreadId = some n ∧ (s.mains n).Live) ∨
      (s.calls i = .clearing ∧ ∀ n, ¬ (s.mains n).Live)

/-- What is so while the callers use the timer in this way. -/
def Uses : TimerUsage → Prop
  | .starting cs on => s.Starting cs on
  | .stopping i => s.Stopping i

/-- A caller that waits for its signal waits for a thread that has yet to give it. -/
def Parked : Prop :=
  s.mMutex.waiting = [] ∨
    ∃ i n, s.mMutex.waiting = [.caller i] ∧ s.calls i = .waiting ∧ s.mThreadId = some n ∧
    (s.mains n = .entering ∨ s.mains n = .entered)

/-- The invariant. -/
structure Inv (u : TimerUsage) : Prop where
  /-- the mutex belongs to the thread that is inside -/
  guards : s.mMutex.Guards fun t => s.inside t
  parked : s.Parked
  /-- a thread that is alive is the one of `mThreadId` -/
  live : ∀ n, (s.mains n).Live → s.mThreadId = some n
  uses : s.Uses u

end mxMiniTimer

open mxMiniTimer

/-! ## Steps

  A statement of one thread changes its own phase, and perhaps the mutex or a field.  The first
  lemmas say what that leaves of each part of the invariant; then there is one lemma for each kind
  of statement. -/

section Steps

variable {s s' : mxMiniTimer} {cs : List Nat} {on : Bool} {i n : Nat} {c : CallPhase}
  {m : mxMonitoredMutex}

/-- Who holds the mutex after a step of a call. -/
theorem inside_atCall (c' : CallPhase) (t : Thread) :
    inside { s.atCall i c' with mMutex := m } t = if t = .caller i then c'.inside else
      s.inside t := by
  cases t with
  | caller j =>
    show (Function.update s.calls i c' j).inside = _
    by_cases h : j = i <;> simp [h, inside]
  | worker k => simp [inside, atCall]

/-- And after a step of a timer thread. -/
theorem inside_atMain (w : MainPhase) (t : Thread) :
    inside { s.atMain n w with mMutex := m } t = if t = .worker n then w.inside else
      s.inside t := by
  cases t with
  | caller j => simp [inside, atMain]
  | worker k =>
    show (Function.update s.mains n w k).inside = _
    by_cases h : k = n <;> simp [h, inside]

/-- Who is inside is as before. -/
theorem guards_call (h : s.mMutex.Guards fun t => s.inside t) (c' : CallPhase) (hc : s.calls i = c)
    (hin : c'.inside = c.inside) :
    s.mMutex.Guards fun t => inside { s.atCall i c' with mMutex := m } t := by
  refine h.congr fun t => ?_
  rw [inside_atCall]
  split
  · next ht => rw [ht, hin, inside, hc]
  · exact Iff.rfl

/-- A call takes the free mutex. -/
theorem guards_call_enter (h : s.mMutex.Guards fun t => s.inside t) (howner : s.mMutex.owner = none)
    {c' : CallPhase} (hin : c'.inside = true) :
    Monitor.Guards { s.mMutex with owner := some (.caller i) } fun t => inside
      { s.atCall i c' with mMutex := m } t := by
  refine h.enter howner fun t => ?_
  rw [inside_atCall]
  split
  · next ht => simp [ht, hin]
  · next ht => simp [ht]

/-- A call gives it back. -/
theorem guards_call_leave (h : s.mMutex.Guards fun t => s.inside t) (hc : s.calls i = c)
    (hcin : c.inside = true) {c' : CallPhase}
    (hin : c'.inside = false) (waiting : List Thread) :
    Monitor.Guards ⟨none, waiting⟩ fun t => inside { s.atCall i c' with mMutex := m } t := by
  refine h.leave (t := .caller i) (by rw [inside, hc, hcin]) waiting fun t => ?_
  rw [inside_atCall]
  split
  · next ht => simp [ht, hin]
  · next ht => simp [ht]

/-- A turn of the thread that neither takes nor gives it. -/
theorem guards_main (h : s.mMutex.Guards fun t => s.inside t) {w : MainPhase} (w' : MainPhase)
    (hw : s.mains n = w) (hin : w'.inside = w.inside) :
    s.mMutex.Guards fun t => inside { s.atMain n w' with mMutex := m } t := by
  refine h.congr fun t => ?_
  rw [inside_atMain]
  split
  · next ht => rw [ht, hin, inside, hw]
  · exact Iff.rfl

/-- What is known of a call stays true when the thread has only gone on. -/
theorem mxMiniTimer.CallOk.mono (h : s.CallOk on c) (hid : s'.mThreadId = s.mThreadId)
    (hst : s.mStatus = true → s'.mStatus = true)
    (hmain : c = .created → ∀ n, s.mains n = .entering → s'.mains n = .entering) :
    s'.CallOk on c := by
  cases c with
  | creating => exact ⟨hid.trans h.1, hst h.2⟩
  | created =>
    obtain ⟨hon, n, hn, hm⟩ := h
    exact ⟨hon, n, hid.trans hn, hmain rfl n hm⟩
  | refusing => exact fun hnone => h (hid.symm.trans hnone)
  | enabling => exact hid.trans h
  | waiting => exact ⟨h.1, fun hnone => h.2 (hid.symm.trans hnone)⟩
  | started => exact ⟨h.1, fun hnone => h.2 (hid.symm.trans hnone)⟩
  | _ => exact h

/-- A winner has a thread. -/
theorem mxMiniTimer.CallOk.winner (h : s.CallOk on c) (hc : c.winner = true) :
    on = false ∧ s.mThreadId ≠ none := by
  cases c with
  | created =>
    obtain ⟨hon, n, hn, -⟩ := h
    exact ⟨hon, by rw [hn]; nofun⟩
  | waiting => exact h
  | started => exact h
  | _ => cases hc

/-- What is known of any call while the timer is started. -/
theorem mxMiniTimer.Starting.callOk (h : s.Starting cs on) (hc : s.calls i = c) : s.CallOk on c :=
  hc ▸ h.calls i

/-- One caller goes on, and the others see nothing of it: neither the fields nor the phases that
    their `CallOk` speaks of are written. -/
theorem mxMiniTimer.Starting.move (h : s.Starting cs on) {cs' : List Nat} (hnodup : cs'.Nodup)
    (c' : CallPhase) (hc : s.calls i = c)
    (hbusy : ∀ j, j ∈ cs' ↔ (if j = i then c' else s.calls j) ≠ .idle) (hwin : c'.winner = c.winner)
    {b : Bool}
    (hb : s.mStatus = true → b = true) (hok : CallOk { s with mStatus := b } on c') :
    Starting { s.atCall i c' with mMutex := m, mStatus := b } cs' on := by
  have hcalls : ∀ j, Function.update s.calls i c' j = if j = i then c' else s.calls j :=
    fun j => Function.update_apply ..
  have hwinner : ∀ j, (Function.update s.calls i c' j).winner = (s.calls j).winner := by
    intro j
    rw [hcalls]
    split
    · next hj => rw [hwin, hj, hc]
    · rfl
  constructor
  · exact hnodup
  · intro j
    show _ ↔ Function.update s.calls i c' j ≠ .idle
    rw [hbusy, hcalls]
  · intro j
    show CallOk _ on (Function.update s.calls i c' j)
    rw [hcalls]
    split
    · exact CallOk.mono hok rfl id fun _ _ => id
    · exact (h.calls j).mono rfl hb fun _ _ => id
  · intro j k hj hk
    exact h.winner j k ((hwinner j).symm.trans hj) ((hwinner k).symm.trans hk)
  · exact h.off
  · intro n hn
    obtain ⟨hst, hlive, hend, hon⟩ := h.thread n hn
    exact ⟨hb hst, hlive, hend, hon.imp_right fun ⟨j, hj⟩ => ⟨j, (hwinner j).trans hj⟩⟩

/-- As `move`, within a call. -/
theorem mxMiniTimer.Starting.next (h : s.Starting cs on) (c' : CallPhase) (hc : s.calls i = c)
    (hidle : c ≠ .idle) (hidle' : c' ≠ .idle)
    (hwin : c'.winner = c.winner) (hok : CallOk s on c') :
    Starting { s.atCall i c' with mMutex := m } cs on := by
  refine h.move (b := s.mStatus) h.nodup c' hc (fun j => ?_) hwin id hok
  rw [h.busy]
  split
  · next hj => simp [hj, hc, hidle, hidle']
  · exact Iff.rfl

/-- The caller has left. -/
theorem mem_erase_iff (h : s.Starting cs on) (j : Nat) :
    j ∈ cs.erase i ↔ (if j = i then CallPhase.idle else s.calls j) ≠ .idle := by
  rw [h.nodup.mem_erase_iff, h.busy]
  split
  · next hj => simp [hj]
  · next hj => simp [hj]

/-- The thread goes on. -/
theorem mxMiniTimer.Starting.turn (h : s.Starting cs on) {w' : MainPhase}
    (hcreated : ∀ j, s.calls j ≠ .created) (hlive : w'.Live) (hend : w' ≠ .ended) :
    Starting { s.atMain n w' with mMutex := m } cs on where
  nodup := h.nodup
  busy := h.busy
  calls j := (h.calls j).mono rfl id fun hj => absurd hj (hcreated j)
  winner := h.winner
  off := h.off
  thread k hk := by
    obtain ⟨hst, hl, he, hon⟩ := h.thread k hk
    refine ⟨hst, ?_, ?_, hon⟩
    · show (Function.update s.mains n w' k).Live
      rw [Function.update_apply]
      split
      · exact hlive
      · exact hl
    · show Function.update s.mains n w' k ≠ .ended
      rw [Function.update_apply]
      split
      · exact hend
      · exact he

/-- Behind its start nobody is parked. -/
theorem mxMiniTimer.Parked.nil (h : s.Parked) {w : MainPhase} (hid : s.mThreadId = some n)
    (hw : s.mains n = w) (hne : w ≠ .entering ∧ w ≠ .entered) :
    s.mMutex.waiting = [] := by
  obtain hnil | ⟨i, k, -, -, hk, hm⟩ := h
  · exact hnil
  · obtain rfl : n = k := Option.some.inj (hid.symm.trans hk)
    rw [hw] at hm
    exact absurd hm (not_or.mpr hne)

/-- A caller that does not wait is not waited for. -/
theorem mxMiniTimer.Parked.call (h : s.Parked) {c' : CallPhase} (hc : s.calls i = c)
    (hne : c ≠ .waiting) (owner : Option Thread) {b : Bool} :
    Parked { s.atCall i c' with mMutex := ⟨owner, s.mMutex.waiting⟩, mStatus := b } := by
  refine h.imp_right fun ⟨j, k, hj, hwait, hk⟩ => ⟨j, k, hj, ?_, hk⟩
  have hji : j ≠ i := by
    rintro rfl
    exact hne (hc.symm.trans hwait)
  exact (Function.update_of_ne hji _ _).trans hwait

/-- Statements of `startTimer` between the call and the return. -/
def inStart : TimerEvent → Bool
  | .startLock _ | .check _ | .enable _ | .create _ | .wait _ | .waitReturns _ => true
  | _ => false

/-- Statements of `runTimerTask`. -/
def ofThread : TimerEvent → Bool
  | .mainLock _ | .mainSignal _ _ | .mainUnlock _ | .test _ | .round _ => true
  | _ => false

/-- A caller with the mutex is alone with it. -/
theorem mxMiniTimer.Inv.alone {u : TimerUsage} (h : s.Inv u) (hc : s.calls i = c)
    (hin : c.inside = true) {j : Nat} (hj : (s.calls j).inside = true) :
    j = i := by
  exact Thread.caller.inj
    (h.guards.unique (t := Thread.caller j) hj ((congrArg CallPhase.inside hc).trans hin))

/-- No call is inside while the mutex is free. -/
theorem mxMiniTimer.Inv.not_free {u : TimerUsage} (h : s.Inv u) (howner : s.mMutex.owner = none)
    (hc : s.calls i = c) : c.inside = false := by
  cases hin : c.inside with
  | false => rfl
  | true =>
    have hi := (h.guards (Thread.caller i)).mp ((congrArg CallPhase.inside hc).trans hin)
    rw [howner] at hi
    cases hi

/-- `pthread_create`: the one caller that got past the test makes the thread, and no other is
    further than `mMutex.lock()`. -/
theorem start_create (h : s.Inv (.starting cs on)) (hs : s.step (.create i) = some s') :
    s'.Inv (.starting cs on) := by
  have hstart : s.Starting cs on := h.uses
  obtain ⟨hi, hs⟩ := Option.ite_none_right_eq_some.mp hs
  obtain rfl := Option.some.inj hs
  obtain ⟨hid, hst⟩ : s.mThreadId = none ∧ s.mStatus = true := hstart.callOk hi
  -- the others are at most at `mMutex.lock()`, as there is no thread and the mutex is taken
  have hothers : ∀ j, j ≠ i → (s.calls j).inside = false ∧ (s.calls j).winner = false := by
    intro j hj
    constructor
    · exact Bool.eq_false_iff.mpr fun hin => hj (h.alone hi rfl hin)
    · exact Bool.eq_false_iff.mpr fun hwin => ((hstart.calls j).winner hwin).2 hid
  have hcalls :
    ∀ j, Function.update s.calls i .created j = if j = i then .created else s.calls j :=
    fun j => Function.update_apply ..
  have hmains : ∀ k, Function.update s.mains s.created .entering k = if k = s.created then
    .entering else s.mains k :=
    fun k => Function.update_apply ..
  have hnone : ∀ k, ¬ (s.mains k).Live := fun k hk => by cases hid.symm.trans (h.live k hk)
  refine ⟨h.guards.congr fun t => ?_, .inl ?_, fun k hk => ?_,
    ⟨hstart.nodup, fun j => ?_, fun j => ?_, fun j k hj hk => ?_, nofun, fun k hk => ?_⟩⟩
  · cases t with
    | caller j =>
      show (Function.update s.calls i .created j).inside = true ↔ (s.calls j).inside = true
      rw [hcalls]
      split
      · next hj => rw [hj, hi]; exact Iff.rfl
      · exact Iff.rfl
    | worker k =>
      show (Function.update s.mains s.created .entering k).inside = true ↔
        (s.mains k).inside = true
      rw [hmains]
      split
      · exact ⟨nofun, fun hin => absurd (MainPhase.live_of_inside hin) (hnone k)⟩
      · exact Iff.rfl
  · obtain hnil | ⟨j, k, -, hj, hk, -⟩ := h.parked
    · exact hnil
    · cases hid.symm.trans hk
  · have hk : (Function.update s.mains s.created .entering k).Live := hk
    rw [hmains] at hk
    split at hk
    · next heq => exact congrArg some heq.symm
    · exact absurd hk (hnone k)
  · show _ ↔ Function.update s.calls i .created j ≠ .idle
    rw [hcalls, hstart.busy]
    split
    · next hj => simp [hj, hi]
    · exact Iff.rfl
  · show CallOk _ on (Function.update s.calls i .created j)
    rw [hcalls]
    split
    · exact ⟨hstart.off hid, s.created, rfl, (hmains _).trans (if_pos rfl)⟩
    · next hj =>
      obtain ⟨hin, hwin⟩ := hothers j hj
      have hok := hstart.calls j
      generalize s.calls j = c at hin hwin hok
      cases c <;>
        first
        | exact trivial
        | exact hok.elim
        | exact absurd hin (by decide)
        | exact absurd hwin (by decide)
  · have hwin : ∀ j, (Function.update s.calls i .created j).winner = true → j = i := by
      intro j hj
      rw [hcalls] at hj
      split at hj
      · next heq => exact heq
      · next hne => rw [(hothers j hne).2] at hj; cases hj
    exact (hwin j hj).trans (hwin k hk).symm
  · obtain rfl : s.created = k := Option.some.inj hk
    refine ⟨hst, ?_, ?_, .inr ⟨i, ?_⟩⟩
    · show (Function.update s.mains s.created .entering s.created).Live
      rw [Function.update_self]
      exact ⟨nofun, nofun⟩
    · show Function.update s.mains s.created .entering s.created ≠ .ended
      rw [Function.update_self]
      nofun
    · show (Function.update s.calls i .created i).winner = true
      rw [Function.update_self]
      rfl

/-- Within `startTimer`.  By the statement: only `create` makes a winner, and it finds none, since
    `mThreadId` was NULL when the caller looked and the mutex has not been given away since. -/
theorem start_call (h : s.Inv (.starting cs on)) {e : TimerEvent} (he : inStart e = true)
    (hs : s.step e = some s') : s'.Inv (.starting cs on) := by
  have hstart : s.Starting cs on := h.uses
  cases e with
  -- the mutex is taken; nothing is known yet
  | startLock i =>
    obtain ⟨hi, hs⟩ := Option.ite_none_right_eq_some.mp hs
    obtain ⟨m, hm, rfl⟩ := Option.map_eq_some_iff.mp hs
    obtain ⟨howner, rfl⟩ := Monitor.acquire_eq_some.mp hm
    exact ⟨guards_call_enter h.guards howner rfl, h.parked.call (b := s.mStatus) hi (by decide) _,
      h.live,
      hstart.next .checking hi (by decide) (by decide) rfl trivial⟩
  | check i =>
    obtain ⟨hi, hs⟩ := Option.ite_none_right_eq_some.mp hs
    obtain rfl := Option.some.inj hs
    -- the caller is alone with the mutex, so what it finds stays true
    by_cases hid : s.mThreadId = none
    · rw [if_pos hid]
      exact ⟨guards_call (m := s.mMutex) h.guards _ hi rfl,
        h.parked.call (b := s.mStatus) hi (by decide) _, h.live,
        hstart.next (m := s.mMutex) .enabling hi (by decide) (by decide) rfl hid⟩
    · rw [if_neg hid]
      exact ⟨guards_call (m := s.mMutex) h.guards _ hi rfl,
        h.parked.call (b := s.mStatus) hi (by decide) _, h.live,
        hstart.next (m := s.mMutex) .refusing hi (by decide) (by decide) rfl hid⟩
  | enable i =>
    obtain ⟨hi, hs⟩ := Option.ite_none_right_eq_some.mp hs
    obtain rfl := Option.some.inj hs
    have hid : s.mThreadId = none := hstart.callOk hi
    refine ⟨guards_call (m := s.mMutex) h.guards _ hi rfl, h.parked.call hi (by decide) _,
      h.live, ?_⟩
    refine hstart.move (m := s.mMutex) hstart.nodup .creating hi (fun j => ?_) rfl (fun _ => rfl)
      ⟨hid, rfl⟩
    rw [hstart.busy]
    by_cases hj : j = i <;> simp [hj, hi]
  | create i => exact start_create h hs
  -- nobody waits yet: the only caller that may is this one
  | wait i =>
    obtain ⟨hi, hs⟩ := Option.ite_none_right_eq_some.mp hs
    obtain rfl := Option.some.inj hs
    obtain ⟨hon, n, hid, hm⟩ : on = false ∧ ∃ n, s.mThreadId = some n ∧ s.mains n = .entering :=
      hstart.callOk hi
    have hnil : s.mMutex.waiting = [] := by
      obtain hnil | ⟨j, k, -, hj, -⟩ := h.parked
      · exact hnil
      · cases hi.symm.trans (hstart.winner j i (by rw [hj]; rfl) (by rw [hi]; rfl) ▸ hj)
    refine ⟨guards_call_leave h.guards hi rfl rfl _, .inr ⟨i, n, ?_, Function.update_self .., hid,
      .inl hm⟩, h.live,
      hstart.next .waiting hi (by decide) (by decide) rfl ⟨hon, by rw [hid]; nofun⟩⟩
    show s.mMutex.waiting ++ [Thread.caller i] = _
    rw [hnil]
    rfl
  -- it was woken, so it is in the list no more
  | waitReturns i =>
    obtain ⟨hi, hs⟩ := Option.ite_none_right_eq_some.mp hs
    obtain ⟨m, hm, rfl⟩ := Option.map_eq_some_iff.mp hs
    obtain ⟨hnot, howner, rfl⟩ := Monitor.unpark_eq_some.mp hm
    have hnil : s.mMutex.waiting = [] := by
      obtain hnil | ⟨j, k, hwait, hj, -⟩ := h.parked
      · exact hnil
      · obtain rfl : j = i := hstart.winner j i (by rw [hj]; rfl) (by rw [hi]; rfl)
        exact absurd (hwait ▸ List.mem_singleton_self _) hnot
    exact ⟨guards_call_enter h.guards howner rfl, .inl hnil, h.live,
      hstart.next .started hi (by decide) (by decide) rfl
      (show s.CallOk on .waiting from hstart.callOk hi)⟩
  | _ => cases he

/-- One more caller of `startTimer`. -/
theorem start_called (h : s.Inv (.starting cs on)) (hs : s.step (.startCall i) = some s') :
    s'.Inv (.starting (i :: cs) on) := by
  have hstart : s.Starting cs on := h.uses
  obtain ⟨hi, hs⟩ := Option.ite_none_right_eq_some.mp hs
  obtain rfl := Option.some.inj hs
  have hnew : i ∉ cs := fun hmem => (hstart.busy i).mp hmem hi
  refine ⟨guards_call (m := s.mMutex) h.guards _ hi rfl,
    h.parked.call (b := s.mStatus) hi (by decide) _, h.live, ?_⟩
  refine hstart.move (m := s.mMutex) (b := s.mStatus)
    (List.nodup_cons.mpr ⟨hnew, hstart.nodup⟩) .locking hi (fun j => ?_) rfl id trivial
  rw [List.mem_cons, hstart.busy]
  by_cases hj : j = i <;> simp [hj]

/-- A call is refused when another has created the thread. -/
theorem start_refused (h : s.Inv (.starting cs on)) (hs : s.step (.startRefused i) = some s') :
    (i ∈ cs ∧ (on ∨ ∃ j ∈ cs, j ≠ i)) ∧ s'.Inv (.starting (cs.erase i) on) := by
  have hstart : s.Starting cs on := h.uses
  obtain ⟨hi, hs⟩ := Option.ite_none_right_eq_some.mp hs
  obtain rfl := Option.some.inj hs
  have hid : s.mThreadId ≠ none := hstart.callOk hi
  refine ⟨⟨(hstart.busy i).mpr (by rw [hi]; nofun), ?_⟩, guards_call_leave h.guards hi rfl rfl _,
    h.parked.call (b := s.mStatus) hi (by decide) _,
    h.live, ?_⟩
  · obtain ⟨n, hn⟩ := Option.ne_none_iff_exists'.mp hid
    -- the thread is that of a start that has returned, or of another caller that is still in it
    obtain ⟨-, -, -, hon | ⟨j, hj⟩⟩ := hstart.thread n hn
    · exact .inl hon
    · refine .inr ⟨j, (hstart.busy j).mpr fun hidle => ?_, fun hji => ?_⟩
      · rw [hidle] at hj
        cases hj
      · rw [hji, hi] at hj
        cases hj
  · exact hstart.move (b := s.mStatus) (hstart.nodup.erase i) .idle hi
      (mem_erase_iff hstart) rfl id trivial

/-- The call that has created the thread returns first. -/
theorem start_returned (h : s.Inv (.starting cs on)) (hs : s.step (.startReturn i) = some s') :
    (i ∈ cs ∧ on = false) ∧ s'.Inv (.starting (cs.erase i) true) := by
  have hstart : s.Starting cs on := h.uses
  obtain ⟨hi, hs⟩ := Option.ite_none_right_eq_some.mp hs
  obtain rfl := Option.some.inj hs
  obtain ⟨hon, hid⟩ : on = false ∧ s.mThreadId ≠ none := hstart.callOk hi
  have hcalls : ∀ j, Function.update s.calls i .idle j = if j = i then .idle else s.calls j :=
    fun j => Function.update_apply ..
  -- the one winner returns, and leaves none
  have hothers : ∀ j, j ≠ i → (s.calls j).winner = false := fun j hj =>
    Bool.eq_false_iff.mpr fun hwin => hj (hstart.winner j i hwin (by rw [hi]; rfl))
  refine ⟨⟨(hstart.busy i).mpr (by rw [hi]; nofun), hon⟩, guards_call_leave h.guards hi rfl rfl _,
    h.parked.call (b := s.mStatus) hi (by decide) _,
    h.live, ⟨hstart.nodup.erase i, fun j => ?_, fun j => ?_, fun j k hj => ?_,
      fun hnone => absurd hnone hid, fun n hn => ?_⟩⟩
  · exact (mem_erase_iff hstart j).trans (by rw [← hcalls]; exact Iff.rfl)
  · show CallOk _ true (Function.update s.calls i .idle j)
    rw [hcalls]
    split
    · exact trivial
    · next hj =>
      have hwin := hothers j hj
      have hok := hstart.calls j
      generalize s.calls j = c at hwin hok
      cases c <;> first | exact hok | exact absurd hwin (by decide)
  · have hj : (Function.update s.calls i .idle j).winner = true := hj
    rw [hcalls] at hj
    split at hj
    · cases hj
    · next hne => rw [hothers j hne] at hj; cases hj
  · obtain ⟨hst, hlive, hend, -⟩ := hstart.thread n hn
    exact ⟨hst, hlive, hend, .inl rfl⟩

/-- `stopTimer` is called when nobody starts. -/
theorem stop_called (h : s.Inv (.starting [] on)) (hs : s.step (.stopCall i) = some s') :
    s'.Inv (.stopping i) := by
  have hstart : s.Starting [] on := h.uses
  obtain ⟨hi, hs⟩ := Option.ite_none_right_eq_some.mp hs
  obtain rfl := Option.some.inj hs
  have hidle : ∀ j, s.calls j = .idle := fun j => Classical.byContradiction fun hne =>
    by cases (hstart.busy j).mpr hne
  refine ⟨guards_call (m := s.mMutex) h.guards _ hi rfl, h.parked.call hi (by decide) _, h.live,
    ⟨fun j hj => ?_, rfl, .inl ⟨?_, fun n hn => ?_⟩⟩⟩
  · exact (Function.update_of_ne hj _ _).trans (hidle j)
  · exact Function.update_self ..
  · exact (hstart.thread n hn).2.1

/-- A turn of a live thread is nothing to the stop. -/
theorem mxMiniTimer.Stopping.turn (h : s.Stopping i) {w' : MainPhase} (hlive : (s.mains n).Live)
    (hlive' : w'.Live) :
    Stopping { s.atMain n w' with mMutex := m } i := by
  have hmains : ∀ k, (s.mains k).Live → (Function.update s.mains n w' k).Live := by
    intro k hk
    rw [Function.update_apply]
    split
    · exact hlive'
    · exact hk
  obtain ⟨hi, hid⟩ | ⟨k, hi, hid, hk⟩ | ⟨-, hnone⟩ := h.here
  · exact ⟨h.alone, h.status, .inl ⟨hi, fun k hk => hmains k (hid k hk)⟩⟩
  · exact ⟨h.alone, h.status, .inr (.inl ⟨k, hi, hid, hmains k hk⟩)⟩
  · exact absurd hlive (hnone n)

/-- The thread goes on. -/
theorem mxMiniTimer.Inv.turn {u : TimerUsage} (h : s.Inv u) {w w' : MainPhase} (hw : s.mains n = w)
    (hlive : w.Live) (hlive' : w'.Live)
    (hcreated : ∀ j, s.calls j ≠ .created) (hend : s.mStatus = true → w' ≠ .ended)
    (hguards : m.Guards fun t => inside { s.atMain n w' with mMutex := m } t)
    (hparked : m.waiting = [] ∨ (m.waiting = s.mMutex.waiting ∧ w' = .entered)) :
      Inv { s.atMain n w' with mMutex := m } u := by
  have hid := h.live n (hw ▸ hlive)
  refine ⟨hguards, ?_, fun k hk => ?_, ?_⟩
  · -- whoever waits still waits for this thread
    obtain hnil | ⟨hsame, rfl⟩ := hparked
    · exact .inl hnil
    · obtain hnil | ⟨j, k, hj, hwait, hk, -⟩ := h.parked
      · exact .inl (hsame.trans hnil)
      · obtain rfl : n = k := Option.some.inj (hid.symm.trans hk)
        exact .inr ⟨j, n, hsame.trans hj, hwait, hid, .inr (Function.update_self ..)⟩
  · by_cases hkn : k = n
    · exact hkn ▸ hid
    · have hk : (Function.update s.mains n w' k).Live := hk
      rw [Function.update_of_ne hkn] at hk
      exact h.live k hk
  · cases u with
    | starting cs on =>
      have hstart : s.Starting cs on := h.uses
      exact hstart.turn hcreated hlive' (hend (hstart.thread n hid).1)
    | stopping i =>
      have hstop : s.Stopping i := h.uses
      exact hstop.turn (hw ▸ hlive) hlive'

/-- A caller that has created the thread and does not wait yet finds it at its start. -/
theorem mxMiniTimer.Inv.not_created {u : TimerUsage} (h : s.Inv u) {w : MainPhase}
    (hw : s.mains n = w) (hlive : w.Live) (hne : w ≠ .entering) (j : Nat) :
    s.calls j ≠ .created := by
  intro hj
  cases u with
  | starting cs on =>
    have hstart : s.Starting cs on := h.uses
    obtain ⟨-, k, hk, hm⟩ : on = false ∧ ∃ k, s.mThreadId = some k ∧ s.mains k = .entering :=
      hstart.callOk hj
    obtain rfl : n = k := Option.some.inj ((h.live n (hw ▸ hlive)).symm.trans hk)
    exact hne (hw.symm.trans hm)
  | stopping i =>
    have hstop : s.Stopping i := h.uses
    by_cases hji : j = i
    · subst hji
      obtain ⟨hi, -⟩ | ⟨k, hi, -⟩ | ⟨hi, -⟩ := hstop.here <;> cases hj.symm.trans hi
    · cases hj.symm.trans (hstop.alone j hji)

/-- A statement of the thread.  Whether a start or a stop goes on, the thread is alive before and
    after, and that is all they ask of it. -/
theorem main_step {u : TimerUsage} (h : s.Inv u) {e : TimerEvent} (he : ofThread e = true)
    (hs : s.step e = some s') : s'.Inv u := by
  cases e with
  -- no caller is between `create` and `wait` here, since such a caller holds the mutex
  | mainLock n =>
    obtain ⟨hn, hs⟩ := Option.ite_none_right_eq_some.mp hs
    obtain ⟨m, hm, rfl⟩ := Option.map_eq_some_iff.mp hs
    obtain ⟨howner, rfl⟩ := Monitor.acquire_eq_some.mp hm
    refine h.turn hn ⟨nofun, nofun⟩ ⟨nofun, nofun⟩ (fun j hj => ?_) (fun _ => nofun) ?_
      (.inr ⟨rfl, rfl⟩)
    · cases h.not_free howner hj
    · refine h.guards.enter howner fun t => ?_
      rw [inside_atMain]
      split
      · next ht => simp [ht, MainPhase.inside]
      · next ht => simp [ht]
  -- the signal takes out the one caller there may be
  | mainSignal n woken =>
    obtain ⟨hn, hs⟩ := Option.ite_none_right_eq_some.mp hs
    obtain ⟨m, hm, rfl⟩ := Option.map_eq_some_iff.mp hs
    have hnil : m.owner = s.mMutex.owner ∧ m.waiting = [] := by
      cases woken with
      | none =>
        obtain ⟨hnil, hm⟩ := Option.ite_none_right_eq_some.mp hm
        exact Option.some.inj hm ▸ ⟨rfl, hnil⟩
      | some t =>
        obtain ⟨ht, rfl⟩ := Monitor.wake_eq_some.mp hm
        obtain hnil | ⟨j, k, hwait, -⟩ := h.parked
        · rw [hnil] at ht
          cases ht
        · rw [hwait] at ht
          obtain rfl := List.mem_singleton.mp ht
          exact ⟨rfl, by rw [hwait]; simp⟩
    exact h.turn hn ⟨nofun, nofun⟩ ⟨nofun, nofun⟩ (h.not_created hn ⟨nofun, nofun⟩ nofun)
      (fun _ => nofun)
      ((guards_main h.guards .signalled hn rfl).waiting hnil.1) (.inl hnil.2)
  -- behind the signal nobody is parked
  | mainUnlock n =>
    obtain ⟨hn, hs⟩ := Option.ite_none_right_eq_some.mp hs
    obtain rfl := Option.some.inj hs
    have hid := h.live n (hn ▸ ⟨nofun, nofun⟩)
    refine h.turn hn ⟨nofun, nofun⟩ ⟨nofun, nofun⟩ (h.not_created hn ⟨nofun, nofun⟩ nofun)
      (fun _ => nofun) ?_
      (.inl (h.parked.nil hid hn ⟨nofun, nofun⟩))
    refine h.guards.leave (t := Thread.worker n) (congrArg MainPhase.inside hn) _ fun t => ?_
    rw [inside_atMain]
    split
    · next ht => simp [ht, MainPhase.inside]
    · next ht => simp [ht]
  -- whichever way the loop goes, the thread is alive
  | test n =>
    obtain ⟨hn, hs⟩ := Option.ite_none_right_eq_some.mp hs
    obtain rfl := Option.some.inj hs
    have hid := h.live n (hn ▸ ⟨nofun, nofun⟩)
    have hnil := h.parked.nil hid hn ⟨nofun, nofun⟩
    cases hst : s.mStatus with
    | true =>
      exact h.turn (m := s.mMutex) hn ⟨nofun, nofun⟩ ⟨nofun, nofun⟩
        (h.not_created hn ⟨nofun, nofun⟩ nofun) (fun _ => nofun)
        (guards_main h.guards _ hn rfl) (.inl hnil)
    | false =>
      exact h.turn (m := s.mMutex) hn ⟨nofun, nofun⟩ ⟨nofun, nofun⟩
        (h.not_created hn ⟨nofun, nofun⟩ nofun) (fun hon => by cases hst.symm.trans hon)
        (guards_main h.guards _ hn rfl) (.inl hnil)
  | round n =>
    obtain ⟨⟨hn, -⟩, hs⟩ := Option.ite_none_right_eq_some.mp hs
    obtain rfl := Option.some.inj hs
    have hid := h.live n (hn ▸ ⟨nofun, nofun⟩)
    exact h.turn (m := s.mMutex) hn ⟨nofun, nofun⟩ ⟨nofun, nofun⟩
      (h.not_created hn ⟨nofun, nofun⟩ nofun) (fun _ => nofun)
      (guards_main h.guards _ hn rfl) (.inl (h.parked.nil hid hn ⟨nofun, nofun⟩))
  | _ => cases he

/-- A wake-up without a signal takes nothing but the wait: the caller is on its way back to the
    mutex. -/
theorem wake_step {u : TimerUsage} (h : s.Inv u) (hs : s.step (.wake i) = some s') : s'.Inv u := by
  obtain ⟨m, hm, rfl⟩ := Option.map_eq_some_iff.mp hs
  obtain ⟨hi, rfl⟩ := Monitor.wake_eq_some.mp hm
  have hnil : s.mMutex.waiting.erase (.caller i) = [] := by
    obtain hnil | ⟨j, k, hwait, -⟩ := h.parked
    · rw [hnil]
      rfl
    · rw [hwait] at hi ⊢
      obtain rfl := Thread.caller.inj (List.mem_singleton.mp hi)
      simp
  refine ⟨h.guards.waiting rfl, .inl hnil, h.live, ?_⟩
  cases u with
  | starting cs on =>
    have hstart : s.Starting cs on := h.uses
    exact ⟨hstart.nodup, hstart.busy, fun j => (hstart.calls j).mono rfl id fun _ _ => id,
      hstart.winner, hstart.off, hstart.thread⟩
  | stopping j =>
    have hstop : s.Stopping j := h.uses
    exact ⟨hstop.alone, hstop.status, hstop.here⟩

/-- While it is stopped only the stopping call is at work. -/
theorem mxMiniTimer.Stopping.phase (h : s.Stopping i) {j : Nat} (hj : s.calls j = c) :
    c = .idle ∨ (j = i ∧ (c = .stopping ∨ (∃ n, c = .joining n) ∨ c = .clearing)) := by
  by_cases hji : j = i
  · subst hji
    obtain ⟨hi, -⟩ | ⟨k, hi, -⟩ | ⟨hi, -⟩ := h.here
    · exact .inr ⟨rfl, .inl (hj.symm.trans hi)⟩
    · exact .inr ⟨rfl, .inr (.inl ⟨k, hj.symm.trans hi⟩)⟩
    · exact .inr ⟨rfl, .inr (.inr (hj.symm.trans hi))⟩
  · exact .inl (hj.symm.trans (h.alone j hji))

/-- Nobody calls, and there is no thread. -/
theorem starting_nil (hidle : ∀ j, s.calls j = .idle) (hid : s.mThreadId = none) :
    s.Starting [] false where
  nodup := .nil
  busy j := ⟨nofun, fun h => absurd (hidle j) h⟩
  calls j := by rw [hidle]; trivial
  winner j k hj := by rw [hidle] at hj; cases hj
  off _ := rfl
  thread n hn := by cases hid.symm.trans hn

/-- And when that one is idle, all are. -/
theorem mxMiniTimer.Stopping.rest (h : s.Stopping i) (j : Nat) :
    (s.atCall i .idle).calls j = .idle := by
  show Function.update s.calls i .idle j = .idle
  rw [Function.update_apply]
  split
  · rfl
  · next hj => exact h.alone j hj

/-- Nothing was started. -/
theorem stop_none {j : Nat} (h : s.Inv (.stopping i)) (hs : s.step (.stopNone j) = some s') :
    i = j ∧ s'.Inv (.starting [] false) := by
  have hstop : s.Stopping i := h.uses
  obtain ⟨⟨hj, hid⟩, hs⟩ := Option.ite_none_right_eq_some.mp hs
  obtain rfl := Option.some.inj hs
  obtain hidle | ⟨rfl, -⟩ := hstop.phase hj
  · cases hidle
  · exact ⟨rfl, guards_call (m := s.mMutex) h.guards _ hj rfl,
      h.parked.call (b := s.mStatus) hj (by decide) _, h.live,
      starting_nil hstop.rest hid⟩

/-- The stop waits for the thread. -/
theorem stop_joins {j : Nat} (h : s.Inv (.stopping i)) (hs : s.step (.joinCall j n) = some s') :
    s'.Inv (.stopping i) := by
  have hstop : s.Stopping i := h.uses
  obtain ⟨⟨hj, hid⟩, hs⟩ := Option.ite_none_right_eq_some.mp hs
  obtain rfl := Option.some.inj hs
  obtain hidle | ⟨rfl, -⟩ := hstop.phase hj
  · cases hidle
  · -- `stopTimer` has read an id, and nobody but it joins
    have hlive : (s.mains n).Live := by
      obtain ⟨-, hlive⟩ | ⟨k, hk, -⟩ | ⟨hk, -⟩ := hstop.here
      · exact hlive n hid
      · cases hj.symm.trans hk
      · cases hj.symm.trans hk
    rw [if_neg hlive.2]
    refine ⟨guards_call (m := s.mMutex) h.guards _ hj rfl,
      h.parked.call (b := s.mStatus) hj (by decide) _, h.live, ⟨fun k hk => ?_, hstop.status, ?_⟩⟩
    · exact (Function.update_of_ne hk _ _).trans (hstop.alone k hk)
    · exact .inr (.inl ⟨n, Function.update_self .., hid, hlive⟩)

/-- The thread has ended. -/
theorem stop_joined {j : Nat} (h : s.Inv (.stopping i)) (hs : s.step (.joinReturns j n) = some s') :
    s'.Inv (.stopping i) := by
  have hstop : s.Stopping i := h.uses
  obtain ⟨⟨hj, hn⟩, hs⟩ := Option.ite_none_right_eq_some.mp hs
  obtain rfl := Option.some.inj hs
  obtain hidle | ⟨rfl, -⟩ := hstop.phase hj
  · cases hidle
  · -- the thread that has ended was the only one, so behind the join there is none
    have hid := h.live n (hn ▸ ⟨nofun, nofun⟩)
    have hnone : ∀ k, ¬ (Function.update s.mains n .joined k).Live := by
      intro k hk
      rw [Function.update_apply] at hk
      split at hk
      · exact hk.2 rfl
      · next hkn => exact hkn (Option.some.inj ((h.live k hk).symm.trans hid))
    have hguards := guards_call (m := s.mMutex)
      (guards_main (m := s.mMutex) h.guards .joined hn rfl) .clearing hj rfl
    refine ⟨hguards, .inl (h.parked.nil hid hn ⟨nofun, nofun⟩), fun k hk => absurd hk (hnone k),
      ⟨fun k hk => ?_, hstop.status, ?_⟩⟩
    · exact (Function.update_of_ne hk _ _).trans (hstop.alone k hk)
    · exact .inr (.inr ⟨Function.update_self .., hnone⟩)

/-- The stop returns. -/
theorem stop_returned {j : Nat} (h : s.Inv (.stopping i)) (hs : s.step (.stopReturn j) = some s') :
    i = j ∧ s'.Inv (.starting [] false) := by
  have hstop : s.Stopping i := h.uses
  obtain ⟨hj, hs⟩ := Option.ite_none_right_eq_some.mp hs
  obtain rfl := Option.some.inj hs
  obtain hidle | ⟨rfl, -⟩ := hstop.phase hj
  · cases hidle
  · have hnone : ∀ k, ¬ (s.mains k).Live := by
      obtain ⟨hk, -⟩ | ⟨k, hk, -⟩ | ⟨-, hnone⟩ := hstop.here
      · cases hj.symm.trans hk
      · cases hj.symm.trans hk
      · exact hnone
    have hnil : s.mMutex.waiting = [] := by
      obtain hnil | ⟨k, l, -, -, hl, hm⟩ := h.parked
      · exact hnil
      · refine absurd ?_ (hnone l)
        rcases hm with hm | hm <;> exact hm ▸ ⟨nofun, nofun⟩
    exact ⟨rfl, guards_call (m := s.mMutex) h.guards _ hj rfl, .inl hnil,
      fun k hk => absurd hk (hnone k), starting_nil hstop.rest rfl⟩

/-- **Step lemma**: what the timer does agrees with `timerUsage`, and keeps the invariant. -/
theorem step_inv {u : TimerUsage} (h : s.Inv u) {e : TimerEvent} (hs : s.step e = some s')
    (he : fromCallers e = false ∨ (timerUsage.step u e).isSome) :
    ∃ u', timerUsage.step u e = some u' ∧ s'.Inv u' := by
  cases u with
  | starting cs on =>
    have hstart : s.Starting cs on := h.uses
    -- nobody is in `stopTimer`
    have hno : ∀ {j c}, s.calls j = c → c = .stopping ∨ (∃ n, c = .joining n) ∨ c = .clearing →
      False := by
      rintro j c hj (rfl | ⟨n, rfl⟩ | rfl) <;> exact hstart.callOk hj
    cases e with
    | startCall i => exact ⟨_, rfl, start_called h hs⟩
    | startRefused i => exact ⟨_, if_pos (start_refused h hs).1, (start_refused h hs).2⟩
    | startReturn i => exact ⟨_, if_pos (start_returned h hs).1, (start_returned h hs).2⟩
    | stopCall i =>
      obtain hcaller | hsome := he
      · cases hcaller
      · obtain ⟨u', hu⟩ := Option.isSome_iff_exists.mp hsome
        obtain ⟨rfl, hu⟩ := Option.ite_none_right_eq_some.mp hu
        obtain rfl := Option.some.inj hu
        exact ⟨.stopping i, rfl, stop_called h hs⟩
    | startLock i | check i | enable i | create i | wait i | waitReturns i =>
      exact ⟨_, rfl, start_call h rfl hs⟩
    | stopNone i => exact (hno (Option.ite_none_right_eq_some.mp hs).1.1 (.inl rfl)).elim
    | joinCall i n => exact (hno (Option.ite_none_right_eq_some.mp hs).1.1 (.inl rfl)).elim
    | joinReturns i n =>
      exact (hno (Option.ite_none_right_eq_some.mp hs).1.1 (.inr (.inl ⟨n, rfl⟩))).elim
    | stopReturn i => exact (hno (Option.ite_none_right_eq_some.mp hs).1 (.inr (.inr rfl))).elim
    | wake i => exact ⟨_, rfl, wake_step h hs⟩
    | mainLock n | mainSignal n woken | mainUnlock n | test n | round n =>
      exact ⟨_, rfl, main_step h rfl hs⟩
  | stopping i =>
    have hstop : s.Stopping i := h.uses
    -- nobody is in `startTimer`
    have hno : ∀ {j c}, s.calls j = c → c ≠ .idle → c ≠ .stopping → (∀ n, c ≠ .joining n) →
      c ≠ .clearing → False := by
      intro j c hj h1 h2 h3 h4
      obtain h | ⟨-, h | ⟨n, h⟩ | h⟩ := hstop.phase hj
      · exact h1 h
      · exact h2 h
      · exact h3 n h
      · exact h4 h
    cases e with
    -- a call next to a stop is what `timerUsage` excludes
    | startCall j | stopCall j => simp [fromCallers, timerUsage] at he
    | startLock j | check j | startRefused j | enable j | create j | wait j | waitReturns j
      | startReturn j =>
      exact (hno (Option.ite_none_right_eq_some.mp hs).1 nofun nofun nofun nofun).elim
    | stopNone j => exact ⟨_, if_pos (stop_none h hs).1, (stop_none h hs).2⟩
    | joinCall j n => exact ⟨_, rfl, stop_joins h hs⟩
    | joinReturns j n => exact ⟨_, rfl, stop_joined h hs⟩
    | stopReturn j => exact ⟨_, if_pos (stop_returned h hs).1, (stop_returned h hs).2⟩
    | wake j => exact ⟨_, rfl, wake_step h hs⟩
    | mainLock n | mainSignal n woken | mainUnlock n | test n | round n =>
      exact ⟨_, rfl, main_step h rfl hs⟩

/-! ## Runs

  The system runs in step with its callers' protocol: an event that the protocol does not allow does
  not happen, and everything else, wake-ups without a reason included, does in any order. -/

/-- A new timer is off. -/
theorem new_inv : mxMiniTimer.new.Inv (.starting [] false) where
  guards t := by cases t <;> exact ⟨nofun, nofun⟩
  parked := .inl rfl
  live n hn := absurd rfl hn.1
  uses := starting_nil (fun _ => rfl) rfl

/-- **Run lemma**: every reachable state meets the invariant. -/
theorem reachable_inv {x : mxMiniTimer × TimerUsage}
    (h : (timerThreadSys.sync timerUsage).Reachable x) : x.1.Inv x.2 := by
  refine TransSys.Runs.invariant (I := fun x => x.1.Inv x.2) new_inv ?_ h
  intro x e x' hi hs _
  obtain ⟨hs, hu⟩ := TransSys.sync_step.mp hs
  obtain ⟨u', hu', hi'⟩ := step_inv hi hs (.inr (by rw [hu]; rfl))
  exact Option.some.inj (hu'.symm.trans hu) ▸ hi'

/-- **The timer and its callers**, any number of them in `startTimer`, in any order of steps and
    with any wake-ups. -/
theorem timer_life {u : TimerUsage} (h : (timerThreadSys.sync timerUsage).Reachable (s, u)) :
    (∀ i, s.calls i ≠ .undefined) ∧ (∀ k n, (s.mains k).Live → (s.mains n).Live → k = n) ∧
    (u = .starting [] false → ∀ n, ¬ (s.mains n).Live) ∧
    (∀ cs, u = .starting cs true → s.mStatus = true ∧ ∃ n, s.mThreadId = some n ∧ (s.mains n).Live ∧
      s.mains n ≠ .ended) ∧
    (∀ i, .caller i ∈ s.mMutex.waiting → ∃ n, s.mThreadId = some n ∧
      (s.mains n = .entering ∨ s.mains n = .entered)) ∧
    (∀ e s', fromCallers e = false → s.step e = some s' → (timerUsage.step u e).isSome) := by
  have hinv := reachable_inv h
  refine ⟨fun i hi => ?_, fun k n hk hn =>
    Option.some.inj ((hinv.live k hk).symm.trans (hinv.live n hn)), ?_, ?_, fun i hi => ?_,
    fun e s' he hs => ?_⟩
  · cases u with
    | starting cs on =>
      have hstart : s.Starting cs on := hinv.uses
      exact hstart.callOk hi
    | stopping j =>
      have hstop : s.Stopping j := hinv.uses
      obtain h | ⟨-, h | ⟨n, h⟩ | h⟩ := hstop.phase hi <;> cases h
  · -- a live thread has an id, and then a start has returned or has a winner
    rintro rfl n hn
    have hstart : s.Starting [] false := hinv.uses
    obtain ⟨-, -, -, hon | ⟨j, hj⟩⟩ := hstart.thread n (hinv.live n hn)
    · cases hon
    · cases (hstart.busy j).mpr fun hidle => by rw [hidle] at hj; cases hj
  · rintro cs rfl
    have hstart : s.Starting cs true := hinv.uses
    obtain ⟨n, hn⟩ := Option.ne_none_iff_exists'.mp fun hnone => by cases hstart.off hnone
    obtain ⟨hst, hlive, hend, -⟩ := hstart.thread n hn
    exact ⟨hst, n, hn, hlive, hend⟩
  · obtain hnil | ⟨j, n, -, -, hid, hn⟩ := hinv.parked
    · rw [hnil] at hi
      cases hi
    · exact ⟨n, hid, hn⟩
  · obtain ⟨u', hu', -⟩ := step_inv hinv hs (.inl he)
    exact hu' ▸ rfl

/-- Two callers at once: the second is refused while the first waits. -/
def twoCalls : List TimerEvent :=
  [.startCall 0, .startCall 1, .startLock 0, .check 0, .enable 0, .create 0, .wait 0, .startLock 1,
    .check 1, .startRefused 1]

/-- Where they lead: the first caller waits for the signal. -/
def parkedTimer : mxMiniTimer × TimerUsage :=
  ((timerThreadSys.sync timerUsage).exec (timerThreadSys.sync timerUsage).init twoCalls).get
    (by decide)

/-- They are a run of the timer. -/
theorem twoCalls_runs :
    (timerThreadSys.sync timerUsage).exec (timerThreadSys.sync timerUsage).init twoCalls =
      some parkedTimer := by
  rw [parkedTimer, Option.some_get]

/-- And what the theorem says behind it. -/
theorem timer_life_twoCalls :
    (∀ i, parkedTimer.1.calls i ≠ .undefined) ∧
    (∀ k n, (parkedTimer.1.mains k).Live → (parkedTimer.1.mains n).Live → k = n) ∧
    (parkedTimer.2 = .starting [] false → ∀ n, ¬ (parkedTimer.1.mains n).Live) ∧
    (∀ cs, parkedTimer.2 = .starting cs true →
      parkedTimer.1.mStatus = true ∧ ∃ n, parkedTimer.1.mThreadId = some n ∧
      (parkedTimer.1.mains n).Live ∧ parkedTimer.1.mains n ≠ .ended) ∧
    (∀ i, .caller i ∈ parkedTimer.1.mMutex.waiting →
      ∃ n, parkedTimer.1.mThreadId = some n ∧
      (parkedTimer.1.mains n = .entering ∨ parkedTimer.1.mains n = .entered)) ∧
    (∀ e s', fromCallers e = false → parkedTimer.1.step e = some s' →
      (timerUsage.step parkedTimer.2 e).isSome) :=
  timer_life (TransSys.Reachable.exec .init twoCalls twoCalls_runs)

end Steps

end TimerThread

end StevenProgram
