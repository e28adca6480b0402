/-
  Whether the two engines dispatch alike.

  What is registered, a descriptor with its events, is an abstract state of its own (`registry`),
  and both engines hold it: the epoll engine in the kernel (`interest_eq`), the select engine in its
  sets (`Sets`). They do not report it alike.  `addEvent` and `modEvent` of the epoll engine leave
  `data.fd` at 0, so that all its calls are made for descriptor 0; it watches errors for an empty
  set of events, which the select engine does not; and the select engine looks no further than
  `mMaxFd`, which only `addEvent` raises.

  1. **Registrations** — `registry`.
  2. **epoll** — `epoll_calls_iff`.
  3. **select** — what a call does (`exec_total`), and `select_calls`; the loop stops early only
     when nothing is left.
  4. **Both** — `dispatch_alike_iff`.
-/
import Mathlib.Data.List.Induction
import StevenProgram.Lib.TransSys
import StevenProgram.Net.Engines

namespace StevenProgram

namespace Engine

/-! ## Registrations

  The histories that count are the legal ones: a call that adds what is there, or changes what is
  not, is no step of `registry`. -/

/-- The events of each registered descriptor. -/
abbrev Registry : Type := Fd → Option UInt8

/-- A descriptor is added when it is not registered, and modified or removed when it is. -/
def registry : TransSys Registry EngineOp where
  init _ := none
  step reg
    | .addEvent fd event =>
        if (reg fd).isNone then some fun n => if n = fd then some event else reg n else none
    | .modEvent fd event =>
        if (reg fd).isSome then some fun n => if n = fd then some event else reg n else none
    | .remEvent fd => if (reg fd).isSome then some fun n => if n = fd then none else reg n else none

/-- What a call does to the registrations. -/
theorem registry_cases {reg reg' : Registry} {op : EngineOp}
    (hs : registry.step reg op = some reg') :
    (∃ fd event, op = .addEvent fd event ∧ reg fd = none ∧
      reg' = fun n => if n = fd then some event else reg n) ∨
    (∃ fd event, op = .modEvent fd event ∧ (reg fd).isSome = true ∧
      reg' = fun n => if n = fd then some event else reg n) ∨
    ∃ fd, op = .remEvent fd ∧ (reg fd).isSome = true ∧
      reg' = fun n => if n = fd then none else reg n := by
  cases op with
  | addEvent fd event =>
    have hs : (if (reg fd).isNone then _ else _) = some reg' := hs
    split at hs
    · next hnone =>
        exact .inl ⟨fd, event, rfl, Option.isNone_iff_eq_none.mp hnone, (Option.some.inj hs).symm⟩
    · cases hs
  | modEvent fd event =>
    have hs : (if (reg fd).isSome then _ else _) = some reg' := hs
    split at hs
    · next hsome => exact .inr (.inl ⟨fd, event, rfl, hsome, (Option.some.inj hs).symm⟩)
    · cases hs
  | remEvent fd =>
    have hs : (if (reg fd).isSome then _ else _) = some reg' := hs
    split at hs
    · next hsome => exact .inr (.inr ⟨fd, rfl, hsome, (Option.some.inj hs).symm⟩)
    · cases hs

/-- What a registration asks for. -/
def asks (event : UInt8) : Event → Bool
  | .read => event &&& EVENT_READ != 0
  | .write => event &&& EVENT_WRITE != 0
  | .error => event != 0

/-- What the epoll engine watches for a registration. -/
def watches (event : UInt8) : Event → Bool
  | .error => true
  | ev => asks event ev

/-- What is asked for is watched. -/
theorem watches_of_asks {event : UInt8} {ev : Event} (h : asks event ev = true) :
    watches event ev = true := by
  cases ev with
  | error => rfl
  | _ => exact h

/-- And what is watched was asked for, where anything was. -/
theorem asks_of_watches {event : UInt8} {ev : Event} (h : watches event ev = true)
    (hne : event ≠ 0) : asks event ev = true := by
  cases ev with
  | error => exact bne_iff_ne.mpr hne
  | _ => exact h

/-- A registration that asks for something is not empty. -/
theorem ne_zero_of_asks {event : UInt8} {ev : Event} (h : asks event ev = true) : event ≠ 0 := by
  rintro rfl
  cases ev <;> cases h

/-! ## epoll

  The kernel holds what `epoll_ctl` has been told.  The events come back with the data they were
  registered with, and that is where the descriptor should be. -/

section Epoll

variable {ops : List EngineOp} {reg : Registry} {ready : Readiness} {events : List EpollEvent}

/-- **Step lemma**: the kernel has the registrations. -/
theorem interest_step {e : mxEngineEpoll} {reg' : Registry} {op : EngineOp}
    (h : ∀ fd, e.interest.lookup fd = (reg fd).map mxEngineEpoll.eventOf)
    (hs : registry.step reg op = some reg') (fd : Fd) :
    (e.exec op).2.interest.lookup fd = (reg' fd).map mxEngineEpoll.eventOf := by
  have hin : ∀ fd, (e.interest.lookup fd).isSome = (reg fd).isSome :=
    fun fd => by rw [h, Option.isSome_map]
  have hinsert : ∀ fd0 event, (e.interest.insert fd0 (mxEngineEpoll.eventOf event)).lookup fd =
      (if fd = fd0 then some event else reg fd).map mxEngineEpoll.eventOf := by
    intro fd0 event
    by_cases hfd : fd = fd0
    · rw [if_pos hfd, hfd, AList.lookup_insert]
      rfl
    · rw [if_neg hfd, AList.lookup_insert_ne hfd, h]
  rcases registry_cases hs with ⟨fd0, event, rfl, hnone, rfl⟩ | ⟨fd0, event, rfl, hsome,
    rfl⟩ | ⟨fd0, rfl, hsome, rfl⟩
  · have hnot : ¬ (e.interest.lookup fd0).isSome = true := by
      rw [hin, hnone]
      exact Bool.false_ne_true
    rw [mxEngineEpoll.exec, mxEngineEpoll.addEvent, mxEngineEpoll.epollCtlAdd, if_neg hnot]
    exact hinsert fd0 event
  · rw [mxEngineEpoll.exec, mxEngineEpoll.modEvent, mxEngineEpoll.epollCtlMod,
      if_pos ((hin fd0).trans hsome)]
    exact hinsert fd0 event
  · rw [mxEngineEpoll.exec, mxEngineEpoll.remEvent, mxEngineEpoll.epollCtlDel,
      if_pos ((hin fd0).trans hsome)]
    show (e.interest.erase fd0).lookup fd =
      (if fd = fd0 then none else reg fd).map mxEngineEpoll.eventOf
    by_cases hfd : fd = fd0
    · rw [if_pos hfd, hfd, AList.lookup_erase]
      rfl
    · rw [if_neg hfd, AList.lookup_erase_ne hfd, h]

/-- **The interest list is the registry**, descriptor by descriptor, by induction on the calls. -/
theorem interest_eq (h : registry.Trace (fun _ _ _ => True) ops reg) (fd : Fd) :
    (mxEngineEpoll.run ops).interest.lookup fd = (reg fd).map mxEngineEpoll.eventOf := by
  induction h generalizing fd with
  | init => rfl
  | step _ hs _ ih =>
    rw [mxEngineEpoll.run, List.foldl_append]
    exact interest_step ih hs fd

/-- The bit of the events. -/
def bit : Event → UInt32
  | .read => EPOLLIN
  | .write => EPOLLOUT
  | .error => EPOLLERR

/-- Which events are reported of a descriptor. -/
theorem bit_pending (event : UInt8) (ready : Event → Bool) (ev : Event) :
    ((mxEngineEpoll.eventOf event).events &&& mxEngineEpoll.readyBits ready) &&& bit ev ≠ 0 ↔
      watches event ev = true ∧ ready ev = true := by
  have hevents : (mxEngineEpoll.eventOf event).events =
      EPOLLERR ||| (if asks event .read then EPOLLIN else 0) |||
        (if asks event .write then EPOLLOUT else 0) := by
    simp only [mxEngineEpoll.eventOf, asks, bne_iff_ne]
    split <;> split <;> rfl
  rw [hevents, mxEngineEpoll.readyBits]
  cases ev with
  | read =>
    show _ ↔ asks event .read = true ∧ ready .read = true
    cases asks event .read <;> cases asks event .write <;> cases ready .read <;>
      cases ready .write <;> cases ready .error <;> decide
  | write =>
    show _ ↔ asks event .write = true ∧ ready .write = true
    cases asks event .read <;> cases asks event .write <;> cases ready .read <;>
      cases ready .write <;> cases ready .error <;> decide
  | error =>
    show _ ↔ true = true ∧ ready .error = true
    cases asks event .read <;> cases asks event .write <;> cases ready .read <;>
      cases ready .write <;> cases ready .error <;> decide

/-- The data of an event is left empty by `addEvent`. -/
theorem eventOf_fd (event : UInt8) : (mxEngineEpoll.eventOf event).fd = 0 := by
  simp only [mxEngineEpoll.eventOf]
  split <;> split <;> rfl

/-- A handler is called for each bit of each event reported. -/
theorem mem_service {c : HandlerCall} : c ∈ mxEngineEpoll.service events ↔ ∃ ev ∈ events,
    ev.events &&& bit c.event ≠ 0 ∧ c.fd = ev.fd := by
  obtain ⟨event, fd⟩ := c
  rw [mxEngineEpoll.service, List.mem_flatMap]
  refine exists_congr fun ev => and_congr_right fun _ => ?_
  cases event <;> simp [bit]

/-- **All calls of the epoll engine are made for descriptor 0.** -/
theorem epoll_calls_iff (h : registry.Trace (fun _ _ _ => True) ops reg)
    (hfew : ((mxEngineEpoll.run ops).pending ready).length ≤ MAX_EVENTS_PER_TRIGGERING)
    (hwait : (mxEngineEpoll.run ops).EpollWait ready events) {c : HandlerCall} :
    c ∈ mxEngineEpoll.service events ↔
      c.fd = 0 ∧ ∃ fd event, reg fd = some event ∧ watches event c.event = true ∧
      ready fd c.event = true := by
  obtain ⟨all, hperm, rfl⟩ := hwait
  rw [List.take_of_length_le (hperm.length_eq ▸ hfew), mem_service]
  constructor
  · rintro ⟨ev, hev, hbit, hfd⟩
    obtain ⟨⟨fd, entry⟩, hentry, hpending⟩ := List.mem_filterMap.mp (hperm.mem_iff.mp hev)
    have hlookup := interest_eq h fd
    rw [AList.mem_lookup_iff.mpr hentry] at hlookup
    obtain ⟨event, hreg, rfl⟩ := Option.map_eq_some_iff.mp hlookup.symm
    have hpending : (if _ then some _ else none) = some ev := hpending
    split at hpending
    · obtain rfl := Option.some.inj hpending
      exact ⟨hfd.trans (eventOf_fd event), fd, event, hreg,
        (bit_pending event (ready fd) c.event).mp hbit⟩
    · cases hpending
  · rintro ⟨hfd, fd, event, hreg, hwatch⟩
    have hbit := (bit_pending event (ready fd) c.event).mpr hwatch
    have hlookup := interest_eq h fd
    rw [hreg] at hlookup
    have hentry := AList.mem_lookup_iff.mp hlookup
    refine ⟨_, hperm.mem_iff.mpr (List.mem_filterMap.mpr ⟨_, hentry, if_pos ?_⟩), hbit,
      hfd.trans (eventOf_fd event).symm⟩
    intro hzero
    rw [hzero] at hbit
    exact hbit (UInt32.zero_and)

end Epoll

/-! ## select

  The sets are read by the kernel and by the loop; a descriptor beyond `FD_SETSIZE` is a write
  outside of them, on either side. -/

/-- The set for an event. -/
def mxEngineSelect.set (s : mxEngineSelect) : Event → FdSet
  | .read => s.mRdFds
  | .write => s.mWrFds
  | .error => s.mExFds

/-- The sets hold what is asked for. -/
structure Sets (s : mxEngineSelect) (reg : Registry) : Prop where
  asked : ∀ ev fd, s.set ev fd = (reg fd).any fun event => asks event ev
  lo : -1 ≤ s.mMaxFd
  hi : s.mMaxFd < FD_SETSIZE

section Select

variable {ops : List EngineOp} {reg reg' : Registry} {ready : Readiness} {s : mxEngineSelect}

/-- A descriptor in range is set in the sets it asks for. -/
theorem setFds_eq {fd : Fd} (hfd : fd < FD_SETSIZE) (event : UInt8) :
    ∃ s', s.setFds fd event = .ok s' ∧
    (∀ ev n, s'.set ev n = if n = fd then asks event ev else s.set ev n) ∧
    s'.mMaxFd = s.mMaxFd := by
  have hput :
    ∀ (set : FdSet) (cond : Bool), setIf cond fd (fun n => if n = fd then false else set n) =
      .ok fun n => if n = fd then cond else set n := by
    intro set cond
    cases cond with
    | false => rfl
    | true =>
      rw [setIf, if_pos rfl, FD_SET, if_pos hfd]
      congr 1
      funext n
      split <;> rfl
  rw [mxEngineSelect.setFds]
  simp only [FD_CLR, if_pos hfd, Run.ok_bind, hput]
  refine ⟨_, rfl, fun ev n => ?_, rfl⟩
  cases ev <;> rfl

/-- One that is not is outside the sets. -/
theorem setFds_bound {fd : Fd} {event : UInt8} {s' : mxEngineSelect}
    (h : s.setFds fd event = .ok s') : fd < FD_SETSIZE := by
  by_cases hfd : fd < FD_SETSIZE
  · exact hfd
  · rw [mxEngineSelect.setFds] at h
    simp only [FD_CLR, if_neg hfd] at h
    cases h

/-- The search for the highest descriptor ends in range. -/
theorem lowerMaxFd_spec (ex : FdSet) :
    ∀ fd, fd < FD_SETSIZE → ∃ m, mxEngineSelect.lowerMaxFd ex fd = .ok m ∧ -1 ≤ m ∧
    m < FD_SETSIZE := by
  intro fd
  induction fd with
  | zero => exact fun _ => ⟨-1, rfl, by omega, by omega⟩
  | succ fd ih =>
    intro hfd
    have hlt : fd < FD_SETSIZE := Nat.lt_of_succ_lt hfd
    rw [mxEngineSelect.lowerMaxFd]
    split
    · rw [FD_ISSET, if_pos hlt, Run.ok_bind]
      split
      · exact ⟨fd, rfl, by omega, Int.ofNat_lt.mpr hlt⟩
      · exact ih hlt
    · exact ⟨0, rfl, by omega, by omega⟩

/-- Where a call leaves the maximum. -/
inductive MaxAfter (s : mxEngineSelect) (ex : FdSet) : EngineOp → Int → Prop
  | added {fd : Fd} {event : UInt8} (hevent : event ≠ 0) :
  MaxAfter s ex (.addEvent fd event) (max fd s.mMaxFd)
  | paused {fd : Fd} : MaxAfter s ex (.addEvent fd 0) s.mMaxFd
  | modified {fd : Fd} {event : UInt8} : MaxAfter s ex (.modEvent fd event) s.mMaxFd
  | lowered {fd : Fd} {m : Int} (hfd : (fd : Int) = s.mMaxFd)
    (hscan : mxEngineSelect.lowerMaxFd ex fd = .ok m) :
      MaxAfter s ex (.remEvent fd) m
  | kept {fd : Fd} (hfd : (fd : Int) ≠ s.mMaxFd) : MaxAfter s ex (.remEvent fd) s.mMaxFd

/-- What a call asks for its descriptor. -/
def EngineOp.asked : EngineOp → Event → Bool
  | .addEvent _ event | .modEvent _ event => asks event
  | .remEvent _ => fun _ => false

/-- **A call on a descriptor that fits returns**: only the bits of its descriptor change. -/
theorem exec_total (s : mxEngineSelect) {op : EngineOp} (hfd : op.fd < FD_SETSIZE) :
    ∃ s', s.exec op = .ok (0, s') ∧
    (∀ ev n, s'.set ev n = if n = op.fd then op.asked ev else s.set ev n) ∧
    MaxAfter s s'.mExFds op s'.mMaxFd := by
  cases op with
  | addEvent fd event =>
    obtain ⟨s1, hset, hbits, hmax⟩ := setFds_eq (s := s) (show fd < FD_SETSIZE from hfd) event
    simp only [mxEngineSelect.exec, mxEngineSelect.addEvent, hset, Run.ok_bind]
    by_cases hevent : event ≠ 0
    · rw [if_pos hevent]
      refine ⟨_, rfl, fun ev n => ?_, ?_⟩
      · have hbit := hbits ev n
        cases ev <;> exact hbit
      · have hraise :
          (if (fd : Int) > s1.mMaxFd then (fd : Int) else s1.mMaxFd) = max (fd : Int) s.mMaxFd := by
          rw [hmax]
          omega
        show MaxAfter s _ _ (if (fd : Int) > s1.mMaxFd then (fd : Int) else s1.mMaxFd)
        rw [hraise]
        exact .added hevent
    · rw [if_neg hevent]
      obtain rfl := Decidable.not_not.mp hevent
      exact ⟨s1, rfl, hbits, hmax ▸ .paused⟩
  | modEvent fd event =>
    obtain ⟨s1, hset, hbits, hmax⟩ := setFds_eq (s := s) (show fd < FD_SETSIZE from hfd) event
    refine ⟨s1, ?_, hbits, hmax ▸ .modified⟩
    rw [mxEngineSelect.exec, mxEngineSelect.modEvent, hset]
    rfl
  -- the maximum is lowered only where it was the descriptor's
  | remEvent fd =>
    have hfd : fd < FD_SETSIZE := hfd
    simp only [mxEngineSelect.exec, mxEngineSelect.remEvent, FD_CLR, if_pos hfd, Run.ok_bind]
    by_cases hmax : (fd : Int) = s.mMaxFd
    · rw [if_pos hmax]
      obtain ⟨m, hscan, -⟩ := lowerMaxFd_spec (fun n => if n = fd then false else s.mExFds n) fd hfd
      rw [hscan]
      refine ⟨_, rfl, fun ev n => ?_, .lowered hmax hscan⟩
      cases ev <;> rfl
    · rw [if_neg hmax]
      refine ⟨_, rfl, fun ev n => ?_, .kept hmax⟩
      cases ev <;> rfl

/-- So the highest descriptor stays in range. -/
theorem MaxAfter.bounds {ex : FdSet} {op : EngineOp} {m : Int} (h : MaxAfter s ex op m)
    (hfd : op.fd < FD_SETSIZE)
    (hlo : -1 ≤ s.mMaxFd) (hhi : s.mMaxFd < FD_SETSIZE) : -1 ≤ m ∧ m < FD_SETSIZE := by
  cases h with
  | @added fd event _ =>
    have hfd : fd < FD_SETSIZE := hfd
    exact ⟨Int.le_trans hlo (Int.le_max_right _ _), Int.max_lt.mpr ⟨Int.ofNat_lt.mpr hfd, hhi⟩⟩
  | paused => exact ⟨hlo, hhi⟩
  | modified => exact ⟨hlo, hhi⟩
  | @lowered fd m _ hscan =>
    obtain ⟨m', hscan', hbounds⟩ := lowerMaxFd_spec ex fd hfd
    obtain rfl : m' = m := Except.ok.inj (hscan'.symm.trans hscan)
    exact hbounds
  | kept => exact ⟨hlo, hhi⟩

/-- A registration asks for what its call asks for. -/
theorem registry_asked {op : EngineOp} (hs : registry.step reg op = some reg') (ev : Event)
    (n : Fd) :
    ((reg' n).any fun event => asks event ev) =
      if n = op.fd then op.asked ev else (reg n).any fun event => asks event ev := by
  rcases registry_cases hs with
    ⟨fd, event, rfl, -, rfl⟩ | ⟨fd, event, rfl, -, rfl⟩ | ⟨fd, rfl, -, rfl⟩
  all_goals
    show Option.any _ (if n = fd then _ else reg n) = if n = fd then _ else _
    split <;> rfl

/-- A call on a descriptor that fits. -/
theorem sets_step (h : Sets s reg) {op : EngineOp} (hfd : op.fd < FD_SETSIZE)
    (hs : registry.step reg op = some reg') :
    ∃ r, s.exec op = .ok r ∧ Sets r.2 reg' := by
  obtain ⟨s', hexec, hbits, hmax⟩ := exec_total s hfd
  obtain ⟨hlo, hhi⟩ := hmax.bounds hfd h.lo h.hi
  refine ⟨_, hexec, ?_, hlo, hhi⟩
  intro ev n
  rw [registry_asked hs, ← h.asked]
  exact hbits ev n

/-- An operation that returns is on a descriptor in range. -/
theorem exec_bound {op : EngineOp} {r : Int32 × mxEngineSelect} (h : s.exec op = .ok r) :
    op.fd < FD_SETSIZE := by
  cases op with
  | addEvent fd event =>
    obtain ⟨s', hset, -⟩ := Run.bind_ok.mp h
    exact setFds_bound hset
  | modEvent fd event =>
    obtain ⟨s', hset, -⟩ := Run.bind_ok.mp h
    exact setFds_bound hset
  | remEvent fd =>
    obtain ⟨rd, hclr, -⟩ := Run.bind_ok.mp h
    by_cases hfd : fd < FD_SETSIZE
    · exact hfd
    · rw [FD_CLR, if_neg hfd] at hclr
      cases hclr

/-- A run with one operation more. -/
theorem run_append_iff {op : EngineOp} : mxEngineSelect.run (ops ++ [op]) = .ok s ↔
    ∃ s1 r, mxEngineSelect.run ops = .ok s1 ∧ s1.exec op = .ok r ∧ r.2 = s := by
  rw [mxEngineSelect.run, List.foldlM_append, Run.bind_ok]
  refine exists_congr fun s1 => ?_
  rw [List.foldlM_cons, mxEngineSelect.run]
  constructor
  · rintro ⟨hrun, hstep⟩
    obtain ⟨s2, hs2, hpure⟩ := Run.bind_ok.mp hstep
    obtain ⟨r, hexec, hr⟩ := Run.bind_ok.mp hs2
    exact ⟨r, hrun, hexec, (Except.ok.inj hr).trans (Except.ok.inj hpure)⟩
  · rintro ⟨r, hrun, hexec, rfl⟩
    refine ⟨hrun, ?_⟩
    rw [hexec]
    rfl

/-- **The select engine holds the registrations** if they fit into its sets, by induction on the
    calls. -/
theorem run_sets (h : registry.Trace (fun _ _ _ => True) ops reg)
    (hfd : ∀ op ∈ ops, op.fd < FD_SETSIZE) :
    ∃ s, mxEngineSelect.run ops = .ok s ∧ Sets s reg := by
  induction h with
  | init =>
    refine ⟨_, rfl, fun ev fd => ?_, by decide, by decide⟩
    cases ev <;> rfl
  | step _ hs _ ih =>
    obtain ⟨s, hrun, hsets⟩ := ih fun op hop => hfd op (List.mem_append_left _ hop)
    obtain ⟨r, hexec, hsets'⟩ := sets_step hsets
      (hfd _ (List.mem_append_right _ (List.mem_singleton_self _))) hs
    exact ⟨r.2, run_append_iff.mpr ⟨s, r, hrun, hexec, rfl⟩, hsets'⟩

/-- A descriptor that does not fit is written outside of them. -/
theorem run_bound : ∀ {ops : List EngineOp} {s : mxEngineSelect}, mxEngineSelect.run ops = .ok s →
    ∀ op ∈ ops, op.fd < FD_SETSIZE := by
  intro ops
  induction ops using List.reverseRecOn with
  | nil => nofun
  | append_singleton ops a ih =>
    intro s h op hop
    obtain ⟨s1, r, hrun, hexec, -⟩ := run_append_iff.mp h
    rcases List.mem_append.mp hop with hop | hop
    · exact ih hrun op hop
    · exact List.mem_singleton.mp hop ▸ exec_bound hexec

/-- How many bits are set for a descriptor. -/
def bits (set : Event → FdSet) (n : Fd) : Nat :=
  (set .read n).toNat + (set .write n).toNat + (set .error n).toNat

/-- No bits, no event. -/
theorem bits_eq_zero {set : Event → FdSet} {n : Fd} (h : bits set n = 0) (ev : Event) :
    set ev n = false := by
  rw [bits] at h
  cases hev : set ev n with
  | false => rfl
  | true =>
    cases ev <;> rw [hev, Bool.toNat_true] at h <;> omega

/-- The calls for one descriptor. -/
def callsFor (set : Event → FdSet) (n : Fd) : List HandlerCall :=
  (if set .read n then [⟨.read, n⟩] else []) ++ (if set .write n then [⟨.write, n⟩] else []) ++
    (if set .error n then [⟨.error, n⟩] else [])

/-- How often a handler is called for a descriptor. -/
theorem count_callsFor (set : Event → FdSet) (n : Nat) (ev : Event) (fd : Nat) :
    (callsFor set n).count ⟨ev, fd⟩ = if fd = n then (set ev n).toNat else 0 := by
  have hone : ∀ e, (if set e n then [(⟨e, n⟩ : HandlerCall)] else []).count ⟨ev, fd⟩ =
      if fd = n ∧ ev = e then (set e n).toNat else 0 := by
    intro e
    cases set e n with
    | false => simp
    | true =>
      rw [if_pos rfl, List.count_singleton]
      by_cases heq : fd = n ∧ ev = e
      · rw [if_pos heq, heq.1, heq.2]
        simp
      · have hne : (⟨e, n⟩ : HandlerCall) ≠ ⟨ev, fd⟩ := by
          intro h
          obtain ⟨rfl, rfl⟩ := HandlerCall.mk.inj h
          exact heq ⟨rfl, rfl⟩
        rw [if_neg heq, beq_eq_false_iff_ne.mpr hne]
        rfl
  rw [callsFor, List.count_append, List.count_append, hone, hone, hone]
  cases ev <;> simp

/-- An event is a bit. -/
theorem bits_pos {set : Event → FdSet} {n : Nat}
    (h : (set .read n || set .write n || set .error n) = true) : 0 < bits set n := by
  apply Nat.pos_of_ne_zero
  intro h0
  rw [bits_eq_zero h0, bits_eq_zero h0, bits_eq_zero h0] at h
  cases h

/-- Nothing to count, nothing set. -/
theorem no_bits_left {set : Event → FdSet} {left n fd : Nat} {ev : Event}
    (h : ((List.range' n left).map (bits set)).sum = 0) (hrange : n ≤ fd ∧ fd < n + left) :
    set ev fd = false := by
  have hzero := List.sum_eq_zero_iff_forall_eq_nat.mp h
  apply bits_eq_zero
  exact hzero (bits set fd) (List.mem_map_of_mem (List.mem_range'_1.mpr hrange))

/-- **The loop makes each call of every descriptor once**: it goes on while bits are left.  By
    induction on the descriptors to come. -/
theorem dispatch_count (set : Event → FdSet) : ∀ (left n nfds : Nat), n + left ≤ FD_SETSIZE →
    ((List.range' n left).map (bits set)).sum ≤ nfds →
    ∃ calls, mxEngineSelect.dispatch (set .read) (set .write) (set .error) left n nfds = .ok calls ∧
      ∀ (ev : Event) (fd : Nat), calls.count ⟨ev, fd⟩ = if n ≤ fd ∧ fd < n + left then
        (set ev fd).toNat else 0 := by
  intro left
  induction left with
  | zero =>
    intro n nfds _ _
    refine ⟨[], rfl, ?_⟩
    intro ev fd
    rw [List.count_nil, if_neg (by omega)]
  | succ left ih =>
    intro n nfds hn hsum
    rw [mxEngineSelect.dispatch]
    by_cases hnfds : nfds > 0
    · rw [if_pos hnfds]
      have hlt : n < FD_SETSIZE := by omega
      rw [List.range'_succ, List.map_cons, List.sum_cons] at hsum
      have hrest : ((List.range' (n + 1) left).map (bits set)).sum ≤
          if set .read n || set .write n || set .error n then nfds - 1 else nfds := by
        split
        · next hset =>
          have hpos := bits_pos hset
          omega
        · omega
      obtain ⟨rest, hrun, hcount⟩ := ih (n + 1) _ (by omega) hrest
      simp only [FD_ISSET, if_pos hlt, Run.ok_bind, hrun]
      refine ⟨callsFor set n ++ rest, rfl, ?_⟩
      intro ev fd
      rw [List.count_append, count_callsFor, hcount]
      -- the descriptor is `n`, or one behind it
      by_cases hfd : fd = n
      · rw [if_pos hfd, if_neg (by omega), if_pos (by omega), hfd, Nat.add_zero]
      · have hrange : (n + 1 ≤ fd ∧ fd < n + 1 + left) ↔ (n ≤ fd ∧ fd < n + (left + 1)) := by omega
        rw [if_neg hfd, if_congr hrange rfl rfl, Nat.zero_add]
    · rw [if_neg hnfds]
      refine ⟨[], rfl, ?_⟩
      intro ev fd
      rw [List.count_nil]
      split
      · next hrange =>
        -- no bits are left
        have hzero : ((List.range' n (left + 1)).map (bits set)).sum = 0 := by omega
        rw [no_bits_left hzero hrange]
        rfl
      · rfl

variable (s) in
/-- What `select` leaves of the set for an event. -/
def selected (ready : Readiness) (ev : Event) : FdSet :=
  mxEngineSelect.select (s.mMaxFd + 1).toNat (s.set ev) fun fd => ready fd ev

/-- **A round of the select engine** makes each call that is ready once, whatever the sets hold. -/
theorem service_count (hlo : -1 ≤ s.mMaxFd) (hhi : s.mMaxFd < FD_SETSIZE) (ready : Readiness) :
    ∃ calls, s.service ready = .ok calls ∧ ∀ ev fd, calls.count
      ⟨ev, fd⟩ = (selected s ready ev fd).toNat := by
  rcases Int.lt_or_le s.mMaxFd 0 with hneg | hpos
  · -- nothing is waited for
    have hmax : s.mMaxFd = -1 := by omega
    refine ⟨[], ?_, ?_⟩
    · rw [mxEngineSelect.service, hmax]
      rfl
    · intro ev fd
      rw [List.count_nil, selected, hmax]
      rfl
  · obtain ⟨m, hm⟩ := Int.eq_ofNat_of_zero_le hpos
    have hlt : m < FD_SETSIZE := by
      rw [hm] at hhi
      exact Int.ofNat_lt.mp hhi
    have hnfds : (s.mMaxFd + 1).toNat = m + 1 := by omega
    have hleft : (s.mMaxFd % 4294967296).toNat + 1 = m + 1 := by
      have hm32 : m < 4294967296 := Nat.lt_trans hlt (by decide)
      omega
    obtain ⟨calls, hrun, hcount⟩ := dispatch_count (selected s ready) (m + 1) 0
      (mxEngineSelect.selectCount (m + 1) (selected s ready .read) (selected s ready .write)
        (selected s ready .error))
      (by rw [Nat.zero_add]; exact hlt) (by
        rw [← List.range_eq_range']
        exact Nat.le_refl _)
    refine ⟨calls, ?_, ?_⟩
    · rw [mxEngineSelect.service, hleft, ← hrun, ← hnfds]
      rfl
    · intro ev fd
      rw [hcount]
      split
      · rfl
      · next hout =>
        have hfd : ¬ fd < m + 1 := fun hlt => hout ⟨Nat.zero_le fd, by rw [Nat.zero_add]; exact hlt⟩
        rw [selected, mxEngineSelect.select, hnfds, decide_eq_false hfd]
        rfl

/-- And so of what is registered. -/
theorem select_calls (h : Sets s reg) (ready : Readiness) :
    ∃ calls, s.service ready = .ok calls ∧ ∀ c, c ∈ calls ↔
    (c.fd : Int) ≤ s.mMaxFd ∧ (∃ event, reg c.fd = some event ∧ asks event c.event = true) ∧
    ready c.fd c.event = true := by
  obtain ⟨calls, hrun, hcount⟩ := service_count h.lo h.hi ready
  refine ⟨calls, hrun, ?_⟩
  rintro ⟨ev, fd⟩
  have hmax : ∀ n : Nat, n < (s.mMaxFd + 1).toNat ↔ (n : Int) ≤ s.mMaxFd := by
    intro n
    omega
  have hany : Option.any (fun event => asks event ev) (reg fd) = true ↔
      ∃ event, reg fd = some event ∧ asks event ev = true := by
    cases reg fd <;> simp
  have hone : 0 < (selected s ready ev fd).toNat ↔ selected s ready ev fd = true := by
    cases selected s ready ev fd <;> decide
  rw [← List.count_pos_iff, hcount, hone, selected, mxEngineSelect.select, Bool.and_eq_true,
    Bool.and_eq_true,
    decide_eq_true_eq, h.asked, hany, hmax, and_assoc]

end Select

/-! ## Both

  Alike is meant in both directions, and with the number of calls: what either reports the other
  reports, once. -/

/-- The engines make the same calls, and one for every event of a descriptor with that
    descriptor. -/
structure Alike (reg : Registry) (ready : Readiness) (epoll select : List HandlerCall) : Prop where
  same : ∀ c, c ∈ epoll ↔ c ∈ select
  own : ∀ fd event ev, reg fd = some event → watches event ev = true → ready fd ev = true →
    ⟨ev, fd⟩ ∈ epoll

/-- **The engines dispatch alike only when nothing but descriptor 0 is ready**, it asks for
    something, and the select engine looks for it. -/
theorem dispatch_alike_iff {ops : List EngineOp} {reg : Registry}
    (h : registry.Trace (fun _ _ _ => True) ops reg)
    (ready : Readiness)
    (hfew : ((mxEngineEpoll.run ops).pending ready).length ≤ MAX_EVENTS_PER_TRIGGERING)
    {events : List EpollEvent} (hwait : (mxEngineEpoll.run ops).EpollWait ready events) :
    (∃ s calls, mxEngineSelect.run ops = .ok s ∧ s.service ready = .ok calls ∧
      Alike reg ready (mxEngineEpoll.service events) calls) ↔
    (∀ op ∈ ops, op.fd < FD_SETSIZE) ∧ ∀ s, mxEngineSelect.run ops = .ok s → ∀ fd event ev,
      reg fd = some event →
      watches event ev = true → ready fd ev = true → fd = 0 ∧ event ≠ 0 ∧ 0 ≤ s.mMaxFd := by
  constructor
  · rintro ⟨s, calls, hrun, hcalls, halike⟩
    have hfd := run_bound hrun
    refine ⟨hfd, fun s' hrun' fd event ev hreg hwatch hready => ?_⟩
    obtain rfl := Except.ok.inj (hrun.symm.trans hrun')
    obtain ⟨s', hrun', hsets⟩ := run_sets h hfd
    obtain rfl := Except.ok.inj (hrun.symm.trans hrun')
    obtain ⟨calls', hcalls', hmem⟩ := select_calls hsets ready
    obtain rfl := Except.ok.inj (hcalls.symm.trans hcalls')
    have hown := halike.own fd event ev hreg hwatch hready
    obtain rfl : fd = 0 := ((epoll_calls_iff h hfew hwait).mp hown).1
    obtain ⟨hmax, ⟨event', hreg', hask⟩, -⟩ := (hmem _).mp ((halike.same _).mp hown)
    obtain rfl := Option.some.inj (hreg.symm.trans hreg')
    exact ⟨rfl, ne_zero_of_asks hask, hmax⟩
  · -- nothing else is ready, so both make the calls for descriptor 0
    rintro ⟨hfd, hcond⟩
    obtain ⟨s, hrun, hsets⟩ := run_sets h hfd
    obtain ⟨calls, hcalls, hmem⟩ := select_calls hsets ready
    refine ⟨s, calls, hrun, hcalls, fun c => ?_, fun fd event ev hreg hwatch hready => ?_⟩
    · rw [epoll_calls_iff h hfew hwait, hmem]
      constructor
      · rintro ⟨hc, fd, event, hreg, hwatch, hready⟩
        obtain ⟨rfl, hne, hmax⟩ := hcond s hrun fd event c.event hreg hwatch hready
        rw [hc]
        exact ⟨hmax, ⟨event, hreg, asks_of_watches hwatch hne⟩, hready⟩
      · rintro ⟨-, ⟨event, hreg, hask⟩, hready⟩
        have hwatch := watches_of_asks hask
        exact ⟨(hcond s hrun c.fd event c.event hreg hwatch hready).1, c.fd, event, hreg,
          hwatch, hready⟩
    · exact (epoll_calls_iff h hfew hwait).mpr ⟨(hcond s hrun fd event ev hreg hwatch hready).1, fd,
        event, hreg, hwatch, hready⟩

/-- Descriptor 0 ready to be read, with both engines. -/
theorem dispatch_alike_iff_zero : ∃ s calls, mxEngineSelect.run [.addEvent 0 EVENT_READ] = .ok s ∧
    s.service (fun fd ev => fd == 0 && ev == .read) = .ok calls ∧
    Alike (fun n => if n = 0 then some EVENT_READ else none) (fun fd ev => fd == 0 && ev == .read)
      (mxEngineEpoll.service [⟨EPOLLIN, 0⟩]) calls := by
  have h0 : registry.Trace (fun _ _ _ => True) [] _ := .init
  have h1 := h0.step (e := EngineOp.addEvent 0 EVENT_READ) rfl trivial
  refine (dispatch_alike_iff h1 (fun fd ev => fd == 0 && ev == .read) (by decide) ⟨_, .refl _,
    rfl⟩).mpr ⟨by decide, ?_⟩
  intro s hs fd event ev hreg _ hready
  obtain rfl := Except.ok.inj hs
  obtain ⟨hfd, -⟩ := Bool.and_eq_true_iff.mp hready
  obtain rfl : fd = 0 := beq_iff_eq.mp hfd
  obtain rfl : EVENT_READ = event := Option.some.inj hreg
  exact ⟨rfl, by decide, by decide⟩

/-- Descriptor 5 is readable: epoll has 0 read, and select 5. -/
theorem epoll_reports_zero : ¬ ∀ ops reg, registry.Trace (fun _ _ _ => True) ops reg → ∀ ready,
    ((mxEngineEpoll.run ops).pending ready).length ≤ MAX_EVENTS_PER_TRIGGERING →
    ∀ events, (mxEngineEpoll.run ops).EpollWait ready events → ∃ s calls,
      mxEngineSelect.run ops = .ok s ∧
      s.service ready = .ok calls ∧ Alike reg ready (mxEngineEpoll.service events) calls := by
  intro hall
  have h0 : registry.Trace (fun _ _ _ => True) [] _ := .init
  have h1 := h0.step (e := EngineOp.addEvent 5 EVENT_READ) rfl trivial
  obtain ⟨s, calls, hs, hcalls, halike⟩ := hall _ _ h1 (fun fd ev => fd == 5 && ev == .read)
    (by decide) [⟨EPOLLIN, 0⟩] ⟨_, .refl _, rfl⟩
  obtain rfl := Except.ok.inj hs
  obtain rfl : [⟨.read, 5⟩] = calls := Except.ok.inj hcalls
  exact absurd ((halike.same ⟨.read, 0⟩).mp (by decide)) (by decide)

end Engine

end StevenProgram
