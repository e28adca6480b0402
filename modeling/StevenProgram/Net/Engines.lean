/-
  The event engines `mxEngineEpoll` and `mxEngineSelect` (`mxEngineEpoll.cpp`,
  `mxEngineSelect.cpp`).

  `service` waits and calls the handler for what is ready, round after round; what is here under
  that name is the calls of one round, after a wait in which the descriptors are ready as
  `Readiness` says.  The kernel is taken to do what its manual says: it keeps, for each descriptor
  of an epoll instance, the events and the data of the latest `epoll_ctl`; `epoll_wait` reports the
  events of the ready ones, as many as fit and in any order; `select` leaves in the three sets what
  is ready, and counts it.  An `fd_set` has `FD_SETSIZE` bits, and an access to any other is
  outside.

  Waiting, timeouts, the loop on `isOnService` and the log are left out.
-/
import Mathlib.Algebra.GroupWithZero.Nat
import Mathlib.Data.List.AList
import StevenProgram.Common.Mem

namespace StevenProgram

namespace Engine

/-- A descriptor; there are none below zero. -/
abbrev Fd : Type := Nat

abbrev EVENT_READ : UInt8 := 0x01
abbrev EVENT_WRITE : UInt8 := 0x02

abbrev MAX_EVENTS_PER_TRIGGERING : Nat := 10

/-- The three events a descriptor can be ready for. -/
inductive Event where
  | read
  | write
  | error
  deriving DecidableEq, Repr

/-- `eventRead(fd)`, `eventWrite(fd)` or `eventError(fd)`. -/
structure HandlerCall where
  event : Event
  fd : Fd
  deriving DecidableEq, Repr

/-- What each descriptor is ready for. -/
abbrev Readiness : Type := Fd → Event → Bool

/-! ## epoll

  `interest` is the list that the kernel keeps for the instance. -/

abbrev EPOLLIN : UInt32 := 0x001
abbrev EPOLLOUT : UInt32 := 0x004
abbrev EPOLLERR : UInt32 := 0x008

/-- `struct epoll_event`, with `data.fd` as its data. -/
structure EpollEvent where
  events : UInt32
  fd : Fd
  deriving DecidableEq, Repr

/-- The engine, by the interest list that the kernel keeps for `mEpollFd`. -/
structure mxEngineEpoll where
  interest : AList fun _ : Fd => EpollEvent

namespace mxEngineEpoll

variable (e : mxEngineEpoll)

/-- `epoll_ctl(mEpollFd, EPOLL_CTL_ADD, fd, &ev)` -/
def epollCtlAdd (fd : Fd) (ev : EpollEvent) : Int32 × mxEngineEpoll :=
  if (e.interest.lookup fd).isSome then (-1, e) else (0, ⟨e.interest.insert fd ev⟩)

/-- `epoll_ctl(mEpollFd, EPOLL_CTL_MOD, fd, &ev)` -/
def epollCtlMod (fd : Fd) (ev : EpollEvent) : Int32 × mxEngineEpoll :=
  if (e.interest.lookup fd).isSome then (0, ⟨e.interest.insert fd ev⟩) else (-1, e)

/-- `epoll_ctl(mEpollFd, EPOLL_CTL_DEL, fd, NULL)` -/
def epollCtlDel (fd : Fd) : Int32 × mxEngineEpoll :=
  if (e.interest.lookup fd).isSome then (0, ⟨e.interest.erase fd⟩) else (-1, e)

/-- `ev`, as `addEvent` and `modEvent` fill it from `{0}`. -/
def eventOf (event : UInt8) : EpollEvent :=
  let ev : EpollEvent := { events := EPOLLERR, fd := 0 }
  let ev := if event &&& EVENT_READ ≠ 0 then { ev with events := ev.events ||| EPOLLIN } else ev
  if event &&& EVENT_WRITE ≠ 0 then { ev with events := ev.events ||| EPOLLOUT } else ev

/-- `addEvent(fd, event, handler)` of the epoll engine. -/
def addEvent (fd : Fd) (event : UInt8) : Int32 × mxEngineEpoll :=
  let (res, e) := e.epollCtlAdd fd (eventOf event)
  if res < 0 then (-1, e) else (0, e)

/-- `modEvent(fd, event)` of the epoll engine. -/
def modEvent (fd : Fd) (event : UInt8) : Int32 × mxEngineEpoll :=
  let (res, e) := e.epollCtlMod fd (eventOf event)
  if res < 0 then (-1, e) else (0, e)

/-- `remEvent(fd)` of the epoll engine. -/
def remEvent (fd : Fd) : Int32 × mxEngineEpoll :=
  let (res, e) := e.epollCtlDel fd
  if res < 0 then (-1, e) else (0, e)

/-- What a descriptor is ready for, in bits. -/
def readyBits (ready : Event → Bool) : UInt32 :=
  (if ready .read then EPOLLIN else 0) ||| (if ready .write then EPOLLOUT else 0) |||
    (if ready .error then EPOLLERR else 0)

/-- What there is to report of each descriptor that is ready. -/
def pending (ready : Readiness) : List EpollEvent :=
  e.interest.entries.filterMap fun entry =>
    let events := entry.2.events &&& readyBits (ready entry.1)
    if events ≠ 0 then some { entry.2 with events := events } else none

/-- `epoll_wait(mEpollFd, events, MAX_EVENTS_PER_TRIGGERING, timeout)` may fill `events` so. -/
def EpollWait (ready : Readiness) (events : List EpollEvent) : Prop :=
  ∃ all : List EpollEvent, all.Perm (e.pending ready) ∧ events = all.take MAX_EVENTS_PER_TRIGGERING

/-- The handler calls of a round. -/
def service (events : List EpollEvent) : List HandlerCall :=
  events.flatMap fun ev =>
    (if ev.events &&& EPOLLIN ≠ 0 then [⟨.read, ev.fd⟩] else []) ++
    (if ev.events &&& EPOLLOUT ≠ 0 then [⟨.write, ev.fd⟩] else []) ++
    (if ev.events &&& EPOLLERR ≠ 0 then [⟨.error, ev.fd⟩] else [])

end mxEngineEpoll

/-! ## select

  The three sets and the highest descriptor; `setFds` writes the sets of its events, and `addEvent`
  compares the descriptor with the highest. -/

abbrev FD_SETSIZE : Nat := 1024

/-- An `fd_set`, by the bits that are set. -/
abbrev FdSet : Type := Fd → Bool

def FD_ISSET (fd : Fd) (set : FdSet) : Run Bool :=
  if fd < FD_SETSIZE then .ok (set fd) else .error .outOfBounds

def FD_SET (fd : Fd) (set : FdSet) : Run FdSet :=
  if fd < FD_SETSIZE then .ok fun n => if n = fd then true else set n else .error .outOfBounds

def FD_CLR (fd : Fd) (set : FdSet) : Run FdSet :=
  if fd < FD_SETSIZE then .ok fun n => if n = fd then false else set n else .error .outOfBounds

/-- `if (cond) FD_SET(fd, &set);` -/
def setIf (cond : Bool) (fd : Fd) (set : FdSet) : Run FdSet :=
  if cond then FD_SET fd set else .ok set

/-- The three sets, and the highest descriptor. -/
structure mxEngineSelect where
  mRdFds : FdSet
  mWrFds : FdSet
  mExFds : FdSet
  mMaxFd : Int

namespace mxEngineSelect

variable (s : mxEngineSelect)

/-- The three sets, after `addEvent` or `modEvent`. -/
def setFds (fd : Fd) (event : UInt8) : Run mxEngineSelect := do
  let rd ← FD_CLR fd s.mRdFds
  let wr ← FD_CLR fd s.mWrFds
  let ex ← FD_CLR fd s.mExFds
  let rd ← setIf (event &&& EVENT_READ != 0) fd rd
  let wr ← setIf (event &&& EVENT_WRITE != 0) fd wr
  let ex ← setIf (event != 0) fd ex
  .ok { s with mRdFds := rd, mWrFds := wr, mExFds := ex }

/-- `addEvent(fd, event, handler)` of the select engine, which raises `mMaxFd`. -/
def addEvent (fd : Fd) (event : UInt8) : Run (Int32 × mxEngineSelect) := do
  let s ← s.setFds fd event
  if event ≠ 0 then .ok (0, { s with mMaxFd := if (fd : Int) > s.mMaxFd then fd else s.mMaxFd })
    else .ok (0, s)

/-- `modEvent(fd, event)` of the select engine, which does not. -/
def modEvent (fd : Fd) (event : UInt8) : Run (Int32 × mxEngineSelect) := do
  let s ← s.setFds fd event
  .ok (0, s)

/-- `while (--mMaxFd > 0)`, until one is found in `ex` -/
def lowerMaxFd (ex : FdSet) : Fd → Run Int
  | 0 => .ok (-1)
  | fd + 1 =>
      if fd > 0 then do
        let isset ← FD_ISSET fd ex
        if isset then .ok fd else lowerMaxFd ex fd
      else .ok 0

/-- `remEvent(fd)` of the select engine, which lowers it by the scan. -/
def remEvent (fd : Fd) : Run (Int32 × mxEngineSelect) := do
  let rd ← FD_CLR fd s.mRdFds
  let wr ← FD_CLR fd s.mWrFds
  let ex ← FD_CLR fd s.mExFds
  let max ← if fd = s.mMaxFd then lowerMaxFd ex fd else .ok s.mMaxFd
  .ok (0, { mRdFds := rd, mWrFds := wr, mExFds := ex, mMaxFd := max })

/-- What `select(nfds, ..)` leaves of a set. -/
def select (nfds : Nat) (set : FdSet) (ready : Fd → Bool) : FdSet :=
  fun fd => decide (fd < nfds) && set fd && ready fd

/-- What `select` returns when it leaves these sets. -/
def selectCount (nfds : Nat) (rd wr ex : FdSet) : Nat :=
  ((List.range nfds).map fun fd => (rd fd).toNat + (wr fd).toNat + (ex fd).toNat).sum

/-- The loop over `n`, which ends after `left` values: the handler calls. -/
def dispatch (rd wr ex : FdSet) : (left n nfds : Nat) → Run (List HandlerCall)
  | 0, _, _ => .ok []
  | left + 1, n, nfds =>
      if nfds > 0 then do
        let r ← FD_ISSET n rd
        let w ← FD_ISSET n wr
        let x ← FD_ISSET n ex
        let calls := (if r then [⟨.read, n⟩] else []) ++ (if w then [⟨.write, n⟩] else []) ++
          (if x then [⟨.error, n⟩] else [])
        let rest ← dispatch rd wr ex left (n + 1) (if r || w || x then nfds - 1 else nfds)
        .ok (calls ++ rest)
      else .ok []

/-- The handler calls of a round. -/
def service (ready : Readiness) : Run (List HandlerCall) :=
  let nfds := (s.mMaxFd + 1).toNat
  let rd := select nfds s.mRdFds fun fd => ready fd .read
  let wr := select nfds s.mWrFds fun fd => ready fd .write
  let ex := select nfds s.mExFds fun fd => ready fd .error
  -- `n` is unsigned, and `mMaxFd` is converted
  dispatch rd wr ex ((s.mMaxFd % 4294967296).toNat + 1) 0 (selectCount nfds rd wr ex)

end mxEngineSelect

/-! ## Calls

  The calls as data, for both engines; each returns 0 where it succeeds. -/

/-- A call on an engine. -/
inductive EngineOp where
  | addEvent (fd : Fd) (event : UInt8)
  | modEvent (fd : Fd) (event : UInt8)
  | remEvent (fd : Fd)

def EngineOp.fd : EngineOp → Fd
  | .addEvent fd _ | .modEvent fd _ | .remEvent fd => fd

def mxEngineEpoll.exec (e : mxEngineEpoll) : EngineOp → Int32 × mxEngineEpoll
  | .addEvent fd event => e.addEvent fd event
  | .modEvent fd event => e.modEvent fd event
  | .remEvent fd => e.remEvent fd

def mxEngineSelect.exec (s : mxEngineSelect) : EngineOp → Run (Int32 × mxEngineSelect)
  | .addEvent fd event => s.addEvent fd event
  | .modEvent fd event => s.modEvent fd event
  | .remEvent fd => s.remEvent fd

/-- A new engine after these calls. -/
def mxEngineEpoll.run (ops : List EngineOp) : mxEngineEpoll :=
  ops.foldl (fun e op => (e.exec op).2) ⟨∅⟩

/-- A new engine after these calls. -/
def mxEngineSelect.run (ops : List EngineOp) : Run mxEngineSelect :=
  ops.foldlM (fun s op => do
    let (_, s) ← s.exec op
    .ok s) ⟨fun _ => false, fun _ => false, fun _ => false, -1⟩

end Engine

end StevenProgram
