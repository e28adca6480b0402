/-
  What the callers of an engine may rely on, and what they may not.

  1. **Safety** — `engine_life`: in any order of steps there is at most one thread that is not
     joined; when `startEngine` has returned it is in `service`, when `stopEngine` has returned
     there is none; no call joins what is no thread; and whatever the engine itself does agrees with
     `usage`.
  2. **Liveness** — `calls_return`: every call of `startEngine` and `stopEngine` returns, if no
     thread is kept from running and every wait of the engine ends.
  3. **One step** — `step_effect` says once what a step that is no stop does; `joins_exec` is the
     run lemma for a call in its join.  While a wait lasts the join does not return (`stop_waits`).
  4. **Without a signal** — `stop_lost`: a `pthread_cond_wait` that came back too early leaves a
     thread that overwrites the status of a later `stopEngine`, which then never returns.
-/
import StevenProgram.Lib.Fair
import StevenProgram.Net.EngineThread

namespace StevenProgram

namespace Engine

variable {s s' : mxEngineBase} {u : Usage}

/-! ## Safety

  The invariant is that the engine stands on a stage; each conclusion is read off the stages. -/

/-- Created and not joined. -/
def MainPhase.Live (w : MainPhase) : Prop := w ≠ .unborn ∧ w ≠ .joined

/-- A new engine is off. -/
theorem new_stands : Stands .off 0 .new :=
  ⟨trivial, rfl,
    by funext m; simp [mainsOf, mxEngineBase.new, Stage.main], rfl, rfl, fun h => absurd rfl h, rfl⟩

/-- A step under `usage` is a way on. -/
theorem sync_next {x x' : mxEngineBase × Usage} {st : Stage} {n : Nat} {e : EngineEvent}
    (h : Stands st n x.1) (hu : x.2 = st.usage)
    (hs : (engineSys.sync usage).step x e = some x') :
    ∃ st' n', Next n st e st' n' ∧ Stands st' n' x'.1 ∧ x'.2 = st'.usage := by
  obtain ⟨hs, hus⟩ := TransSys.sync_step.mp hs
  rw [hu] at hus
  obtain ⟨st', n', hnext, hst'⟩ := step_next h hs hus
  exact ⟨st', n', hnext, hst', Option.some.inj (hus.symm.trans (next_usage hnext))⟩

/-- **Every reachable engine stands on a stage**, and the use it is in is that of the stage. -/
theorem reachable_stands {x : mxEngineBase × Usage} (h : (engineSys.sync usage).Reachable x) :
    ∃ st n, Stands st n x.1 ∧ x.2 = st.usage := by
  refine TransSys.Runs.invariant (I := fun x => ∃ st n, Stands st n x.1 ∧ x.2 = st.usage)
    ⟨.off, 0, new_stands, rfl⟩ ?_ h
  rintro x e x' ⟨st, n, hst, hu⟩ hs -
  obtain ⟨st', n', -, hst', hu'⟩ := sync_next hst hu hs
  exact ⟨st', n', hst', hu'⟩

/-- Only one thread is alive, and its stage is not before its birth. -/
theorem Stands.live {st : Stage} {n m : Nat} (h : Stands st n s) (hm : (s.mains m).Live) :
    m = n ∧ st.main ≠ .unborn := by
  have hmain : st.main = s.mains m := (mainsOf_at (congrFun h.mains m).symm hm.2 hm.1).2
  exact ⟨(mainsOf_at (congrFun h.mains m).symm hm.2 hm.1).1, hmain ▸ hm.1⟩

/-- No call is in an undefined phase. -/
theorem Stands.ne_undefined {st : Stage} {n : Nat} (h : Stands st n s) (i : Nat) :
    s.calls i ≠ .undefined := fun hi =>
  h.inCall hi (by decide)

/-- An engine that is off. -/
theorem Stands.off {st : Stage} {n : Nat} (h : Stands st n s) (hu : st.usage = .off) :
    st = .off := by
  cases st with
  | off => rfl
  | running o w => cases o <;> cases hu
  | _ => cases hu

/-- An engine that is on service, and its thread. -/
theorem Stands.on {st : Stage} {n : Nat} (h : Stands st n s) (hu : st.usage = .on) :
    s.isOnService ∧ s.mThreadId = some n ∧ (s.mains n = .testing ∨ s.mains n = .serving) := by
  cases st with
  | running o w =>
    obtain rfl : o = .on := by cases o <;> first | rfl | cases hu
    have hw : s.mains n = w := (congrFun h.mains n).trans (mainsOf_self n w)
    refine ⟨by rw [mxEngineBase.isOnService, h.status]; rfl, ?_, ?_⟩
    · exact h.thread (by obtain rfl | rfl | ⟨rfl, -⟩ := h.sound <;> decide)
    · obtain rfl | rfl | ⟨-, hoff⟩ := h.sound
      · exact .inl hw
      · exact .inr hw
      · cases hoff
  | _ => cases hu

/-- **The engine and its callers**, in any order of steps. -/
theorem engine_life (h : (engineSys.sync usage).Reachable (s, u)) :
    (∀ i, s.calls i ≠ .undefined) ∧ (∀ m n, (s.mains m).Live → (s.mains n).Live → m = n) ∧
    (u = .off → ∀ n, ¬ (s.mains n).Live) ∧
    (u = .on → s.isOnService ∧ ∃ n, s.mThreadId = some n ∧
      (s.mains n = .testing ∨ s.mains n = .serving)) ∧
    (∀ e s', fromOutside e = false → s.step e = some s' → (usage.step u e).isSome) := by
  obtain ⟨st, n, hst, hu⟩ := reachable_stands h
  obtain rfl : u = st.usage := hu
  refine ⟨hst.ne_undefined, fun m k hm hk => (hst.live hm).1.trans (hst.live hk).1.symm,
    fun hoff k hk => ?_, fun hon => ?_, ?_⟩
  · -- off is the one stage without a thread
    exact (hst.live hk).2 (hst.off hoff ▸ rfl)
  · exact ⟨(hst.on hon).1, n, (hst.on hon).2⟩
  · -- a step of the engine itself is a way on, and `usage` allows every one
    intro e s' he hs
    obtain ⟨st', n', hnext, -⟩ := inside_step hst he hs
    exact next_usage hnext ▸ rfl

/-- A call of `startEngine` that returns. -/
def startUp : List EngineEvent :=
  [.startCall 0, .startLock 0, .create 0, .wait 0, .mainLock 0, .mainReady 0,
    .mainSignal 0 (some (.caller 0)), .mainUnlock 0, .waitReturns 0,
    .startReturn 0]

/-- Where it leads, and the use the engine is then in. -/
def startedUp : mxEngineBase × Usage :=
  ((engineSys.sync usage).exec (engineSys.sync usage).init startUp).get (by decide)

/-- They are a run of the engine. -/
theorem startUp_runs :
    (engineSys.sync usage).exec (engineSys.sync usage).init startUp = some startedUp := by
  rw [startedUp, Option.some_get]

/-- And what the theorem says behind it. -/
theorem engine_life_startUp :
    (∀ i, startedUp.1.calls i ≠ .undefined) ∧
    (∀ m n, (startedUp.1.mains m).Live → (startedUp.1.mains n).Live → m = n) ∧
    (startedUp.2 = .off → ∀ n, ¬ (startedUp.1.mains n).Live) ∧
    (startedUp.2 = .on → startedUp.1.isOnService ∧
      ∃ n, startedUp.1.mThreadId = some n ∧
      (startedUp.1.mains n = .testing ∨ startedUp.1.mains n = .serving)) ∧
    (∀ e s', fromOutside e = false → startedUp.1.step e = some s' →
      (usage.step startedUp.2 e).isSome) :=
  engine_life (TransSys.Reachable.exec .init startUp startUp_runs)

/-! ## Liveness

  Every stage with a call has a rank, which no step raises, and an actor that can lower it
  (`helper`).  That is the rule of `Lib.Fair` for what happens under fairness; the end of a wait has
  an actor of its own, so that it can be asked for or not. -/

/-- How far a call is from its return. -/
def Stage.rank : Stage → Nat
  | off => 0
  | starting _ => 12
  | creating _ => 11
  | created _ => 10
  | parked _ => 9
  | entered _ => 8
  | readied _ => 7
  | signalled _ => 6
  | running (.woken _) _ => 5
  | running (.started _) _ | running (.stopping _) _ => 4
  | running (.joining _) .serving => 3
  | running (.joining _) .testing => 2
  | running (.joining _) _ => 1
  | running .on _ | running .ending _ => 0

/-- Who has to go on for a call to return. -/
def Stage.helper (n : Nat) : Stage → Actor
  | starting i | creating i | created i | running (.woken i) _ | running (.started i) _ | running
    (.stopping i) _ |
    running (.joining i) .ended => .thread (.caller i)
  | running (.joining _) .serving => .waker n
  | _ => .thread (.worker n)

variable {st st' : Stage} {n n' i : Nat} {c : CallPhase} {e : EngineEvent}

/-- **A way on ends the call, brings it closer to its end, or leaves the helper the same work.** -/
theorem next_rank (h : Next n st e st' n') (hsound : st.Sound) (hc : st.call n = some (i, c)) :
    st'.call n' = none ∨ ((∃ c', st'.call n' = some (i, c')) ∧ n' = n ∧
      (st'.rank < st.rank ∨ (st'.rank = st.rank ∧ st'.helper n = st.helper n ∧
        actor e ≠ some (st.helper n)))) := by
  cases h with
  | startRefused j hst => exact .inr ⟨⟨c, hc⟩, rfl, .inr ⟨rfl, rfl, nofun⟩⟩
  | stopService w ho => exact .inr ⟨⟨c, hc⟩, rfl, .inr ⟨rfl, rfl, nofun⟩⟩
  | stopCall j w ho => rcases ho with rfl | rfl <;> cases hc
  | startReturn j w => exact .inl rfl
  | stopReturn j => exact .inl rfl
  | joinCall j w =>
    obtain ⟨rfl, -⟩ := Prod.mk.inj (Option.some.inj hc)
    refine .inr ⟨⟨_, rfl⟩, rfl, .inl ?_⟩
    obtain rfl | rfl | ⟨rfl, -⟩ := hsound <;> simp [Stage.rank]
  -- the thread turns in its loop: nearer to its end if it is to stop, else for nothing
  | @turn o w w' e ht =>
    cases o with
    | on => cases hc
    | ending => cases hc
    | joining j =>
      refine .inr ⟨⟨c, hc⟩, rfl, .inl ?_⟩
      cases ht with
      | serve hst => exact absurd rfl hst
      | leave hst => simp [Stage.rank]
      | round => simp [Stage.rank]
    | _ => exact .inr ⟨⟨c, hc⟩, rfl, .inr ⟨rfl, rfl, by cases ht <;> simp [actor, Stage.helper]⟩⟩
  | waitReturns j w =>
    obtain ⟨rfl, -⟩ := Prod.mk.inj (Option.some.inj hc)
    exact .inr ⟨⟨_, rfl⟩, rfl, .inl (by simp [Stage.rank])⟩
  | startCall | stopOff | stopOn => cases hc
  | _ =>
    obtain ⟨rfl, -⟩ := Prod.mk.inj (Option.some.inj hc)
    exact .inr ⟨⟨_, rfl⟩, rfl, .inl (by simp [Stage.rank])⟩

/-- A step of an actor is not from outside. -/
theorem inside_of_actor {a : Actor} (h : actor e = some a) : fromOutside e = false := by
  cases e <;> first | rfl | cases h

/-- The helper can go on: at every stage of a call there is somebody with a statement to execute, or
    a wait to end. -/
theorem helper_acts (h : Stands st n s) (hc : st.call n = some (i, c)) :
    ∃ e, actor e = some (st.helper n) ∧ (s.step e).isSome := by
  have hcall : s.calls i = c := by rw [h.calls, hc, callsOf, Function.update_self]
  have hmain : s.mains n = st.main := (congrFun h.mains n).trans (mainsOf_self n _)
  cases st with
  | off => cases hc
  | starting j =>
    obtain ⟨rfl, rfl⟩ := Prod.mk.inj (Option.some.inj hc)
    refine ⟨.startLock j, rfl, ?_⟩
    simp [mxEngineBase.step, hcall, h.mutex, Stage.mutex, mxMonitoredMutex.lock, Monitor.acquire,
      Monitor.free]
  | creating j =>
    obtain ⟨rfl, rfl⟩ := Prod.mk.inj (Option.some.inj hc)
    exact ⟨.create j, rfl, by simp [mxEngineBase.step, hcall]⟩
  | created j =>
    obtain ⟨rfl, rfl⟩ := Prod.mk.inj (Option.some.inj hc)
    exact ⟨.wait j, rfl, by simp [mxEngineBase.step, hcall]⟩
  -- the caller waits for the signal, so the thread is the one to go on
  | parked j =>
    refine ⟨.mainLock n, rfl, ?_⟩
    simp [mxEngineBase.step, hmain, Stage.main, h.mutex, Stage.mutex, mxMonitoredMutex.lock,
      Monitor.acquire]
  | entered j => exact ⟨.mainReady n, rfl, by simp [mxEngineBase.step, hmain, Stage.main]⟩
  | readied j =>
    refine ⟨.mainSignal n (some (.caller j)), rfl, ?_⟩
    simp [mxEngineBase.step, hmain, Stage.main, h.mutex, Stage.mutex, mxMonitoredMutex.signal,
      Monitor.notify, Monitor.wake]
  | signalled j => exact ⟨.mainUnlock n, rfl, by simp [mxEngineBase.step, hmain, Stage.main]⟩
  | running o w =>
    cases o with
    | on => cases hc
    | ending => cases hc
    | woken j =>
      obtain ⟨rfl, rfl⟩ := Prod.mk.inj (Option.some.inj hc)
      refine ⟨.waitReturns j, rfl, ?_⟩
      simp [mxEngineBase.step, hcall, h.mutex, Stage.mutex, Beside.mutex,
        mxMonitoredMutex.waitReturns, Monitor.unpark, Monitor.acquire, Monitor.free]
    | started j =>
      obtain ⟨rfl, rfl⟩ := Prod.mk.inj (Option.some.inj hc)
      exact ⟨.startReturn j, rfl, by simp [mxEngineBase.step, hcall]⟩
    | stopping j =>
      obtain ⟨rfl, rfl⟩ := Prod.mk.inj (Option.some.inj hc)
      exact ⟨.joinCall j, rfl, by simp [mxEngineBase.step, hcall]⟩
    -- the thread tests, or its wait ends, or it has ended and the join returns
    | joining j =>
      obtain ⟨rfl, rfl⟩ := Prod.mk.inj (Option.some.inj hc)
      obtain rfl | rfl | ⟨rfl, -⟩ := h.sound
      · exact ⟨.test n, rfl, by simp [mxEngineBase.step, hmain, Stage.main]⟩
      · exact ⟨.round n, rfl, by simp [mxEngineBase.step, hmain, Stage.main]⟩
      · exact ⟨.stopReturn j n, rfl, by simp [mxEngineBase.step, hcall, hmain, Stage.main]⟩

/-- **Every call returns**, in a run in which no thread that can go on is left out for ever and
    every wait of the engine ends.  Induction on the rank, under fairness to the helper. -/
theorem calls_return (b : TransSys.Behaviour (engineSys.sync usage))
    (hfair : ∀ t, b.FairTo actor (.thread t))
    (hwaits : ∀ n, b.FairTo actor (.waker n)) (i k : Nat) :
    ∃ m, k ≤ m ∧ (b.state m).1.calls i = .idle := by
  have hfair : b.WeaklyFair actor := fun a =>
    match a with
    | .thread t => hfair t
    | .waker n => hwaits n
  by_cases hidle : (b.state k).1.calls i = .idle
  · exact ⟨k, Nat.le_refl k, hidle⟩
  · obtain ⟨st, n, hst, hu⟩ := reachable_stands (b.reachable k)
    have hc : st.call n = some (i, (b.state k).1.calls i) :=
      callsOf_at (congrFun hst.calls i).symm hidle
    refine TransSys.Behaviour.leadsTo (Q := fun x => x.1.calls i = .idle)
      (P := fun r a x => ∃ st n c, Stands st n x.1 ∧ x.2 = st.usage ∧ st.rank = r ∧
        st.helper n = a ∧ st.call n = some (i, c))
      hfair ?_ ?_ ⟨st, n, _, hst, hu, rfl, rfl, hc⟩
    · -- the helper can act
      rintro r a x ⟨st, n, c, hst, hu, -, rfl, hc⟩
      obtain ⟨e, ha, hs⟩ := helper_acts hst hc
      obtain ⟨s', hs⟩ := Option.isSome_iff_exists.mp hs
      obtain ⟨st', n', hnext, -⟩ := inside_step hst (inside_of_actor ha) hs
      exact ⟨e, (s', st'.usage), ha, TransSys.sync_step.mpr ⟨hs, hu ▸ next_usage hnext⟩⟩
    · -- whoever acts, the rank falls, or the same helper still can
      rintro r a x e x' ⟨st, n, c, hst, hu, rfl, rfl, hc⟩ hs
      obtain ⟨st', n', hnext, hst', hu'⟩ := sync_next hst hu hs
      rcases next_rank hnext hst.sound hc with hnone | ⟨⟨c', hc'⟩, rfl, hrank⟩
      · exact .inl (by rw [hst'.calls, hnone]; rfl)
      · exact .inr ⟨_, _, ⟨st', n', c', hst', hu', rfl, rfl, hc'⟩, hrank⟩

/-- An engine that is off has nothing to do. -/
theorem off_rests {x : mxEngineBase × Usage} (h : (engineSys.sync usage).Reachable x)
    (hoff : x.2 = .off) (a : Actor) :
    ¬ (engineSys.sync usage).CanAct actor a x := by
  rintro ⟨e, x', ha, hs⟩
  obtain ⟨st, n, hst, hu⟩ := reachable_stands h
  obtain rfl := hst.off (hu ▸ hoff)
  obtain ⟨st', n', hnext, -⟩ := sync_next hst hu hs
  cases hnext <;> cases ha

/-- `startEngine`, then `stopEngine` during a round. -/
def upAndDown : List EngineEvent :=
  startUp ++ [.test 0, .stopCall 0, .round 0, .joinCall 0, .test 0, .stopReturn 0 0]

/-- Up and down again is a run that ends off. -/
theorem upAndDown_runs :
    ∃ x, (engineSys.sync usage).exec (engineSys.sync usage).init upAndDown = some x ∧ x.2 = .off :=
  ⟨((engineSys.sync usage).exec (engineSys.sync usage).init upAndDown).get (by decide),
    by rw [Option.some_get], rfl⟩

/-- From there a fair behaviour, in which the join of the stop returns. -/
theorem calls_return_upAndDown :
    ∃ b : TransSys.Behaviour (engineSys.sync usage), b.event 13 = some (.joinCall 0) ∧
    ∃ m, 14 ≤ m ∧ (b.state m).1.calls 0 = .idle := by
  obtain ⟨x, hx, hoff⟩ := upAndDown_runs
  have hfair := TransSys.Behaviour.ofRun_fair hx
    (off_rests (TransSys.Reachable.exec .init upAndDown hx) hoff)
  exact ⟨.ofRun hx, rfl, calls_return _ (fun t => hfair (.thread t))
    (fun n => hfair (.waker n)) 0 14⟩

/-! ## One step

  From here on the callers are no longer asked to keep to `usage`.  What can be said is about one
  call in its join and the one thread it waits for, under any steps of the others. -/

/-- Sets `ES_SHUTDOWN`. -/
def stops : EngineEvent → Bool
  | .stopService | .stopCall _ => true
  | _ => false

/-- The statements of `mainThread` and of `service`, with the status they leave. -/
inductive MainWay (n : Nat) (status : EngineStatus) :
    MainPhase → EngineEvent → MainPhase → EngineStatus → Prop
  | lock : MainWay n status .entering (.mainLock n) .entered status
  | ready : MainWay n status .entered (.mainReady n) .readied .ES_READY
  | signal (woken : Option Thread) :
    MainWay n status .readied (.mainSignal n woken) .signalled status
  | unlock : MainWay n status .signalled (.mainUnlock n) .testing status
  | serve : status ≠ .ES_SHUTDOWN → MainWay n status .testing (.test n) .serving status
  | leave : status = .ES_SHUTDOWN → MainWay n status .testing (.test n) .ended status
  | round : MainWay n status .serving (.round n) .testing status

/-- On its way the thread leaves the status or makes it ready. -/
theorem MainWay.status {w w' : MainPhase} {st st' : EngineStatus} (h : MainWay n st w e w' st') :
    st' = st ∨ st' = .ES_READY := by
  cases h with
  | ready => exact .inr rfl
  | _ => exact .inl rfl

/-- What a step that is no stop does: to the mutex, to one call, to one thread, or to both where a
    thread is created or joined. -/
inductive Effect (s : mxEngineBase) : EngineEvent → mxEngineBase → Prop
  | mutex {e : EngineEvent} (m : mxMonitoredMutex) : Effect s e { s with mMutex := m }
  | call {e : EngineEvent} {j : Nat} {c : CallPhase} (c' : CallPhase) (m : mxMonitoredMutex) :
    s.calls j = c →
      (∀ n, c ≠ .joining n) → Effect s e { s.atCall j c' with mMutex := m }
  | create (j : Nat) :
    s.calls j = .creating → Effect s (.create j) (s.pthreadCreate.atCall j .created)
  | joined (j n : Nat) : s.calls j = .joining n → s.mains n = .ended →
      Effect s (.stopReturn j n) ((s.atMain n .joined).atCall j .idle)
  | main {e : EngineEvent} {n : Nat} {w' : MainPhase} {st : EngineStatus} (m : mxMonitoredMutex) :
      MainWay n s.mEngineStatus (s.mains n) e w' st →
      Effect s e { s.atMain n w' with mMutex := m, mEngineStatus := st }

/-- What a step does, other than the one that stops. -/
theorem step_effect (hs : s.step e = some s') (hstop : stops e = false) : Effect s e s' := by
  cases e with
  | stopService => cases hstop
  | stopCall j => cases hstop
  | startRefused j =>
    obtain ⟨-, hs⟩ := Option.ite_none_right_eq_some.mp hs
    exact Option.some.inj hs ▸ .mutex s.mMutex
  | startCall j =>
    obtain ⟨⟨hj, -⟩, hs⟩ := Option.ite_none_right_eq_some.mp hs
    exact Option.some.inj hs ▸ .call .starting s.mMutex hj nofun
  | startLock j =>
    obtain ⟨hj, hs⟩ := Option.ite_none_right_eq_some.mp hs
    obtain ⟨m, -, rfl⟩ := Option.map_eq_some_iff.mp hs
    exact .call .creating m hj nofun
  | create j =>
    obtain ⟨hj, hs⟩ := Option.ite_none_right_eq_some.mp hs
    exact Option.some.inj hs ▸ .create j hj
  | wait j =>
    obtain ⟨hj, hs⟩ := Option.ite_none_right_eq_some.mp hs
    exact Option.some.inj hs ▸ .call .waiting _ hj nofun
  | waitReturns j =>
    obtain ⟨hj, hs⟩ := Option.ite_none_right_eq_some.mp hs
    obtain ⟨m, -, rfl⟩ := Option.map_eq_some_iff.mp hs
    exact .call .started m hj nofun
  | startReturn j =>
    obtain ⟨hj, hs⟩ := Option.ite_none_right_eq_some.mp hs
    exact Option.some.inj hs ▸ .call .idle _ hj nofun
  | joinCall j =>
    obtain ⟨hj, hs⟩ := Option.ite_none_right_eq_some.mp hs
    exact Option.some.inj hs ▸ .call s.joinPhase s.mMutex hj nofun
  -- the one step of a call that moves a thread on as well: to joined
  | stopReturn j k =>
    obtain ⟨⟨hj, hk⟩, hs⟩ := Option.ite_none_right_eq_some.mp hs
    exact Option.some.inj hs ▸ .joined j k hj hk
  | wake j =>
    obtain ⟨m, -, rfl⟩ := Option.map_eq_some_iff.mp hs
    exact .mutex m
  | mainLock k =>
    obtain ⟨hk, hs⟩ := Option.ite_none_right_eq_some.mp hs
    obtain ⟨m, -, rfl⟩ := Option.map_eq_some_iff.mp hs
    exact .main m (hk ▸ .lock)
  | mainReady k =>
    obtain ⟨hk, hs⟩ := Option.ite_none_right_eq_some.mp hs
    exact Option.some.inj hs ▸ .main s.mMutex (hk ▸ .ready)
  | mainSignal k woken =>
    obtain ⟨hk, hs⟩ := Option.ite_none_right_eq_some.mp hs
    obtain ⟨m, -, rfl⟩ := Option.map_eq_some_iff.mp hs
    exact .main m (hk ▸ .signal woken)
  | mainUnlock k =>
    obtain ⟨hk, hs⟩ := Option.ite_none_right_eq_some.mp hs
    exact Option.some.inj hs ▸ .main _ (hk ▸ .unlock)
  -- `isOnService()` is read without the mutex, so the status alone decides
  | test k =>
    obtain ⟨hk, hs⟩ := Option.ite_none_right_eq_some.mp hs
    by_cases hst : s.mEngineStatus = .ES_SHUTDOWN
    · have hoff : s.isOnService = false := by simp [mxEngineBase.isOnService, hst]
      rw [hoff] at hs
      exact Option.some.inj hs ▸ .main s.mMutex (hk ▸ .leave hst)
    · have hon : s.isOnService = true := by simp [mxEngineBase.isOnService, hst]
      rw [hon] at hs
      exact Option.some.inj hs ▸ .main s.mMutex (hk ▸ .serve hst)
  | round k =>
    obtain ⟨hk, hs⟩ := Option.ite_none_right_eq_some.mp hs
    exact Option.some.inj hs ▸ .main s.mMutex (hk ▸ .round)

/-- A call in `pthread_join`, and what is known of the thread it waits for. -/
structure Joins (A : MainPhase → EngineStatus → Prop) (i n : Nat) (s : mxEngineBase) : Prop where
  /-- the call is in `pthread_join` -/
  call : s.calls i = .joining n
  /-- the thread has been created -/
  born : n < s.created
  /-- `A` is so of the thread and the status -/
  main : A (s.mains n) s.mEngineStatus

section Joins

variable {A : MainPhase → EngineStatus → Prop}

/-- A step of another call leaves the join waiting. -/
theorem Joins.call_next (h : Joins A i n s) {j : Nat} (hj : s.calls j = c) (hc : c ≠ .joining n)
    (c' : CallPhase)
    (m : mxMonitoredMutex) : Joins A i n { s.atCall j c' with mMutex := m } where
  call := by
    have hij : i ≠ j := by
      rintro rfl
      exact hc (hj.symm.trans h.call)
    exact (Function.update_of_ne hij _ _).trans h.call
  born := h.born
  main := h.main

/-- So does a step of a thread that keeps what is known of it. -/
theorem Joins.main_next (h : Joins A i n s) {k : Nat} {w : MainPhase} {st : EngineStatus}
    (m : mxMonitoredMutex)
    (hother : k ≠ n → A (s.mains n) st) (hw : k = n → A w st) :
    Joins A i n { s.atMain k w with mMutex := m, mEngineStatus := st } where
  call := h.call
  born := h.born
  main := by
    show A (Function.update s.mains k w n) st
    by_cases hk : k = n
    · subst hk
      rw [Function.update_self]
      exact hw rfl
    · rw [Function.update_of_ne (Ne.symm hk)]
      exact hother hk

/-- **Step lemma**: a call stays in its join if what is known of the thread outlasts its own steps
    and the status `ES_READY`, and keeps it from its end. -/
theorem joins_step (h : Joins A i n s) (hs : s.step e = some s') (hstop : stops e = false)
    (hown : ∀ {w w' st st'}, A w st → MainWay n st w e w' st' → A w' st')
    (hready : ∀ {w st}, A w st → A w .ES_READY) (hend : ∀ {st}, ¬ A .ended st) :
    Joins A i n s' := by
  cases step_effect hs hstop with
  | mutex m => exact ⟨h.call, h.born, h.main⟩
  | call c' m hj hc => exact h.call_next hj (hc n) c' m
  -- a new thread has another number
  | create j hj =>
    have hcall := (h.call_next hj nofun .created s.mMutex).call
    refine ⟨hcall, Nat.lt_succ_of_lt h.born, ?_⟩
    show A (Function.update s.mains s.created .entering n) s.mEngineStatus
    rw [Function.update_of_ne (Nat.ne_of_lt h.born)]
    exact h.main
  -- another join may return; this one cannot, as its thread has not ended
  | joined j k hj hk =>
    have hkn : k ≠ n := by
      rintro rfl
      exact hend (hk ▸ h.main)
    have hne : CallPhase.joining k ≠ .joining n := fun heq => hkn (CallPhase.joining.inj heq)
    have hmain := h.main_next (k := k) (w := .joined) s.mMutex (fun _ => h.main) fun heq =>
      absurd heq hkn
    exact hmain.call_next (j := j) hj hne .idle s.mMutex
  | @main _ k w' st m hway =>
    refine h.main_next m (fun _ => ?_) fun hkn => ?_
    · obtain rfl | rfl := hway.status
      · exact h.main
      · exact hready h.main
    · subst hkn
      exact hown h.main hway

/-- **Run lemma.** -/
theorem joins_exec (h : Joins A i n s) {es : List EngineEvent} (hes : ∀ e ∈ es, stops e = false)
    (hown : ∀ {e w w' st st'}, e ∈ es → A w st → MainWay n st w e w' st' → A w' st')
    (hready : ∀ {w st}, A w st → A w .ES_READY) (hend : ∀ {st}, ¬ A .ended st)
    (hs : engineSys.exec s es = some s') : Joins A i n s' := by
  induction es generalizing s with
  | nil =>
    cases hs
    exact h
  | cons e es ih =>
    obtain ⟨s1, h1, h2⟩ := Option.bind_eq_some_iff.mp hs
    have hnext := joins_step h h1 (hes e (List.mem_cons_self ..))
      (hown (List.mem_cons_self ..)) hready hend
    exact ih hnext (fun e' he' => hes e' (List.mem_cons_of_mem e he'))
      (fun he' => hown (List.mem_cons_of_mem e he')) h2

end Joins

/-! ## While a wait lasts

  Nothing in `stopEngine` ends the wait of the thread, so its join lasts as long. -/

/-- **A stop does not return before the wait of its thread has ended**: it wakes nobody, and neither
    do the others. -/
theorem stop_waits (hcall : s.calls i = .joining n) (hborn : n < s.created)
    (hmain : s.mains n = .serving)
    {es : List EngineEvent} (hes : ∀ e ∈ es, stops e = false) (hround : .round n ∉ es)
    (hrun : engineSys.exec s es = some s') : s'.calls i = .joining n ∧ s'.mains n = .serving := by
  have hwaits : Joins (fun w _ => w = .serving) i n s := ⟨hcall, hborn, hmain⟩
  have hwaits' : Joins (fun w _ => w = .serving) i n s' := by
    refine joins_exec hwaits hes ?_ id nofun hrun
    rintro e w w' st st' he rfl hway
    cases hway
    exact absurd he hround
  exact ⟨hwaits'.call, hwaits'.main⟩

/-! ## Without a signal

  A thread that has not set `ES_READY` yet will set it, and by then the stop has been and gone. -/

/-- A thread that will find `ES_READY` at its next test. -/
def Ahead (w : MainPhase) (st : EngineStatus) : Prop :=
  w = .entering ∨ w = .entered ∨ ((w = .readied ∨ w = .signalled ∨ w = .testing ∨ w = .serving) ∧
    st = .ES_READY)

/-- A thread that has yet to become ready has it ahead, or is beyond it. -/
theorem Ahead.next {w w' : MainPhase} {st st' : EngineStatus} (h : Ahead w st)
    (hway : MainWay n st w e w' st') :
    Ahead w' st' := by
  cases hway <;> simp_all [Ahead]

/-- A thread that there is has a number given by `pthread_create`. -/
theorem born_of_reachable (h : engineSys.Reachable s) : ∀ n, s.mains n ≠ .unborn →
    n < s.created := by
  refine TransSys.Runs.invariant (I := fun s => ∀ n, s.mains n ≠ .unborn → n < s.created)
    (fun n hn => absurd rfl hn) ?_ h
  intro s e s' hi hs _ n hn
  -- the two events that stop create nothing; of the others `step_effect` says what they do
  cases hstop : stops e with
  | true =>
    cases e with
    | stopService =>
      obtain rfl := Option.some.inj hs
      exact hi n hn
    | stopCall j =>
      obtain ⟨-, hs⟩ := Option.ite_none_right_eq_some.mp hs
      obtain rfl := Option.some.inj hs
      exact hi n hn
    | _ => cases hstop
  | false =>
    cases step_effect hs hstop with
    | mutex m => exact hi n hn
    | call c' m hj hc => exact hi n hn
    | create j hj =>
      have hn : Function.update s.mains s.created .entering n ≠ .unborn := hn
      by_cases hnew : n = s.created
      · exact hnew ▸ Nat.lt_succ_self _
      · rw [Function.update_of_ne hnew] at hn
        exact Nat.lt_succ_of_lt (hi n hn)
    | joined j k hj hk =>
      have hn : Function.update s.mains k .joined n ≠ .unborn := hn
      by_cases hkn : n = k
      · exact hi n (by rw [hkn, hk]; decide)
      · rw [Function.update_of_ne hkn] at hn
        exact hi n hn
    | @main _ k w' st m hway =>
      have hn : Function.update s.mains k w' n ≠ .unborn := hn
      by_cases hkn : n = k
      · refine hi n (fun hunborn => ?_)
        rw [← hkn, hunborn] at hway
        cases hway
      · rw [Function.update_of_ne hkn] at hn
        exact hi n hn

/-- **A `stopEngine` that is in its join before the thread has set `ES_READY` never returns**,
    whoever does what, if nobody stops the engine again. -/
theorem stop_lost (h : engineSys.Reachable s) (hcall : s.calls i = .joining n)
    (hmain : s.mains n = .entering ∨ s.mains n = .entered)
    {es : List EngineEvent} (hes : ∀ e ∈ es, stops e = false)
    (hrun : engineSys.exec s es = some s') :
    s'.calls i = .joining n ∧ s'.step (.stopReturn i n) = none := by
  have hborn : s.mains n ≠ .unborn := by rcases hmain with h | h <;> rw [h] <;> decide
  have hlost : Joins Ahead i n s := ⟨hcall, born_of_reachable h n hborn, hmain.imp_right .inl⟩
  have hlost' : Joins Ahead i n s' := by
    refine joins_exec hlost hes (fun _ => Ahead.next)
      (fun hw => hw.imp_right (.imp_right fun hw => ⟨hw.1, rfl⟩)) ?_ hrun
    simp [Ahead]
  refine ⟨hlost'.call, if_neg ?_⟩
  rintro ⟨-, hended⟩
  obtain h' | h' | ⟨h' | h' | h' | h', -⟩ := hlost'.main <;> rw [hended] at h' <;> cases h'

/-- `pthread_cond_wait` comes back at once, and `startEngine` with it; `stopEngine` follows, and the
    thread gets the mutex between its two statements. -/
def tooEarly : List EngineEvent :=
  [.startCall 0, .startLock 0, .create 0, .wait 0, .wake 0, .waitReturns 0, .startReturn 0,
    .stopCall 0, .mainLock 0, .joinCall 0]

/-- The thread comes up behind the stop. -/
def comesUp : List EngineEvent :=
  [.mainReady 0, .mainSignal 0 none, .mainUnlock 0, .test 0, .round 0]

def early : mxEngineBase := (engineSys.exec engineSys.init tooEarly).get (by decide)

/-- The stop that comes too early is reached. -/
theorem early_runs : engineSys.exec engineSys.init tooEarly = some early := by
  rw [early, Option.some_get]

/-- And behind it the thread comes up and the join waits for it. -/
theorem stop_lost_early : ∃ s, engineSys.exec early comesUp = some s ∧
    s.calls 0 = .joining 0 ∧ s.step (.stopReturn 0 0) = none := by
  obtain ⟨s, hs⟩ := Option.isSome_iff_exists.mp
    (show (engineSys.exec early comesUp).isSome by decide)
  exact ⟨s, hs, stop_lost (TransSys.Reachable.exec .init tooEarly early_runs) rfl (.inr rfl)
    (by decide) hs⟩

end Engine

end StevenProgram
