/-
  Whether `select` looks for every descriptor that has a bit set.

  `service` polls descriptors up to `mMaxFd`.  `addEvent` raises it, `remEvent` lowers it by a scan
  of `mExFds`, and `modEvent` sets bits and leaves it alone: a descriptor that was paused while it
  was not the highest one, and is resumed after `remEvent` has lowered the maximum past it, is never
  polled again.  The scan itself is right, since `mExFds` has a bit wherever one of the other two
  sets has (`Polled.errors`).

  1. **Calls** — `selectSys`, with what each call does to the sets and the maximum (`exec_cases`).
  2. **The scan** — `lowerMaxFd_covers`.
  3. **Runs** — `select_covers`, with the condition `InRange` on a step, and
     `uncovered_of_not_inRange`.
-/
import StevenProgram.Net.Dispatch

namespace StevenProgram

namespace Engine

/-! ## Calls

  Only what a call does to the sets and to `mMaxFd` matters here, not what is registered. -/

/-- A new select engine, and calls that return. -/
def selectSys : TransSys mxEngineSelect EngineOp where
  init := ⟨fun _ => false, fun _ => false, fun _ => false, -1⟩
  step s op := (s.exec op).toOption.map Prod.snd

/-- A step is an operation that returns. -/
theorem selectSys_step {s s' : mxEngineSelect} {op : EngineOp} :
    selectSys.step s op = some s' ↔ ∃ res, s.exec op = .ok (res, s') := by
  show (s.exec op).toOption.map Prod.snd = some s' ↔ _
  cases s.exec op with
  | error e =>
    constructor
    · intro h
      cases h
    · rintro ⟨res, h⟩
      cases h
  | ok r =>
    constructor
    · intro h
      exact ⟨r.1, congrArg _ (Prod.ext rfl (Option.some.inj h))⟩
    · rintro ⟨res, h⟩
      rw [Except.ok.inj h]
      rfl

/-- What an enabled call does. -/
theorem exec_cases {s s' : mxEngineSelect} {op : EngineOp} (h : selectSys.step s op = some s') :
    (∀ ev n, s'.set ev n = if n = op.fd then op.asked ev else s.set ev n) ∧
    MaxAfter s s'.mExFds op s'.mMaxFd := by
  obtain ⟨res, hexec⟩ := selectSys_step.mp h
  obtain ⟨s1, hexec1, hbits, hmax⟩ := exec_total s (exec_bound hexec)
  obtain rfl : s1 = s' := (Prod.ext_iff.mp (Except.ok.inj (hexec1.symm.trans hexec))).2
  exact ⟨hbits, hmax⟩

/-! ## The scan

  From the old maximum down to the first descriptor that still has a bit in `mExFds`. -/

/-- What has a bit in `ex`, and was below the old maximum, is at most the new one. -/
theorem lowerMaxFd_covers (ex : FdSet) :
    ∀ (fd : Nat) {m : Int}, mxEngineSelect.lowerMaxFd ex fd = .ok m →
    (∀ n : Nat, ex n = true → n < fd) → ∀ n : Nat, ex n = true → (n : Int) ≤ m := by
  intro fd
  induction fd with
  | zero =>
    intro m _ hbelow n hn
    exact absurd (hbelow n hn) (Nat.not_lt_zero n)
  | succ fd ih =>
    intro m hm hbelow n hn
    have hlt := hbelow n hn
    rw [mxEngineSelect.lowerMaxFd] at hm
    split at hm
    · obtain ⟨isset, hisset, hm⟩ := Run.bind_ok.mp hm
      cases isset with
      | true =>
        obtain rfl : (fd : Int) = m := Except.ok.inj hm
        omega
      | false =>
        apply ih hm _ n hn
        intro k hk
        have hne : k ≠ fd := by
          rintro rfl
          rw [FD_ISSET] at hisset
          split at hisset
          · rw [Except.ok.inj hisset] at hk
            cases hk
          · cases hisset
        have := hbelow k hk
        omega
    · next hpos =>
      obtain rfl : 0 = m := Except.ok.inj hm
      have hzero : fd = 0 := Nat.eq_zero_of_not_pos hpos
      omega

/-! ## Runs

  `Polled` is the invariant.  Its second part is what makes the scan right, which looks at one of
  the three sets only. -/

/-- Every descriptor with a bit is at most the maximum. -/
def Covered (s : mxEngineSelect) : Prop :=
  ∀ ev (fd : Nat), s.set ev fd = true → (fd : Int) ≤ s.mMaxFd

/-- The engine between calls. -/
structure Polled (s : mxEngineSelect) : Prop where
  covered : Covered s
  errors : ∀ ev fd, s.set ev fd = true → s.mExFds fd = true

/-- `modEvent` sets no bit above the maximum. -/
def InRange (s : mxEngineSelect) : EngineOp → Prop
  | .modEvent fd event => event ≠ 0 → (fd : Int) ≤ s.mMaxFd
  | _ => True

/-- `select` leaves of a covered set what is ready. -/
theorem Covered.select {s : mxEngineSelect} (h : Covered s) {ev : Event} {fd : Nat}
    (hset : s.set ev fd = true) (ready : Fd → Bool) :
    mxEngineSelect.select (s.mMaxFd + 1).toNat (s.set ev) ready fd = ready fd := by
  have hmax := h ev fd hset
  have hlt : fd < (s.mMaxFd + 1).toNat := by omega
  rw [mxEngineSelect.select, decide_eq_true hlt, hset]
  rfl

/-- Nothing is polled at first. -/
theorem polled_init : Polled selectSys.init := by
  constructor <;> intro ev fd hset <;> cases ev <;> cases hset

/-- What is asked for has an error bit. -/
theorem asked_error {op : EngineOp} {ev : Event} (h : op.asked ev = true) :
    op.asked .error = true := by
  cases op with
  | addEvent fd event => exact bne_iff_ne.mpr (ne_zero_of_asks h)
  | modEvent fd event => exact bne_iff_ne.mpr (ne_zero_of_asks h)
  | remEvent fd => cases h

/-- What a step sets is in the set of errors, too. -/
theorem errors_step {s s' : mxEngineSelect} {op : EngineOp} (h : Polled s)
    (hs : selectSys.step s op = some s') (ev : Event) (fd : Fd)
    (hset : s'.set ev fd = true) : s'.mExFds fd = true := by
  obtain ⟨hbits, -⟩ := exec_cases hs
  show s'.set .error fd = true
  rw [hbits] at hset ⊢
  by_cases hfd : fd = op.fd
  · rw [if_pos hfd] at hset ⊢
    exact asked_error hset
  · rw [if_neg hfd] at hset ⊢
    exact h.errors ev fd hset

/-- **Step lemma.** -/
theorem polled_step {s s' : mxEngineSelect} {op : EngineOp} (h : Polled s)
    (hs : selectSys.step s op = some s') (hg : InRange s op) :
    Polled s' := by
  have herrors := errors_step h hs
  obtain ⟨hbits, hmax⟩ := exec_cases hs
  refine ⟨fun ev fd hset => ?_, herrors⟩
  -- the bit is the call's, or it was there before
  have hbit : (fd = op.fd ∧ op.asked ev = true) ∨ (fd ≠ op.fd ∧ (fd : Int) ≤ s.mMaxFd) := by
    have hset := hset
    rw [hbits] at hset
    by_cases hfd : fd = op.fd
    · rw [if_pos hfd] at hset
      exact .inl ⟨hfd, hset⟩
    · rw [if_neg hfd] at hset
      exact .inr ⟨hfd, h.covered ev fd hset⟩
  generalize s'.mMaxFd = m at hmax ⊢
  cases hmax with
  | added hevent =>
    rcases hbit with ⟨rfl, -⟩ | ⟨-, hle⟩
    · exact Int.le_max_left _ _
    · exact Int.le_trans hle (Int.le_max_right _ _)
  | paused =>
    rcases hbit with ⟨-, hask⟩ | ⟨-, hle⟩
    · exact absurd rfl (ne_zero_of_asks hask)
    · exact hle
  | modified =>
    rcases hbit with ⟨rfl, hask⟩ | ⟨-, hle⟩
    · exact hg (ne_zero_of_asks hask)
    · exact hle
  | @lowered top m hfd hscan =>
    apply lowerMaxFd_covers _ _ hscan _ fd (herrors ev fd hset)
    intro n hn
    have hn : s'.set .error n = true := hn
    rw [hbits] at hn
    split at hn
    · cases hn
    · next hne =>
      have hle := h.covered .error n hn
      have hne : n ≠ (top : Nat) := hne
      omega
  | kept hfd =>
    rcases hbit with ⟨-, hask⟩ | ⟨-, hle⟩
    · cases hask
    · exact hle

/-- A step out of range leaves a bit that is not polled. -/
theorem uncovered_of_not_inRange {s s' : mxEngineSelect} {op : EngineOp}
    (hs : selectSys.step s op = some s') (hg : ¬ InRange s op) :
    ¬ Covered s' := by
  cases op with
  | addEvent fd event => exact absurd trivial hg
  | remEvent fd => exact absurd trivial hg
  | modEvent fd event =>
    obtain ⟨hevent, hfd⟩ := Classical.not_imp.mp hg
    obtain ⟨hbits, hmax⟩ := exec_cases hs
    intro hcovered
    have hset :
      s'.set .error fd = true := (hbits .error fd).trans
      ((if_pos rfl).trans (bne_iff_ne.mpr hevent))
    have hle := hcovered .error fd hset
    generalize s'.mMaxFd = m at hmax hle
    cases hmax with
    | modified => exact hfd hle

/-- **In a run on descriptors in range everything set is polled.** -/
theorem polled_of_runs {s : mxEngineSelect} (h : selectSys.Runs (fun s op _ => InRange s op) s) :
    Polled s :=
  TransSys.Runs.invariant polled_init polled_step h

/-- **Every watched descriptor is polled as long as `modEvent` sets no bit above the maximum**, and
    not after a step that does. -/
theorem select_covers {s : mxEngineSelect} (h : selectSys.Runs (fun s op _ => InRange s op) s) :
    (∀ ev fd, s.set ev fd = true → (fd : Int) ≤ s.mMaxFd ∧
      ∀ ready, mxEngineSelect.select (s.mMaxFd + 1).toNat (s.set ev) ready fd = ready fd) ∧
    ∀ op, op.fd < FD_SETSIZE → ∃ s', selectSys.step s op = some s' ∧
    (Covered s' ↔ InRange s op) := by
  have hpolled := polled_of_runs h
  constructor
  · intro ev fd hset
    exact ⟨hpolled.covered ev fd hset, hpolled.covered.select hset⟩
  · intro op hfd
    obtain ⟨s', hexec, -⟩ := exec_total s hfd
    have hs := selectSys_step.mpr ⟨0, hexec⟩
    refine ⟨s', hs, ?_, fun hg => (polled_step hpolled hs hg).covered⟩
    intro hcovered
    by_contra hg
    exact uncovered_of_not_inRange hs hg hcovered

/-- Descriptors 5 and 3 are added, 5 is paused, resumed and removed. -/
theorem select_covers_resumed :
    ∃ s, selectSys.exec selectSys.init [.addEvent 5 EVENT_READ, .addEvent 3 EVENT_WRITE,
      .modEvent 5 0,
      .modEvent 5 EVENT_READ, .remEvent 5] = some s ∧ s.set .write 3 = true ∧
    ((3 : Int) ≤ s.mMaxFd ∧ ∀ ready, mxEngineSelect.select (s.mMaxFd + 1).toNat
      (s.set .write) ready 3 = ready 3) := by
  have h0 : selectSys.Runs (fun s op _ => InRange s op) _ := .init
  have h1 := h0.step (e := EngineOp.addEvent 5 EVENT_READ) rfl trivial
  have h2 := h1.step (e := EngineOp.addEvent 3 EVENT_WRITE) rfl trivial
  have h3 := h2.step (e := EngineOp.modEvent 5 0) rfl (fun h => absurd rfl h)
  have h4 := h3.step (e := EngineOp.modEvent 5 EVENT_READ) rfl (fun _ => Int.le_refl 5)
  have h5 := h4.step (e := EngineOp.remEvent 5) rfl trivial
  exact ⟨_, rfl, rfl, (select_covers h5).1 .write 3 rfl⟩

/-- Descriptor 5 is added with no events, and then resumed: the maximum is still -1. -/
theorem resumed_unpolled : ¬ ∀ s, selectSys.Reachable s → ∀ ev fd, s.set ev fd = true →
    (fd : Int) ≤ s.mMaxFd := by
  intro hall
  have h0 : selectSys.Reachable _ := .init
  have h1 := h0.step (e := EngineOp.addEvent 5 0) rfl trivial
  have h2 := h1.step (e := EngineOp.modEvent 5 EVENT_READ) rfl trivial
  exact absurd (hall _ h2 .read 5 rfl) (by decide)

end Engine

end StevenProgram
