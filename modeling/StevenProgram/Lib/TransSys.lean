/-
  Transition systems and what holds over their runs.

  A system is an initial state and a partial step function on labelled events; an event that is not
  enabled gives `none`.  `Runs G s` says that some run reaches `s` through steps that all meet `G`,
  a condition on the state before, the event and the state after; `Reachable` is the case without a
  condition.  `Runs.invariant` is the induction that every invariant uses, `Runs.and` the one that
  uses a first invariant for a second.  `Trace` keeps the events of a run, and `Trace.simulation`
  says that the events of one system are events of another whose steps can follow.
-/

/-- A state to begin with, and what an event makes of a state, if it can happen there. -/
structure TransSys (σ ε : Type) where
  init : σ
  step : σ → ε → Option σ

namespace TransSys

variable {σ ε : Type} {T : TransSys σ ε} {G G' : σ → ε → σ → Prop}

/-- Reached through steps that meet `G`. -/
inductive Runs (T : TransSys σ ε) (G : σ → ε → σ → Prop) : σ → Prop
  | init : Runs T G T.init
  | step {s s' : σ} {e : ε} : Runs T G s → T.step s e = some s' → G s e s' → Runs T G s'

abbrev Reachable (T : TransSys σ ε) : σ → Prop := Runs T fun _ _ _ => True

/-- **The invariant rule.** -/
theorem Runs.invariant {I : σ → Prop} (hinit : I T.init)
    (hstep : ∀ {s e s'}, I s → T.step s e = some s' → G s e s' → I s') {s : σ} (h : Runs T G s) :
    I s := by
  induction h with
  | init => exact hinit
  | step _ hs hg ih => exact hstep ih hs hg

/-- Fewer conditions, more runs. -/
theorem Runs.mono (hG : ∀ s e s', G s e s' → G' s e s') {s : σ} (h : Runs T G s) : Runs T G' s := by
  induction h with
  | init => exact .init
  | step _ hs hg ih => exact .step ih hs (hG _ _ _ hg)

/-- A guarded run is a run. -/
theorem Runs.reachable {s : σ} (h : Runs T G s) : T.Reachable s := h.mono fun _ _ _ _ => trivial

/-- A second invariant that uses what every reachable state satisfies. -/
theorem Runs.and {I J : σ → Prop} (hI : ∀ {s}, T.Reachable s → I s) (hinit : J T.init)
    (hstep : ∀ {s e s'}, I s → J s → T.step s e = some s' → G s e s' → J s') {s : σ}
    (h : Runs T G s) : J s := by
  induction h with
  | init => exact hinit
  | step hr hs hg ih => exact hstep (hI hr.reachable) ih hs hg

/-- The events in order, as long as each is enabled. -/
def exec (T : TransSys σ ε) : σ → List ε → Option σ
  | s, [] => some s
  | s, e :: es => (T.step s e).bind fun s' => T.exec s' es

/-- **What one step of `A` follows, a sequence of events follows.** -/
theorem exec_simulation {τ : Type} {A : TransSys τ ε} {R : σ → τ → Prop}
    (hstep : ∀ {s a e s'}, R s a → T.step s e = some s' → ∃ a', A.step a e = some a' ∧ R s' a') :
    ∀ {es : List ε} {s s' : σ} {a : τ}, R s a → T.exec s es = some s' → ∃ a',
      A.exec a es = some a' ∧ R s' a'
  | [], s, s', a, hr, h => by cases h; exact ⟨a, rfl, hr⟩
  | e :: es, s, s', a, hr, h => by
      obtain ⟨s1, h1, h2⟩ := Option.bind_eq_some_iff.mp h
      obtain ⟨a1, ha1, hr1⟩ := hstep hr h1
      obtain ⟨a', ha', hr'⟩ := exec_simulation hstep hr1 h2
      exact ⟨a', Option.bind_eq_some_iff.mpr ⟨a1, ha1, ha'⟩, hr'⟩

/-- So is one that is executed. -/
theorem Reachable.exec {s s' : σ} (h : T.Reachable s) :
    ∀ (es : List ε), T.exec s es = some s' → T.Reachable s'
  | [], he => by cases he; exact h
  | e :: es, he => by
      obtain ⟨s1, h1, h2⟩ := Option.bind_eq_some_iff.mp he
      exact Reachable.exec (.step h h1 trivial) es h2

/-! ## Two systems in step -/

variable {τ : Type} {A : TransSys τ ε}

/-- Both systems take every event. -/
def sync (T : TransSys σ ε) (A : TransSys τ ε) : TransSys (σ × τ) ε where
  init := (T.init, A.init)
  step s e := (T.step s.1 e).bind fun t => (A.step s.2 e).map fun a => (t, a)

/-- Both systems take the step. -/
theorem sync_step {s s' : σ × τ} {e : ε} :
    (T.sync A).step s e = some s' ↔ T.step s.1 e = some s'.1 ∧ A.step s.2 e = some s'.2 := by
  simp only [sync, Option.bind_eq_some_iff, Option.map_eq_some_iff]
  constructor
  · rintro ⟨t, ht, a, ha, rfl⟩
    exact ⟨ht, ha⟩
  · rintro ⟨ht, ha⟩
    exact ⟨s'.1, ht, s'.2, ha, rfl⟩

/-! ## Traces -/

/-- The events of a run that reaches `s` through steps that meet `G`. -/
inductive Trace (T : TransSys σ ε) (G : σ → ε → σ → Prop) : List ε → σ → Prop
  | init : Trace T G [] T.init
  | step {es : List ε} {s s' : σ} {e : ε} : Trace T G es s → T.step s e = some s' → G s e s' →
    Trace T G (es ++ [e]) s'

/-- A trace is a run whose events are kept. -/
theorem Trace.runs {es : List ε} {s : σ} (h : Trace T G es s) : Runs T G s := by
  induction h with
  | init => exact .init
  | step _ hs hg ih => exact .step ih hs hg

/-- A trace can be run again. -/
theorem Trace.exec_eq {es : List ε} {s : σ} (h : Trace T G es s) : T.exec T.init es = some s := by
  have happend :
    ∀ (es : List ε) (s : σ) (e : ε), T.exec s (es ++ [e]) = (T.exec s es).bind fun s' =>
    T.step s' e := by
    intro es
    induction es with
    | nil =>
      intro s e
      show (T.step s e).bind some = T.step s e
      exact Option.bind_fun_some _
    | cons a es ih =>
      intro s e
      show (T.step s a).bind (fun s' => T.exec s' (es ++ [e])) = _
      simp only [ih, exec, Option.bind_assoc]
  induction h with
  | init => rfl
  | step _ hs _ ih => rw [happend, ih, Option.bind_some, hs]

/-- **Simulation**: where `A` follows every step of `T`, a trace of `T` is one of `A`. -/
theorem Trace.simulation {τ : Type} {A : TransSys τ ε} {R : σ → τ → Prop} (hinit : R T.init A.init)
    (hstep : ∀ {s a e s'}, T.Reachable s → R s a → T.step s e = some s' → G s e s' → ∃ a',
      A.step a e = some a' ∧ R s' a')
    {es : List ε} {s : σ} (h : Trace T G es s) : ∃ a, Trace A (fun _ _ _ => True) es a ∧ R s a := by
  induction h with
  | init => exact ⟨A.init, .init, hinit⟩
  | step ht hs hg ih =>
    obtain ⟨a, ha, hr⟩ := ih
    obtain ⟨a', ha', hr'⟩ := hstep ht.runs.reachable hr hs hg
    exact ⟨a', .step ha ha' trivial, hr'⟩

end TransSys
