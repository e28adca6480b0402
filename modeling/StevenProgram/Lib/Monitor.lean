/-
  A mutex with a condition variable, as POSIX has them.

  To wait is to give the mutex up and join those that wait, in one step.  It ends in a second one,
  when the thread no longer waits and the mutex is free: `unpark`.  `notify` takes one of those that
  wait, whichever, or nobody if nobody waits; `wake` is what happens without it.  A step that cannot
  be taken now is `none`.

  `Guards m inside` says that the threads inside are the one that has the mutex.
-/

/-- The owner of the mutex, and who waits on the condition. -/
structure Monitor (τ : Type) where
  owner : Option τ
  waiting : List τ

namespace Monitor

variable {τ : Type} {m m' : Monitor τ} {t u : τ}

/-- No owner, nobody waiting. -/
def free : Monitor τ := ⟨none, []⟩

/-- `none` while somebody has the mutex. -/
def acquire (t : τ) (m : Monitor τ) : Option (Monitor τ) :=
  if m.owner = none then some { m with owner := some t } else none

/-- The mutex is free again; who waits goes on waiting. -/
def release (m : Monitor τ) : Monitor τ := { m with owner := none }

/-- The owner gives the mutex back and waits, in one step. -/
def park (t : τ) (m : Monitor τ) : Monitor τ := ⟨none, m.waiting ++ [t]⟩

/-- All that wait are woken. -/
def notifyAll (m : Monitor τ) : Monitor τ := { m with waiting := [] }

section Waiting

variable [DecidableEq τ]

/-- One of those that wait goes on by itself. -/
def wake (t : τ) (m : Monitor τ) : Option (Monitor τ) :=
  if t ∈ m.waiting then some { m with waiting := m.waiting.erase t } else none

/-- One of those that wait is woken, if there is any. -/
def notify : Option τ → Monitor τ → Option (Monitor τ)
  | none, m => if m.waiting = [] then some m else none
  | some t, m => m.wake t

def unpark (t : τ) (m : Monitor τ) : Option (Monitor τ) :=
  if t ∈ m.waiting then none else m.acquire t

end Waiting

/-! ## What a step was -/

/-- A mutex that is free can be had. -/
theorem acquire_eq_some :
    m.acquire t = some m' ↔ m.owner = none ∧ m' = { m with owner := some t } := by
  rw [acquire, Option.ite_none_right_eq_some, Option.some.injEq, eq_comm (a := m')]

/-- A wake-up is for somebody who waits. -/
theorem wake_eq_some [DecidableEq τ] :
    m.wake t = some m' ↔ t ∈ m.waiting ∧ m' = { m with waiting := m.waiting.erase t } := by
  rw [wake, Option.ite_none_right_eq_some, Option.some.injEq, eq_comm (a := m')]

/-- And who was woken has to get the mutex back. -/
theorem unpark_eq_some [DecidableEq τ] : m.unpark t = some m' ↔ t ∉ m.waiting ∧ m.owner = none ∧
    m' = { m with owner := some t } := by
  rw [unpark, Option.ite_none_left_eq_some, acquire_eq_some]

/-! ## The threads inside -/

/-- The threads inside are the one that has the mutex. -/
def Guards (m : Monitor τ) (inside : τ → Prop) : Prop := ∀ t, inside t ↔ m.owner = some t

variable {inside inside' : τ → Prop}

/-- One thread at a time is inside. -/
theorem Guards.unique (h : m.Guards inside) (ht : inside t) (hu : inside u) : t = u :=
  Option.some.inj (((h t).mp ht).symm.trans ((h u).mp hu))

/-- What counts as inside may be told in another way. -/
theorem Guards.congr (h : m.Guards inside) (hin : ∀ t, inside' t ↔ inside t) : m.Guards inside' :=
  fun t => (hin t).trans (h t)

/-- Who waits does not matter to that. -/
theorem Guards.waiting (h : m.Guards inside) (howner : m'.owner = m.owner) : m'.Guards inside :=
  fun t => by rw [howner]; exact h t

/-- The mutex was free, and one thread has gone in. -/
theorem Guards.enter (h : m.Guards inside) (howner : m.owner = none)
    (hin : ∀ u, inside' u ↔ u = t ∨ inside u) :
    Guards { m with owner := some t } inside' := by
  intro u
  rw [hin, h u, howner]
  constructor
  · rintro (rfl | hu)
    · rfl
    · cases hu
  · intro hu
    exact .inl (Option.some.inj hu).symm

/-- The thread that was inside has left. -/
theorem Guards.leave (h : m.Guards inside) (ht : inside t) (waiting : List τ)
    (hin : ∀ u, inside' u ↔ inside u ∧ u ≠ t) :
    Guards ⟨none, waiting⟩ inside' := by
  intro u
  rw [hin]
  constructor
  · rintro ⟨hu, hne⟩
    exact absurd (h.unique hu ht) hne
  · intro hu
    cases hu

end Monitor
