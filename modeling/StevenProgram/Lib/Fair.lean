/-
  Fair behaviours of a transition system.

  A behaviour is an infinite run; between two of its states lies an event or nothing.  An event is
  the business of at most one actor, and the behaviour is weakly fair when an actor that can go on
  from some time on does so at some time. `Behaviour.leadsTo` is the rule by which something happens
  at last: as long as it has not, some actor helps; what it does lowers a rank, and what others do
  raises the rank no more than it changes who helps.
-/
import Mathlib.Data.Nat.Init
import StevenProgram.Lib.TransSys

namespace TransSys

variable {σ ε α : Type} {T : TransSys σ ε}

/-- An infinite run, in which nothing may happen for a while or for ever. -/
structure Behaviour (T : TransSys σ ε) where
  state : Nat → σ
  event : Nat → Option ε
  starts : state 0 = T.init
  rests : ∀ {n}, event n = none → state (n + 1) = state n
  steps : ∀ {n e}, event n = some e → T.step (state n) e = some (state (n + 1))

/-- Some event of `a` can happen. -/
def CanAct (T : TransSys σ ε) (actor : ε → Option α) (a : α) (s : σ) : Prop :=
  ∃ e s', actor e = some a ∧ T.step s e = some s'

namespace Behaviour

variable (b : Behaviour T)

/-- Every state of a behaviour is reachable. -/
theorem reachable (n : Nat) : T.Reachable (b.state n) := by
  induction n with
  | zero => rw [b.starts]; exact .init
  | succ n ih =>
    cases he : b.event n with
    | none => rw [b.rests he]; exact ih
    | some e => exact .step ih (b.steps he) trivial

/-- An actor that can go on from some time on does so. -/
def FairTo (actor : ε → Option α) (a : α) : Prop :=
  ∀ n, (∀ m, n ≤ m → T.CanAct actor a (b.state m)) → ∃ m e, n ≤ m ∧ b.event m = some e ∧
    actor e = some a

/-- Every actor that can go on from some time on does so at some time. -/
def WeaklyFair (actor : ε → Option α) : Prop := ∀ a, b.FairTo actor a

section LeadsTo

variable {b} {actor : ε → Option α} {P : Nat → α → σ → Prop} {Q : σ → Prop}

/-- **The rank rule.**  `P r a s` says that at `s` the rank is `r` and `a` helps. -/
theorem leadsTo (hfair : b.WeaklyFair actor) (hcan : ∀ {r a s}, P r a s → T.CanAct actor a s)
    (hstep : ∀ {r a s e s'}, P r a s → T.step s e = some s' →
      Q s' ∨ ∃ r' a', P r' a' s' ∧ (r' < r ∨ (r' = r ∧ a' = a ∧ actor e ≠ some a)))
    {r : Nat} {a : α} {n : Nat} (h : P r a (b.state n)) : ∃ m, n ≤ m ∧ Q (b.state m) := by
  induction r using Nat.strong_induction_on generalizing a n with
  | _ r ih =>
    refine Classical.byContradiction fun hno => ?_
    -- nothing lowers the rank, or the rule would apply from there
    have hserves : ∀ m e, n ≤ m → P r a (b.state m) → b.event m = some e → P r a (b.state (m + 1)) ∧
      actor e ≠ some a := by
      intro m e hm hp he
      rcases hstep hp (b.steps he) with hq | ⟨r', a', hp', hlt | ⟨rfl, rfl, hother⟩⟩
      · exact absurd ⟨m + 1, Nat.le_succ_of_le hm, hq⟩ hno
      · obtain ⟨m', hm', hq⟩ := ih r' hlt hp'
        exact absurd ⟨m', Nat.le_trans (Nat.le_succ_of_le hm) hm', hq⟩ hno
      · exact ⟨hp', hother⟩
    have hstay : ∀ m, n ≤ m → P r a (b.state m) := by
      intro m hm
      induction m, hm using Nat.le_induction with
      | base => exact h
      | succ m hm ihm =>
        cases he : b.event m with
        | none => rw [b.rests he]; exact ihm
        | some e => exact (hserves m e hm ihm he).1
    obtain ⟨m, e, hm, he, hactor⟩ := hfair a n fun m hm => hcan (hstay m hm)
    exact (hserves m e hm (hstay m hm) he).2 hactor

end LeadsTo

/-! ## A finite run

  A run that ends where nobody can go on is a behaviour, with nothing happening behind it; it is
  fair to everybody. -/

/-- The states of a run that rests at its end. -/
def runState (T : TransSys σ ε) : σ → List ε → Nat → σ
  | s, [], _ => s
  | s, _ :: _, 0 => s
  | s, e :: es, n + 1 => (T.step s e).elim s fun s' => runState T s' es n

/-- The run begins at its first state. -/
theorem runState_zero (s : σ) (es : List ε) : runState T s es 0 = s := by cases es <;> rfl

variable {es : List ε} {s s' : σ} {n : Nat}

/-- Takes its events one by one. -/
theorem runState_step {e : ε} (h : T.exec s es = some s') (he : es[n]? = some e) :
    T.step (runState T s es n) e = some (runState T s es (n + 1)) := by
  induction es generalizing s n with
  | nil => cases he
  | cons a es ih =>
    obtain ⟨s1, h1, h2⟩ := Option.bind_eq_some_iff.mp h
    have hnext : ∀ k, runState T s (a :: es) (k + 1) = runState T s1 es k := by
      intro k
      rw [runState, h1]
      rfl
    cases n with
    | zero =>
      obtain rfl := Option.some.inj he
      rw [runState_zero, hnext, runState_zero, h1]
    | succ n =>
      rw [hnext, hnext]
      exact ih h2 he

/-- And stays at its last state. -/
theorem runState_end (h : T.exec s es = some s') (hn : es.length ≤ n) : runState T s es n = s' := by
  induction es generalizing s n with
  | nil => exact Option.some.inj h
  | cons a es ih =>
    obtain ⟨s1, h1, h2⟩ := Option.bind_eq_some_iff.mp h
    cases n with
    | zero => cases hn
    | succ n =>
      rw [runState, h1]
      exact ih h2 (Nat.le_of_succ_le_succ hn)

/-- A run, and rest behind it. -/
def ofRun (h : T.exec T.init es = some s) : Behaviour T where
  state := runState T T.init es
  event n := es[n]?
  starts := runState_zero _ _
  rests hn := by
    have hlen := List.getElem?_eq_none_iff.mp hn
    rw [runState_end h hlen, runState_end h (Nat.le_succ_of_le hlen)]
  steps he := runState_step h he

/-- It is fair when nobody can go on at its end. -/
theorem ofRun_fair (h : T.exec T.init es = some s) {actor : ε → Option α}
    (hend : ∀ a, ¬ T.CanAct actor a s) :
    (ofRun h).WeaklyFair actor := by
  intro a n hcan
  have hlast := hcan (max n es.length) (Nat.le_max_left ..)
  rw [show (ofRun h).state (max n es.length) = s from runState_end h (Nat.le_max_right ..)] at hlast
  exact absurd hlast (hend a)

end Behaviour

end TransSys
