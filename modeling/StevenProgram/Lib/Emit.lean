/-
  Runs that emit.

  A machine is a relation `R s o s'`: one step from `s` to `s'`, with the output `o`.
  `Emits R s os s'` is a run with all it puts out, in order.  `Leads R P os Q` is the triple over
  it: from every state with `P` a run puts out exactly `os` and ends in a state with `Q`.

  Rules: nothing (`Leads.refl`), one step (`Leads.one`), one after the other (`Leads.trans`,
  `Leads.cons`), a weaker postcondition (`Leads.weaken`), and a loop over a list whose precondition
  names what is left (`Leads.forEach`).
-/

namespace Emit

variable {σ ω α : Type} {R : σ → ω → σ → Prop}

/-- A run from one state to another, and its outputs. -/
inductive Emits (R : σ → ω → σ → Prop) : σ → List ω → σ → Prop
  | done (s : σ) : Emits R s [] s
  | step {s s' s'' : σ} {o : ω} {os : List ω} :
    R s o s' → Emits R s' os s'' → Emits R s (o :: os) s''

/-- Two runs in a row. -/
theorem Emits.append {s s' s'' : σ} {os os' : List ω} (h : Emits R s os s')
    (h' : Emits R s' os' s'') :
    Emits R s (os ++ os') s'' := by
  induction h with
  | done => exact h'
  | step hR _ ih => exact .step hR (ih h')

/-- From every state with `P`, exactly the outputs `os`, to a state with `Q`. -/
def Leads (R : σ → ω → σ → Prop) (P : σ → Prop) (os : List ω) (Q : σ → Prop) : Prop :=
  ∀ s, P s → ∃ s', Emits R s os s' ∧ Q s'

namespace Leads

variable {P P' Q : σ → Prop} {os os' : List ω}

/-- A run of no steps. -/
theorem refl (P : σ → Prop) : Leads R P [] P := by
  intro s hs
  exact ⟨s, .done s, hs⟩

/-- A single step, from every state. -/
theorem one {o : ω} (h : ∀ s, P s → ∃ s', R s o s' ∧ Q s') : Leads R P [o] Q := by
  intro s hs
  obtain ⟨s', hR, hQ⟩ := h s hs
  exact ⟨s', .step hR (.done s'), hQ⟩

/-- Runs in a row, with an assertion between them. -/
theorem trans (h : Leads R P os P') (h' : Leads R P' os' Q) : Leads R P (os ++ os') Q := by
  intro s hs
  obtain ⟨s', hrun, hs'⟩ := h s hs
  obtain ⟨s'', hrun', hs''⟩ := h' s' hs'
  exact ⟨s'', hrun.append hrun', hs''⟩

/-- A step in front. -/
theorem cons {o : ω} (h : Leads R P [o] P') (h' : Leads R P' os Q) : Leads R P (o :: os) Q :=
  h.trans h'

/-- Less may be asserted at the end. -/
theorem weaken (h : Leads R P os P') (hQ : ∀ s, P' s → Q s) : Leads R P os Q := by
  intro s hs
  obtain ⟨s', hrun, hs'⟩ := h s hs
  exact ⟨s', hrun, hQ s' hs'⟩

/-- A turn for each item, from a state that has this item and the later ones before it. -/
theorem forEach {I : List α → σ → Prop} {out : α → List ω}
    (h : ∀ x xs, Leads R (I (x :: xs)) (out x) (I xs)) :
    ∀ xs, Leads R (I xs) (xs.flatMap out) (I []) := by
  intro xs
  induction xs with
  | nil => exact refl (I [])
  | cons x xs ih => exact (h x xs).trans ih

end Leads

end Emit
