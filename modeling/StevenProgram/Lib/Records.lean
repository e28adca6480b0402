/-
  Records one behind the other.

  A `Framing` says how the first record of a string is taken off: the record, and what stands behind
  it, which is always shorter.  So every string splits into the records at its front and what is
  left over, where no further record begins.

  `records` and `leftover` are computed with the length as fuel; their equations (`records_none`,
  `records_some`, and the same for `leftover`) are the recursion without it, and `Framing.induction`
  is the induction that goes with them.
-/

namespace Records

/-- How the first record is taken off. -/
structure Framing (α ρ : Type) where
  first : List α → Option (ρ × List α)
  shrinks : ∀ {s rest : List α} {r : ρ}, first s = some (r, rest) → rest.length < s.length

namespace Framing

variable {α ρ : Type} (F : Framing α ρ)

/-- At most `n` records, and what is left. -/
def split : Nat → List α → List ρ × List α
  | 0, s => ([], s)
  | n + 1, s =>
      match F.first s with
      | none => ([], s)
      | some (r, rest) => (r :: (split n rest).1, (split n rest).2)

/-- The records at the front. -/
def records (s : List α) : List ρ := (F.split s.length s).1

/-- What stands behind them. -/
def leftover (s : List α) : List α := (F.split s.length s).2

/-- **Induction over the records.** -/
theorem induction {P : List α → Prop} (hnone : ∀ s, F.first s = none → P s)
    (hsome : ∀ s r rest, F.first s = some (r, rest) → P rest → P s) (s : List α) : P s := by
  suffices h : ∀ n s, s.length ≤ n → P s from h s.length s (Nat.le_refl _)
  intro n
  induction n with
  | zero =>
    intro s hs
    cases hfirst : F.first s with
    | none => exact hnone s hfirst
    | some p => exact absurd (Nat.lt_of_lt_of_le (F.shrinks hfirst) hs) (Nat.not_lt_zero _)
  | succ n ih =>
    intro s hs
    cases hfirst : F.first s with
    | none => exact hnone s hfirst
    | some p =>
      exact hsome s p.1 p.2 hfirst
        (ih p.2 (Nat.le_of_lt_succ (Nat.lt_of_lt_of_le (F.shrinks hfirst) hs)))

/-- As many records as there are symbols are enough. -/
theorem split_eq :
    ∀ (n : Nat) (s : List α), s.length ≤ n → F.split n s = (F.records s, F.leftover s) := by
  suffices h :
    ∀ (n m : Nat) (s : List α), s.length ≤ n → s.length ≤ m → F.split n s = F.split m s by
    intro n s hn
    exact h n s.length s hn (Nat.le_refl _)
  intro n
  induction n with
  | zero =>
    intro m s hn hm
    cases m with
    | zero => rfl
    | succ m =>
      have hfirst : F.first s = none := by
        cases hfirst : F.first s with
        | none => rfl
        | some p => exact absurd (Nat.lt_of_lt_of_le (F.shrinks hfirst) hn) (Nat.not_lt_zero _)
      simp only [split, hfirst]
  | succ n ih =>
    intro m s hn hm
    cases hfirst : F.first s with
    | none => cases m <;> simp only [split, hfirst]
    | some p =>
      have hlt := F.shrinks hfirst
      cases m with
      | zero => exact absurd (Nat.lt_of_lt_of_le hlt hm) (Nat.not_lt_zero _)
      | succ m => simp only [split, hfirst, ih m p.2 (by omega) (by omega)]

variable {F} {s rest : List α} {r : ρ}

/-- Without a first record there is none. -/
theorem records_none (h : F.first s = none) : F.records s = [] := by
  rw [records]
  cases s.length with
  | zero => rfl
  | succ n => rw [split, h]

/-- And everything is left over. -/
theorem leftover_none (h : F.first s = none) : F.leftover s = s := by
  rw [leftover]
  cases s.length with
  | zero => rfl
  | succ n => rw [split, h]

/-- The first record is taken off. -/
theorem split_some (h : F.first s = some (r, rest)) :
    F.split s.length s = (r :: F.records rest, F.leftover rest) := by
  have hlt := F.shrinks h
  obtain ⟨n, hn⟩ : ∃ n, s.length = n + 1 := ⟨s.length - 1, by omega⟩
  rw [hn, split, h]
  simp only [F.split_eq n rest (by omega)]

/-- The first record, and those of what is behind it. -/
theorem records_some (h : F.first s = some (r, rest)) : F.records s = r :: F.records rest := by
  rw [records, split_some h]

/-- Where the rest is left over. -/
theorem leftover_some (h : F.first s = some (r, rest)) : F.leftover s = F.leftover rest := by
  rw [leftover, split_some h]

end Framing

end Records
