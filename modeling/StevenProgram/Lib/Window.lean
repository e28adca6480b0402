/-
  The last `n` entries of a sequence, kept in `n` slots.

  Entry `j` has the slot `j % n`.  Among `n` consecutive entries no two share a slot, so the slot of
  the oldest entry is free for the next one (`push`), and every entry of the window can be read
  (`get`).
-/
import Mathlib.Data.Nat.Init

namespace Window

variable {α : Type} {n : Nat}

/-- The slots hold the `n` entries from `t`. -/
def Holds (l : Vector α n) (V : Nat → α) (t : Nat) : Prop :=
  ∀ j (hj : j % n < n), t ≤ j → j < t + n → l[j % n] = V j

namespace Holds

variable {l : Vector α n} {V : Nat → α} {t : Nat}

/-- Each place of the window holds the latest value that belongs there. -/
theorem get (h : Holds l V t) {j i : Nat} (hi : i < n) (hji : j % n = i) (hlo : t ≤ j)
    (hhi : j < t + n) :
    l[i] = V j := by
  subst hji
  exact h j hi hlo hhi

/-- The next entry takes the slot of the oldest. -/
theorem push (h : Holds l V t) (ht : t % n < n) {v : α} (hv : v = V (t + n)) :
    Holds (l.set (t % n) v) V (t + 1) := by
  intro j hj hlo hhi
  rcases Nat.lt_or_ge j (t + n) with hold | hnew
  · -- an entry that was there, in another slot
    have hne : t % n ≠ j % n := by
      intro he
      have hzero := Nat.sub_mod_eq_zero_of_mod_eq he.symm
      rw [Nat.mod_eq_of_lt (by omega)] at hzero
      omega
    rw [Vector.getElem_set_ne _ _ hne]
    exact h j hj (Nat.le_of_succ_le hlo) hold
  · have hj' : j = t + n := by omega
    subst hj'
    rw [Vector.getElem_set, if_pos (Nat.add_mod_right t n).symm, hv]

end Holds

end Window
