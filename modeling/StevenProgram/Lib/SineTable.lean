/-
  Tables of the integer parts of `2 ^ 32 * |sin n|`, checked by integers.

  `exp i` is within `2 ^ -60` of a Gaussian number `w`, its Taylor polynomial of degree 19
  (`exp_close`). Both have norm at most 1, so their `n`-th powers are within `n * 2 ^ -60` of one
  another (`pow_close`), and the imaginary parts of these are `sin n` and a fraction over `d ^ n`.
  An entry `t` is right if that fraction lies far enough inside `[t, t + 1)`, which is a test on
  integers (`Row`).
-/
import Mathlib.Analysis.Complex.Exponential
import Mathlib.Analysis.Complex.Trigonometric
import Mathlib.Tactic.NormNum
import Mathlib.Tactic.Linarith

namespace SineTable

open Complex Finset

/-! ## The Gaussian number

  A fraction with a denominator that is known, so its powers are computed by integers alone. -/

abbrev d : Nat := 121645100408832000
abbrev a : Int := 65725128248453315
abbrev b : Int := 102360822438075317

noncomputable def w : ℂ := ⟨a / d, b / d⟩

/-- The Taylor polynomial and its error. -/
theorem exp_close : ‖exp I - w‖ ≤ 1 / 2 ^ 60 := by
  have htaylor : ∑ m ∈ range 20, I ^ m / (m.factorial : ℂ) = w := by
    have hturn : ∀ k, I ^ (k + 4) = I ^ k := by
      intro k
      rw [pow_add, I_pow_four, mul_one]
    rw [w, mk_eq_add_mul_I]
    simp only [sum_range_succ, sum_range_zero, hturn, pow_zero, pow_one, I_sq, I_pow_three,
      Nat.factorial]
    norm_num
    ring
  have h := exp_bound (x := I) (by rw [norm_I]) (n := 20) (by decide)
  rw [htaylor, norm_I, one_pow, one_mul] at h
  refine h.trans ?_
  norm_num [Nat.factorial]

/-- The approximation of the rotation does not leave the unit disc, so its powers do not grow. -/
theorem norm_w_le : ‖w‖ ≤ 1 := by
  have hsq : ‖w‖ ^ 2 ≤ 1 ^ 2 := by
    rw [Complex.sq_norm, w, normSq_mk]
    norm_num
  exact le_of_sq_le_sq hsq zero_le_one

/-- Powers of close numbers in the unit disc. -/
theorem pow_close {z u : ℂ} {δ : ℝ} (hz : ‖z‖ ≤ 1) (hu : ‖u‖ ≤ 1) (h : ‖z - u‖ ≤ δ) :
    ∀ n : Nat, ‖z ^ n - u ^ n‖ ≤ n * δ
  | 0 => by simp
  | n + 1 => by
      have hsplit : z ^ (n + 1) - u ^ (n + 1) = z ^ n * (z - u) + (z ^ n - u ^ n) * u := by ring
      calc ‖z ^ (n + 1) - u ^ (n + 1)‖ ≤ ‖z ^ n * (z - u)‖ + ‖(z ^ n - u ^ n) * u‖ := by
            rw [hsplit]
            exact norm_add_le _ _
        _ ≤ 1 * δ + (n * δ) * 1 := by
            rw [Complex.norm_mul, Complex.norm_mul, Complex.norm_pow]
            have hδ : 0 ≤ δ := (norm_nonneg _).trans h
            have hpow := pow_le_one₀ (n := n) (norm_nonneg z) hz
            have ih := pow_close hz hu h n
            gcongr
        _ = ((n + 1 : Nat) : ℝ) * δ := by push_cast; ring

/-! ## Its powers

  An error grows by a factor of `n` only, since nothing has a norm above 1. -/

/-- The numerators of `w ^ n` over `d ^ n`. -/
def gpow : Nat → Int × Int
  | 0 => (1, 0)
  | n + 1 =>
      let p := gpow n
      (a * p.1 - b * p.2, a * p.2 + b * p.1)

/-- Its powers are computed over the integers. -/
theorem pow_w (n : Nat) : w ^ n = ⟨(gpow n).1 / d ^ n, (gpow n).2 / d ^ n⟩ := by
  induction n with
  | zero => apply Complex.ext <;> simp [gpow]
  | succ n ih =>
    rw [pow_succ, ih, w]
    apply Complex.ext
    · simp only [mul_re, gpow]
      push_cast
      field_simp
      ring
    · simp only [mul_im, gpow]
      push_cast
      field_simp
      ring

/-- The error of the power is at most n times that of the rotation. -/
theorem sin_close (n : Nat) : |Real.sin n - (gpow n).2 / d ^ n| ≤ n * (1 / 2 ^ 60) := by
  have hexp : exp I ^ n = exp ((n : ℝ) * I) := by
    rw [ofReal_natCast, exp_nat_mul]
  have him : (exp I ^ n - w ^ n).im = Real.sin n - (gpow n).2 / d ^ n := by
    rw [hexp, pow_w, sub_im, exp_ofReal_mul_I_im]
  have hnorm : ‖exp I‖ ≤ 1 := by
    have h := norm_exp_ofReal_mul_I 1
    rw [ofReal_one, one_mul] at h
    exact h.le
  rw [← him]
  exact (abs_im_le_norm _).trans (pow_close hnorm norm_w_le exp_close n)

/-! ## Entries

  The test leaves a margin for the error.  It decides every entry of the table that it is used for,
  though not every number there could be. -/

/-- The entry `t` for `n`, with room for the error on both sides. -/
def Row (n t : Nat) : Prop :=
  t * d ^ n * 2 ^ 60 + 2 ^ 32 * n * d ^ n ≤ 2 ^ 92 * (gpow n).2.natAbs ∧
  2 ^ 92 * (gpow n).2.natAbs + 2 ^ 32 * n * d ^ n < (t + 1) * d ^ n * 2 ^ 60

instance (n t : Nat) : Decidable (Row n t) := inferInstanceAs (Decidable (_ ∧ _))

/-- A row that leaves room for the error gives the constant. -/
theorem floor_eq {n t : Nat} (h : Row n t) : ⌊2 ^ 32 * |Real.sin n|⌋₊ = t := by
  have hd : (0 : ℝ) < d ^ n := by positivity
  have hclose : |(|Real.sin n| - |((gpow n).2 / d ^ n : ℝ)|)| ≤ n * (1 / 2 ^ 60) :=
    (abs_abs_sub_abs_le _ _).trans (sin_close n)
  have hfrac : ((gpow n).2.natAbs : ℝ) = |((gpow n).2 / d ^ n : ℝ)| * d ^ n := by
    rw [abs_div, abs_of_pos hd, div_mul_cancel₀ _ hd.ne', Nat.cast_natAbs, Int.cast_abs]
  obtain ⟨hlo, hhi⟩ := abs_le.mp hclose
  -- the two tests, over the common denominator
  have hlow : (t : ℝ) * 2 ^ 60 + 2 ^ 32 * n ≤ 2 ^ 92 * |((gpow n).2 / d ^ n : ℝ)| := by
    have hrow : (t : ℝ) * d ^ n * 2 ^ 60 + 2 ^ 32 * n * d ^ n ≤ 2 ^ 92 * (gpow n).2.natAbs := by
      exact_mod_cast h.1
    rw [hfrac] at hrow
    refine le_of_mul_le_mul_right ?_ hd
    linarith
  have hhigh : 2 ^ 92 * |((gpow n).2 / d ^ n : ℝ)| + 2 ^ 32 * n < (t + 1 : ℝ) * 2 ^ 60 := by
    have hrow :
      2 ^ 92 * ((gpow n).2.natAbs : ℝ) + 2 ^ 32 * n * d ^ n < (t + 1) * d ^ n * 2 ^ 60 := by
      exact_mod_cast h.2
    rw [hfrac] at hrow
    refine lt_of_mul_lt_mul_right ?_ hd.le
    linarith
  rw [Nat.floor_eq_iff (by positivity)]
  constructor <;> linarith

/-- **A table of sines**: entry `i` belongs to `sin (i + 1)`. -/
structure Table (m : Nat) where
  entries : List (BitVec 32)
  sines : ∀ i < m, (entries.getD i 0).toNat = ⌊2 ^ 32 * |Real.sin ((i + 1 : Nat) : ℝ)|⌋₊

/-- A table is right if its rows are. -/
def Table.ofRows {m : Nat} (entries : List (BitVec 32))
    (h : ∀ i < m, Row (i + 1) (entries.getD i 0).toNat) : Table m where
  entries := entries
  sines i hi := (floor_eq (h i hi)).symm

end SineTable
