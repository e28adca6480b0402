/-
  The first bits behind the binary point of roots of primes, and tables of them checked by integers.

  1. **Roots** — `fracBits k w p`: bits `1` to `w` of the fractional part of the `k`-th root of `p`.
     An entry of a table is right if the powers of two neighbouring integers enclose
     `p * 2 ^ (k * w)` (`fracBits_eq`).
  2. **Primes** — the primes below a bound in order are `Nat.nth Nat.Prime` (`nth_eq_filter`), here
     the first eighty.
  3. **Tables** (`IsTable`) — both at once, as one decidable test.
-/
import Mathlib.Analysis.SpecialFunctions.Pow.NthRootLemmas
import Mathlib.Data.Nat.Nth
import Mathlib.Data.Nat.Prime.Basic

namespace PrimeRoots

variable {k w p r : Nat} {b : BitVec w}

/-! ## Roots -/

/-- The first bits of a fractional part. -/
def fracBits (k w p : Nat) : BitVec w := BitVec.ofNat w (Nat.nthRoot k (p * 2 ^ (k * w)))

/-- The `k`-th root of `p` lies between `r.b` and the next fraction of `w` bits. -/
def Encloses (k p r : Nat) (b : BitVec w) : Prop :=
  (r * 2 ^ w + b.toNat) ^ k ≤ p * 2 ^ (k * w) ∧ p * 2 ^ (k * w) < (r * 2 ^ w + b.toNat + 1) ^ k

instance : Decidable (Encloses k p r b) := inferInstanceAs (Decidable (_ ∧ _))

/-- Bounds on the power determine the bits of a root. -/
theorem fracBits_eq (h : Encloses k p r b) : fracBits k w p = b := by
  rw [fracBits, Nat.nthRoot_eq_of_le_of_lt h.1 h.2]
  refine BitVec.eq_of_toNat_eq ?_
  rw [BitVec.toNat_ofNat, Nat.mul_add_mod_self_right, Nat.mod_eq_of_lt b.isLt]

/-! ## Primes -/

/-- What satisfies `q`, listed in order, is what `nth` counts. -/
theorem nth_eq_filter (q : Nat → Prop) [DecidablePred q] :
    ∀ (n t : Nat), t < ((List.range n).filter q).length →
    Nat.nth q t = ((List.range n).filter q).getD t 0
  | 0, t, h => by simp at h
  | n + 1, t, h => by
      have hcount : ((List.range n).filter q).length = Nat.count q n := by
        rw [Nat.count, List.countP_eq_length_filter]
      rw [List.range_succ, List.filter_append] at h ⊢
      rcases Nat.lt_or_ge t ((List.range n).filter q).length with hlt | hge
      · rw [nth_eq_filter q n t hlt, List.getD_eq_getElem?_getD, List.getD_eq_getElem?_getD,
          List.getElem?_append_left hlt]
      · by_cases hq : q n
        · rw [List.length_append, List.filter_cons_of_pos (by simpa using hq), List.filter_nil,
            List.length_singleton] at h
          have ht : t = ((List.range n).filter q).length := by omega
          rw [List.filter_cons_of_pos (by simpa using hq), List.filter_nil,
            List.getD_eq_getElem?_getD, List.getElem?_append_right hge,
            ht, Nat.sub_self, hcount, Nat.nth_count hq]
          rfl
        · rw [List.length_append, List.filter_cons_of_neg (by simpa using hq), List.filter_nil,
            List.length_nil] at h
          omega

/-- Trial division, for numbers below `21 ^ 2`. -/
def isPrime (n : Nat) : Bool :=
  decide (2 ≤ n) && (List.range 21).all fun d =>
    decide (d < 2) || decide (n ≤ d) || decide (n % d ≠ 0)

/-- The test is right for the numbers it is used on. -/
theorem isPrime_iff {n : Nat} (h : n < 441) : isPrime n = true ↔ n.Prime := by
  rw [Nat.prime_def_le_sqrt, isPrime, Bool.and_eq_true, decide_eq_true_eq]
  refine and_congr_right fun hn => ?_
  rw [List.all_eq_true]
  constructor
  · intro hall d hd hsqrt hdvd
    have hsq : d * d ≤ n := Nat.le_sqrt.mp hsqrt
    have hd21 : d < 21 := by
      by_contra hge
      have := Nat.mul_le_mul (Nat.le_of_not_lt hge) (Nat.le_of_not_lt hge)
      omega
    have hlt : d < n := lt_of_lt_of_le (by nlinarith) hsq
    have := hall d (List.mem_range.mpr hd21)
    simp [Nat.mod_eq_zero_of_dvd hdvd] at this
    omega
  · intro hnone d _
    by_contra hd
    simp only [Bool.or_eq_true, decide_eq_true_eq, not_or, Nat.not_lt, Nat.not_le, ne_eq,
      not_not] at hd
    obtain ⟨⟨hd2, hdn⟩, hmod⟩ := hd
    -- the smaller one of `d` and its cofactor is below the root
    obtain ⟨e, rfl⟩ := Nat.dvd_of_mod_eq_zero hmod
    have he2 : 2 ≤ e := by
      by_contra hlt
      have hle := Nat.mul_le_mul_left d (show e ≤ 1 by omega)
      omega
    rcases Nat.le_total d e with hde | hed
    · exact hnone d hd2 (Nat.le_sqrt.mpr (Nat.mul_le_mul_left d hde)) (Dvd.intro e rfl)
    · exact hnone e he2 (Nat.le_sqrt.mpr (Nat.mul_le_mul_right e hed)) (Dvd.intro_left d rfl)

/-- The first eighty primes. -/
def primes : List Nat :=
  [2, 3, 5, 7, 11, 13, 17, 19, 23, 29, 31, 37, 41, 43, 47, 53, 59, 61, 67, 71, 73, 79, 83, 89, 97,
    101, 103, 107, 109, 113, 127, 131, 137, 139, 149, 151, 157, 163, 167, 173, 179, 181, 191, 193,
    197, 199, 211, 223, 227, 229, 233, 239, 241, 251, 257, 263, 269, 271, 277, 281, 283, 293, 307,
    311, 313, 317, 331, 337, 347, 349, 353, 359, 367, 373, 379, 383, 389, 397, 401, 409]

/-- The primes up to the eightieth. -/
theorem filter_primes : (List.range 410).filter Nat.Prime = primes := by
  have htrial : (List.range 410).filter isPrime = primes := by decide +kernel
  rw [← htrial]
  refine List.filter_congr fun n hn => ?_
  have hlt := List.mem_range.mp hn
  exact Bool.eq_iff_iff.mpr (decide_eq_true_iff.trans (isPrime_iff (by omega)).symm)

/-- The table lists them by their number. -/
theorem nth_prime {t : Nat} (ht : t < 80) : Nat.nth Nat.Prime t = primes.getD t 0 := by
  rw [nth_eq_filter Nat.Prime 410 t (by rw [filter_primes]; exact ht), filter_primes]

/-! ## Tables -/

/-- The list starts with the bits of the primes from number `t`. -/
def IsTable (k : Nat) (t : Nat) (bs : List (BitVec w)) : Prop :=
  t + bs.length ≤ 80 ∧ ∀ i < bs.length, Encloses k (primes.getD (t + i) 0)
    (Nat.nthRoot k (primes.getD (t + i) 0)) (bs.getD i 0)

instance (k t : Nat) (bs : List (BitVec w)) : Decidable (IsTable k t bs) := inferInstanceAs
    (Decidable (_ ∧ _))

/-- An entry of a checked table is the root of its prime. -/
theorem IsTable.get {t i : Nat} {bs : List (BitVec w)} (h : IsTable k t bs) (hi : i < bs.length) :
    bs.getD i 0 = fracBits k w (Nat.nth Nat.Prime (t + i)) := by
  rw [nth_prime (by have := h.1; omega)]
  exact (fracBits_eq (h.2 i hi)).symm

end PrimeRoots
