/-
  Residues of machine words, as the mathematical integers they stand for.

  A word of `w` bits has an unsigned value and a signed one, and modulo `2 ^ k` with `k ≤ w` the two
  are the same (`toInt_emod`).  Two computations give the least non-negative residue of it:
    * masking with `k` ones, for `2 ^ k` (`toNat_and_ones`, `toInt_and_ones`);
    * division that truncates, with the modulus added to a negative remainder (`emod_of_near`).
  A polynomial whose partial sums are cut at every step has the residue of the one that is never cut
  (`horner_emod`).
-/
import Mathlib.Algebra.Group.Nat.Defs

namespace Residue

variable {w : Nat}

/-! ## Words -/

/-- A smaller power of two divides a larger one. -/
theorem pow_dvd {k : Nat} (hk : k ≤ w) : ((2 ^ k : Nat) : Int) ∣ ((2 ^ w : Nat) : Int) :=
  Int.natCast_dvd_natCast.mpr (Nat.pow_dvd_pow 2 hk)

/-- What is cut to `w` bits keeps its residues modulo the powers of two up to `2 ^ w`. -/
theorem bmod_emod_pow (z : Int) {k : Nat} (hk : k ≤ w) :
    z.bmod (2 ^ w) % ((2 ^ k : Nat) : Int) = z % ((2 ^ k : Nat) : Int) := by
  rw [← Int.emod_emod_of_dvd (z.bmod (2 ^ w)) (pow_dvd hk), Int.bmod_emod,
    Int.emod_emod_of_dvd z (pow_dvd hk)]

/-- The signed and the unsigned value of a word have one residue. -/
theorem toInt_emod (x : BitVec w) {k : Nat} (hk : k ≤ w) :
    x.toInt % ((2 ^ k : Nat) : Int) = ((x.toNat % 2 ^ k : Nat) : Int) := by
  rw [BitVec.toInt_eq_toNat_bmod, bmod_emod_pow _ hk, Int.natCast_emod]

/-- A mask of ones is a remainder. -/
theorem toNat_and_ones (x : BitVec w) {m : BitVec w} {k : Nat} (hm : m.toNat = 2 ^ k - 1) :
    (x &&& m).toNat = x.toNat % 2 ^ k := by
  rw [BitVec.toNat_and, hm, Nat.and_two_pow_sub_one_eq_mod]

/-- Of the signed number as well. -/
theorem toInt_and_ones (x : BitVec w) {m : BitVec w} {k : Nat} (hm : m.toNat = 2 ^ k - 1)
    (hk : k < w) :
    (x &&& m).toInt = x.toInt % ((2 ^ k : Nat) : Int) := by
  have hlt : 2 * (x &&& m).toNat < 2 ^ w := by
    have hmod := Nat.mod_lt x.toNat (Nat.two_pow_pos k)
    have hpow : 2 ^ (k + 1) ≤ 2 ^ w := Nat.pow_le_pow_right (by decide) hk
    rw [toNat_and_ones x hm]
    rw [Nat.pow_succ] at hpow
    omega
  rw [BitVec.toInt_eq_toNat_of_lt hlt, toNat_and_ones x hm, toInt_emod x (Nat.le_of_lt hk)]

/-- A shift multiplies, modulo the word. -/
theorem toInt_shl (x : BitVec w) (k : Nat) :
    (x <<< k).toInt = (((2 ^ k : Nat) : Int) * x.toInt).bmod (2 ^ w) := by
  rw [BitVec.toInt_shiftLeft, Nat.shiftLeft_eq, BitVec.toInt_eq_toNat_bmod, Int.mul_bmod_bmod,
    Int.natCast_mul,
    Int.mul_comm]

/-! ## Remainders -/

/-- A number of the class of `z` in `(-n, n)` is the residue of `z`, or `n` below it. -/
theorem emod_of_near {r z n : Int} (hcls : r % n = z % n) (hlo : -n < r) (hhi : r < n) :
    (if r < 0 then r + n else r) = z % n := by
  rw [← hcls]
  split
  · next hneg => rw [← Int.add_emod_right, Int.emod_eq_of_lt (by omega) (by omega)]
  · next hneg => rw [Int.emod_eq_of_lt (by omega) hhi]

/-- The sign of a C remainder does not matter to the residue. -/
theorem tmod_emod (z n : Int) : z.tmod n % n = z % n := by
  rw [Int.tmod_def, Int.sub_emod, Int.mul_emod_right, Int.sub_zero, Int.emod_emod]

/-! ## Polynomials -/

/-- The value of the digits `ds` to the base `b`, on top of `s`. -/
def horner (b s : Int) (ds : List Int) : Int := ds.foldl (fun s d => b * s + d) s

/-- Steps that are right modulo `n`, on states of any kind, give a sum that is right modulo `n`. -/
theorem horner_emod {σ α : Type} {b n : Int} (value : σ → Int) {digit : α → Int} {step : σ → α → σ}
    (hstep : ∀ s x, value (step s x) % n = (b * value s + digit x) % n) :
    ∀ (l : List α) (s : σ) (t : Int), value s % n = t % n →
      value (l.foldl step s) % n = horner b t (l.map digit) % n
  | [], _, _, h => h
  | x :: l, s, t, h => by
      refine horner_emod value hstep l (step s x) (b * t + digit x) ?_
      rw [hstep, Int.add_emod, Int.mul_emod, h, ← Int.mul_emod, ← Int.add_emod]

end Residue
