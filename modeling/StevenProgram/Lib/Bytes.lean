/-
  Numbers as byte strings of a fixed length, least significant byte first (`leBytes`) or last
  (`beBytes`), and back (`leNat`, `beNat`).

  `leBytes k n` only sees `n` modulo `256^k` (`leBytes_mod`), splits at any place (`leBytes_add`)
  and is read off byte by byte (`getElem_leBytes`).  The big-endian form is its reversal, so every
  law of one is a law of the other.

  The two directions are inverse to each other as far as the length allows, and both are compatible
  with appending; that is all that a reader of length fields or counters needs.
-/
import Mathlib.Algebra.Group.Nat.Defs

namespace Bytes

/-- The `k` lowest bytes of `n`, least significant first. -/
def leBytes : Nat → Nat → List UInt8
  | 0, _ => []
  | k + 1, n => UInt8.ofNat n :: leBytes k (n / 256)

/-- The `k` lowest bytes of `n`, most significant first. -/
def beBytes (k n : Nat) : List UInt8 := (leBytes k n).reverse

/-- The number a byte string denotes, most significant byte first. -/
def beNat (l : List UInt8) : Nat := l.foldl (fun acc b => 256 * acc + b.toNat) 0

/-- The number a byte string denotes, least significant byte first. -/
def leNat : List UInt8 → Nat
  | [] => 0
  | b :: l => b.toNat + 256 * leNat l

/-- The number in the `n` bytes from place `p`. -/
def leAt (l : List UInt8) (p n : Nat) : Nat := leNat ((l.drop p).take n)

/-- As many bytes as are asked for, with the low one first. -/
@[simp] theorem leBytes_length : ∀ k n, (leBytes k n).length = k
  | 0, _ => rfl
  | k + 1, n => by rw [leBytes, List.length_cons, leBytes_length k]

/-- Or the high one. -/
@[simp] theorem beBytes_length (k n : Nat) : (beBytes k n).length = k := by
  rw [beBytes, List.length_reverse, leBytes_length]

/-- A number that is read depends on its own bytes only: what follows is of no matter. -/
theorem leAt_take (l : List UInt8) {p n m : Nat} (h : p + n ≤ m) :
    leAt (l.take m) p n = leAt l p n := by
  rw [leAt, leAt, List.drop_take, List.take_take, Nat.min_eq_left (by omega)]

/-- And neither is what stands in front. -/
theorem leAt_drop (l : List UInt8) (p k n : Nat) : leAt (l.drop p) k n = leAt l (p + k) n := by
  rw [leAt, leAt, List.drop_drop]

/-- The low bytes, and behind them those of what is left of the number. -/
theorem leBytes_add : ∀ j k n, leBytes (j + k) n = leBytes j n ++ leBytes k (n / 256 ^ j) := by
  intro j
  induction j with
  | zero =>
    intro k n
    rw [Nat.zero_add, Nat.pow_zero, Nat.div_one]
    rfl
  | succ j ih =>
    intro k n
    rw [show j + 1 + k = (j + k) + 1 from by omega, leBytes, leBytes, ih k,
      Nat.div_div_eq_div_mul, Nat.pow_succ, Nat.mul_comm 256]
    rfl

/-- Each byte of a number. -/
theorem getElem_leBytes : ∀ k n i (h : i < (leBytes k n).length), (leBytes k n)[i] = UInt8.ofNat
    (n / 256 ^ i)
  | 0, _, _, h => by simp [leBytes] at h
  | k + 1, n, 0, _ => by simp [leBytes]
  | k + 1, n, i + 1, h => by
      simp only [leBytes, List.getElem_cons_succ]
      rw [getElem_leBytes k, Nat.div_div_eq_div_mul, Nat.pow_succ, Nat.mul_comm 256]

/-- A byte is a number below 256. -/
theorem ofNat_mod_256 (n : Nat) : UInt8.ofNat (n % 256) = UInt8.ofNat n := by
  apply UInt8.toNat_inj.mp
  rw [UInt8.toNat_ofNat', UInt8.toNat_ofNat']
  omega

/-- Only `n mod 256^k` is visible in `k` bytes. -/
theorem leBytes_mod : ∀ k n, leBytes k (n % 256 ^ k) = leBytes k n := by
  intro k
  induction k with
  | zero =>
    intro n
    rfl
  | succ k ih =>
    intro n
    rw [leBytes, leBytes, Nat.pow_succ, Nat.mul_comm, Nat.mod_mul_right_div_self, ih]
    congr 1
    rw [← ofNat_mod_256, Nat.mod_mod_of_dvd _ (Nat.dvd_mul_right _ _), ofNat_mod_256]

/-- The number of two pieces, the first one being the higher. -/
theorem beNat_append (l m : List UInt8) : beNat (l ++ m) = beNat l * 256 ^ m.length + beNat m := by
  suffices h : ∀ (m : List UInt8) (a : Nat), m.foldl (fun acc b => 256 * acc + b.toNat) a
      = a * 256 ^ m.length + beNat m by
    rw [beNat, List.foldl_append, h]; rfl
  intro m
  induction m with
  | nil => intro a; simp [beNat]
  | cons b m ih =>
    intro a
    have hb : beNat (b :: m) = (256 * 0 + b.toNat) * 256 ^ m.length + beNat m := by
      rw [beNat, List.foldl_cons, ih]
    rw [List.foldl_cons, ih, hb, List.length_cons, Nat.pow_succ, Nat.add_mul, Nat.add_mul,
      Nat.mul_comm 256 a, Nat.mul_assoc a, Nat.mul_comm 256]
    omega

/-- Writing a number and reading it back. -/
theorem beNat_beBytes : ∀ k n, beNat (beBytes k n) = n % 256 ^ k := by
  intro k
  induction k with
  | zero =>
    intro n
    simp [beBytes, leBytes, beNat, Nat.mod_one]
  | succ k ih =>
    intro n
    have htail := ih (n / 256)
    rw [beBytes] at htail
    rw [beBytes, leBytes, List.reverse_cons, beNat_append, htail, List.length_singleton,
      Nat.pow_one,
      Nat.pow_succ, Nat.mul_comm (256 ^ k), Nat.mod_mul]
    have hb : beNat [UInt8.ofNat n] = n % 256 := by simp [beNat]
    rw [hb]
    omega

/-- A byte string is a number below its own power. -/
theorem beNat_lt : ∀ l : List UInt8, beNat l < 256 ^ l.length := by
  intro l
  induction l with
  | nil => exact Nat.one_pos
  | cons b l ih =>
    have hb : b.toNat + 1 ≤ 256 := b.toNat_lt
    have hsum : beNat (b :: l) = b.toNat * 256 ^ l.length + beNat l := by
      rw [← List.singleton_append, beNat_append, show beNat [b] = b.toNat from Nat.zero_add _]
    calc beNat (b :: l) < (b.toNat + 1) * 256 ^ l.length := by rw [hsum, Nat.succ_mul]; omega
      _ ≤ 256 * 256 ^ l.length := Nat.mul_le_mul_right _ hb
      _ = 256 ^ (b :: l).length := by rw [List.length_cons, Nat.pow_succ, Nat.mul_comm]

/-- Reading a byte string and writing it again. -/
theorem beBytes_beNat (l : List UInt8) : beBytes l.length (beNat l) = l := by
  suffices h : ∀ l : List UInt8, leBytes l.length (beNat l.reverse) = l by
    have := h l.reverse
    rw [List.length_reverse, List.reverse_reverse] at this
    rw [beBytes, this, List.reverse_reverse]
  intro l
  induction l with
  | nil => rfl
  | cons b l ih =>
    have hb : b.toNat < 256 := b.toNat_lt
    have hsum : beNat (b :: l).reverse = beNat l.reverse * 256 + b.toNat := by
      rw [List.reverse_cons, beNat_append, show beNat [b] = b.toNat from Nat.zero_add _]
      rfl
    have hlow : UInt8.ofNat (beNat l.reverse * 256 + b.toNat) = b := by
      rw [← ofNat_mod_256, show (beNat l.reverse * 256 + b.toNat) % 256 = b.toNat by omega]
      exact UInt8.ofNat_toNat
    rw [List.length_cons, leBytes, hsum, hlow, show (beNat l.reverse * 256 + b.toNat) / 256 =
      beNat l.reverse by omega, ih]

end Bytes
