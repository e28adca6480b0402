/-
  FIPS 180-4: the compression function of SHA-1, with its schedule of eighty words.

  The schedule is a list that only grows: sixteen words of the block, then each word from four that
  are there (`W_block`, `W_next`).  A step takes one word and moves the registers by one place.
-/
import StevenProgram.Lib.Words

namespace Fips180

abbrev Word : Type := BitVec 32

/-! ## Functions and constants

  By the number of the operation, twenty of each kind. -/

def Ch (x y z : Word) : Word := (x &&& y) ^^^ (~~~x &&& z)
def Parity (x y z : Word) : Word := x ^^^ y ^^^ z
def Maj (x y z : Word) : Word := (x &&& y) ^^^ (x &&& z) ^^^ (y &&& z)

/-- `Ch` with one operation less. -/
theorem Ch_eq (x y z : Word) : (x &&& (y ^^^ z)) ^^^ z = Ch x y z := by
  apply BitVec.eq_of_getLsbD_eq
  intro i hi
  simp only [Ch, BitVec.getLsbD_xor, BitVec.getLsbD_and, BitVec.getLsbD_not, hi, decide_true,
    Bool.true_and]
  cases x.getLsbD i <;> cases y.getLsbD i <;> cases z.getLsbD i <;> rfl

/-- `Maj` without exclusive or. -/
theorem Maj_eq (x y z : Word) : ((x ||| y) &&& z) ||| (x &&& y) = Maj x y z := by
  apply BitVec.eq_of_getLsbD_eq
  intro i _
  simp only [Maj, BitVec.getLsbD_xor, BitVec.getLsbD_and, BitVec.getLsbD_or]
  cases x.getLsbD i <;> cases y.getLsbD i <;> cases z.getLsbD i <;> rfl

/-- The function of the operation `t`. -/
def f (t : Nat) : Word → Word → Word → Word :=
  match t / 20 with
  | 0 => Ch
  | 1 => Parity
  | 2 => Maj
  | _ => Parity

/-- Its constant. -/
def K (t : Nat) : Word :=
  match t / 20 with
  | 0 => 0x5a827999
  | 1 => 0x6ed9eba1
  | 2 => 0x8f1bbcdc
  | _ => 0xca62c1d6

section Rounds

variable {t : Nat}

/-- The function and the constant of the first twenty rounds of SHA-1. -/
theorem round1 (h : t < 20) : f t = Ch ∧ K t = 0x5a827999 := by
  rw [f, K, show t / 20 = 0 by omega]
  exact ⟨rfl, rfl⟩

/-- Of the second. -/
theorem round2 (hlo : 20 ≤ t) (hhi : t < 40) : f t = Parity ∧ K t = 0x6ed9eba1 := by
  rw [f, K, show t / 20 = 1 by omega]
  exact ⟨rfl, rfl⟩

/-- Of the third. -/
theorem round3 (hlo : 40 ≤ t) (hhi : t < 60) : f t = Maj ∧ K t = 0x8f1bbcdc := by
  rw [f, K, show t / 20 = 2 by omega]
  exact ⟨rfl, rfl⟩

/-- And of the last. -/
theorem round4 (hlo : 60 ≤ t) (hhi : t < 80) : f t = Parity ∧ K t = 0xca62c1d6 := by
  rw [f, K, show t / 20 = 3 by omega]
  exact ⟨rfl, rfl⟩

end Rounds

/-! ## The schedule

  `W` is a function of the number of the word, read off the list as far as it has grown. -/

/-- Word `t` from the words in front of it. -/
def next (W : List Word) (t : Nat) : Word :=
  (W.getD (t - 3) 0 ^^^ W.getD (t - 8) 0 ^^^ W.getD (t - 14) 0 ^^^ W.getD (t - 16) 0).rotateLeft 1

/-- The words of the block and `n` more. -/
def schedule (block : List UInt8) : Nat → List Word
  | 0 => (List.range 16).map (Words.beWord block)
  | n + 1 =>
      let W := schedule block n
      W ++ [next W W.length]

/-- Word `t` of the eighty. -/
def W (block : List UInt8) (t : Nat) : Word := (schedule block 64).getD t 0

/-- A word for each turn behind the sixteen of the block. -/
theorem schedule_length (block : List UInt8) : ∀ n, (schedule block n).length = 16 + n
  | 0 => by rw [schedule, List.length_map, List.length_range]
  | n + 1 => by
      rw [schedule, List.length_append, schedule_length block n, List.length_singleton,
        Nat.add_assoc]

/-- Words that are there stay. -/
theorem schedule_stable (block : List UInt8) {t n : Nat} (ht : t < 16 + n) :
    ∀ m, (schedule block (n + m)).getD t 0 = (schedule block n).getD t 0
  | 0 => rfl
  | m + 1 => by
      have hlt : t < (schedule block (n + m)).length := by rw [schedule_length]; omega
      have ih := schedule_stable block ht m
      rw [List.getD_eq_getElem?_getD] at ih ⊢
      rw [← Nat.add_assoc, schedule, List.getElem?_append_left hlt, ih]

variable {block : List UInt8} {t : Nat}

/-- A word does not depend on how far the schedule is worked out. -/
theorem W_eq {n : Nat} (hn : n ≤ 64) (ht : t < 16 + n) :
    W block t = (schedule block n).getD t 0 := by
  have h := schedule_stable block ht (64 - n)
  rw [Nat.add_sub_cancel' hn] at h
  exact h

/-- The first sixteen words are those of the block. -/
theorem W_block (ht : t < 16) : W block t = Words.beWord block t := by
  rw [W_eq (Nat.zero_le 64) ht, schedule, List.getD_eq_getElem?_getD, List.getElem?_map,
    List.getElem?_range ht]
  rfl

/-- **The recurrence.** -/
theorem W_next (hlo : 16 ≤ t) (hhi : t < 80) :
    W block t = (W block (t - 3) ^^^ W block (t - 8) ^^^ W block (t - 14) ^^^ W block
      (t - 16)).rotateLeft 1 := by
  obtain ⟨n, rfl⟩ := Nat.exists_eq_add_of_le hlo
  have hlen := schedule_length block n
  have hold : ∀ k, 0 < k → (schedule block n).getD (16 + n - k) 0 = W block (16 + n - k) := by
    intro k hk
    exact (W_eq (by omega) (by omega)).symm
  rw [W_eq (n := n + 1) (by omega) (by omega), schedule, List.getD_eq_getElem?_getD,
    List.getElem?_append_right (Nat.le_of_eq hlen), hlen, Nat.sub_self]
  show next (schedule block n) (16 + n) = _
  rw [next, hold 3 (by decide), hold 8 (by decide), hold 14 (by decide), hold 16 (by decide)]

/-! ## The loop

  A fold over the numbers of the operations, and the sum with the state behind it. -/

/-- The five working variables. -/
structure Regs where
  a : Word
  b : Word
  c : Word
  d : Word
  e : Word

/-- The operation `t`. -/
def step (W : Nat → Word) (r : Regs) (t : Nat) : Regs where
  a := r.a.rotateLeft 5 + f t r.b r.c r.d + r.e + K t + W t
  b := r.a
  c := r.b.rotateLeft 30
  d := r.c
  e := r.d

/-- The next chaining value. -/
def compress (H : Regs) (block : List UInt8) : Regs :=
  let r := (List.range 80).foldl (step (W block)) H
  ⟨H.a + r.a, H.b + r.b, H.c + r.c, H.d + r.d, H.e + r.e⟩

end Fips180
