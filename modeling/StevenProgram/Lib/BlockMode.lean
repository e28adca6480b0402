/-
  Cipher block chaining, and padding that says its own length.

  A cipher is a pair of functions on blocks, and `mix` combines a block with the one in front of it.
  Nothing is asked of blocks but that mixing twice and deciphering undo themselves.

  1. **Chaining** (`cbc`, `uncbc`) — the chain comes back (`uncbc_cbc`).
  2. **Padding** (`pad`, `unpad`) — block after block (`pad_whole`, `pad_short`), and it comes off
     again (`unpad_pad`).
-/
import Mathlib.Algebra.Order.Group.Nat

namespace BlockMode

/-! ## Chaining -/

section Chaining

variable {β : Type} (mix : β → β → β)

/-- Each block is mixed with the cipher text in front of it. -/
def cbc (E : β → β) : β → List β → List β
  | _, [] => []
  | iv, b :: bs => E (mix b iv) :: cbc E (E (mix b iv)) bs

def uncbc (D : β → β) : β → List β → List β
  | _, [] => []
  | iv, c :: cs => mix (D c) iv :: uncbc D c cs

/-- A block for each block. -/
theorem length_cbc (E : β → β) :
    ∀ (iv : β) (bs : List β), (cbc mix E iv bs).length = bs.length := by
  intro iv bs
  induction bs generalizing iv with
  | nil => rfl
  | cons b bs ih => rw [cbc, List.length_cons, List.length_cons, ih]

/-- **What was chained comes back.** -/
theorem uncbc_cbc {E D : β → β} (hmix : ∀ a b, mix (mix a b) b = a) (hD : ∀ b, D (E b) = b) :
    ∀ (iv : β) (bs : List β), uncbc mix D iv (cbc mix E iv bs) = bs := by
  intro iv bs
  induction bs generalizing iv with
  | nil => rfl
  | cons b bs ih => rw [cbc, uncbc, hD, hmix, ih]

end Chaining

/-! ## Padding -/

variable {B : Nat} {l : List UInt8}

/-- Up to a multiple of `B`, by at least one byte; each byte says how many they are. -/
def pad (B : Nat) (l : List UInt8) : List UInt8 :=
  l ++ List.replicate (B - l.length % B) (UInt8.ofNat (B - l.length % B))

/-- As many bytes less as the last one says. -/
def unpad (l : List UInt8) : List UInt8 := l.take (l.length - (l.getLastD 0).toNat)

/-- A whole block in front is left alone. -/
theorem pad_whole (h : B ≤ l.length) : pad B l = l.take B ++ pad B (l.drop B) := by
  have hmod : (l.drop B).length % B = l.length % B := by
    rw [List.length_drop, ← Nat.mod_eq_sub_mod h]
  rw [pad, pad, hmod, ← List.append_assoc, List.take_append_drop]

/-- Less than a block is filled up. -/
theorem pad_short (h : l.length < B) : pad B l = l ++ List.replicate (B - l.length)
    (UInt8.ofNat (B - l.length)) := by
  rw [pad, Nat.mod_eq_of_lt h]

/-- The next multiple of the block size, and one more block where the text is one. -/
theorem length_pad (h : 0 < B) (l : List UInt8) : (pad B l).length = B * (l.length / B + 1) := by
  have hlt := Nat.mod_lt l.length h
  have hdiv := Nat.div_add_mod l.length B
  rw [pad, List.length_append, List.length_replicate, Nat.mul_add, Nat.mul_one]
  omega

/-- **The padding comes off again.** -/
theorem unpad_pad (h : 0 < B) (hB : B < 256) (l : List UInt8) : unpad (pad B l) = l := by
  have hlt := Nat.mod_lt l.length h
  obtain ⟨n, hn⟩ : ∃ n, B - l.length % B = n + 1 := ⟨B - l.length % B - 1, by omega⟩
  have hlast : (pad B l).getLastD 0 = UInt8.ofNat (n + 1) := by
    rw [pad, hn, List.replicate_succ', ← List.append_assoc, List.getLastD_concat]
  have hcount : (UInt8.ofNat (n + 1)).toNat = n + 1 := UInt8.toNat_ofNat_of_lt'
    (show n + 1 < 256 by omega)
  rw [unpad, hlast, hcount, pad, hn, List.length_append, List.length_replicate, Nat.add_sub_cancel,
    List.take_left]

end BlockMode
