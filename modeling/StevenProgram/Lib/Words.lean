/-
  Words of four bytes, in both byte orders, and what shifts and masks do to them.

  A word is the concatenation of its bytes: `ofBytes` takes the least significant byte first.  The
  ways a program without such a notion writes it are shown to be it: the bytes shifted into place
  and joined (`join_shifts`), a rotation by two shifts (`join_rotate`), and the reversal of the four
  bytes by two rotations under masks (`swap_rotates`).
-/
import Mathlib.Data.Nat.Init

namespace Words

/-- The word of four bytes, the least significant first. -/
def ofBytes (b0 b1 b2 b3 : BitVec 8) : BitVec 32 := b3 ++ b2 ++ b1 ++ b0

/-- Word `k` of a byte string, low-order byte first. -/
def leWord (block : List UInt8) (k : Nat) : BitVec 32 :=
  let byte (j : Nat) : BitVec 8 := (block.getD (4 * k + j) 0).toBitVec
  ofBytes (byte 0) (byte 1) (byte 2) (byte 3)

/-- Word `k` of a byte string, high-order byte first. -/
def beWord (block : List UInt8) (k : Nat) : BitVec 32 :=
  let byte (j : Nat) : BitVec 8 := (block.getD (4 * k + j) 0).toBitVec
  ofBytes (byte 3) (byte 2) (byte 1) (byte 0)

variable (b0 b1 b2 b3 : BitVec 8)

/-- The bits of a word, byte by byte. -/
theorem getLsbD_ofBytes (i : Nat) : (ofBytes b0 b1 b2 b3).getLsbD i =
    if i < 8 then b0.getLsbD i else if i < 16 then b1.getLsbD (i - 8)
    else if i < 24 then b2.getLsbD (i - 16) else b3.getLsbD (i - 24) := by
  simp only [ofBytes, BitVec.getLsbD_append]
  grind

/-- The shifted bytes make up the word. -/
theorem join_shifts :
    b0.setWidth 32 ||| (b1.setWidth 32 <<< 8) ||| (b2.setWidth 32 <<< 16) |||
      (b3.setWidth 32 <<< 24) =
      ofBytes b0 b1 b2 b3 := by
  apply BitVec.eq_of_getLsbD_eq
  intro i hi
  simp only [getLsbD_ofBytes, BitVec.getLsbD_or, BitVec.getLsbD_shiftLeft, BitVec.getLsbD_setWidth]
  grind

/-- Both shifts together are a rotation. -/
theorem join_rotate {w n : Nat} (x : BitVec w) (hn : n < w) :
    (x <<< n) ||| (x >>> (w - n)) = x.rotateLeft n := by
  rw [BitVec.rotateLeft_def, Nat.mod_eq_of_lt hn]

/-- The masks of the odd and of the even bytes. -/
theorem getLsbD_masks : ∀ i < 32,
    (0xFF00FF00 : BitVec 32).getLsbD i = decide (i / 8 % 2 = 1) ∧
    (0x00FF00FF : BitVec 32).getLsbD i = decide (i / 8 % 2 = 0) := by decide

/-- One byte to the right for the odd bytes, one to the left for the even ones. -/
theorem swap_rotates :
    ((ofBytes b0 b1 b2 b3).rotateLeft 24 &&& 0xFF00FF00) |||
      ((ofBytes b0 b1 b2 b3).rotateLeft 8 &&& 0x00FF00FF) =
      ofBytes b3 b2 b1 b0 := by
  apply BitVec.eq_of_getLsbD_eq
  intro i hi
  have hmasks := getLsbD_masks i hi
  simp only [BitVec.getLsbD_or, BitVec.getLsbD_and, BitVec.getLsbD_rotateLeft,
    getLsbD_ofBytes, hmasks,
    Nat.reduceMod, Nat.reduceSub]
  grind

end Words
