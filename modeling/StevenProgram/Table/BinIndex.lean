/-
  The bin of a key is a residue: what `findBinIndex` computes, on its two paths.

  `mixedKey` is the 32-bit number that a hash type makes of a key, as a mathematical integer.  With
  a power of two as the number of bins the index is that number under a mask, else its truncated
  remainder made positive; `Masked` says which mask there can be, and both are the least
  non-negative residue of the mixed key modulo the number of bins (`reduce_eq`,
  `strIndex_eq`).  With one bin the mask is 0, and the remainder is taken.
-/
import StevenProgram.Table.Bins
import StevenProgram.Lib.Residue

namespace StevenProgram

namespace HashTable

/-! ## Mixed keys

  As integers, with one reduction to 32 bits at the end where the code cuts. -/

/-- `(key << 2) + ((key >> 24) & 3)`, cut to an `int`. -/
def rotated (key : Int) : Int := (4 * key + key / 2 ^ 24 % 4).bmod (2 ^ 32)

/-- The number whose residue is the bin. -/
def mixedKey (hashType : HashType_e) : HashKey → Int
  | .int key => if hashType = .MainCCType then rotated key.toInt else key.toInt
  | .pair key1 key2 => (key1.toInt + key2.toInt).bmod (2 ^ 32)
  | .str key => Residue.horner 31 0 (key.1.map (·.toInt8.toInt)) % 2 ^ 32
  | .ptr key => rotated key.toInt64.toInt

/-- Two bits of the high part, added to four times the key, at the width of an `int` or of a
    `long`. -/
theorem shifts_toInt {w : Nat} (x three : BitVec w) (hthree : three.toNat = 2 ^ 2 - 1)
    (hw : 2 < w) :
    ((x <<< 2) + (x.sshiftRight 24 &&& three)).toInt = (4 * x.toInt + x.toInt / 2 ^ 24 % 4).bmod
      (2 ^ w) := by
  have hhigh : (x.sshiftRight 24 &&& three).toInt = x.toInt / 2 ^ 24 % 4 := by
    rw [Residue.toInt_and_ones _ hthree hw, BitVec.toInt_sshiftRight, Int.shiftRight_eq_div_pow]
    rfl
  rw [BitVec.toInt_add, Residue.toInt_shl, hhigh, Int.bmod_add_bmod]
  rfl

/-- The rotation of an integer key, as a number. -/
theorem rotated_int (key : Int32) :
    ((key <<< 2) + ((key >>> 24) &&& 3)).toInt = rotated key.toInt :=
  shifts_toInt key.toBitVec 3#32 rfl (by decide)

/-- The `long` is cut to an `int`. -/
theorem rotated_ptr (key : Int64) :
    ((key <<< 2) + ((key >>> 24) &&& 3)).toInt32.toInt = rotated key.toInt := by
  have hlong :
    ((key <<< 2) + ((key >>> 24) &&& 3)).toInt = (4 * key.toInt + key.toInt / 2 ^ 24 % 4).bmod
    (2 ^ 64) :=
    shifts_toInt key.toBitVec 3#64 rfl (by decide)
  rw [Int64.toInt_toInt32, hlong, Int.bmod_bmod_of_dvd (by decide)]
  rfl

/-! ## The two paths

  `&` with `n - 1` keeps the low bits and `%` truncates toward zero; both are congruent to the key
  modulo `n`, and the test for a negative value puts either into the range. -/

namespace HashConfig

/-- A table with `n` bins whose mask, if it has one, is `n - 1` for a power of two `n`. -/
structure Masked (c : HashConfig) (n : Nat) : Prop extends c.Valid n where
  ones : c.mBitMask ≠ 0 → ∃ k, n = 2 ^ k ∧ c.mBitMask.toBitVec.toNat = 2 ^ k - 1

/-- The same table on the other path. -/
abbrev unmasked (c : HashConfig) : HashConfig := { c with mBitMask := 0 }

/-- It is a table with as many bins. -/
theorem Masked.unmasked {c : HashConfig} {n : Nat} (h : c.Masked n) : c.unmasked.Masked n where
  pos := h.pos
  lt := h.lt
  number := h.number
  mask := h.pos
  ones hne := absurd rfl hne

end HashConfig

/-- The mask that the constructor sets. -/
theorem make_mask {numberOfBin : UInt32} (h1 : 1 ≤ numberOfBin.toNat) (hashType : HashType_e)
    (duplicateNum : Int32) :
    (HashConfig.make numberOfBin hashType duplicateNum).mBitMask.toBitVec.toNat =
      if numberOfBin.toNat.isPowerOfTwo then numberOfBin.toNat - 1 else 0 := by
  have hsub : (numberOfBin - 1).toNat = numberOfBin.toNat - 1 :=
    UInt32.toNat_sub_of_le numberOfBin 1 (UInt32.le_iff_toNat_le.mpr h1)
  have htest : numberOfBin &&& (numberOfBin - 1) = 0 ↔ numberOfBin.toNat.isPowerOfTwo := by
    rw [← UInt32.toNat_inj, UInt32.toNat_and, hsub]
    exact Nat.and_sub_one_eq_zero_iff_isPowerOfTwo (Nat.ne_of_gt h1)
  rw [HashConfig.make]
  by_cases hpow : numberOfBin.toNat.isPowerOfTwo
  · rw [if_pos hpow, if_pos (htest.mpr hpow)]
    exact hsub
  · rw [if_neg hpow, if_neg (fun h0 => hpow (htest.mp h0))]
    rfl

/-- A mask is zero when its bits are. -/
theorem mask_ne_zero {mask : Int32} : mask ≠ 0 ↔ mask.toBitVec.toNat ≠ 0 := by
  rw [Ne, ← Int32.toBitVec_inj, ← BitVec.toNat_inj]
  rfl

/-- The mask is taken for the powers of two but 1. -/
theorem make_masks {numberOfBin : UInt32} (h1 : 1 ≤ numberOfBin.toNat) (hashType : HashType_e)
    (duplicateNum : Int32) :
    (HashConfig.make numberOfBin hashType duplicateNum).mBitMask ≠ 0 ↔
      numberOfBin.toNat.isPowerOfTwo ∧ numberOfBin.toNat ≠ 1 := by
  rw [mask_ne_zero, make_mask h1]
  split
  · next hpow => exact ⟨fun hne => ⟨hpow, by omega⟩, fun hne => by omega⟩
  · next hpow => exact ⟨fun hne => absurd rfl hne, fun hne => absurd hne.1 hpow⟩

/-- The constructor sets the mask for powers of two only. -/
theorem make_masked {numberOfBin : UInt32} (h1 : 1 ≤ numberOfBin.toNat)
    (h2 : numberOfBin.toNat < 2147483648)
    (hashType : HashType_e) (duplicateNum : Int32) :
    (HashConfig.make numberOfBin hashType duplicateNum).Masked numberOfBin.toNat where
  toValid := make_valid h1 h2 hashType duplicateNum
  ones hne := by
    have hpow := ((make_masks h1 hashType duplicateNum).mp hne).1
    obtain ⟨k, hk⟩ := hpow
    refine ⟨k, hk, ?_⟩
    rw [make_mask h1, if_pos ⟨k, hk⟩, hk]

namespace HashConfig.Masked

variable {c : HashConfig} {n : Nat} (h : c.Masked n)
include h

/-- The mask keeps the residue of the key. -/
theorem masked_emod (hne : c.mBitMask ≠ 0) (key : Int32) :
    (key &&& c.mBitMask).toInt % n = key.toInt % n := by
  obtain ⟨k, hn, hones⟩ := h.ones hne
  have hk :
    k < 32 := (Nat.pow_lt_pow_iff_right (by decide)).mp (Nat.lt_trans (hn ▸ h.lt) (by decide))
  have hand : (key &&& c.mBitMask).toInt = key.toInt % n := by
    rw [hn]
    exact Residue.toInt_and_ones key.toBitVec hones hk
  rw [hand, Int.emod_emod]

/-- And so does the remainder. -/
theorem remainder_emod (key : Int32) : (key % c.mBinNumber).toInt % n = key.toInt % n := by
  rw [Int32.toInt_mod, h.bins_eq, Residue.tmod_emod]

/-- **Both paths give the residue.** -/
theorem reduce_eq (key : Int32) : (c.reduce key).toInt = key.toInt % n := by
  rw [reduce]
  split
  · next hne =>
    have hnear := h.masked_near key
    rw [h.adjusted hnear]
    exact Residue.emod_of_near (h.masked_emod hne key) hnear.1 hnear.2
  · have hnear := h.remainder_near key
    rw [h.adjusted hnear]
    exact Residue.emod_of_near (h.remainder_emod key) hnear.1 hnear.2

end HashConfig.Masked

/-! ## Strings

  The sum over the characters is unsigned, so neither path can be negative. -/

/-- A `signed char`, added to an unsigned sum. -/
theorem strSum_step (sum : UInt32) (ch : UInt8) :
    ((HASH_STR_CONSTANT * sum + ch.toInt8.toInt32.toUInt32).toNat : Int) % 2 ^ 32 =
      (31 * (sum.toNat : Int) + ch.toInt8.toInt) % 2 ^ 32 := by
  have hch : (ch.toInt8.toInt32.toUInt32.toNat : Int) % 2 ^ 32 = ch.toInt8.toInt % 2 ^ 32 := by
    rw [← Int8.toInt_toInt32]
    exact (Residue.toInt_emod ch.toInt8.toInt32.toBitVec (Nat.le_refl 32)).symm
  rw [UInt32.toNat_add, UInt32.toNat_mul]
  show (((31 * sum.toNat % 2 ^ 32 + ch.toInt8.toInt32.toUInt32.toNat) % 2 ^ 32 : Nat) : Int) % 2
    ^ 32 = _
  omega

/-- The sum over a string is the polynomial of its characters at 31, by Horner's rule and modulo
    2^32. -/
theorem strSum_eq (key : List UInt8) :
    ((HashConfig.strSum key).toNat : Int) = Residue.horner 31 0
      (key.map (·.toInt8.toInt)) % 2 ^ 32 := by
  have hlt : ((HashConfig.strSum key).toNat : Int) < 2 ^ 32 := Int.ofNat_lt.mpr
    (HashConfig.strSum key).toNat_lt
  rw [← Int.emod_eq_of_lt (Int.natCast_nonneg _) hlt]
  exact Residue.horner_emod (fun sum : UInt32 => (sum.toNat : Int)) strSum_step key 0 0 rfl

/-- The index of a string key is the residue of that sum. -/
theorem HashConfig.Masked.strIndex_eq {c : HashConfig} {n : Nat} (h : c.Masked n)
    (hty : c.mHashType = .StringType) (key : List UInt8) :
    (c.findBinIndexStr key).toInt = ((HashConfig.strSum key).toNat : Int) % n := by
  have hn := h.lt
  have hcut : ∀ x : UInt32, x.toNat = (HashConfig.strSum key).toNat % n →
      x.toInt32.toInt = ((HashConfig.strSum key).toNat : Int) % n := by
    intro x hx
    have hlt : x.toNat < n := hx ▸ Nat.mod_lt _ h.pos
    have htoInt : x.toInt32.toInt = x.toNat := toInt_of_lt (Nat.lt_trans hlt hn)
    rw [htoInt, hx, Int.natCast_emod]
  rw [HashConfig.findBinIndexStr, if_pos hty]
  dsimp only
  split
  · next hne =>
    obtain ⟨k, hpow, hones⟩ := h.ones hne
    refine hcut _ ?_
    rw [hpow]
    exact Residue.toNat_and_ones (HashConfig.strSum key).toBitVec hones
  · refine hcut _ ?_
    rw [UInt32.toNat_mod]
    exact congrArg _ h.number

/-! ## Every key

  The shapes put together; a table that supports one has an index for it on both paths, and it is
  the same number. -/

/-- **The index of any key**, masked or not, is the residue of the mixed key. -/
theorem HashConfig.Masked.findBinIndex_eq {c : HashConfig} {n : Nat} (h : c.Masked n)
    {key : HashKey}
    (hk : c.accepts key = true) : (c.findBinIndex key).toInt = mixedKey c.mHashType key % n := by
  cases key with
  | int key =>
    rw [HashConfig.findBinIndex, HashConfig.findBinIndexInt]
    simp only [HashConfig.accepts, Bool.or_eq_true, beq_iff_eq] at hk
    rcases hk with hk | hk <;> rw [hk]
    · exact h.reduce_eq key
    · show (c.reduce _).toInt = rotated key.toInt % n
      rw [h.reduce_eq, rotated_int]
  | pair key1 key2 =>
    rw [HashConfig.findBinIndex, HashConfig.findBinIndexPair,
      if_pos (by simpa [HashConfig.accepts] using hk),
      h.reduce_eq, Int32.toInt_add]
    rfl
  | str key =>
    have hty : c.mHashType = .StringType := by simpa [HashConfig.accepts] using hk
    rw [HashConfig.findBinIndex, h.strIndex_eq hty, strSum_eq]
    rfl
  | ptr key =>
    rw [HashConfig.findBinIndex, HashConfig.findBinIndexPtr,
      if_pos (by simpa [HashConfig.accepts] using hk),
      h.reduce_eq, rotated_ptr]
    rfl

/-- **The bin of a key is the least non-negative residue of its mixed key, on either path.** -/
theorem findBinIndex_residue (numberOfBin : UInt32) (h1 : 1 ≤ numberOfBin.toNat)
    (h2 : numberOfBin.toNat < 2147483648) (hashType : HashType_e) (duplicateNum : Int32)
    (key : HashKey)
    (hk : (HashConfig.make numberOfBin hashType duplicateNum).accepts key = true) :
    let c := HashConfig.make numberOfBin hashType duplicateNum
    let n := numberOfBin.toNat
    (c.findBinIndex key).toInt = mixedKey hashType key % n ∧
    (c.unmasked.findBinIndex key).toInt = mixedKey hashType key % n ∧
    (c.mBitMask ≠ 0 ↔ n.isPowerOfTwo ∧ n ≠ 1) ∧
    0 ≤ (c.findBinIndex key).toInt ∧ (c.findBinIndex key).toInt < n := by
  have hmasked := make_masked h1 h2 hashType duplicateNum
  have hresidue := hmasked.findBinIndex_eq hk
  have hn : (0 : Int) < numberOfBin.toNat := Int.natCast_pos.mpr h1
  refine ⟨hresidue, hmasked.unmasked.findBinIndex_eq hk, make_masks h1 hashType duplicateNum, ?_,
    ?_⟩
  · rw [hresidue]
    exact Int.emod_nonneg _ (Int.ne_of_gt hn)
  · rw [hresidue]
    exact Int.emod_lt_of_pos _ hn

/-- The key -3 in eight bins. -/
theorem findBinIndex_residue_neg :
    let c := HashConfig.make 8 .INT32Type 0
    (c.findBinIndex (.int (-3))).toInt = 5 ∧ (c.unmasked.findBinIndex (.int (-3))).toInt = 5 := by
  have h := findBinIndex_residue 8 (by decide) (by decide) .INT32Type 0 (.int (-3)) (by decide)
  exact ⟨h.1, h.2.1⟩

end HashTable

end StevenProgram
