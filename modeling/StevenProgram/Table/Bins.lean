/-
  Which bin a key belongs to.

  `findBinIndex` gives a bin of the table for a key of the shape the table's type supports, and -1
  for any other (`findBinIndex_range`, `findBinIndex_refused`).  The remainder of a negative key is
  made positive; with a power of two the mask does the same.

  The bounds are those of the constructor's argument: one bin at least, and fewer than 2^31, which
  an `int` can count.  Nothing is asked of the key.
-/
import StevenProgram.Table.HashTable

namespace StevenProgram

namespace HashTable

/-- The constants of a table with `n` bins. -/
structure HashConfig.Valid (c : HashConfig) (n : Nat) : Prop where
  pos : 0 < n
  lt : n < 2147483648
  number : c.mBinNumber.toBitVec.toNat = n
  mask : c.mBitMask.toBitVec.toNat < n

/-- Whether a key has the shape the type supports. -/
def HashConfig.accepts (c : HashConfig) : HashKey → Bool
  | .int _ => c.mHashType == .INT32Type || c.mHashType == .MainCCType
  | .pair .. => c.mHashType == .INT64Type
  | .str _ => c.mHashType == .StringType
  | .ptr _ => c.mHashType == .PointerType

/-- The bin of a key. -/
def HashConfig.index (c : HashConfig) (key : HashKey) : Nat := (c.findBinIndex key).toInt.toNat

/-- A signed number whose top bit is clear. -/
theorem toInt_of_lt {x : Int32} (h : x.toBitVec.toNat < 2147483648) : x.toInt = x.toBitVec.toNat :=
  BitVec.toInt_eq_toNat_of_lt (by omega)

/-- The constructor makes a valid configuration. -/
theorem make_valid {numberOfBin : UInt32} (h1 : 1 ≤ numberOfBin.toNat)
    (h2 : numberOfBin.toNat < 2147483648)
    (hashType : HashType_e) (duplicateNum : Int32) :
    (HashConfig.make numberOfBin hashType duplicateNum).Valid numberOfBin.toNat where
  pos := h1
  lt := h2
  number := rfl
  mask := by
    rw [HashConfig.make]
    split
    · show (numberOfBin - 1).toNat < _
      rw [UInt32.toNat_sub_of_le numberOfBin 1 (UInt32.le_iff_toNat_le.mpr h1)]
      exact Nat.sub_lt h1 (by decide)
    · exact h1

namespace HashConfig.Valid

variable {c : HashConfig} {n : Nat} (h : c.Valid n)
include h

/-- The number of bins, read as a signed number. -/
theorem bins_eq : c.mBinNumber.toInt = n := by
  rw [toInt_of_lt (by rw [h.number]; exact h.lt), h.number]

/-- Between `-n` and `n`, the test for a negative value does the rest. -/
theorem adjusted {val : Int32} (hval : -(n : Int) < val.toInt ∧ val.toInt < n) :
    (if val < 0 then val + c.mBinNumber else val).toInt =
      if val.toInt < 0 then val.toInt + n else val.toInt := by
  obtain ⟨hlo, hhi⟩ := hval
  have hn := h.lt
  have hiff : val < 0 ↔ val.toInt < 0 := Int32.lt_iff_toInt_lt
  by_cases hneg : val.toInt < 0
  · rw [if_pos hneg, if_pos (hiff.mpr hneg), Int32.toInt_add, h.bins_eq]
    exact Int.bmod_eq_of_le (by omega) (by omega)
  · rw [if_neg hneg, if_neg (fun hlt => hneg (hiff.mp hlt))]

/-- The masked key is nearer to zero than the number of bins. -/
theorem masked_near (key : Int32) :
    -(n : Int) < (key &&& c.mBitMask).toInt ∧ (key &&& c.mBitMask).toInt < n := by
  have hle : (key &&& c.mBitMask).toBitVec.toNat ≤ c.mBitMask.toBitVec.toNat := by
    rw [Int32.toBitVec_and, BitVec.toNat_and]
    exact Nat.and_le_right
  have hmask := h.mask
  have hn := h.lt
  have htoInt : (key &&& c.mBitMask).toInt = (key &&& c.mBitMask).toBitVec.toNat :=
    toInt_of_lt (by omega)
  exact ⟨by omega, by omega⟩

/-- And so is the remainder. -/
theorem remainder_near (key : Int32) :
    -(n : Int) < (key % c.mBinNumber).toInt ∧ (key % c.mBinNumber).toInt < n := by
  have hpos : (0 : Int) < n := Int.natCast_pos.mpr h.pos
  rw [Int32.toInt_mod, h.bins_eq]
  exact ⟨Int.lt_tmod_of_pos key.toInt hpos, Int.tmod_lt_of_pos key.toInt hpos⟩

/-- What is made of either is a bin. -/
theorem reduce_range (key : Int32) : 0 ≤ (c.reduce key).toInt ∧ (c.reduce key).toInt < n := by
  have hval : ∀ val : Int32, -(n : Int) < val.toInt ∧ val.toInt < n →
      0 ≤ (if val < 0 then val + c.mBinNumber else val).toInt ∧
      (if val < 0 then val + c.mBinNumber else val).toInt < n := by
    intro val hnear
    rw [h.adjusted hnear]
    split <;> omega
  rw [reduce]
  split
  · exact hval _ (h.masked_near key)
  · exact hval _ (h.remainder_near key)

/-- A string key has a bin. -/
theorem findBinIndexStr_range (hty : c.mHashType = .StringType) (key : List UInt8) :
    0 ≤ (c.findBinIndexStr key).toInt ∧ (c.findBinIndexStr key).toInt < n := by
  have hn := h.lt
  have hpos := h.pos
  have hnat : ∀ x : UInt32, x.toNat < n → 0 ≤ x.toInt32.toInt ∧ x.toInt32.toInt < n := by
    intro x hx
    have heq : x.toInt32.toBitVec.toNat = x.toNat := rfl
    have htoInt : x.toInt32.toInt = x.toInt32.toBitVec.toNat := toInt_of_lt (by omega)
    omega
  rw [findBinIndexStr, if_pos hty]
  dsimp only
  split
  · refine hnat _ (Nat.lt_of_le_of_lt ?_ h.mask)
    rw [UInt32.toNat_and]
    exact Nat.and_le_right
  · have hmod : 0 < c.mBinNumber.toUInt32.toNat := Nat.lt_of_lt_of_eq hpos h.number.symm
    refine hnat _ ?_
    rw [UInt32.toNat_mod]
    exact Nat.lt_of_lt_of_eq (Nat.mod_lt _ hmod) h.number

/-- **A key of the right shape has a bin.** -/
theorem findBinIndex_range {key : HashKey} (hk : c.accepts key = true) :
    0 ≤ (c.findBinIndex key).toInt ∧ (c.findBinIndex key).toInt < n := by
  cases key with
  | int key =>
    rw [findBinIndex, findBinIndexInt]
    simp only [accepts, Bool.or_eq_true, beq_iff_eq] at hk
    rcases hk with hk | hk <;> rw [hk] <;> exact h.reduce_range _
  | pair key1 key2 =>
    rw [findBinIndex, findBinIndexPair, if_pos (by simpa [accepts] using hk)]
    exact h.reduce_range _
  | str key => exact h.findBinIndexStr_range (by simpa [accepts] using hk) key.1
  | ptr key =>
    rw [findBinIndex, findBinIndexPtr, if_pos (by simpa [accepts] using hk)]
    exact h.reduce_range _

/-- So has every key that the type of the table takes. -/
theorem index_lt {key : HashKey} (hk : c.accepts key = true) : c.index key < n := by
  have := h.findBinIndex_range hk
  rw [index]
  omega

/-- The bin is the index that the code computes. -/
theorem index_eq {key : HashKey} (hk : c.accepts key = true) :
    (c.findBinIndex key).toInt = c.index key := by
  have := h.findBinIndex_range hk
  rw [index]
  omega

/-- It is not the answer for a wrong type. -/
theorem findBinIndex_ne {key : HashKey} (hk : c.accepts key = true) : c.findBinIndex key ≠ -1 := by
  intro he
  have hr := h.findBinIndex_range hk
  rw [he] at hr
  exact absurd hr.1 (by decide)

end HashConfig.Valid

/-- Any other key has none. -/
theorem HashConfig.findBinIndex_refused {c : HashConfig} {key : HashKey}
    (hk : c.accepts key = false) :
    c.findBinIndex key = -1 := by
  cases key with
  | int key =>
    rw [findBinIndex, findBinIndexInt]
    simp only [accepts, Bool.or_eq_false_iff, beq_eq_false_iff_ne] at hk
    split
    · next he => exact absurd he hk.1
    · next he => exact absurd he hk.2
    · rfl
  | pair key1 key2 => exact if_neg (by simpa [accepts] using hk)
  | str key => exact if_neg (by simpa [accepts] using hk)
  | ptr key => exact if_neg (by simpa [accepts] using hk)

end HashTable

end StevenProgram
