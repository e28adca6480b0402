/-
  What one `updateXxx` call does to an object, for all six classes at once.

  1. **Invariant** — `Holds o m`: since its last `initHash` the object has seen exactly the bytes
     `m`. `mState` is the chaining value after `m`'s complete blocks (`BlockFold.absorb`), the first
     `|m| mod B` bytes of `mBuffer` are the unfinished tail (`BlockFold.rest`), and the two words of
     `mCount`, read as one number, are `8·|m|` modulo `2^(2w)`.

  2. **Counter** (`addBits_value`) — the manual carry and the shifted-out top bits of `len` together
     add `8·len` to the two-word counter.

  3. **Loop** (`blockLoop_eq`) — the block loop takes all complete blocks of `input` from `i` on,
     UNLESS the `u32_t` sum `i + B - 1` wraps at its last test; then it goes on and asks for bytes
     that `input` does not have.

  4. **Step lemmas** — `update_holds`: `Holds o m → Holds o' (m ++ input)` as long as
     `|m| mod B + |input| < 2^32`; `update_fault`: beyond that bound the call reads outside `input`.
     So the bound is exact.
-/
import StevenProgram.Hash.HashClass

namespace StevenProgram

open BlockFold

namespace HashClass

variable (C : HashClass)

/-- The two block lengths. -/
theorem blockLen_eq : C.blockLen = 64 ∨ C.blockLen = 128 := by
  rcases C.width with ⟨-, h, -⟩ | ⟨-, h, -⟩
  · exact Or.inl h
  · exact Or.inr h

/-- A block is not empty. -/
theorem blockLen_pos : 0 < C.blockLen := by rcases C.blockLen_eq with h | h <;> omega

/-- A counter has at least three bits. -/
theorem three_le_w : 3 ≤ C.w := by rcases C.width with ⟨h, -⟩ | ⟨h, -⟩ <;> omega

end HashClass

namespace HashObj

variable {C : HashClass}

/-- Since its last `initHash` the object has seen exactly `m`. -/
structure Holds (o : HashObj C) (m : List UInt8) : Prop where
  state : o.mState = absorb C.blockLen C.transform C.initState m
  tail : o.mBuffer.bytes.take (m.length % C.blockLen) = rest C.blockLen m
  count : o.mCount1.toNat * 2 ^ C.w + o.mCount0.toNat = 8 * m.length % 2 ^ (2 * C.w)

/-- Behind `initHash` the object holds the empty message. -/
theorem initHash_holds (o : HashObj C) : o.initHash.Holds [] where
  state := by rw [absorb_of_lt C.transform _ C.blockLen_pos]; rfl
  tail := by rw [rest_of_lt C.blockLen_pos]; simp
  count := by simp [initHash]

/-- And so does a new one. -/
theorem new_holds (C : HashClass) (heap : Nat → UInt8) : (new C heap).Holds [] where
  state := by rw [absorb_of_lt C.transform _ C.blockLen_pos]; rfl
  tail := by rw [rest_of_lt C.blockLen_pos]; simp
  count := by simp [new]

/-! ## The bit counter

  Two words, added to with a carry that is found by comparison. -/

/-- The two counters together count bits. -/
theorem addBits_value {w : Nat} (hw : 3 ≤ w) (c0 c1 : BitVec w) {len : Nat} (hlen : len < 2 ^ w) :
    (addBits c0 c1 len).2.toNat * 2 ^ w + (addBits c0 c1 len).1.toNat
      = (c1.toNat * 2 ^ w + c0.toNat + 8 * len) % 2 ^ (2 * w) := by
  have hpow :
    2 ^ w = 2 ^ (w - 3) * 8 := by
      rw [show (8 : Nat) = 2 ^ 3 from rfl, ← Nat.pow_add]; congr 1; omega
  -- `8·len` splits into the `s` that reaches the low word and the `q` that reaches the high one
  have hq : ((BitVec.ofNat w len) >>> (w - 3)).toNat = 8 * len / 2 ^ w := by
    rw [BitVec.toNat_ushiftRight, BitVec.toNat_ofNat, Nat.mod_eq_of_lt hlen,
      Nat.shiftRight_eq_div_pow, hpow,
      Nat.mul_comm 8, Nat.mul_div_mul_right _ _ (by decide)]
  have hs : ((BitVec.ofNat w len) <<< 3).toNat = 8 * len % 2 ^ w := by
    rw [BitVec.toNat_shiftLeft, BitVec.toNat_ofNat, Nat.mod_eq_of_lt hlen, Nat.shiftLeft_eq]
    congr 1; omega
  have hc0 := c0.isLt
  have hslt : 8 * len % 2 ^ w < 2 ^ w := Nat.mod_lt _ (Nat.two_pow_pos w)
  have hsplit := Nat.div_add_mod (8 * len) (2 ^ w)
  have hone : 1 < 2 ^ w := Nat.one_lt_two_pow (by omega)
  simp only [addBits, BitVec.lt_def, BitVec.toNat_add, hq, hs]
  rw [show 2 * w = w + w from by omega, Nat.pow_add, Nat.mod_mul]
  generalize 8 * len / 2 ^ w = q at *
  generalize hsd : 8 * len % 2 ^ w = s at *
  have hlow : (c1.toNat * 2 ^ w + c0.toNat + 8 * len) % 2 ^ w = (c0.toNat + s) % 2 ^ w := by
    rw [← hsplit, show c1.toNat * 2 ^ w + c0.toNat + (2 ^ w * q + s)
      = c0.toNat + s + 2 ^ w * (c1.toNat + q)
        from by rw [Nat.mul_add, Nat.mul_comm c1.toNat]; omega]
    exact Nat.add_mul_mod_self_left ..
  have hhigh :
    (c1.toNat * 2 ^ w + c0.toNat + 8 * len) / 2 ^ w = (c0.toNat + s) / 2 ^ w + (c1.toNat + q) := by
    rw [← hsplit, show c1.toNat * 2 ^ w + c0.toNat + (2 ^ w * q + s)
      = c0.toNat + s + 2 ^ w * (c1.toNat + q)
        from by rw [Nat.mul_add, Nat.mul_comm c1.toNat]; omega]
    exact Nat.add_mul_div_left _ _ (Nat.two_pow_pos w)
  rw [hlow, hhigh, Nat.add_comm ((c0.toNat + s) % 2 ^ w), Nat.mul_comm (2 ^ w)]
  -- the carry is `(c0 + s) / 2^w`: one exactly when the sum wrapped below `s`
  congr 2
  rcases Nat.lt_or_ge (c0.toNat + s) (2 ^ w) with hlt | hge
  · rw [Nat.mod_eq_of_lt hlt, Nat.div_eq_of_lt hlt, if_neg (by omega), Nat.zero_add]
  · have hmod : (c0.toNat + s) % 2 ^ w = c0.toNat + s - 2 ^ w := by
      rw [Nat.mod_eq_sub_mod hge, Nat.mod_eq_of_lt (by omega)]
    have hdiv : (c0.toNat + s) / 2 ^ w = 1 := by
      rw [Nat.div_eq_sub_div (Nat.two_pow_pos w) hge, Nat.div_eq_of_lt (by omega)]
    have h1 : (1 : BitVec w).toNat = 1 := by
      rw [show (1 : BitVec w) = BitVec.ofNat w 1 from rfl, BitVec.toNat_ofNat,
        Nat.mod_eq_of_lt hone]
    rw [hmod, hdiv, if_pos (by omega), BitVec.toNat_add, h1, Nat.mod_add_mod]
    congr 1; omega

/-- A counter that says `8·len` gives `index = len mod B`. -/
theorem index_eq {o : HashObj C} {m : List UInt8} (h : o.Holds m) :
    o.index = m.length % C.blockLen := by
  have hlow : o.mCount0.toNat = 8 * m.length % 2 ^ C.w := by
    have hc := congrArg (· % 2 ^ C.w) h.count
    simp only [Nat.mul_add_mod_self_right, Nat.mod_eq_of_lt o.mCount0.isLt] at hc
    rw [hc, Nat.mod_mod_of_dvd]
    exact Nat.pow_dvd_pow 2 (by omega)
  have hmask : o.index = o.mCount0.toNat / 8 % C.blockLen % 256 := by
    rw [index, BitVec.toNat_and, BitVec.toNat_ushiftRight, BitVec.toNat_ofNat,
      Nat.shiftRight_eq_div_pow]
    generalize o.mCount0.toNat = c
    rcases C.width with ⟨hw, hB, -⟩ | ⟨hw, hB, -⟩
    · rw [hw, hB, show (64 - 1) % 2 ^ 32 = 2 ^ 6 - 1 from rfl, Nat.and_two_pow_sub_one_eq_mod]
    · rw [hw, hB, show (128 - 1) % 2 ^ 64 = 2 ^ 7 - 1 from rfl, Nat.and_two_pow_sub_one_eq_mod]
  rw [hmask, hlow]
  rcases C.width with ⟨hw, hB, -⟩ | ⟨hw, hB, -⟩
  · rw [hw, hB]; omega
  · rw [hw, hB]; omega

/-! ## The block loop

  What it hands over, as long as no sum wraps. -/

/-- **The loop takes every complete block from `i` on, or runs off the input.** -/
theorem blockLoop_eq (input : List UInt8) (hlen : input.length < 2 ^ 32) :
    ∀ (fuel : Nat) (mState : Vector (BitVec C.w) C.stateLen) (i : Nat), i ≤ input.length →
      (input.length - i) / C.blockLen < fuel →
      blockLoop C input fuel mState i =
        if input.length - (input.length - i) % C.blockLen + (C.blockLen - 1) < 2 ^ 32 then
          .ok (absorb C.blockLen C.transform mState (input.drop i),
            input.length - (input.length - i) % C.blockLen)
        else .error .outOfBounds := by
  intro fuel
  induction fuel with
  | zero => intro _ i _ hf; exact absurd hf (Nat.not_lt_zero _)
  | succ fuel ih =>
    intro mState i hi hf
    have hB := C.blockLen_pos
    have hBle : C.blockLen ≤ 128 := by rcases C.blockLen_eq with h | h <;> omega
    rw [blockLoop]
    rcases Nat.lt_or_ge (input.length - i) C.blockLen with hlt | hge
    · -- fewer than `B` bytes left: stop, unless `i + B - 1` wraps
      have hr : (input.length - i) % C.blockLen = input.length - i := Nat.mod_eq_of_lt hlt
      rw [hr, absorb_of_lt C.transform _ (by rw [List.length_drop]; exact hlt)]
      rcases Nat.lt_or_ge (i + (C.blockLen - 1)) (2 ^ 32) with hw | hw
      · rw [Nat.mod_eq_of_lt hw, if_neg (by omega), if_pos (by omega)]
        congr 2; omega
      · have hm : (i + (C.blockLen - 1)) % 2 ^ 32 = i + (C.blockLen - 1) - 2 ^ 32 := by
          rw [Nat.mod_eq_sub_mod hw, Nat.mod_eq_of_lt (by omega)]
        rw [hm, if_pos (by omega), if_neg (by omega), if_neg (by omega)]
    · -- a complete block at `i`: transform it and go on at `i + B`
      have hstep : (input.drop i).length = input.length - i := List.length_drop
      rw [Nat.mod_eq_of_lt (by omega), if_pos (by omega), if_pos (by omega),
        Nat.mod_eq_of_lt (by omega)]
      have hdiv :
        (input.length - i) / C.blockLen = (input.length - (i + C.blockLen)) / C.blockLen + 1 := by
        rw [Nat.div_eq_sub_div hB hge]; congr 2; omega
      have hmod :
        (input.length - i) % C.blockLen = (input.length - (i + C.blockLen)) % C.blockLen := by
        rw [Nat.mod_eq_sub_mod hge]; congr 1; omega
      have habs :
        absorb C.blockLen C.transform (C.transform mState ((input.drop i).take C.blockLen))
          (input.drop (i + C.blockLen)) = absorb C.blockLen C.transform mState (input.drop i) := by
        have htake : ((input.drop i).take C.blockLen).length = C.blockLen := by
          rw [List.length_take]; omega
        rw [← absorb_one hB C.transform mState htake, ← List.drop_drop,
          ← absorb_append_of_whole hB C.transform _ _ (by rw [htake]; exact Nat.mod_self _),
          List.take_append_drop]
      rw [ih _ _ (by omega) (by omega), habs, ← hmod]

/-! ## One update

  By whether the chunk completes the buffered block: if not it is buffered and no more, if so the
  loop takes the blocks behind it. -/

/-- The buffer after `memcpy(&mBuffer[index], …)` of the bytes that complete a block. -/
theorem complete_block {o : HashObj C} {m : List UInt8} (h : o.Holds m) (part : List UInt8)
    (hpart : m.length % C.blockLen + part.length = C.blockLen) :
    ∃ b, o.mBuffer.memcpy o.index part = .ok b ∧ b.bytes = rest C.blockLen m ++ part := by
  rw [index_eq h]
  obtain ⟨b, hb, -⟩ := Mem.memcpy_ok o.mBuffer _ part (Nat.le_of_eq hpart)
  refine ⟨b, hb, ?_⟩
  have htake := Mem.take_memcpy hb
  rw [h.tail, hpart] at htake
  rw [← htake, List.take_of_length_le (Nat.le_of_eq b.size)]

/-- The counter after an update. -/
theorem count_update {o : HashObj C} {m input : List UInt8} (h : o.Holds m)
    (hlen : input.length < 2 ^ 32) :
    (addBits o.mCount0 o.mCount1 input.length).2.toNat * 2 ^ C.w
        + (addBits o.mCount0 o.mCount1 input.length).1.toNat
      = 8 * (m ++ input).length % 2 ^ (2 * C.w) := by
  have hlt : input.length < 2 ^ C.w := by
    rcases C.width with ⟨hw, -⟩ | ⟨hw, -⟩ <;> rw [hw] <;> omega
  rw [addBits_value C.three_le_w _ _ hlt, h.count, Nat.mod_add_mod, List.length_append, Nat.mul_add]

/-- The last test of the loop wraps exactly when the buffered bytes and the input reach `2^32`. -/
theorem wrap_iff {B idx len : Nat} (hB : B = 64 ∨ B = 128) (hidx : idx < B) (hlen : len < 2 ^ 32)
    (hpart : B - idx ≤ len) :
    len - (len - (B - idx)) % B + (B - 1) < 2 ^ 32 ↔ idx + len < 2 ^ 32 := by
  rcases hB with rfl | rfl <;> omega

/-- The loop from the end of the buffered block on. -/
theorem updateLoop_eq {idx : Nat} (input : List UInt8) (hlen : input.length < 2 ^ 32)
    (hidx : idx < C.blockLen)
    (hpart : C.blockLen - idx ≤ input.length) (mState : Vector (BitVec C.w) C.stateLen) :
    blockLoop C input (input.length / C.blockLen + 1) mState (C.blockLen - idx) =
      if idx + input.length < 2 ^ 32 then
        .ok (absorb C.blockLen C.transform mState (input.drop (C.blockLen - idx)),
          input.length - (input.length - (C.blockLen - idx)) % C.blockLen)
      else .error .outOfBounds := by
  have hturns : (input.length - (C.blockLen - idx)) / C.blockLen ≤ input.length / C.blockLen :=
    Nat.div_le_div_right (Nat.sub_le ..)
  rw [blockLoop_eq input hlen _ mState _ hpart (Nat.lt_succ_of_le hturns)]
  simp only [wrap_iff C.blockLen_eq hidx hlen hpart]

/-- Everything still fits into the buffer. -/
theorem update_small {o : HashObj C} {m : List UInt8} (h : o.Holds m) (input : List UInt8)
    (hlen : input.length < 2 ^ 32)
    (hpart : ¬ C.blockLen - m.length % C.blockLen ≤ input.length) :
    ∃ o', o.update input = .ok o' ∧ o'.Holds (m ++ input) := by
  have hB := C.blockLen_pos
  have hrest : (rest C.blockLen m).length = m.length % C.blockLen := rest_length m
  have hsmall : (rest C.blockLen m ++ input).length < C.blockLen := by
    rw [List.length_append, hrest]
    omega
  have hlen' : (m ++ input).length % C.blockLen = m.length % C.blockLen + input.length := by
    rw [List.length_append, ← Nat.mod_add_mod, Nat.mod_eq_of_lt (by omega)]
  obtain ⟨b, hb, -⟩ := Mem.memcpy_ok o.mBuffer (m.length % C.blockLen) input (by omega)
  rw [update]
  simp only [index_eq h, if_neg hpart, hb, Run.ok_bind]
  refine ⟨_, rfl, ?_, ?_, count_update h hlen⟩
  · show o.mState = _
    rw [absorb_append hB, absorb_of_lt _ _ hsmall, h.state]
  · show b.bytes.take _ = _
    rw [hlen', Mem.take_memcpy hb, h.tail, rest_append hB, rest_of_lt hsmall]

/-- The buffered block is completed, and the loop follows. -/
theorem update_whole {o : HashObj C} {m : List UInt8} (h : o.Holds m) (input : List UInt8)
    (hlen : input.length < 2 ^ 32)
    (hfit : m.length % C.blockLen + input.length < 2 ^ 32)
    (hpart : C.blockLen - m.length % C.blockLen ≤ input.length) :
    ∃ o', o.update input = .ok o' ∧ o'.Holds (m ++ input) := by
  have hB := C.blockLen_pos
  have hidx : m.length % C.blockLen < C.blockLen := Nat.mod_lt _ hB
  have hloop := updateLoop_eq input hlen hidx hpart
  simp only [if_pos hfit] at hloop
  rw [update]
  simp only [index_eq h]
  generalize hp : C.blockLen - m.length % C.blockLen = p at *
  have htl : (input.take p).length = p := List.length_take_of_le hpart
  -- the first `p` bytes complete the buffered block
  obtain ⟨b, hb, hbytes⟩ := complete_block h (input.take p) (by rw [htl]; omega)
  rw [index_eq h] at hb
  have hsplit : m ++ input = m ++ input.take p ++ input.drop p := by
    rw [List.append_assoc, List.take_append_drop]
  have hwhole : (m ++ input.take p).length % C.blockLen = 0 := by
    rw [List.length_append, htl, ← Nat.mod_add_mod, show m.length % C.blockLen + p = C.blockLen
      from by omega,
      Nat.mod_self]
  have hst :
    C.transform o.mState b.bytes =
      absorb C.blockLen C.transform C.initState (m ++ input.take p) := by
    rw [absorb_append hB, hbytes, ← h.state, absorb_one hB]
    rw [List.length_append, rest_length, htl]
    omega
  have hi :
    input.length - (input.length - p) % C.blockLen = p + (input.length - p) / C.blockLen *
    C.blockLen := by
    have := Nat.div_add_mod' (input.length - p) C.blockLen
    omega
  -- what the loop leaves is the unfinished tail of the whole message
  have hdrop :
    input.drop (input.length - (input.length - p) % C.blockLen) = rest C.blockLen (m ++ input) := by
    rw [hsplit, rest_append_of_whole hB _ hwhole, rest, List.length_drop, List.drop_drop, hi]
  have hdl : (rest C.blockLen (m ++ input)).length = (m ++ input).length % C.blockLen :=
    rest_length _
  obtain ⟨b', hb', -⟩ := Mem.memcpy_ok b 0 (rest C.blockLen (m ++ input))
    (by have := Nat.mod_lt (m ++ input).length hB; omega)
  rw [if_pos hpart, hb]
  simp only [Run.ok_bind, hloop, hdrop, hb']
  refine ⟨_, rfl, ?_, ?_, count_update h hlen⟩
  · show absorb C.blockLen C.transform (C.transform o.mState b.bytes) (input.drop p) = _
    rw [hst, hsplit, absorb_append_of_whole hB _ _ _ hwhole]
  · have htake := Mem.take_memcpy hb'
    simpa [hdl] using htake

/-- **Step lemma.**  An update of an object that holds `m` makes it hold `m ++ input`. -/
theorem update_holds {o : HashObj C} {m : List UInt8} (h : o.Holds m) (input : List UInt8)
    (hlen : input.length < 2 ^ 32)
    (hfit : m.length % C.blockLen + input.length < 2 ^ 32) :
    ∃ o', o.update input = .ok o' ∧ o'.Holds (m ++ input) := by
  by_cases hpart : C.blockLen - m.length % C.blockLen ≤ input.length
  · exact update_whole h input hlen hfit hpart
  · exact update_small h input hlen hpart

/-- Beyond the bound the loop's last test wraps and the call reads outside `input`. -/
theorem update_fault {o : HashObj C} {m : List UInt8} (h : o.Holds m) (input : List UInt8)
    (hlen : input.length < 2 ^ 32)
    (hfit : 2 ^ 32 ≤ m.length % C.blockLen + input.length) :
    o.update input = .error .outOfBounds := by
  have hB := C.blockLen_pos
  have hidx : m.length % C.blockLen < C.blockLen := Nat.mod_lt _ hB
  have hBle : C.blockLen ≤ 128 := by rcases C.blockLen_eq with h | h <;> omega
  have hpart : C.blockLen - m.length % C.blockLen ≤ input.length := by omega
  have htl := List.length_take_of_le hpart
  obtain ⟨b, hb, -⟩ := complete_block h (input.take (C.blockLen - m.length % C.blockLen)) (by omega)
  rw [index_eq h] at hb
  rw [update]
  simp only [index_eq h]
  rw [if_pos hpart, hb, Run.ok_bind, updateLoop_eq input hlen hidx hpart,
    if_neg (Nat.not_lt.mpr hfit)]
  rfl

end HashObj

end StevenProgram
