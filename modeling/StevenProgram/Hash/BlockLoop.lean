/-
  Whether the block loop of an update ends, and what it hands to `transform`.

  The loop index and the sum `i + 63` (`i + 127`) are `u32_t`.  The index starts where the buffered
  block is complete, so index plus buffered bytes is a multiple of the block length all along, also
  when the index wraps.  Where the buffered bytes and `len` reach 2^32, the guard holds at every
  such index: the loop hands over a block behind the input and goes on for ever.

  1. **The loop** — its index after any number of turns (`blockAt`), and its guard (`More`).
  2. **It ends** (`blockLoop_ends`) — a run of `blockLoop` has handed over blocks inside the input
     only.
  3. **It does not** (`more_forever`) — the guard, by what the index is modulo the block length.
  4. **Headline** (`update_block_loop_iff`) — for every class, object and input.
-/
import StevenProgram.Hash.Streaming

namespace StevenProgram

namespace HashObj

variable {C : HashClass}

/-! ## The loop

  `u32_t` arithmetic throughout: the guard is the comparison of a sum that may have wrapped. -/

/-- `i += 64`. -/
def nextBlock (C : HashClass) (i : Nat) : Nat := (i + C.blockLen) % 2 ^ 32

/-- `i` after `n` turns of the loop that starts at `i`. -/
def blockAt (C : HashClass) (i : Nat) : Nat → Nat
  | 0 => i
  | n + 1 => blockAt C (nextBlock C i) n

/-- `i + 63 < len`. -/
def More (C : HashClass) (len i : Nat) : Prop := (i + (C.blockLen - 1)) % 2 ^ 32 < len

/-- The loop that starts at `i` comes to an end, and every block it hands over is inside the
    input. -/
structure LoopSafe (C : HashClass) (len i : Nat) : Prop where
  ends : ∃ n, ¬ More C len (blockAt C i n)
  inside : ∀ n, (∀ k ≤ n, More C len (blockAt C i k)) → blockAt C i n + C.blockLen ≤ len

/-- An update of `o` comes to an end and reads inside `input`, in its block loop and elsewhere. -/
structure UpdateSafe (o : HashObj C) (input : List UInt8) : Prop where
  loop : C.blockLen - o.index ≤ input.length → LoopSafe C input.length (C.blockLen - o.index)
  runs : ∃ o', o.update input = .ok o'

/-! ## It ends

  A loop that ends was at a block inside the input at every turn; nothing else can be said of it,
  and nothing else is needed. -/

/-- **Run lemma**, on the turns of `blockLoop`. -/
theorem blockLoop_ends {input : List UInt8} {fuel i : Nat} {mState : Vector (BitVec C.w) C.stateLen}
    {r : Vector (BitVec C.w) C.stateLen × Nat} (h : blockLoop C input fuel mState i = .ok r) :
    LoopSafe C input.length i := by
  induction fuel generalizing mState i with
  | zero => cases h
  | succ fuel ih =>
    rw [blockLoop] at h
    split at h
    · next hmore =>
      split at h
      · next hinside =>
        obtain ⟨⟨n, hn⟩, hrest⟩ := ih h
        refine ⟨⟨n + 1, hn⟩, ?_⟩
        intro n hn
        cases n with
        | zero => exact hinside
        | succ n => exact hrest n fun k hk => hn (k + 1) (Nat.succ_le_succ hk)
      · cases h
    · next hdone =>
      refine ⟨⟨0, hdone⟩, ?_⟩
      intro n hn
      exact absurd (hn 0 (Nat.zero_le n)) hdone

/-- The index lies in the buffer. -/
theorem index_lt (o : HashObj C) : o.index < C.blockLen := by
  have hle : o.index ≤ C.blockLen - 1 := by
    rw [index]
    refine Nat.le_trans (Nat.mod_le ..) ?_
    rw [BitVec.toNat_and, BitVec.toNat_ofNat]
    exact Nat.le_trans Nat.and_le_right (Nat.mod_le ..)
  have hpos := C.blockLen_pos
  omega

/-- An update has a result, as long as the loop's test does not wrap. -/
theorem update_runs (o : HashObj C) (input : Chunk) (hfit : o.index + input.len < 2 ^ 32) :
    ∃ o', o.update input.bytes = .ok o' := by
  have hB := C.blockLen_pos
  have hidx := o.index_lt
  rw [update]
  by_cases hpart : C.blockLen - o.index ≤ input.bytes.length
  · have htake := List.length_take_of_le hpart
    obtain ⟨b, hb, -⟩ := Mem.memcpy_ok o.mBuffer o.index (input.bytes.take (C.blockLen - o.index))
      (by omega)
    have hloop := updateLoop_eq input.bytes input.len_lt hidx hpart (C.transform o.mState b.bytes)
    rw [if_pos (show o.index + input.bytes.length < 2 ^ 32 from hfit)] at hloop
    generalize hrest :
      input.bytes.length - (input.bytes.length - (C.blockLen - o.index)) % C.blockLen = i at hloop
    have hleft : (input.bytes.drop i).length < C.blockLen := by
      have := Nat.mod_lt (input.bytes.length - (C.blockLen - o.index)) hB
      rw [List.length_drop]
      omega
    obtain ⟨b', hb', -⟩ := Mem.memcpy_ok b 0 (input.bytes.drop i) (by omega)
    simp only [if_pos hpart, hb, Run.ok_bind, hloop, hb']
    exact ⟨_, rfl⟩
  · obtain ⟨b, hb, -⟩ := Mem.memcpy_ok o.mBuffer o.index input.bytes (by omega)
    simp only [if_neg hpart, hb, Run.ok_bind]
    exact ⟨_, rfl⟩

/-- An update that has a result has been through its loop. -/
theorem loopSafe_of_runs {o o' : HashObj C} {input : List UInt8} (h : o.update input = .ok o')
    (hpart : C.blockLen - o.index ≤ input.length) :
    LoopSafe C input.length (C.blockLen - o.index) := by
  rw [update] at h
  simp only [if_pos hpart] at h
  obtain ⟨b, -, h⟩ := Run.bind_ok.mp h
  obtain ⟨r, hr, -⟩ := Run.bind_ok.mp h
  exact blockLoop_ends hr

/-! ## It does not

  Index plus buffered bytes stays a multiple of the block length when the index wraps, since the
  block length divides 2^32.  So where the guard holds at the largest such index it holds at all of
  them. -/

/-- The guard at every index that the loop can have. -/
theorem more_of_aligned {idx len i : Nat} (hidx : idx < C.blockLen) (hlen : len < 2 ^ 32)
    (hwrap : 2 ^ 32 ≤ idx + len)
    (haligned : (i + idx) % C.blockLen = 0) : More C len i := by
  rw [More]
  rcases C.blockLen_eq with hB | hB
  · rw [hB] at hidx haligned ⊢
    omega
  · rw [hB] at hidx haligned ⊢
    omega

/-- What one turn keeps. -/
theorem aligned_next {idx i : Nat} (haligned : (i + idx) % C.blockLen = 0) :
    (nextBlock C i + idx) % C.blockLen = 0 := by
  rw [nextBlock]
  rcases C.blockLen_eq with hB | hB
  · rw [hB] at haligned ⊢
    omega
  · rw [hB] at haligned ⊢
    omega

/-- **The loop never ends** where the buffered bytes and the input reach 2^32. -/
theorem more_forever {idx len : Nat} (hidx : idx < C.blockLen) (hlen : len < 2 ^ 32)
    (hwrap : 2 ^ 32 ≤ idx + len) :
    ∀ (n i : Nat), (i + idx) % C.blockLen = 0 → More C len (blockAt C i n) := by
  intro n
  induction n with
  | zero =>
    intro i haligned
    exact more_of_aligned hidx hlen hwrap haligned
  | succ n ih =>
    intro i haligned
    exact ih (nextBlock C i) (aligned_next haligned)

/-! ## Headline

  The condition is a sum of two lengths; it does not mention the loop. -/

/-- **Every update ends and stays inside its input exactly if** the buffered bytes and `len` stay
    below 2^32.  Beyond, the block loop has no end. -/
theorem update_block_loop_iff (alg : HashAlg) (o : HashObj alg.cls) (input : Chunk) :
    (UpdateSafe o input.bytes ↔ o.index + input.len < 2 ^ 32) ∧
    (2 ^ 32 ≤ o.index + input.len →
      alg.cls.blockLen - o.index ≤ input.len ∧ ∀ n, More alg.cls input.len
        (blockAt alg.cls (alg.cls.blockLen - o.index) n)) := by
  have hidx := o.index_lt
  have hB : alg.cls.blockLen ≤ 128 := by rcases alg.cls.blockLen_eq with h | h <;> omega
  have hlen : input.len < 2 ^ 32 := input.len_lt
  have hforever : 2 ^ 32 ≤ o.index + input.len →
      alg.cls.blockLen - o.index ≤ input.len ∧ ∀ n, More alg.cls input.len
        (blockAt alg.cls (alg.cls.blockLen - o.index) n) := by
    intro hwrap
    refine ⟨by omega, fun n => more_forever hidx hlen hwrap n _ ?_⟩
    rw [Nat.sub_add_cancel (Nat.le_of_lt hidx), Nat.mod_self]
  refine ⟨⟨?_, ?_⟩, hforever⟩
  · intro h
    rcases Nat.lt_or_ge (o.index + input.len) (2 ^ 32) with hfit | hwrap
    · exact hfit
    · obtain ⟨hpart, hmore⟩ := hforever hwrap
      obtain ⟨n, hn⟩ := (h.loop hpart).ends
      exact absurd (hmore n) hn
  · intro hfit
    obtain ⟨o', ho'⟩ := update_runs o input hfit
    exact ⟨loopSafe_of_runs ho', o', ho'⟩

/-- **The wrapping guard**: one byte is buffered, and 2^32 - 1 follow. -/
theorem update_block_loop_wraps : ¬ ∀ (alg : HashAlg) (o : HashObj alg.cls) (input : Chunk),
    UpdateSafe o input.bytes := by
  intro h
  obtain ⟨o, -, ho⟩ := update_holds (new_holds HashMd5 fun _ => 0) [0] (by decide) (by decide)
  rw [List.nil_append] at ho
  obtain ⟨z, hz⟩ : ∃ z : List UInt8, z.length = 2 ^ 32 - 1 :=
    ⟨List.replicate (2 ^ 32 - 1) 0, List.length_replicate⟩
  have hlong : z.length < 2 ^ 32 := by omega
  obtain ⟨o', ho'⟩ := (h .md5 o ⟨z, hlong⟩).runs
  have hone : ([0] : List UInt8).length % HashMd5.blockLen = 1 := rfl
  have hfault := update_fault ho z hlong (by omega)
  cases hfault.symm.trans ho'

end HashObj

end StevenProgram
