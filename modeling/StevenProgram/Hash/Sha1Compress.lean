/-
  `transformSha1` computes the compression function of FIPS 180-4.

  1. **The buffer** (`word_eq`) — its sixteen slots are a window on one sequence, the words of the
     block as they are read and behind them the words of the schedule.  Operation `i` reads the
     window from `i` and puts word `i` of the schedule, which is entry `i + 16`, in place of entry
     `i`.
  2. **Operations** (`operation_eq`) — each of the macros `R0` to `R4` makes the step of its number.
  3. **Registers** (`unrolled_eq`) — a group of twenty macros over renamed variables is twenty
     moves.
-/
import StevenProgram.Lib.Fips180
import StevenProgram.Lib.Window
import StevenProgram.Hash.Md5Compress

namespace StevenProgram

namespace Sha1

/-! ## The buffer

  The standard's schedule has eighty words; the source keeps the last sixteen of them and computes
  the next one when it is needed. -/

/-- What the slots of the buffer hold in the course of a call. -/
def entries (block : List UInt8) (j : Nat) : u32 :=
  if j < 16 then Words.leWord block j else Fips180.W block (j - 16)

/-- The entries behind the first sixteen are the schedule. -/
theorem entries_word (block : List UInt8) (i : Nat) :
    entries block (i + 16) = Fips180.W block i := by
  rw [entries, if_neg (Nat.not_lt.mpr (Nat.le_add_left 16 i)), Nat.add_sub_cancel]

/-- The window begins with the block. -/
theorem loadBlock_holds (block : List UInt8) : Window.Holds (loadBlock block)
    (entries block) 0 := by
  intro j hj _ hhi
  have hlt : j < 16 := by omega
  rw [entries, if_pos hlt, loadBlock, Md5.Decode_eq, Nat.mod_eq_of_lt hlt]

/-- `rol` rotates. -/
theorem rol_eq (value : u32) {bits : Nat} (h : bits < 32) :
    rol value bits = value.rotateLeft bits :=
  Words.join_rotate value h

/-- The word of operation `i`, and the buffer after it. -/
def word (i : Nat) (l : Vector u32 16) : u32 × Vector u32 16 :=
  if h : i < 16 then blk0 l ⟨i, h⟩ else blk l i

/-- An operation writes its word to its place in the window. -/
theorem word_set (i : Nat) (l : Vector u32 16) :
    (word i l).2 = l.set (i % 16) (word i l).1 (Nat.mod_lt i (by decide)) := by
  rw [word]
  split
  · next hi =>
    simp only [Nat.mod_eq_of_lt hi]
    rfl
  · rfl

section Buffer

variable {block : List UInt8} {l : Vector u32 16} {i : Nat} (h : Window.Holds l (entries block) i)
include h

/-- `blk0` is a word of the block. -/
theorem blk0_eq (hi : i < 16) : (blk0 l ⟨i, hi⟩).1 = Fips180.W block i := by
  have hslot : l[i] = Words.leWord block i := by
    rw [h.get hi (Nat.mod_eq_of_lt hi) (Nat.le_refl i) (Nat.lt_add_of_pos_right (by decide)),
      entries, if_pos hi]
  rw [Fips180.W_block hi, blk0, rol_eq _ (by decide), rol_eq _ (by decide)]
  show (l[i].rotateLeft 24 &&& 0xFF00FF00) ||| (l[i].rotateLeft 8 &&& 0x00FF00FF) = _
  rw [hslot]
  exact Words.swap_rotates _ _ _ _

/-- `blk` is a later word of the schedule. -/
theorem blk_eq (hlo : 16 ≤ i) (hhi : i < 80) : (blk l i).1 = Fips180.W block i := by
  -- the slots of the words 3, 8, 14 and 16 back
  have hslot : ∀ k, k < 16 → l[(i + k) % 16] = Fips180.W block (i - (16 - k)) := by
    intro k hk
    rw [h.get (Nat.mod_lt _ (by decide)) rfl (Nat.le_add_right i k) (Nat.add_lt_add_left hk i),
      entries,
      if_neg (by omega)]
    congr 1
    omega
  have h0 : l[i % 16] = Fips180.W block (i - 16) := hslot 0 (by decide)
  rw [Fips180.W_next hlo hhi, ← rol_eq _ (by decide)]
  show rol (l[(i + 13) % 16] ^^^ l[(i + 8) % 16] ^^^ l[(i + 2) % 16] ^^^ l[i % 16]) 1 = _
  rw [hslot 13 (by decide), hslot 8 (by decide), hslot 2 (by decide), h0]

/-- **The word of an operation** is that of the schedule, and the window moves on. -/
theorem word_eq (hi : i < 80) :
    (word i l).1 = Fips180.W block i ∧ Window.Holds (word i l).2 (entries block) (i + 1) := by
  have hword : (word i l).1 = Fips180.W block i := by
    rw [word]
    split
    · next hlt => exact blk0_eq h hlt
    · next hge => exact blk_eq h (Nat.le_of_not_lt hge) hi
  refine ⟨hword, ?_⟩
  rw [word_set]
  exact h.push _ (hword.trans (entries_word block i).symm)

end Buffer

/-! ## Operations

  The macros differ in the function and the constant, and in whether they read the block or the
  schedule. -/

/-- `z+=…;w=rol(w,30);` of number `i`. -/
def operation (i : Nat) (v w x y z : u32) (l : Vector u32 16) : u32 × u32 × Vector u32 16 :=
  if h : i < 16 then R0 v w x y z l ⟨i, h⟩
  else if i < 20 then R1 v w x y z l i
  else if i < 40 then R2 v w x y z l i
  else if i < 60 then R3 v w x y z l i
  else R4 v w x y z l i

section Operations

variable (v w x y z : u32) (l : Vector u32 16)

/-- The first sixteen operations. -/
theorem R0_eq {i : Nat} (h : i < 16) :
    R0 v w x y z l (no_index (OfNat.ofNat i)) = operation i v w x y z l := by
  rw [operation, dif_pos h]
  congr 1
  exact Fin.ext (Nat.mod_eq_of_lt h)

/-- The four that begin to use the schedule. -/
theorem R1_eq {i : Nat} (h : 16 ≤ i ∧ i < 20) : R1 v w x y z l i = operation i v w x y z l := by
  rw [operation, dif_neg (by omega), if_pos (by omega)]

/-- The second twenty. -/
theorem R2_eq {i : Nat} (h : 20 ≤ i ∧ i < 40) : R2 v w x y z l i = operation i v w x y z l := by
  rw [operation, dif_neg (by omega), if_neg (by omega), if_pos (by omega)]

/-- The third twenty. -/
theorem R3_eq {i : Nat} (h : 40 ≤ i ∧ i < 60) : R3 v w x y z l i = operation i v w x y z l := by
  rw [operation, dif_neg (by omega), if_neg (by omega), if_neg (by omega), if_pos (by omega)]

/-- The last twenty. -/
theorem R4_eq {i : Nat} (h : 60 ≤ i) : R4 v w x y z l i = operation i v w x y z l := by
  rw [operation, dif_neg (by omega), if_neg (by omega), if_neg (by omega), if_neg (by omega)]

/-- **An operation is the step of its number**, on the word that the buffer gives. -/
theorem operation_eq {i : Nat} (hi : i < 80) :
    operation i v w x y z l =
      stepSha1 (Fips180.f i w x y) (Fips180.K i) (word i l) v w z := by
  have hlate : 16 ≤ i → word i l = blk l i := fun h => dif_neg (Nat.not_lt.mpr h)
  rcases Nat.lt_or_ge i 16 with h16 | h16
  · obtain ⟨hf, hK⟩ := Fips180.round1 (Nat.lt_trans h16 (by decide))
    rw [operation, dif_pos h16, hf, hK, word, dif_pos h16, R0, Fips180.Ch_eq]
  · rw [hlate h16]
    rcases Nat.lt_or_ge i 20 with h20 | h20
    · obtain ⟨hf, hK⟩ := Fips180.round1 h20
      rw [← R1_eq v w x y z l ⟨h16, h20⟩, hf, hK, R1, Fips180.Ch_eq]
    · rcases Nat.lt_or_ge i 40 with h40 | h40
      · obtain ⟨hf, hK⟩ := Fips180.round2 h20 h40
        rw [← R2_eq v w x y z l ⟨h20, h40⟩, hf, hK]
        rfl
      · rcases Nat.lt_or_ge i 60 with h60 | h60
        · obtain ⟨hf, hK⟩ := Fips180.round3 h40 h60
          rw [← R3_eq v w x y z l ⟨h40, h60⟩, hf, hK, R3, Fips180.Maj_eq]
        · obtain ⟨hf, hK⟩ := Fips180.round4 h60 hi
          rw [← R4_eq v w x y z l h60, hf, hK]
          rfl

end Operations

/-! ## Registers

  The source renames its variables from operation to operation instead of moving the registers. -/

section Registers

variable (R : Nat → u32 → u32 → u32 → u32 → u32 → Vector u32 16 → u32 × u32 × Vector u32 16)

/-- One macro, with the registers moved by one place after it. -/
def move (r : Regs) (i : Nat) : Regs :=
  let p := R i r.a r.b r.c r.d r.e r.l
  ⟨p.1, r.a, p.2.1, r.c, r.d, p.2.2⟩

/-- The text of a group of twenty macros. -/
def unrolled (i : Nat) : Regs → Regs
  | ⟨a, b, c, d, e, l⟩ =>
    let (e, b, l) := R i a b c d e l
    let (d, a, l) := R (i + 1) e a b c d l
    let (c, e, l) := R (i + 2) d e a b c l
    let (b, d, l) := R (i + 3) c d e a b l
    let (a, c, l) := R (i + 4) b c d e a l
    let (e, b, l) := R (i + 5) a b c d e l
    let (d, a, l) := R (i + 6) e a b c d l
    let (c, e, l) := R (i + 7) d e a b c l
    let (b, d, l) := R (i + 8) c d e a b l
    let (a, c, l) := R (i + 9) b c d e a l
    let (e, b, l) := R (i + 10) a b c d e l
    let (d, a, l) := R (i + 11) e a b c d l
    let (c, e, l) := R (i + 12) d e a b c l
    let (b, d, l) := R (i + 13) c d e a b l
    let (a, c, l) := R (i + 14) b c d e a l
    let (e, b, l) := R (i + 15) a b c d e l
    let (d, a, l) := R (i + 16) e a b c d l
    let (c, e, l) := R (i + 17) d e a b c l
    let (b, d, l) := R (i + 18) c d e a b l
    let (a, c, l) := R (i + 19) b c d e a l
    ⟨a, b, c, d, e, l⟩

/-- **Renaming the variables moves the registers.** -/
theorem unrolled_eq (i : Nat) (r : Regs) : unrolled R i r = (List.range' i 20).foldl
    (move R) r := by
  obtain ⟨a, b, c, d, e, l⟩ := r
  rfl

end Registers

/-- The groups of the source, with one name for all macros. -/
theorem ops_eq (r : Regs) :
    ops0 r = unrolled operation 0 r ∧ ops20 r = unrolled operation 20 r ∧
    ops40 r = unrolled operation 40 r ∧ ops60 r = unrolled operation 60 r := by
  refine ⟨?_, ?_, ?_, ?_⟩
  all_goals
    simp only [ops0, ops20, ops40, ops60, unrolled, R0_eq, R1_eq, R2_eq, R3_eq, R4_eq,
      Nat.reduceAdd, Nat.reduceLT,
      Nat.reduceLeDiff, and_self]

/-- The unrolled operations are eighty of one kind. -/
theorem operations_eq (r : Regs) :
    ops60 (ops40 (ops20 (ops0 r))) = (List.range 80).foldl (move operation) r := by
  have hflat : List.range 80 =
      List.range' 0 20 ++ List.range' 20 20 ++ List.range' 40 20 ++ List.range' 60 20 := by decide
  rw [hflat, List.foldl_append, List.foldl_append, List.foldl_append, (ops_eq r).1, unrolled_eq,
    (ops_eq _).2.1,
    unrolled_eq, (ops_eq _).2.2.1, unrolled_eq, (ops_eq _).2.2.2, unrolled_eq]

/-! ## The call

  Eighty operations, and the registers added to the state. -/

/-- The registers of the definition. -/
def Regs.named (r : Regs) : Fips180.Regs := ⟨r.a, r.b, r.c, r.d, r.e⟩

/-- What an operation does to the registers. -/
theorem stepSha1_eq (f k : u32) (word : u32 × Vector u32 16) (v w z : u32) :
    stepSha1 f k word v w z = (v.rotateLeft 5 + f + z + k + word.1, w.rotateLeft 30, word.2) := by
  rw [stepSha1, rol_eq v (by decide), rol_eq w (by decide)]
  have hsum : z + (f + word.1 + k + v.rotateLeft 5) = v.rotateLeft 5 + f + z + k + word.1 :=
    by ac_rfl
  rw [hsum]

section Loop

variable {block : List UInt8}

/-- One operation, beside one step. -/
theorem move_eq {r : Regs} {i : Nat} (hi : i < 80) (h : Window.Holds r.l (entries block) i) :
    (move operation r i).named = Fips180.step (Fips180.W block) r.named i ∧
    Window.Holds (move operation r i).l (entries block) (i + 1) := by
  obtain ⟨hword, hnext⟩ := word_eq h hi
  have hop : operation i r.a r.b r.c r.d r.e r.l = _ := (operation_eq _ _ _ _ _ _ hi).trans
    (stepSha1_eq _ _ _ _ _ _)
  rw [hword] at hop
  rw [move, hop]
  exact ⟨rfl, hnext⟩

/-- The loop, from the block as it was copied. -/
theorem run_eq {r : Regs} (h : Window.Holds r.l (entries block) 0) :
    ∀ n, n ≤ 80 →
      ((List.range n).foldl (move operation) r).named =
        (List.range n).foldl (Fips180.step (Fips180.W block)) r.named ∧
      Window.Holds ((List.range n).foldl (move operation) r).l (entries block) n
  | 0, _ => ⟨rfl, h⟩
  | n + 1, hn => by
      obtain ⟨hnamed, hholds⟩ := run_eq h n (Nat.le_of_succ_le hn)
      obtain ⟨hstep, hnext⟩ := move_eq hn hholds
      rw [List.range_succ, List.foldl_append, List.foldl_append, ← hnamed]
      exact ⟨hstep, hnext⟩

end Loop

/-- A chaining value under the names of the definition. -/
def registers (state : Vector u32 5) : Fips180.Regs :=
  ⟨state.get 0, state.get 1, state.get 2, state.get 3, state.get 4⟩

/-- **SHA-1 compresses a block as FIPS 180-4 says.** -/
theorem transformSha1_eq (state : Vector u32 5) (buffer : List UInt8) :
    registers (transformSha1 state buffer) = Fips180.compress (registers state) buffer := by
  have hrun := run_eq (r := loadRegs state (loadBlock buffer)) (loadBlock_holds buffer) 80
    (Nat.le_refl 80)
  have hnamed : _ = (List.range 80).foldl (Fips180.step (Fips180.W buffer)) (registers state) :=
    hrun.1
  rw [Fips180.compress, ← hnamed, transformSha1, operations_eq]
  rfl

end Sha1

end StevenProgram
