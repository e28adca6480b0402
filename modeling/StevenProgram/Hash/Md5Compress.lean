/-
  `transformMd5` computes the compression function of RFC 1321.

  The source assigns to `a`, `d`, `c`, `b` in turn, the loop of the definition moves the registers
  by one place and always assigns to `B`.  Four macros are four such moves (`turn_eq`), and after
  them each register is back under its name; a round is four turns, and the words, rotations and
  constants it names are those of the tables (`rounds_eq`).
-/
import StevenProgram.Hash.Transform
import StevenProgram.Lib.Rfc1321

namespace StevenProgram

namespace Md5

open Rfc1321 (aux index shift T)

/-! ## Turns -/

/-- One macro, with the registers moved by one place after it. -/
def move (X : Nat → u32) (r : Regs) (i : Nat) : Regs :=
  ⟨r.d, step (aux i) r.a r.b r.c r.d (X (index i)) (shift i) (T i), r.b, r.c⟩

/-- Four macros from number `i`, as they are written. -/
def turn (X : Nat → u32) (r : Regs) (i : Nat) : Regs :=
  let a := step (aux i) r.a r.b r.c r.d (X (index i)) (shift i) (T i)
  let d := step (aux (i + 1)) r.d a r.b r.c (X (index (i + 1))) (shift (i + 1)) (T (i + 1))
  let c := step (aux (i + 2)) r.c d a r.b (X (index (i + 2))) (shift (i + 2)) (T (i + 2))
  let b := step (aux (i + 3)) r.b c d a (X (index (i + 3))) (shift (i + 3)) (T (i + 3))
  ⟨a, b, c, d⟩

/-- A turn of the loop is four steps. -/
theorem turn_eq (X : Nat → u32) (r : Regs) (i : Nat) :
    turn X r i = (List.range' i 4).foldl (move X) r := rfl

/-- The four functions are those of the standard. -/
theorem functions_eq : Rfc1321.F = F ∧ Rfc1321.G = G ∧ Rfc1321.H = H ∧ Rfc1321.I = I :=
  ⟨rfl, rfl, rfl, rfl⟩

/-- **The rounds are turns**, with the numbers that the source writes out. -/
theorem rounds_eq {x : Vector u32 16} {X : Nat → u32} (hX : ∀ k (h : k < 16), x[k] = X k)
    (r : Regs) :
    round1 x r = [0, 4, 8, 12].foldl (turn X) r ∧
    round2 x r = [16, 20, 24, 28].foldl (turn X) r ∧
    round3 x r = [32, 36, 40, 44].foldl (turn X) r ∧
    round4 x r = [48, 52, 56, 60].foldl (turn X) r := by
  refine ⟨?_, ?_, ?_, ?_⟩
  -- the names `a` to `d` are gone once the macros stand inside one another, on both sides
  all_goals
    simp only [round1, round2, round3, round4, FF, GG, HH, II, turn, hX, functions_eq,
      List.foldl_cons, List.foldl_nil,
      aux, index, shift, Rfc1321.T_eq, Rfc1321.shifts, Rfc1321.constants, List.getD_cons_zero,
        List.getD_cons_succ,
      Nat.reduceDiv, Nat.reduceMod, Nat.reduceAdd, Nat.reduceMul, S11, S12, S13, S14, S21, S22,
        S23, S24,
      S31, S32, S33, S34, S41, S42, S43, S44]

/-- The four loops are sixty-four steps. -/
theorem turns_eq (X : Nat → u32) (r : Regs) :
    [48, 52, 56, 60].foldl (turn X) ([32, 36, 40, 44].foldl (turn X)
      ([16, 20, 24, 28].foldl (turn X) ([0, 4, 8, 12].foldl (turn X) r))) = (List.range 64).foldl
        (move X) r := by
  have hflat :
    List.range 64 = ([0, 4, 8, 12] ++ [16, 20, 24, 28] ++ [32, 36, 40, 44] ++ [48, 52, 56,
    60]).flatMap
      (List.range' · 4) := by decide
  have hturn : turn X = fun r i => (List.range' i 4).foldl (move X) r := funext fun r => funext
    (turn_eq X r)
  rw [hflat, List.foldl_flatMap, List.foldl_append, List.foldl_append, List.foldl_append, hturn]

/-! ## Moves -/

/-- A step rotates the sum. -/
theorem step_eq (f : u32 → u32 → u32 → u32) (a b c d x : u32) {s : Nat} (hs : s < 32) (ac : u32) :
    step f a b c d x s ac = b + (a + f b c d + x + ac).rotateLeft s := by
  rw [step, ROTATE_LEFT, Words.join_rotate _ hs, BitVec.add_comm, BitVec.add_assoc,
    BitVec.add_assoc, BitVec.add_assoc]

/-- The registers under their names in the definition. -/
def Regs.named (r : Regs) : Rfc1321.Regs := ⟨r.a, r.b, r.c, r.d⟩

/-- A step is one of the standard, with the registers named. -/
theorem named_move (X : Nat → u32) (r : Regs) (i : Nat) :
    Rfc1321.step X r.named i = (move X r i).named := by
  rw [move, step_eq _ _ _ _ _ _ (Rfc1321.shift_lt i)]
  rfl

/-! ## The block -/

/-- A byte of the input, widened. -/
theorem byteAt_eq (w : Nat) (input : List UInt8) (j : Nat) :
    byteAt w input j = (input.getD j 0).toBitVec.setWidth w :=
  BitVec.ofNat_toNat _ _

/-- `Decode` reads little-endian words. -/
theorem Decode_eq (block : List UInt8) (k : Nat) (h : k < 16) :
    (Decode block)[k] = Words.leWord block k := by
  rw [Decode, Vector.getElem_ofFn]
  rw [byteAt_eq, byteAt_eq, byteAt_eq, byteAt_eq]
  exact Words.join_shifts _ _ _ _

/-- A chaining value under the names of the definition. -/
def registers (state : Vector u32 4) : Rfc1321.Regs :=
  ⟨state.get 0, state.get 1, state.get 2, state.get 3⟩

/-- **MD5 compresses a block as RFC 1321 says.** -/
theorem transformMd5_eq (state : Vector u32 4) (block : List UInt8) :
    registers (transformMd5 state block) = Rfc1321.compress (registers state) block := by
  have hX := Decode_eq block
  have hloop : round4 (Decode block) (round3 (Decode block) (round2 (Decode block)
      (round1 (Decode block) (loadRegs state)))) =
      (List.range 64).foldl (move (Words.leWord block)) (loadRegs state) := by
    rw [(rounds_eq hX _).1, (rounds_eq hX _).2.1, (rounds_eq hX _).2.2.1, (rounds_eq hX _).2.2.2,
      turns_eq]
  have hnamed : (List.range 64).foldl (Rfc1321.step (Words.leWord block)) (loadRegs state).named =
      ((List.range 64).foldl (move (Words.leWord block)) (loadRegs state)).named :=
    List.foldl_hom Regs.named (named_move (Words.leWord block))
  have hstart : registers state = (loadRegs state).named := rfl
  rw [Rfc1321.compress, hstart, hnamed, transformMd5, hloop]
  rfl

end Md5

end StevenProgram
