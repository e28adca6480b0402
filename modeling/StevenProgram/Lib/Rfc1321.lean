/-
  RFC 1321: the compression function of MD5, by the loop of its definition.

  Step `i` works on the registers `A B C D` as they stand and then turns them by one place, so that
  every step is the same text.  What a step takes from its number is in tables: the function of the
  round (`aux`), the word of the block (`index`), the amount of the rotation (`shift`) and the
  constant (`T`), which is the integer part of `2 ^ 32 * |sin (i + 1)|`: `table` carries the proof.
-/
import StevenProgram.Lib.Words
import StevenProgram.Lib.SineTable

namespace Rfc1321

abbrev Word : Type := BitVec 32

/-! ## Functions and tables

  By the number of the step, sixteen to a round. -/

def F (X Y Z : Word) : Word := (X &&& Y) ||| (~~~X &&& Z)
def G (X Y Z : Word) : Word := (X &&& Z) ||| (Y &&& ~~~Z)
def H (X Y Z : Word) : Word := X ^^^ Y ^^^ Z
def I (X Y Z : Word) : Word := Y ^^^ (X ||| ~~~Z)

/-- The function of the round. -/
def aux (i : Nat) : Word → Word → Word → Word :=
  match i / 16 with
  | 0 => F
  | 1 => G
  | 2 => H
  | _ => I

/-- The word of the block that step `i` takes. -/
def index (i : Nat) : Nat :=
  match i / 16 with
  | 0 => i % 16
  | 1 => (5 * i + 1) % 16
  | 2 => (3 * i + 5) % 16
  | _ => 7 * i % 16

/-- The rotations, four to a round. -/
def shifts : List (List Nat) := [[7, 12, 17, 22], [5, 9, 14, 20], [4, 11, 16, 23], [6, 10, 15, 21]]

def shift (i : Nat) : Nat := (shifts.getD (i / 16) []).getD (i % 4) 0

/-- Every rotation is shorter than the word. -/
theorem shift_lt (i : Nat) : shift i < 32 := by
  have htable : ∀ q < 4, ∀ k < 4, (shifts.getD q []).getD k 0 < 32 := by decide
  rw [shift]
  rcases Nat.lt_or_ge (i / 16) 4 with hq | hq
  · exact htable _ hq _ (Nat.mod_lt _ (by decide))
  · have hnone : shifts.getD (i / 16) [] = [] := by
      rw [List.getD_eq_getElem?_getD, List.getElem?_eq_none hq]
      rfl
    rw [hnone]
    exact Nat.zero_lt_succ 31

/-- The table of the standard. -/
def constants : List Word :=
  [0xd76aa478, 0xe8c7b756, 0x242070db, 0xc1bdceee, 0xf57c0faf, 0x4787c62a, 0xa8304613, 0xfd469501,
   0x698098d8, 0x8b44f7af, 0xffff5bb1, 0x895cd7be, 0x6b901122, 0xfd987193, 0xa679438e, 0x49b40821,
   0xf61e2562, 0xc040b340, 0x265e5a51, 0xe9b6c7aa, 0xd62f105d, 0x02441453, 0xd8a1e681, 0xe7d3fbc8,
   0x21e1cde6, 0xc33707d6, 0xf4d50d87, 0x455a14ed, 0xa9e3e905, 0xfcefa3f8, 0x676f02d9, 0x8d2a4c8a,
   0xfffa3942, 0x8771f681, 0x6d9d6122, 0xfde5380c, 0xa4beea44, 0x4bdecfa9, 0xf6bb4b60, 0xbebfbc70,
   0x289b7ec6, 0xeaa127fa, 0xd4ef3085, 0x04881d05, 0xd9d4d039, 0xe6db99e5, 0x1fa27cf8, 0xc4ac5665,
   0xf4292244, 0x432aff97, 0xab9423a7, 0xfc93a039, 0x655b59c3, 0x8f0ccc92, 0xffeff47d, 0x85845dd1,
   0x6fa87e4f, 0xfe2ce6e0, 0xa3014314, 0x4e0811a1, 0xf7537e82, 0xbd3af235, 0x2ad7d2bb, 0xeb86d391]

def table : SineTable.Table 64 := .ofRows constants (by decide +kernel)

def T (i : Nat) : Word := table.entries.getD i 0

theorem T_eq (i : Nat) : T i = constants.getD i 0 := rfl

/-! ## The loop

  Sixty-four steps, and the sum with the state behind them. -/

/-- The four registers. -/
structure Regs where
  A : Word
  B : Word
  C : Word
  D : Word

/-- Step `i`: always to `A`, and then the registers move on. -/
def step (X : Nat → Word) (r : Regs) (i : Nat) : Regs where
  A := r.D
  B := r.B + (r.A + aux i r.B r.C r.D + X (index i) + T i).rotateLeft (shift i)
  C := r.B
  D := r.C

/-- The next chaining value. -/
def compress (H : Regs) (block : List UInt8) : Regs :=
  let r := (List.range 64).foldl (step (Words.leWord block)) H
  ⟨H.A + r.A, H.B + r.B, H.C + r.C, H.D + r.D⟩

end Rfc1321
