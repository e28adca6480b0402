/-
  FIPS 180-4: SHA-224, SHA-256, SHA-384 and SHA-512.

  The 32-bit and the 64-bit algorithms are one text over `Params`, the word size and the rotation
  amounts.  The constants are what the standard says they are: `K` the first bits of the fractional
  parts of the cube roots of the primes, the initial values those of square roots, for SHA-224 the
  second thirty-two bits.

  1. **Compression** — the schedule by its recurrence, the step, `compress`.
  2. **Messages** — padding and the iteration over blocks.
  3. **The algorithms**.
-/
import StevenProgram.Lib.BlockFold
import StevenProgram.Lib.Bytes
import StevenProgram.Lib.PrimeRoots

namespace Fips180.Sha2

variable {w : Nat}

/-! ## Compression -/

def Ch (x y z : BitVec w) : BitVec w := (x &&& y) ^^^ (~~~x &&& z)
def Maj (x y z : BitVec w) : BitVec w := (x &&& y) ^^^ (x &&& z) ^^^ (y &&& z)

/-- Three rotations to the right. -/
def Sigma (r : Nat × Nat × Nat) (x : BitVec w) : BitVec w :=
  x.rotateRight r.1 ^^^ x.rotateRight r.2.1 ^^^ x.rotateRight r.2.2

/-- Two rotations and a shift. -/
def sigma (r : Nat × Nat × Nat) (x : BitVec w) : BitVec w :=
  x.rotateRight r.1 ^^^ x.rotateRight r.2.1 ^^^ x >>> r.2.2

/-- What the two widths differ in. -/
structure Params (w : Nat) where
  rounds : Nat
  Sigma0 : Nat × Nat × Nat
  Sigma1 : Nat × Nat × Nat
  sigma0 : Nat × Nat × Nat
  sigma1 : Nat × Nat × Nat

/-- The parameters at 32 bits. -/
def words32 : Params 32 := ⟨64, (2, 13, 22), (6, 11, 25), (7, 18, 3), (17, 19, 10)⟩
/-- The parameters at 64 bits. -/
def words64 : Params 64 := ⟨80, (28, 34, 39), (14, 18, 41), (1, 8, 7), (19, 61, 6)⟩

noncomputable def K (w t : Nat) : BitVec w := PrimeRoots.fracBits 3 w (Nat.nth Nat.Prime t)

/-- Word `t` of a block. -/
def M (w : Nat) (block : List UInt8) (t : Nat) : BitVec w :=
  BitVec.ofNat w (Bytes.beNat ((block.drop (w / 8 * t)).take (w / 8)))

/-- Word `t` of the schedule. -/
def W (P : Params w) (block : List UInt8) (t : Nat) : BitVec w :=
  if t < 16 then M w block t
  else sigma P.sigma1 (W P block (t - 2)) + W P block (t - 7) + sigma P.sigma0
    (W P block (t - 15)) + W P block (t - 16)
termination_by t
decreasing_by all_goals omega

/-- The first sixteen words are those of the block. -/
theorem W_block {P : Params w} {block : List UInt8} {t : Nat} (h : t < 16) :
    W P block t = M w block t := by rw [W, if_pos h]

/-- **The recurrence.** -/
theorem W_next {P : Params w} {block : List UInt8} {t : Nat} (h : 16 ≤ t) : W P block t =
    sigma P.sigma1 (W P block (t - 2)) + W P block (t - 7) + sigma P.sigma0 (W P block (t - 15)) +
      W P block (t - 16) := by
  rw [W, if_neg (Nat.not_lt.mpr h)]

/-- The eight working variables. -/
structure Regs (w : Nat) where
  a : BitVec w
  b : BitVec w
  c : BitVec w
  d : BitVec w
  e : BitVec w
  f : BitVec w
  g : BitVec w
  h : BitVec w

/-- The working variables at the start. -/
def load (H : Vector (BitVec w) 8) : Regs w :=
  ⟨H.getD 0 0, H.getD 1 0, H.getD 2 0, H.getD 3 0, H.getD 4 0, H.getD 5 0, H.getD 6 0, H.getD 7 0⟩

/-- The operation `t`. -/
noncomputable def step (P : Params w) (W : Nat → BitVec w) (r : Regs w) (t : Nat) : Regs w :=
  let T1 := r.h + Sigma P.Sigma1 r.e + Ch r.e r.f r.g + K w t + W t
  let T2 := Sigma P.Sigma0 r.a + Maj r.a r.b r.c
  ⟨T1 + T2, r.a, r.b, r.c, r.d + T1, r.e, r.f, r.g⟩

/-- The next chaining value. -/
noncomputable def compress (P : Params w) (H : Vector (BitVec w) 8) (block : List UInt8) :
    Vector (BitVec w) 8 :=
  let r := (List.range P.rounds).foldl (step P (W P block)) (load H)
  #v[(load H).a + r.a, (load H).b + r.b, (load H).c + r.c, (load H).d + r.d,
    (load H).e + r.e, (load H).f + r.f, (load H).g + r.g, (load H).h + r.h]

/-! ## Messages -/

/-- The fewest zeros that make whole blocks. -/
def zeros (w len : Nat) : Nat := (2 * w - (len + 1 + w / 4) % (2 * w)) % (2 * w)

/-- `0x80`, zeros and the length in bits in two words. -/
def pad (w : Nat) (m : List UInt8) : List UInt8 :=
  m ++ 0x80 :: (List.replicate (zeros w m.length) 0 ++ Bytes.beBytes (w / 4) (8 * m.length))

/-- The first `size` bytes of the state behind the padded message, begun at `H`. -/
noncomputable def hash (P : Params w) (H : Vector (BitVec w) 8) (size : Nat) (m : List UInt8) :
    List UInt8 :=
  ((BlockFold.absorb (2 * w) (compress P) H (pad w m)).toList.flatMap fun x =>
    Bytes.beBytes (w / 8) x.toNat).take size

/-! ## The algorithms -/

/-- The square roots of eight primes, from number `t`. -/
noncomputable def roots (w t : Nat) : Vector (BitVec w) 8 := .ofFn fun i => PrimeRoots.fracBits 2 w
    (Nat.nth Nat.Prime (t + i))

inductive Alg where
  | sha224
  | sha256
  | sha384
  | sha512

noncomputable def Alg.hash : Alg → List UInt8 → List UInt8
  | sha224 => Sha2.hash words32 ((roots 64 8).map (BitVec.setWidth 32)) 28
  | sha256 => Sha2.hash words32 (roots 32 0) 32
  | sha384 => Sha2.hash words64 (roots 64 8) 48
  | sha512 => Sha2.hash words64 (roots 64 0) 64

end Fips180.Sha2
