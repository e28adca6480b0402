/-
  The block transforms of the hash classes: `transformMd5`, `transformSha1` and the SHA-2 ones.

  Each takes the chaining value `mState` and one block and gives the next chaining value.  They are
  written as the source writes them: MD5's 64 macro steps and SHA-1's 80 are unrolled over renamed
  registers (a step that assigns to `a` is a `let a`), SHA-1's message schedule lives in the 16-word
  buffer `block->l` that the steps overwrite, and SHA-2 fills its table `W` first and then loops.

  SHA-224/SHA-256 and SHA-384/SHA-512 repeat one text at 32 and at 64 bits; what differs (the
  rotation amounts of the macros, the constants `K`, the width of a word) are the fields of
  `Sha2Macros`, and `transformSha2` is the common text.
-/
import StevenProgram.Common.Mem

namespace StevenProgram

abbrev u32 : Type := BitVec 32
abbrev u64 : Type := BitVec 64

/-- `(u32_t)input[j]`. -/
def byteAt (w : Nat) (input : List UInt8) (j : Nat) : BitVec w :=
  BitVec.ofNat w (input.getD j 0).toNat

/-! ## MD5 (`hashMd5.cpp`)

  The macros `F`, `G`, `H`, `I` and the steps that use them, sixteen to a round. -/

namespace Md5

def S11 : Nat := 7
def S12 : Nat := 12
def S13 : Nat := 17
def S14 : Nat := 22
def S21 : Nat := 5
def S22 : Nat := 9
def S23 : Nat := 14
def S24 : Nat := 20
def S31 : Nat := 4
def S32 : Nat := 11
def S33 : Nat := 16
def S34 : Nat := 23
def S41 : Nat := 6
def S42 : Nat := 10
def S43 : Nat := 15
def S44 : Nat := 21

def F (x y z : u32) : u32 := (x &&& y) ||| (~~~x &&& z)
def G (x y z : u32) : u32 := (x &&& z) ||| (y &&& ~~~z)
def H (x y z : u32) : u32 := x ^^^ y ^^^ z
def I (x y z : u32) : u32 := y ^^^ (x ||| ~~~z)

/-- `(((x) << (n)) | ((x) >> (32-(n))))`. -/
def ROTATE_LEFT (x : u32) (n : Nat) : u32 := (x <<< n) ||| (x >>> (32 - n))

/-- The common text of `FF`, `GG`, `HH` and `II`: the new value of the register `a`. -/
def step (f : u32 → u32 → u32 → u32) (a b c d x : u32) (s : Nat) (ac : u32) : u32 :=
  ROTATE_LEFT (a + (f b c d + x + ac)) s + b

/-- Round 1: adds the function, the word and the constant, rotates, and adds `b`. -/
def FF : u32 → u32 → u32 → u32 → u32 → Nat → u32 → u32 := step F
/-- Round 2. -/
def GG : u32 → u32 → u32 → u32 → u32 → Nat → u32 → u32 := step G
/-- Round 3. -/
def HH : u32 → u32 → u32 → u32 → u32 → Nat → u32 → u32 := step H
/-- Round 4. -/
def II : u32 → u32 → u32 → u32 → u32 → Nat → u32 → u32 := step I

/-- `Decode(x, block, MD5_BLOCK_LEN)`: sixteen little-endian words. -/
def Decode (input : List UInt8) : Vector u32 16 :=
  .ofFn fun i => byteAt 32 input (4 * i.val) ||| (byteAt 32 input (4 * i.val + 1) <<< 8) |||
    (byteAt 32 input (4 * i.val + 2) <<< 16) ||| (byteAt 32 input (4 * i.val + 3) <<< 24)

/-- The working registers. -/
structure Regs where
  a : u32
  b : u32
  c : u32
  d : u32

/-- Round 1. -/
def round1 (x : Vector u32 16) : Regs → Regs
  | ⟨a, b, c, d⟩ =>
    let a := FF a b c d x[0] S11 0xd76aa478
    let d := FF d a b c x[1] S12 0xe8c7b756
    let c := FF c d a b x[2] S13 0x242070db
    let b := FF b c d a x[3] S14 0xc1bdceee
    let a := FF a b c d x[4] S11 0xf57c0faf
    let d := FF d a b c x[5] S12 0x4787c62a
    let c := FF c d a b x[6] S13 0xa8304613
    let b := FF b c d a x[7] S14 0xfd469501
    let a := FF a b c d x[8] S11 0x698098d8
    let d := FF d a b c x[9] S12 0x8b44f7af
    let c := FF c d a b x[10] S13 0xffff5bb1
    let b := FF b c d a x[11] S14 0x895cd7be
    let a := FF a b c d x[12] S11 0x6b901122
    let d := FF d a b c x[13] S12 0xfd987193
    let c := FF c d a b x[14] S13 0xa679438e
    let b := FF b c d a x[15] S14 0x49b40821
    ⟨a, b, c, d⟩

/-- Round 2. -/
def round2 (x : Vector u32 16) : Regs → Regs
  | ⟨a, b, c, d⟩ =>
    let a := GG a b c d x[1] S21 0xf61e2562
    let d := GG d a b c x[6] S22 0xc040b340
    let c := GG c d a b x[11] S23 0x265e5a51
    let b := GG b c d a x[0] S24 0xe9b6c7aa
    let a := GG a b c d x[5] S21 0xd62f105d
    let d := GG d a b c x[10] S22 0x2441453
    let c := GG c d a b x[15] S23 0xd8a1e681
    let b := GG b c d a x[4] S24 0xe7d3fbc8
    let a := GG a b c d x[9] S21 0x21e1cde6
    let d := GG d a b c x[14] S22 0xc33707d6
    let c := GG c d a b x[3] S23 0xf4d50d87
    let b := GG b c d a x[8] S24 0x455a14ed
    let a := GG a b c d x[13] S21 0xa9e3e905
    let d := GG d a b c x[2] S22 0xfcefa3f8
    let c := GG c d a b x[7] S23 0x676f02d9
    let b := GG b c d a x[12] S24 0x8d2a4c8a
    ⟨a, b, c, d⟩

/-- Round 3. -/
def round3 (x : Vector u32 16) : Regs → Regs
  | ⟨a, b, c, d⟩ =>
    let a := HH a b c d x[5] S31 0xfffa3942
    let d := HH d a b c x[8] S32 0x8771f681
    let c := HH c d a b x[11] S33 0x6d9d6122
    let b := HH b c d a x[14] S34 0xfde5380c
    let a := HH a b c d x[1] S31 0xa4beea44
    let d := HH d a b c x[4] S32 0x4bdecfa9
    let c := HH c d a b x[7] S33 0xf6bb4b60
    let b := HH b c d a x[10] S34 0xbebfbc70
    let a := HH a b c d x[13] S31 0x289b7ec6
    let d := HH d a b c x[0] S32 0xeaa127fa
    let c := HH c d a b x[3] S33 0xd4ef3085
    let b := HH b c d a x[6] S34 0x4881d05
    let a := HH a b c d x[9] S31 0xd9d4d039
    let d := HH d a b c x[12] S32 0xe6db99e5
    let c := HH c d a b x[15] S33 0x1fa27cf8
    let b := HH b c d a x[2] S34 0xc4ac5665
    ⟨a, b, c, d⟩

/-- Round 4. -/
def round4 (x : Vector u32 16) : Regs → Regs
  | ⟨a, b, c, d⟩ =>
    let a := II a b c d x[0] S41 0xf4292244
    let d := II d a b c x[7] S42 0x432aff97
    let c := II c d a b x[14] S43 0xab9423a7
    let b := II b c d a x[5] S44 0xfc93a039
    let a := II a b c d x[12] S41 0x655b59c3
    let d := II d a b c x[3] S42 0x8f0ccc92
    let c := II c d a b x[10] S43 0xffeff47d
    let b := II b c d a x[1] S44 0x85845dd1
    let a := II a b c d x[8] S41 0x6fa87e4f
    let d := II d a b c x[15] S42 0xfe2ce6e0
    let c := II c d a b x[6] S43 0xa3014314
    let b := II b c d a x[13] S44 0x4e0811a1
    let a := II a b c d x[4] S41 0xf7537e82
    let d := II d a b c x[11] S42 0xbd3af235
    let c := II c d a b x[2] S43 0x2ad7d2bb
    let b := II b c d a x[9] S44 0xeb86d391
    ⟨a, b, c, d⟩

def loadRegs (state : Vector u32 4) : Regs := ⟨state[0], state[1], state[2], state[3]⟩

/-- `state[0] += a; …` -/
def addRegs (state : Vector u32 4) (r : Regs) : Vector u32 4 :=
  #v[state[0] + r.a, state[1] + r.b, state[2] + r.c, state[3] + r.d]

/-- `transformMd5(block)`: the four rounds, and the registers added to the state. -/
def transformMd5 (state : Vector u32 4) (block : List UInt8) : Vector u32 4 :=
  let x := Decode block
  addRegs state (round4 x (round3 x (round2 x (round1 x (loadRegs state)))))

end Md5

/-! ## SHA-1 (`hashSha1.cpp`)

  `block->l` is read and written by the macros `R0` to `R4`, so it is passed along with the
  registers. -/

namespace Sha1

def rol (value : u32) (bits : Nat) : u32 := (value <<< bits) ||| (value >>> (32 - bits))

/-- `memcpy(block, buffer, 64)` read back through the union as little-endian words. -/
def loadBlock (buffer : List UInt8) : Vector u32 16 := Md5.Decode buffer

/-- `blk0(i)` on a little-endian host: byte-swap `block->l[i]` in place and give it. -/
def blk0 (l : Vector u32 16) (i : Fin 16) : u32 × Vector u32 16 :=
  let v := (rol l[i] 24 &&& 0xFF00FF00) ||| (rol l[i] 8 &&& 0x00FF00FF)
  (v, l.set i v)

/-- `blk(i)`: overwrite `block->l[i&15]` with the next schedule word and give it. -/
def blk (l : Vector u32 16) (i : Nat) : u32 × Vector u32 16 :=
  let at' (j : Nat) : u32 := l[(⟨j % 16, Nat.mod_lt _ (by decide)⟩ : Fin 16)]
  let v := rol (at' (i + 13) ^^^ at' (i + 8) ^^^ at' (i + 2) ^^^ at' i) 1
  (v, l.set (i % 16) v (Nat.mod_lt _ (by decide)))

/-- `z+=f(w,x,y)+word+k+rol(v,5);w=rol(w,30);` — the new `z` and `w`, and the buffer. -/
def stepSha1 (f k : u32) (word : u32 × Vector u32 16) (v w z : u32) : u32 × u32 × Vector u32 16 :=
  (z + (f + word.1 + k + rol v 5), rol w 30, word.2)

def R0 (v w x y z : u32) (l : Vector u32 16) (i : Fin 16) : u32 × u32 × Vector u32 16 :=
  stepSha1 ((w &&& (x ^^^ y)) ^^^ y) 0x5A827999 (blk0 l i) v w z

def R1 (v w x y z : u32) (l : Vector u32 16) (i : Nat) : u32 × u32 × Vector u32 16 :=
  stepSha1 ((w &&& (x ^^^ y)) ^^^ y) 0x5A827999 (blk l i) v w z

def R2 (v w x y z : u32) (l : Vector u32 16) (i : Nat) : u32 × u32 × Vector u32 16 :=
  stepSha1 (w ^^^ x ^^^ y) 0x6ED9EBA1 (blk l i) v w z

def R3 (v w x y z : u32) (l : Vector u32 16) (i : Nat) : u32 × u32 × Vector u32 16 :=
  stepSha1 (((w ||| x) &&& y) ||| (w &&& x)) 0x8F1BBCDC (blk l i) v w z

def R4 (v w x y z : u32) (l : Vector u32 16) (i : Nat) : u32 × u32 × Vector u32 16 :=
  stepSha1 (w ^^^ x ^^^ y) 0xCA62C1D6 (blk l i) v w z

/-- The working registers and the message buffer. -/
structure Regs where
  a : u32
  b : u32
  c : u32
  d : u32
  e : u32
  l : Vector u32 16

/-- The operations 0 to 19. -/
def ops0 : Regs → Regs
  | ⟨a, b, c, d, e, l⟩ =>
    let (e, b, l) := R0 a b c d e l 0
    let (d, a, l) := R0 e a b c d l 1
    let (c, e, l) := R0 d e a b c l 2
    let (b, d, l) := R0 c d e a b l 3
    let (a, c, l) := R0 b c d e a l 4
    let (e, b, l) := R0 a b c d e l 5
    let (d, a, l) := R0 e a b c d l 6
    let (c, e, l) := R0 d e a b c l 7
    let (b, d, l) := R0 c d e a b l 8
    let (a, c, l) := R0 b c d e a l 9
    let (e, b, l) := R0 a b c d e l 10
    let (d, a, l) := R0 e a b c d l 11
    let (c, e, l) := R0 d e a b c l 12
    let (b, d, l) := R0 c d e a b l 13
    let (a, c, l) := R0 b c d e a l 14
    let (e, b, l) := R0 a b c d e l 15
    let (d, a, l) := R1 e a b c d l 16
    let (c, e, l) := R1 d e a b c l 17
    let (b, d, l) := R1 c d e a b l 18
    let (a, c, l) := R1 b c d e a l 19
    ⟨a, b, c, d, e, l⟩

/-- The operations 20 to 39. -/
def ops20 : Regs → Regs
  | ⟨a, b, c, d, e, l⟩ =>
    let (e, b, l) := R2 a b c d e l 20
    let (d, a, l) := R2 e a b c d l 21
    let (c, e, l) := R2 d e a b c l 22
    let (b, d, l) := R2 c d e a b l 23
    let (a, c, l) := R2 b c d e a l 24
    let (e, b, l) := R2 a b c d e l 25
    let (d, a, l) := R2 e a b c d l 26
    let (c, e, l) := R2 d e a b c l 27
    let (b, d, l) := R2 c d e a b l 28
    let (a, c, l) := R2 b c d e a l 29
    let (e, b, l) := R2 a b c d e l 30
    let (d, a, l) := R2 e a b c d l 31
    let (c, e, l) := R2 d e a b c l 32
    let (b, d, l) := R2 c d e a b l 33
    let (a, c, l) := R2 b c d e a l 34
    let (e, b, l) := R2 a b c d e l 35
    let (d, a, l) := R2 e a b c d l 36
    let (c, e, l) := R2 d e a b c l 37
    let (b, d, l) := R2 c d e a b l 38
    let (a, c, l) := R2 b c d e a l 39
    ⟨a, b, c, d, e, l⟩

/-- The operations 40 to 59. -/
def ops40 : Regs → Regs
  | ⟨a, b, c, d, e, l⟩ =>
    let (e, b, l) := R3 a b c d e l 40
    let (d, a, l) := R3 e a b c d l 41
    let (c, e, l) := R3 d e a b c l 42
    let (b, d, l) := R3 c d e a b l 43
    let (a, c, l) := R3 b c d e a l 44
    let (e, b, l) := R3 a b c d e l 45
    let (d, a, l) := R3 e a b c d l 46
    let (c, e, l) := R3 d e a b c l 47
    let (b, d, l) := R3 c d e a b l 48
    let (a, c, l) := R3 b c d e a l 49
    let (e, b, l) := R3 a b c d e l 50
    let (d, a, l) := R3 e a b c d l 51
    let (c, e, l) := R3 d e a b c l 52
    let (b, d, l) := R3 c d e a b l 53
    let (a, c, l) := R3 b c d e a l 54
    let (e, b, l) := R3 a b c d e l 55
    let (d, a, l) := R3 e a b c d l 56
    let (c, e, l) := R3 d e a b c l 57
    let (b, d, l) := R3 c d e a b l 58
    let (a, c, l) := R3 b c d e a l 59
    ⟨a, b, c, d, e, l⟩

/-- The operations 60 to 79. -/
def ops60 : Regs → Regs
  | ⟨a, b, c, d, e, l⟩ =>
    let (e, b, l) := R4 a b c d e l 60
    let (d, a, l) := R4 e a b c d l 61
    let (c, e, l) := R4 d e a b c l 62
    let (b, d, l) := R4 c d e a b l 63
    let (a, c, l) := R4 b c d e a l 64
    let (e, b, l) := R4 a b c d e l 65
    let (d, a, l) := R4 e a b c d l 66
    let (c, e, l) := R4 d e a b c l 67
    let (b, d, l) := R4 c d e a b l 68
    let (a, c, l) := R4 b c d e a l 69
    let (e, b, l) := R4 a b c d e l 70
    let (d, a, l) := R4 e a b c d l 71
    let (c, e, l) := R4 d e a b c l 72
    let (b, d, l) := R4 c d e a b l 73
    let (a, c, l) := R4 b c d e a l 74
    let (e, b, l) := R4 a b c d e l 75
    let (d, a, l) := R4 e a b c d l 76
    let (c, e, l) := R4 d e a b c l 77
    let (b, d, l) := R4 c d e a b l 78
    let (a, c, l) := R4 b c d e a l 79
    ⟨a, b, c, d, e, l⟩

def loadRegs (state : Vector u32 5) (l : Vector u32 16) : Regs :=
  ⟨state[0], state[1], state[2], state[3], state[4], l⟩

/-- `state[0] += a; …` -/
def addRegs (state : Vector u32 5) (r : Regs) : Vector u32 5 :=
  #v[state[0] + r.a, state[1] + r.b, state[2] + r.c, state[3] + r.d, state[4] + r.e]

/-- `transformSha1(block)`: eighty macros over renamed registers. -/
def transformSha1 (state : Vector u32 5) (buffer : List UInt8) : Vector u32 5 :=
  addRegs state (ops60 (ops40 (ops20 (ops0 (loadRegs state (loadBlock buffer))))))

end Sha1

/-! ## SHA-2 (`hashSha2.cpp`)

  One text with the widths as a parameter; the two sets of rotations and of constants follow it. -/

namespace Sha2

variable {w : Nat}

/-- Chooses by the bits of `x`. -/
def CH (x y z : BitVec w) : BitVec w := (x &&& y) ^^^ (~~~x &&& z)
/-- The majority of three bits. -/
def MAJ (x y z : BitVec w) : BitVec w := (x &&& y) ^^^ (x &&& z) ^^^ (y &&& z)
def SHR (n : Nat) (x : BitVec w) : BitVec w := x >>> n
def ROTR (n : Nat) (x : BitVec w) : BitVec w := (x >>> n) ||| (x <<< (w - n))

/-- What the 32-bit and the 64-bit text differ in. -/
structure Sha2Macros (w : Nat) where
  BSIG0 : BitVec w → BitVec w
  BSIG1 : BitVec w → BitVec w
  SSIG0 : BitVec w → BitVec w
  SSIG1 : BitVec w → BitVec w
  K : List (BitVec w)
  /-- `W[t]` of the block, big endian -/
  word : List UInt8 → Nat → BitVec w

/-- The constants at 32 bits. -/
def sha256_K : List u32 :=
  [0x428a2f98, 0x71374491, 0xb5c0fbcf, 0xe9b5dba5, 0x3956c25b, 0x59f111f1,
   0x923f82a4, 0xab1c5ed5, 0xd807aa98, 0x12835b01, 0x243185be, 0x550c7dc3,
   0x72be5d74, 0x80deb1fe, 0x9bdc06a7, 0xc19bf174, 0xe49b69c1, 0xefbe4786,
   0x0fc19dc6, 0x240ca1cc, 0x2de92c6f, 0x4a7484aa, 0x5cb0a9dc, 0x76f988da,
   0x983e5152, 0xa831c66d, 0xb00327c8, 0xbf597fc7, 0xc6e00bf3, 0xd5a79147,
   0x06ca6351, 0x14292967, 0x27b70a85, 0x2e1b2138, 0x4d2c6dfc, 0x53380d13,
   0x650a7354, 0x766a0abb, 0x81c2c92e, 0x92722c85, 0xa2bfe8a1, 0xa81a664b,
   0xc24b8b70, 0xc76c51a3, 0xd192e819, 0xd6990624, 0xf40e3585, 0x106aa070,
   0x19a4c116, 0x1e376c08, 0x2748774c, 0x34b0bcb5, 0x391c0cb3, 0x4ed8aa4a,
   0x5b9cca4f, 0x682e6ff3, 0x748f82ee, 0x78a5636f, 0x84c87814, 0x8cc70208,
   0x90befffa, 0xa4506ceb, 0xbef9a3f7, 0xc67178f2]

/-- The constants at 64 bits. -/
def sha512_K : List u64 :=
  [0x428a2f98d728ae22, 0x7137449123ef65cd, 0xb5c0fbcfec4d3b2f, 0xe9b5dba58189dbbc,
   0x3956c25bf348b538, 0x59f111f1b605d019, 0x923f82a4af194f9b, 0xab1c5ed5da6d8118,
   0xd807aa98a3030242, 0x12835b0145706fbe, 0x243185be4ee4b28c, 0x550c7dc3d5ffb4e2,
   0x72be5d74f27b896f, 0x80deb1fe3b1696b1, 0x9bdc06a725c71235, 0xc19bf174cf692694,
   0xe49b69c19ef14ad2, 0xefbe4786384f25e3, 0x0fc19dc68b8cd5b5, 0x240ca1cc77ac9c65,
   0x2de92c6f592b0275, 0x4a7484aa6ea6e483, 0x5cb0a9dcbd41fbd4, 0x76f988da831153b5,
   0x983e5152ee66dfab, 0xa831c66d2db43210, 0xb00327c898fb213f, 0xbf597fc7beef0ee4,
   0xc6e00bf33da88fc2, 0xd5a79147930aa725, 0x06ca6351e003826f, 0x142929670a0e6e70,
   0x27b70a8546d22ffc, 0x2e1b21385c26c926, 0x4d2c6dfc5ac42aed, 0x53380d139d95b3df,
   0x650a73548baf63de, 0x766a0abb3c77b2a8, 0x81c2c92e47edaee6, 0x92722c851482353b,
   0xa2bfe8a14cf10364, 0xa81a664bbc423001, 0xc24b8b70d0f89791, 0xc76c51a30654be30,
   0xd192e819d6ef5218, 0xd69906245565a910, 0xf40e35855771202a, 0x106aa07032bbd1b8,
   0x19a4c116b8d2d0c8, 0x1e376c085141ab53, 0x2748774cdf8eeb99, 0x34b0bcb5e19b48a8,
   0x391c0cb3c5c95a63, 0x4ed8aa4ae3418acb, 0x5b9cca4f7763e373, 0x682e6ff3d6b2b8a3,
   0x748f82ee5defb2fc, 0x78a5636f43172f60, 0x84c87814a1f0ab72, 0x8cc702081a6439ec,
   0x90befffa23631e28, 0xa4506cebde82bde9, 0xbef9a3f7b2c67915, 0xc67178f2e372532b,
   0xca273eceea26619c, 0xd186b8c721c0c207, 0xeada7dd6cde0eb1e, 0xf57d4f7fee6ed178,
   0x06f067aa72176fba, 0x0a637dc5a2c898a6, 0x113f9804bef90dae, 0x1b710b35131c471b,
   0x28db77f523047d84, 0x32caab7b40c72493, 0x3c9ebe0a15c9bebc, 0x431d67c49c100d4c,
   0x4cc5d4becb3e42b6, 0x597f299cfc657e2a, 0x5fcb6fab3ad6faec, 0x6c44198c4a475817]

/-- Four shifted bytes of the block. -/
def word32 (pos : List UInt8) (t : Nat) : u32 :=
  (byteAt 32 pos (4 * t) <<< 24) ||| (byteAt 32 pos (4 * t + 1) <<< 16) |||
    (byteAt 32 pos (4 * t + 2) <<< 8) ||| byteAt 32 pos (4 * t + 3)

/-- Eight shifted bytes of the block. -/
def word64 (pos : List UInt8) (t : Nat) : u64 :=
  (byteAt 64 pos (8 * t) <<< 56) ||| (byteAt 64 pos (8 * t + 1) <<< 48) |||
    (byteAt 64 pos (8 * t + 2) <<< 40) ||| (byteAt 64 pos (8 * t + 3) <<< 32) |||
    (byteAt 64 pos (8 * t + 4) <<< 24) ||| (byteAt 64 pos (8 * t + 5) <<< 16) |||
    (byteAt 64 pos (8 * t + 6) <<< 8) ||| byteAt 64 pos (8 * t + 7)

/-- The macros of SHA-224 and SHA-256. -/
def macros32 : Sha2Macros 32 where
  BSIG0 x := ROTR 2 x ^^^ ROTR 13 x ^^^ ROTR 22 x
  BSIG1 x := ROTR 6 x ^^^ ROTR 11 x ^^^ ROTR 25 x
  SSIG0 x := ROTR 7 x ^^^ ROTR 18 x ^^^ SHR 3 x
  SSIG1 x := ROTR 17 x ^^^ ROTR 19 x ^^^ SHR 10 x
  K := sha256_K
  word := word32

/-- The macros of SHA-384 and SHA-512. -/
def macros64 : Sha2Macros 64 where
  BSIG0 x := ROTR 28 x ^^^ ROTR 34 x ^^^ ROTR 39 x
  BSIG1 x := ROTR 14 x ^^^ ROTR 18 x ^^^ ROTR 41 x
  SSIG0 x := ROTR 1 x ^^^ ROTR 8 x ^^^ SHR 7 x
  SSIG1 x := ROTR 19 x ^^^ ROTR 61 x ^^^ SHR 6 x
  K := sha512_K
  word := word64

/-- `for(t = 16; t < …; t++) W[t] = SSIG1(W[t-2]) + W[t-7] + SSIG0(W[t-15]) + W[t-16];`, the next
    `n` words of it, with `t` the number of words `W` has. -/
def schedule (M : Sha2Macros w) : Nat → List (BitVec w) → List (BitVec w)
  | 0, W => W
  | n + 1, W =>
      let t := W.length
      schedule M n
        (W ++ [M.SSIG1 (W.getD (t - 2) 0) + W.getD (t - 7) 0 + M.SSIG0 (W.getD (t - 15) 0) +
        W.getD (t - 16) 0])

/-- The working variables `a` to `h`. -/
structure Vars (w : Nat) where
  a : BitVec w
  b : BitVec w
  c : BitVec w
  d : BitVec w
  e : BitVec w
  f : BitVec w
  g : BitVec w
  h : BitVec w

/-- One turn of the main loop, for the constant `K[t]` and the word `W[t]`. -/
def round (M : Sha2Macros w) (v : Vars w) (KW : BitVec w × BitVec w) : Vars w :=
  let T1 := v.h + M.BSIG1 v.e + CH v.e v.f v.g + KW.1 + KW.2
  let T2 := M.BSIG0 v.a + MAJ v.a v.b v.c
  { h := v.g, g := v.f, f := v.e, e := v.d + T1, d := v.c, c := v.b, b := v.a, a := T1 + T2 }

def loadVars (mState : Vector (BitVec w) 8) : Vars w :=
  ⟨mState[0], mState[1], mState[2], mState[3], mState[4], mState[5], mState[6], mState[7]⟩

/-- `mState[0] += a; …` -/
def addVars (mState : Vector (BitVec w) 8) (v : Vars w) : Vector (BitVec w) 8 :=
  #v[mState[0] + v.a, mState[1] + v.b, mState[2] + v.c, mState[3] + v.d, mState[4] + v.e,
    mState[5] + v.f, mState[6] + v.g, mState[7] + v.h]

/-- The text that the four classes share. -/
def transformSha2 (M : Sha2Macros w) (mState : Vector (BitVec w) 8) (buffer : List UInt8) :
    Vector (BitVec w) 8 :=
  let W := schedule M (M.K.length - 16) ((List.range 16).map (M.word buffer))
  addVars mState ((M.K.zip W).foldl (round M) (loadVars mState))

def transformSha224 : Vector u32 8 → List UInt8 → Vector u32 8 := transformSha2 macros32
def transformSha256 : Vector u32 8 → List UInt8 → Vector u32 8 := transformSha2 macros32
def transformSha384 : Vector u64 8 → List UInt8 → Vector u64 8 := transformSha2 macros64
def transformSha512 : Vector u64 8 → List UInt8 → Vector u64 8 := transformSha2 macros64

end Sha2

end StevenProgram
