/-
  The hash classes of `algorithms/hash`: `HashMd5`, `HashSha1`, `HashSha224/256/384/512`.

  The six classes carry one text.  An object holds the chaining value `mState`, the two-word bit
  counter `mCount` and one block `mBuffer`; `updateXxx` counts the input, completes the buffered
  block, transforms the complete blocks that follow it and buffers the remainder; `finalXxx` pads
  (THROUGH `updateXxx`, which counts the padding too) and writes the words of `mState` out;
  `calcHash` is an update and, when a digest is asked for, a final and an `initHash`.  What the
  classes differ in are the fields of `HashClass`; a class of the source is one value of it, with
  the numbers of its text.

  Lengths and the loop index are `u32_t` in the source.  `index`, `partLen` and `len` cannot wrap,
  but `i + 63` can, and the model keeps that sum modulo `2 ^ 32`: a `len` near `2 ^ 32` makes
  `blockLoop` ask for a block that is not inside `input`, which is the fault `outOfBounds`.

  The members a constructor leaves unset (`mBuffer`) hold whatever the heap held: every `new` takes
  that content, `heap`, as an argument, and no result below depends on it.
-/
import StevenProgram.Lib.BlockFold
import StevenProgram.Hash.Transform

namespace StevenProgram

/-- `HashType_e`. -/
inductive HashType where
  | sha1 | sha2_256 | sha2_384 | sha2_512 | unknown | md2 | md4 | md5 | sha2_224
  | sha3_224 | sha3_256 | sha3_384 | sha3_512 | sm3
  deriving DecidableEq, Repr

/-- The order in which a class writes out its words and its bit count. -/
inductive Endian where
  | little | big
  deriving DecidableEq, Repr

/-- `(u8_t)(x), (u8_t)(x >> 8), …` or the same bytes from the top. -/
def wordBytes {w : Nat} (e : Endian) (x : BitVec w) : List UInt8 :=
  (List.range (w / 8)).map fun j =>
    match e with
    | .little => UInt8.ofNat (x >>> (8 * j)).toNat
    | .big => UInt8.ofNat (x >>> (w - 8 - 8 * j)).toNat

/-- `bits[]` of `finalXxx`, from `mCount[0]` and `mCount[1]`. -/
def countBytes {w : Nat} (e : Endian) (mCount0 mCount1 : BitVec w) : List UInt8 :=
  match e with
  | .little => wordBytes .little mCount0 ++ wordBytes .little mCount1
  | .big => wordBytes .big mCount1 ++ wordBytes .big mCount0

/-- What the six classes differ in. -/
structure HashClass where
  /-- bits in a word of `mState` and `mCount` -/
  w : Nat
  /-- words in `mState` -/
  stateLen : Nat
  /-- `MD5_BLOCK_LEN`, … -/
  blockLen : Nat
  /-- the length field's place in the last block: 56 or 112 -/
  lenAt : Nat
  /-- `getHashType` -/
  hashType : HashType
  /-- `getHashSize` -/
  hashSize : Nat
  order : Endian
  initState : Vector (BitVec w) stateLen
  transform : Vector (BitVec w) stateLen → List UInt8 → Vector (BitVec w) stateLen
  width : (w = 32 ∧ blockLen = 64 ∧ lenAt = 56) ∨ (w = 64 ∧ blockLen = 128 ∧ lenAt = 112)
  hashSize_le : hashSize ≤ stateLen * (w / 8)
  hashSize_words : hashSize % (w / 8) = 0
  hashSize_lt : hashSize ≤ 64

/-! ## The six classes

  Their numbers, as the source has them: the sizes, the byte order, the initial state and the table
  of the transform. -/

/-- `hashMd5.cpp`. -/
def HashMd5 : HashClass where
  w := 32
  stateLen := 4
  blockLen := 64
  lenAt := 56
  hashType := .md5
  hashSize := 16
  order := .little
  initState := #v[0x67452301, 0xefcdab89, 0x98badcfe, 0x10325476]
  transform := Md5.transformMd5
  width := by decide
  hashSize_le := by decide
  hashSize_words := by decide
  hashSize_lt := by decide

/-- `hashSha1.cpp`. -/
def HashSha1 : HashClass where
  w := 32
  stateLen := 5
  blockLen := 64
  lenAt := 56
  hashType := .sha1
  hashSize := 20
  order := .big
  initState := #v[0x67452301, 0xEFCDAB89, 0x98BADCFE, 0x10325476, 0xC3D2E1F0]
  transform := Sha1.transformSha1
  width := by decide
  hashSize_le := by decide
  hashSize_words := by decide
  hashSize_lt := by decide

/-- `hashSha2.cpp`, at 32 bits with the shorter digest. -/
def HashSha224 : HashClass where
  w := 32
  stateLen := 8
  blockLen := 64
  lenAt := 56
  hashType := .sha2_224
  hashSize := 28
  order := .big
  initState := #v[0xc1059ed8, 0x367cd507, 0x3070dd17, 0xf70e5939, 0xffc00b31, 0x68581511,
    0x64f98fa7,
    0xbefa4fa4]
  transform := Sha2.transformSha224
  width := by decide
  hashSize_le := by decide
  hashSize_words := by decide
  hashSize_lt := by decide

/-- `hashSha2.cpp`, at 32 bits. -/
def HashSha256 : HashClass where
  w := 32
  stateLen := 8
  blockLen := 64
  lenAt := 56
  hashType := .sha2_256
  hashSize := 32
  order := .big
  initState := #v[0x6a09e667, 0xbb67ae85, 0x3c6ef372, 0xa54ff53a, 0x510e527f, 0x9b05688c,
    0x1f83d9ab,
    0x5be0cd19]
  transform := Sha2.transformSha256
  width := by decide
  hashSize_le := by decide
  hashSize_words := by decide
  hashSize_lt := by decide

/-- `hashSha2.cpp`, at 64 bits with the shorter digest. -/
def HashSha384 : HashClass where
  w := 64
  stateLen := 8
  blockLen := 128
  lenAt := 112
  hashType := .sha2_384
  hashSize := 48
  order := .big
  initState := #v[0xcbbb9d5dc1059ed8, 0x629a292a367cd507, 0x9159015a3070dd17, 0x152fecd8f70e5939,
    0x67332667ffc00b31, 0x8eb44a8768581511, 0xdb0c2e0d64f98fa7, 0x47b5481dbefa4fa4]
  transform := Sha2.transformSha384
  width := by decide
  hashSize_le := by decide
  hashSize_words := by decide
  hashSize_lt := by decide

/-- `hashSha2.cpp`, at 64 bits. -/
def HashSha512 : HashClass where
  w := 64
  stateLen := 8
  blockLen := 128
  lenAt := 112
  hashType := .sha2_512
  hashSize := 64
  order := .big
  initState := #v[0x6a09e667f3bcc908, 0xbb67ae8584caa73b, 0x3c6ef372fe94f82b, 0xa54ff53a5f1d36f1,
    0x510e527fade682d1, 0x9b05688c2b3e6c1f, 0x1f83d9abfb41bd6b, 0x5be0cd19137e2179]
  transform := Sha2.transformSha512
  width := by decide
  hashSize_le := by decide
  hashSize_words := by decide
  hashSize_lt := by decide

/-- The algorithms that have a class. -/
inductive HashAlg where
  | md5 | sha1 | sha224 | sha256 | sha384 | sha512
  deriving DecidableEq, Repr

namespace HashAlg

/-- The class of an algorithm. -/
def cls : HashAlg → HashClass
  | md5 => HashMd5
  | sha1 => HashSha1
  | sha224 => HashSha224
  | sha256 => HashSha256
  | sha384 => HashSha384
  | sha512 => HashSha512

/-- The algorithm of a `HashType_e` value, if there is a class for it. -/
def ofType : HashType → Option HashAlg
  | .md5 => some md5
  | .sha1 => some sha1
  | .sha2_224 => some sha224
  | .sha2_256 => some sha256
  | .sha2_384 => some sha384
  | .sha2_512 => some sha512
  | _ => none

end HashAlg

/-! ## Objects and their operations

  The one text, over the fields of a class.  A member that a constructor leaves unset is whatever
  the heap held. -/

/-- An object of the class `C`. -/
structure HashObj (C : HashClass) where
  mState : Vector (BitVec C.w) C.stateLen
  mCount0 : BitVec C.w
  mCount1 : BitVec C.w
  mBuffer : Mem C.blockLen

namespace HashObj

variable {C : HashClass}

/-- The constructor; `heap` is what `mBuffer` holds before anything is written to it. -/
def new (C : HashClass) (heap : Nat → UInt8) : HashObj C where
  mState := C.initState
  mCount0 := 0
  mCount1 := 0
  mBuffer := ⟨(List.range C.blockLen).map heap, by rw [List.length_map, List.length_range]⟩

/-- `initHash`: `mBuffer` keeps its bytes. -/
def initHash (o : HashObj C) : HashObj C :=
  { o with mState := C.initState, mCount0 := 0, mCount1 := 0 }

/-- `index = (u8_t)((mCount[0] >> 3) & 0x3F)`, and `0x7F` for the 128-byte blocks. -/
def index (o : HashObj C) : Nat :=
  (o.mCount0 >>> 3 &&& BitVec.ofNat C.w (C.blockLen - 1)).toNat % 256

/-- The bit count: `mCount[0] += len << 3`, the carry into `mCount[1]`, and the top bits of
    `len`. -/
def addBits {w : Nat} (mCount0 mCount1 : BitVec w) (len : Nat) : BitVec w × BitVec w :=
  let inputLen : BitVec w := BitVec.ofNat w len
  let c0 := mCount0 + (inputLen <<< 3)
  let c1 := if c0 < inputLen <<< 3 then mCount1 + 1 else mCount1
  (c0, c1 + (inputLen >>> (w - 3)))

/-- `for (i = partLen; i + 63 < len; i += 64) transform(&input[i]);` — the chaining value and the
    `i` it stops at.  `i` and `i + 63` are `u32_t`. -/
def blockLoop (C : HashClass) (input : List UInt8) :
    Nat → Vector (BitVec C.w) C.stateLen → Nat → Run (Vector (BitVec C.w) C.stateLen × Nat)
  | 0, _, _ => .error .diverged
  | fuel + 1, mState, i =>
      if (i + (C.blockLen - 1)) % 2 ^ 32 < input.length then
        if i + C.blockLen ≤ input.length then
          blockLoop C input fuel (C.transform mState ((input.drop i).take C.blockLen))
            ((i + C.blockLen) % 2 ^ 32)
        else .error .outOfBounds
      else .ok (mState, i)

/-- `updateMd5`, `updateSha1`, … -/
def update (o : HashObj C) (input : List UInt8) : Run (HashObj C) := do
  let len := input.length
  let index := o.index
  let count := addBits o.mCount0 o.mCount1 len
  let partLen := C.blockLen - index
  if partLen ≤ len then
    let mBuffer ← o.mBuffer.memcpy index (input.take partLen)
    let (mState, i) ← blockLoop C input (len / C.blockLen + 1)
      (C.transform o.mState mBuffer.bytes) partLen
    let mBuffer ← mBuffer.memcpy 0 (input.drop i)
    .ok ⟨mState, count.1, count.2, mBuffer⟩
  else
    let mBuffer ← o.mBuffer.memcpy index input
    .ok ⟨o.mState, count.1, count.2, mBuffer⟩

/-- `g_md5padding`, …: `0x80` and zeros, one block. -/
def padding (C : HashClass) : List UInt8 := 0x80 :: List.replicate (C.blockLen - 1) 0

/-- `padLen = (index < 56) ? (56 - index) : (120 - index)`. -/
def padLen (C : HashClass) (index : Nat) : Nat :=
  if index < C.lenAt then C.lenAt - index else C.blockLen + C.lenAt - index

/-- `digest[]`: the first words of `mState` that make up `hashSize` bytes. -/
def digestBytes (C : HashClass) (mState : Vector (BitVec C.w) C.stateLen) : List UInt8 :=
  (mState.toList.take (C.hashSize / (C.w / 8))).flatMap (wordBytes C.order)

/-- `finalMd5`, `finalSha1`, … -/
def final (o : HashObj C) : Run (HashObj C × List UInt8) := do
  let bits := countBytes C.order o.mCount0 o.mCount1
  let o ← o.update ((padding C).take (padLen C o.index))
  let o ← o.update bits
  .ok (o, digestBytes C o.mState)

/-- `calcHash(chunk, NULL)`. -/
def calcHash (o : HashObj C) (chunk : Chunk) : Run (HashObj C) := o.update chunk.bytes

/-- `calcHash(chunk, pDigist)`: the object afterwards and the bytes written to `pDigist`. -/
def calcHashFinal (o : HashObj C) (chunk : Chunk) : Run (HashObj C × List UInt8) := do
  let o ← o.update chunk.bytes
  let (o, digest) ← o.final
  .ok (o.initHash, digest)

end HashObj

end StevenProgram
