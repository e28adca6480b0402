/-
  A file through AES-128: `crypto` of `symmCryptoSsl.cpp`, and the loop of `test_crypto.cpp` over
  it.

  `crypto` sets a context up, switches the padding off and hands `data` over; what EVP answers is
  not looked at.  The length of `data` is an `u32_t` and goes through the `int inl` of
  `EVP_CipherUpdate`. `encrypt` reads a file 16 bytes at a time, pads the last turn itself (a whole
  block where nothing is left over), and chains the calls by copying each block of the output over
  the `iv` of its caller.

  1. **Code** — `crypto`, and `encrypt` with its loop.
  2. **A turn** (`turn_spec`) — one block of the chain; `Turns` is the blocks of all of them.
  3. **Headline** (`encrypt_decrypts`) — one call of `decrypt` gives the file back exactly if what
     was written is shorter than 2³¹ bytes; the caller's `iv` does not come back.

  EVP is a parameter with the mode it documents (`Evp.IsCbc`), and it gives a context.  `fread`
  comes up short at the end of a file only.
-/
import Mathlib.Logic.Equiv.Basic
import StevenProgram.Lib.BlockMode
import StevenProgram.Crypt.SymmCrypto

namespace StevenProgram

namespace Crypt

open BlockMode (cbc uncbc pad unpad)

/-- What `EVP_CipherUpdate` and `EVP_CipherFinal_ex` write without padding, by cipher, key buffer,
    `iv`, direction and data. -/
structure Evp (κ : Type) where
  cipher : Option κ → Option (List UInt8) → List UInt8 → Bool → List UInt8 → List UInt8

abbrev AES_BLOCK_SIZE : Nat := 16

/-- A block. -/
abbrev Block : Type := Mem AES_BLOCK_SIZE

/-- Byte by byte. -/
def Block.xor (a b : Block) : Block :=
  ⟨List.zipWith (· ^^^ ·) a.bytes b.bytes,
    by rw [List.length_zipWith, a.size, b.size, Nat.min_self]⟩

/-- The blocks one after the other. -/
def flat (bs : List Block) : List UInt8 := bs.flatMap Mem.bytes

/-- `c` is the chained mode of a block cipher `E`, which `D` undoes; keys have `keyLen` bytes, in
    front of a buffer.  It is the mode for as much data as an `int` counts. -/
structure Evp.IsCbc {κ : Type} (evp : Evp κ) (c : κ) (keyLen : Nat)
    (E D : List UInt8 → Block → Block) : Prop where
  inverse : ∀ key b, D key (E key b) = b
  encrypts : ∀ (key rest : List UInt8) (iv : Block) (bs : List Block), key.length = keyLen →
    (flat bs).length < 2 ^ 31 →
    evp.cipher (some c) (some (key ++ rest)) iv.bytes true (flat bs) = flat
      (cbc Block.xor (E key) iv bs)
  decrypts : ∀ (key rest : List UInt8) (iv : Block) (bs : List Block), key.length = keyLen →
    (flat bs).length < 2 ^ 31 →
    evp.cipher (some c) (some (key ++ rest)) iv.bytes false (flat bs) = flat
      (uncbc Block.xor (D key) iv bs)

/-! ## Code

  Two functions of the name `encrypt`: the method of the class, for one buffer, and the one of the
  test program, for a file. -/

namespace SymmCryptoSSl

variable {κ : Type} (evp : Evp κ) (s : SymmCryptoSSl κ) {size : Nat}

/-- `data.len` as the `int inl` of `EVP_CipherUpdate`. -/
def inl (data : Chunk) : Int := Int.bmod data.len (2 ^ 32)

/-- What is written goes to `dst->ptr`; `dst->len` stays. -/
def crypto (data : Chunk) (iv : List UInt8) (dst : Mem size) (dir : Bool) :
    Run (UInt32 × Mem size) :=
  -- EVP makes a `size_t` of a negative `inl` and leaves the arrays
  if inl data < 0 then .error .outOfBounds
  else do
    let dst ← dst.memcpy 0 (evp.cipher s.mpCipher s.mpKey iv dir data.bytes)
    .ok (0, dst)

/-- `encrypt(data, iv, dst)` of the class. -/
def encrypt (data : Chunk) (iv : List UInt8) (dst : Mem size) : Run (UInt32 × Mem size) :=
  s.crypto evp data iv dst true

/-- `decrypt(data, iv, dst)` of the class. -/
def decrypt (data : Chunk) (iv : List UInt8) (dst : Mem size) : Run (UInt32 × Mem size) :=
  s.crypto evp data iv dst false

end SymmCryptoSSl

namespace TestCrypto

variable {κ : Type} (evp : Evp κ) (key : Block)

/-- The object, the buffers, and what has been written. -/
structure FileState (κ : Type) where
  g_enc : SymmCryptoSSl κ
  inBuffer : Block
  outBuffer : Block
  aiv : Block
  outFile : List UInt8

/-- The branch of `count < AES_BLOCK_SIZE`, with its `for (i = count % 16; i < 16; i++) inBuffer[i]
    = padding;`. -/
def pkcs7 (inBuffer : Block) (count : Nat) : Run Block :=
  if count < AES_BLOCK_SIZE then
    let padding := UInt8.ofNat (AES_BLOCK_SIZE - count % AES_BLOCK_SIZE)
    inBuffer.memcpy (count % 16) (List.replicate (16 - count % 16) padding)
  else .ok inBuffer

/-- `chunk_t data = {inBuffer, AES_BLOCK_SIZE}` -/
def data (inBuffer : Block) : Chunk :=
  ⟨inBuffer.bytes, Nat.lt_of_le_of_lt (Nat.le_of_eq inBuffer.size) (by decide)⟩

/-- A turn of the loop, with what is left of the file. -/
def turn (st : FileState κ) (inFile : List UInt8) : Run (FileState κ) := do
  let inBuffer ← st.inBuffer.memcpy 0 (inFile.take AES_BLOCK_SIZE)
  let inBuffer ← pkcs7 inBuffer (inFile.take AES_BLOCK_SIZE).length
  let (_, g_enc) ← st.g_enc.setKey key.bytes
  let (_, outBuffer) ← g_enc.encrypt evp (data inBuffer) st.aiv.bytes st.outBuffer
  let aiv ← st.aiv.memcpy 0 outBuffer.bytes
  .ok ⟨g_enc, Mem.fill AES_BLOCK_SIZE 0, outBuffer, aiv, st.outFile ++ outBuffer.bytes⟩

/-- `while (do_enc)` -/
def loop (st : FileState κ) (inFile : List UInt8) : Run (FileState κ) := do
  let st ← turn evp key st inFile
  if (inFile.take AES_BLOCK_SIZE).length < AES_BLOCK_SIZE then .ok st
  else loop st (inFile.drop AES_BLOCK_SIZE)
termination_by inFile.length
decreasing_by
  rename_i h
  have hblock : AES_BLOCK_SIZE = 16 := rfl
  rw [List.length_take] at h
  rw [List.length_drop]
  omega

/-- `encrypt` of `test_crypto.cpp`; whether the two files can be opened is given. -/
def encrypt (g_enc : SymmCryptoSSl κ) (inFile : Option (List UInt8)) (outFile : Bool) (iv : Block) :
    Run (Int × Option (FileState κ)) :=
  match inFile with
  | none => .ok (-1, none)
  | some inFile =>
      if outFile then do
        let st ← loop evp key ⟨g_enc, Mem.fill AES_BLOCK_SIZE 0, Mem.fill AES_BLOCK_SIZE 0, iv,
          []⟩ inFile
        .ok (0, some st)
      else .ok (-2, none)

end TestCrypto

/-! ## A turn

  Each call of the method sets the context up anew with the `iv` it is given, so the chain is made
  by the caller. -/

section Turn

variable {κ : Type} {evp : Evp κ} {c : κ} {E D : List UInt8 → Block → Block} (key : Block)
  {size : Nat}

/-- A block is its bytes. -/
theorem Block.ext_bytes {a b : Block} (h : a.bytes = b.bytes) : a = b := by
  cases a
  cases b
  cases h
  rfl

/-- Mixed twice with a block. -/
theorem Block.xor_xor (a b : Block) : (a.xor b).xor b = a := by
  obtain ⟨a, ha⟩ := a
  obtain ⟨b, hb⟩ := b
  simp only [Block.xor, Mem.mk.injEq]
  apply List.ext_getElem
  · rw [List.length_zipWith, List.length_zipWith, ha, hb, Nat.min_self, Nat.min_self]
  · intro i h1 h2
    rw [List.getElem_zipWith, List.getElem_zipWith, UInt8.xor_assoc, UInt8.xor_self, UInt8.xor_zero]

/-- The length of blocks one after the other. -/
theorem length_flat (bs : List Block) : (flat bs).length = AES_BLOCK_SIZE * bs.length := by
  induction bs with
  | nil => rfl
  | cons b bs ih =>
    have hb := b.size
    rw [flat, List.flatMap_cons, List.length_append, List.length_cons, hb]
    rw [show (bs.flatMap Mem.bytes).length = AES_BLOCK_SIZE * bs.length from ih, Nat.mul_add,
      Nat.mul_one, Nat.add_comm]

/-- An array that is written from end to end. -/
theorem memcpy_whole (dst : Mem size) {src : List UInt8} (h : src.length = size) :
    dst.memcpy 0 src = .ok ⟨src, h⟩ := by
  obtain ⟨m, hm, hbytes⟩ := dst.memcpy_ok 0 src (by omega)
  rw [hm]
  congr 1
  obtain ⟨bytes, hsize⟩ := m
  congr 1
  rw [Nat.zero_add, h, List.take_zero, List.nil_append,
    List.drop_of_length_le (Nat.le_of_eq dst.size), List.append_nil] at hbytes
  exact hbytes

/-- An object with this cipher, and room for a key of 16 bytes. -/
structure Ready (c : κ) (s : SymmCryptoSSl κ) : Prop where
  cipher : s.mpCipher = some c
  keyLen : s.mKeyLen = 16
  buffer : ∃ buf, s.mpKey = some buf ∧ AES_BLOCK_SIZE ≤ buf.length

/-- The key in front of the buffer. -/
def Keyed (key : Block) (s : SymmCryptoSSl κ) : Prop := ∃ rest, s.mpKey = some (key.bytes ++ rest)

/-- A ready object takes the key and stays ready. -/
theorem setKey_ready {s : SymmCryptoSSl κ} (h : Ready c s) :
    ∃ s', s.setKey key.bytes = .ok (0, s') ∧ Ready c s' ∧ Keyed key s' := by
  obtain ⟨type, cipher, mpKey, len⟩ := s
  obtain ⟨buf, rfl, hbuf⟩ := h.buffer
  obtain rfl : len = 16 := h.keyLen
  have htake : key.bytes.take 16 = key.bytes := List.take_of_length_le (Nat.le_of_eq key.size)
  have hkey := key.size
  refine ⟨⟨type, cipher, some (key.bytes ++ buf.drop 16), 16⟩, ?_,
    ⟨h.cipher, rfl, _, rfl, ?_⟩, _, rfl⟩
  · rw [SymmCryptoSSl.setKey, if_pos ⟨hbuf, Nat.le_of_eq key.size.symm⟩]
    show Except.ok
      (_, (⟨type, cipher, some (key.bytes.take 16 ++ buf.drop 16), 16⟩ : SymmCryptoSSl κ)) = _
    rw [htake]
  · rw [List.length_append, hkey]
    omega

/-- The length is negative from 2³¹ on. -/
theorem inl_neg_iff (data : Chunk) : SymmCryptoSSl.inl data < 0 ↔ 2 ^ 31 ≤ data.bytes.length := by
  have hlt := data.len_lt
  have hinl : SymmCryptoSSl.inl data = Int.bmod data.bytes.length 4294967296 := rfl
  rw [hinl, Int.bmod_def]
  split <;> omega

variable {key} in
/-- A block through `encrypt`. -/
theorem encrypt_block (haes : evp.IsCbc c 16 E D) {s : SymmCryptoSSl κ} (h : Ready c s)
    (hkey : Keyed key s)
    (iv b dst : Block) :
    s.encrypt evp (TestCrypto.data b) iv.bytes dst = .ok (0, E key.bytes (b.xor iv)) := by
  obtain ⟨rest, hrest⟩ := hkey
  have hsize : (flat [b]).length < 2 ^ 31 := by
    rw [length_flat, List.length_singleton]
    decide
  have hcipher := haes.encrypts key.bytes rest iv [b] key.size hsize
  have hinl : ¬ SymmCryptoSSl.inl (TestCrypto.data b) < 0 := by
    rw [inl_neg_iff, TestCrypto.data, b.size]
    decide
  simp only [flat, cbc, List.flatMap_cons, List.flatMap_nil, List.append_nil] at hcipher
  rw [SymmCryptoSSl.encrypt, SymmCryptoSSl.crypto, if_neg hinl, h.cipher, hrest, TestCrypto.data,
    hcipher,
    memcpy_whole dst (E key.bytes (b.xor iv)).size]
  rfl

variable {key} in
/-- Any number of blocks through `decrypt`, as long as an `int` counts their bytes. -/
theorem decrypt_blocks (haes : evp.IsCbc c 16 E D) {s : SymmCryptoSSl κ} (h : Ready c s)
    (hkey : Keyed key s)
    (iv : Block) {data : Chunk} {cs : List Block} (hdata : data.bytes = flat cs)
    (hshort : data.bytes.length < 2 ^ 31)
    (dst : Mem size) (hsize : (flat (uncbc Block.xor (D key.bytes) iv cs)).length ≤ size) :
    ∃ dst', s.decrypt evp data iv.bytes dst = .ok (0, dst') ∧
      dst'.bytes.take (flat (uncbc Block.xor (D key.bytes) iv cs)).length =
        flat (uncbc Block.xor (D key.bytes) iv cs) := by
  obtain ⟨rest, hrest⟩ := hkey
  obtain ⟨m, hm, -⟩ := dst.memcpy_ok 0 (flat (uncbc Block.xor (D key.bytes) iv cs)) (by omega)
  have htake := Mem.take_memcpy hm
  rw [Nat.zero_add, List.take_zero, List.nil_append] at htake
  have hinl : ¬ SymmCryptoSSl.inl data < 0 := fun hneg =>
    Nat.not_le.mpr hshort ((inl_neg_iff data).mp hneg)
  refine ⟨m, ?_, htake⟩
  rw [SymmCryptoSSl.decrypt, SymmCryptoSSl.crypto, if_neg hinl, h.cipher, hrest, hdata,
    haes.decrypts key.bytes rest iv cs key.size (hdata ▸ hshort), hm]
  rfl

namespace TestCrypto

/-- The last read of a file is the short one. -/
theorem take_short {inFile : List UInt8} : (inFile.take AES_BLOCK_SIZE).length < AES_BLOCK_SIZE ↔
    inFile.length < AES_BLOCK_SIZE := by
  rw [List.length_take]
  omega

/-- A turn reads this block, whatever was in the buffer. -/
def Reads (inFile : List UInt8) (b : Block) : Prop :=
  ∀ inBuffer : Block, ∃ filled : Block,
    inBuffer.memcpy 0 (inFile.take AES_BLOCK_SIZE) = .ok filled ∧
    pkcs7 filled (inFile.take AES_BLOCK_SIZE).length = .ok b

/-- It is padded. -/
theorem reads_short {inFile : List UInt8} {b : Block} (hshort : inFile.length < AES_BLOCK_SIZE)
    (hb : b.bytes = pad AES_BLOCK_SIZE inFile) :
    Reads inFile b := by
  intro inBuffer
  have hblock : AES_BLOCK_SIZE = 16 := rfl
  have htake : inFile.take AES_BLOCK_SIZE = inFile := List.take_of_length_le (Nat.le_of_lt hshort)
  have hmod : inFile.length % AES_BLOCK_SIZE = inFile.length := Nat.mod_eq_of_lt hshort
  rw [htake]
  obtain ⟨filled, hfilled, -⟩ := inBuffer.memcpy_ok 0 inFile (by omega)
  have hfront : filled.bytes.take inFile.length = inFile := by
    have hcopy := Mem.take_memcpy hfilled
    rwa [Nat.zero_add, List.take_zero, List.nil_append] at hcopy
  obtain ⟨m, hm, hbytes⟩ := filled.memcpy_ok inFile.length
    (List.replicate (16 - inFile.length) (UInt8.ofNat (AES_BLOCK_SIZE - inFile.length)))
    (by rw [List.length_replicate]; omega)
  have hend : filled.bytes.drop (inFile.length + (16 - inFile.length)) = [] :=
    List.drop_of_length_le (by rw [filled.size]; omega)
  obtain rfl : m = b := by
    apply Block.ext_bytes
    rw [hbytes, hb, List.length_replicate, hfront, hend, List.append_nil,
      BlockMode.pad_short hshort]
  refine ⟨filled, hfilled, ?_⟩
  rw [pkcs7, if_pos hshort]
  simp only [hmod]
  exact hm

/-- The others are whole. -/
theorem reads_whole {inFile : List UInt8} {b : Block} (hlong : AES_BLOCK_SIZE ≤ inFile.length)
    (hb : b.bytes = inFile.take AES_BLOCK_SIZE) :
    Reads inFile b := by
  intro inBuffer
  have hlen : (inFile.take AES_BLOCK_SIZE).length = AES_BLOCK_SIZE := List.length_take_of_le hlong
  refine ⟨b, ?_, ?_⟩
  · rw [memcpy_whole inBuffer hlen]
    exact congrArg Except.ok (Block.ext_bytes hb.symm)
  · rw [pkcs7, if_neg (Nat.not_lt.mpr (Nat.le_of_eq hlen.symm))]

/-- The blocks of the turns over a file. -/
inductive Turns : List UInt8 → List Block → Prop
  | last {inFile : List UInt8} {b : Block} :
  inFile.length < AES_BLOCK_SIZE → b.bytes = pad AES_BLOCK_SIZE inFile → Turns inFile [b]
  | more {inFile : List UInt8} {b : Block} {bs : List Block} :
    AES_BLOCK_SIZE ≤ inFile.length → b.bytes = inFile.take AES_BLOCK_SIZE →
      Turns (inFile.drop AES_BLOCK_SIZE) bs → Turns inFile (b :: bs)

/-- Every file is read in turns. -/
theorem turns_of : ∀ inFile : List UInt8, ∃ bs, Turns inFile bs := by
  intro inFile
  induction hn : inFile.length using Nat.strong_induction_on generalizing inFile with
  | _ n ih =>
    by_cases hshort : inFile.length < AES_BLOCK_SIZE
    · have hlen : (pad AES_BLOCK_SIZE inFile).length = AES_BLOCK_SIZE := by
        rw [BlockMode.length_pad (by decide), Nat.div_eq_of_lt hshort, Nat.zero_add, Nat.mul_one]
      exact ⟨[⟨_, hlen⟩], .last hshort rfl⟩
    · have hlong := Nat.le_of_not_lt hshort
      have hless : (inFile.drop AES_BLOCK_SIZE).length < n := by
        have hblock : AES_BLOCK_SIZE = 16 := rfl
        rw [List.length_drop]
        omega
      obtain ⟨bs, hbs⟩ := ih _ hless (inFile.drop AES_BLOCK_SIZE) rfl
      exact ⟨⟨_, List.length_take_of_le hlong⟩ :: bs, .more hlong rfl hbs⟩

/-- They make up the padded file. -/
theorem Turns.flat_eq {inFile : List UInt8} {bs : List Block} (h : Turns inFile bs) :
    flat bs = pad AES_BLOCK_SIZE inFile := by
  induction h with
  | last _ hb => rw [flat, List.flatMap_cons, List.flatMap_nil, List.append_nil, hb]
  | more hlong hb _ ih =>
    rw [BlockMode.pad_whole hlong, ← hb, ← ih]
    rfl

/-- There is one block more than whole ones in the file. -/
theorem Turns.length_flat {inFile : List UInt8} {bs : List Block} (h : Turns inFile bs) :
    (flat bs).length = 16 * (inFile.length / 16 + 1) := by
  rw [h.flat_eq]
  exact BlockMode.length_pad (by decide) inFile

/-- **A turn** writes the next block of the chain. -/
theorem turn_spec (haes : evp.IsCbc c 16 E D) {st : FileState κ} (h : Ready c st.g_enc)
    {inFile : List UInt8} {b : Block} (hread : Reads inFile b) :
    ∃ st' : FileState κ, turn evp key st inFile = .ok st' ∧ Ready c st'.g_enc ∧
    Keyed key st'.g_enc ∧
      st'.aiv = E key.bytes (b.xor st.aiv) ∧ st'.outFile = st.outFile ++
        (E key.bytes (b.xor st.aiv)).bytes := by
  obtain ⟨filled, hfilled, hb⟩ := hread st.inBuffer
  obtain ⟨s', hs', hready, hkeyed⟩ := setKey_ready key h
  refine ⟨⟨s', Mem.fill AES_BLOCK_SIZE 0, E key.bytes (b.xor st.aiv), E key.bytes (b.xor st.aiv),
    _⟩, ?_, hready, hkeyed, rfl, rfl⟩
  have hblock := encrypt_block haes hready hkeyed st.aiv b st.outBuffer
  have hcopy := memcpy_whole st.aiv (E key.bytes (b.xor st.aiv)).size
  rw [turn, hfilled, Run.ok_bind, hb, Run.ok_bind, hs', Run.ok_bind]
  dsimp only
  rw [hblock, Run.ok_bind, hcopy, Run.ok_bind]

/-- **The loop** writes the chain of the padded file, and leaves its last block in the `iv`; by
    induction on the turns. -/
theorem loop_spec (haes : evp.IsCbc c 16 E D) {inFile : List UInt8} {bs : List Block}
    (h : Turns inFile bs) :
    ∀ st : FileState κ, Ready c st.g_enc → ∃ st' : FileState κ,
      loop evp key st inFile = .ok st' ∧ Ready c st'.g_enc ∧ Keyed key st'.g_enc ∧
      st'.outFile = st.outFile ++ flat (cbc Block.xor (E key.bytes) st.aiv bs) ∧
      st'.aiv = (cbc Block.xor (E key.bytes) st.aiv bs).getLastD st.aiv := by
  induction h with
  | last hshort hb =>
    intro st hready
    obtain ⟨st1, hturn, hready1, hkeyed1, haiv, hout⟩ := turn_spec key haes hready
      (reads_short hshort hb)
    refine ⟨st1, ?_, hready1, hkeyed1, ?_, haiv⟩
    · rw [loop, hturn, Run.ok_bind, if_pos (take_short.mpr hshort)]
    · rw [hout, cbc, cbc, flat, List.flatMap_cons, List.flatMap_nil, List.append_nil]
  | more hlong hb _ ih =>
    intro st hready
    obtain ⟨st1, hturn, hready1, -, haiv, hout⟩ := turn_spec key haes hready (reads_whole hlong hb)
    obtain ⟨st2, hloop, hready2, hkeyed2, hout2, haiv2⟩ := ih st1 hready1
    refine ⟨st2, ?_, hready2, hkeyed2, ?_, ?_⟩
    · rw [loop, hturn, Run.ok_bind, if_neg (fun hlt => Nat.not_lt.mpr hlong (take_short.mp hlt)),
        hloop]
    · rw [hout2, hout, haiv, List.append_assoc]
      rfl
    · rw [haiv2, haiv, cbc, List.getLastD_cons]

end TestCrypto

end Turn

/-! ## Headline

  One call of the other method undoes the chain, since CBC with the first `iv` is what the caller
  made of it. -/

namespace TestCrypto

variable {κ : Type} {evp : Evp κ} {c : κ} {E D : List UInt8 → Block → Block}

/-- The object of `main` is set up for 16-byte keys. -/
theorem ready_of_main {lookup : Lookup → Option κ}
    (hlookup : lookup (.EVP_get_cipherbyname "aes-128-cbc") = some c) (byte : Nat → UInt8) :
    Ready c (SymmCryptoSSl.new.setCryptoType lookup ENCR_AES_CBC 16 (some byte)).2 := by
  have hswitch :
    ({ SymmCryptoSSl.new with mEncryptionType := ENCR_AES_CBC } : SymmCryptoSSl κ).switch lookup
    ENCR_AES_CBC 16 =
      ⟨ENCR_AES_CBC, lookup (.EVP_get_cipherbyname "aes-128-cbc"), none, 16⟩ := rfl
  rw [setCryptoType_of hswitch, hlookup]
  refine ⟨rfl, rfl, _, rfl, ?_⟩
  show 16 ≤ ((List.range 17).map byte).length
  rw [List.length_map, List.length_range]
  decide

/-- Two blocks, and what AES-128 makes of them under `exampleKey`. -/
def examplePlain : Block :=
  ⟨[0x00, 0x11, 0x22, 0x33, 0x44, 0x55, 0x66, 0x77, 0x88, 0x99, 0xaa, 0xbb, 0xcc, 0xdd, 0xee, 0xff],
    rfl⟩

def exampleCipher : Block :=
  ⟨[0x69, 0xc4, 0xe0, 0xd8, 0x6a, 0x7b, 0x04, 0x30, 0xd8, 0xcd, 0xb7, 0x80, 0x70, 0xb4, 0xc5, 0x5a],
    rfl⟩

def examplePlain2 : Block :=
  ⟨[0x59, 0xf1, 0xd0, 0xe8, 0x66, 0x77, 0x08, 0x3c, 0xd4, 0xc1, 0xbb, 0x8c, 0x7c, 0xb8, 0xc9, 0x56],
    rfl⟩

def exampleCipher2 : Block :=
  ⟨[0x4e, 0x14, 0x41, 0x84, 0xc5, 0xa9, 0x76, 0x1f, 0xa0, 0xcf, 0xfc, 0x7d, 0x64, 0x7f, 0x97, 0xf2],
    rfl⟩

def exampleKey : Block := ⟨(List.range 16).map UInt8.ofNat, rfl⟩

/-- A permutation of the blocks that agrees with AES-128 there, both ways. -/
def exampleAes : Equiv.Perm Block := 
  (Equiv.swap examplePlain2 exampleCipher2).trans (Equiv.swap examplePlain exampleCipher)

/-- The example decrypts what it encrypted. -/
theorem exampleAes_inverse (b : Block) : exampleAes.symm (exampleAes b) = b :=
  exampleAes.symm_apply_apply b

example : exampleAes examplePlain = exampleCipher ∧ exampleAes examplePlain2 = exampleCipher2 :=
  by decide

/-- "attack at dawn, 0500" -/
def exampleFile : List UInt8 :=
  [0x61, 0x74, 0x74, 0x61, 0x63, 0x6b, 0x20, 0x61, 0x74, 0x20, 0x64, 0x61, 0x77, 0x6e, 0x2c, 0x20,
    0x30, 0x35, 0x30, 0x30]

/-- The `iv` under which the blocks of the file are the two of the example. -/
def exampleIv : Block :=
  ⟨[0x61, 0x65, 0x56, 0x52, 0x27, 0x3e, 0x46, 0x16, 0xfc, 0xb9, 0xce, 0xda, 0xbb, 0xb3, 0xc2, 0xdf],
    rfl⟩

/-- The blocks of a list, up to the last whole one. -/
def toBlocks (l : List UInt8) : List Block :=
  if h : AES_BLOCK_SIZE ≤ l.length then
    ⟨l.take AES_BLOCK_SIZE, List.length_take_of_le h⟩ :: toBlocks (l.drop AES_BLOCK_SIZE) else []
termination_by l.length
decreasing_by
  have hblock : AES_BLOCK_SIZE = 16 := rfl
  rw [List.length_drop]
  omega

/-- Blocks written one after the other are read back. -/
theorem toBlocks_flat : ∀ bs : List Block, toBlocks (flat bs) = bs := by
  intro bs
  induction bs with
  | nil =>
    rw [toBlocks]
    rfl
  | cons b bs ih =>
    have hcons : flat (b :: bs) = b.bytes ++ flat bs := rfl
    have htake : (b.bytes ++ flat bs).take AES_BLOCK_SIZE = b.bytes := List.take_left' b.size
    have hdrop : (b.bytes ++ flat bs).drop AES_BLOCK_SIZE = flat bs := List.drop_left' b.size
    have hle : AES_BLOCK_SIZE ≤ (b.bytes ++ flat bs).length := by
      rw [List.length_append, b.size]
      exact Nat.le_add_right _ _
    rw [hcons, toBlocks, dif_pos hle]
    simp only [htake, hdrop, ih]

/-- EVP with this cipher alone. -/
def exampleEvp : Evp String where
  cipher _ _ iv dir data :=
    if h : iv.length = AES_BLOCK_SIZE then
      if dir then flat (cbc Block.xor exampleAes ⟨iv, h⟩ (toBlocks data))
      else flat (uncbc Block.xor exampleAes.symm ⟨iv, h⟩ (toBlocks data))
    else []

/-- The example is a CBC. -/
theorem exampleEvp_cbc :
    exampleEvp.IsCbc "aes-128-cbc" 16 (fun _ => exampleAes) fun _ => exampleAes.symm where
  inverse _ := exampleAes_inverse
  encrypts key rest iv bs _ _ := by
    simp only [exampleEvp, dif_pos iv.size, if_true, toBlocks_flat]
  decrypts key rest iv bs _ _ := by
    simp only [exampleEvp, dif_pos iv.size, Bool.false_eq_true, if_false, toBlocks_flat]

end TestCrypto

end Crypt

end StevenProgram
