/-
  `enc.c`: the same file format over the AES functions of OpenSSL, with the way back.

  `encrypt` is the loop of `test_crypto.cpp`, but `AES_cbc_encrypt` moves the `iv` on itself.
  `decrypt` asks for the size of the file, gives every block but the last as it is, and of the last
  as many bytes as its last byte leaves.  The size is an `int`.

  1. **Code** — the two functions for a block, and the two loops.
  2. **A block** (`encrypt_block_eq`, `decrypt_block_eq`) — what the library makes of it.
  3. **There** (`encryptLoop_spec`) — the chain of the padded file.
  4. **Back** (`decryptLoop_spec`) — block after block; `decryptLoop_short` bounds what is written
     by the size that was asked for.
  5. **Headline** (`decrypt_encrypt`) — a file comes back exactly if its padded size is an `int`.

  The functions of `<openssl/aes.h>` are a parameter (`AesLib`), with what their manual says as a
  law (`AesLib.IsAes`): a key of 128 bits is taken, and a block goes through a cipher and its
  inverse.
-/
import StevenProgram.Crypt.FileCrypt

namespace StevenProgram

namespace Crypt

open BlockMode (cbc pad)
open TestCrypto (pkcs7 take_short reads_short reads_whole Turns turns_of)

/-- The functions of OpenSSL that `enc.c` calls, with `AES_KEY` as `σ`. -/
structure AesLib (σ : Type) where
  /-- the result, and the key that is set -/
  AES_set_encrypt_key : (userKey : Block) → (bits : Int) → Int × σ
  AES_set_decrypt_key : (userKey : Block) → (bits : Int) → Int × σ
  /-- `out`, and `ivec` afterwards -/
  AES_cbc_encrypt : (input : Block) → (length : Nat) → (key : σ) → (ivec : Block) → (enc : Bool) →
    Block × Block

/-- The library is AES: one block of CBC is `E` after the `xor` there, and the `xor` after `D` back,
    and the cipher text takes the place of the `iv`. -/
structure AesLib.IsAes {σ : Type} (lib : AesLib σ) (E D : Block → Block → Block) : Prop where
  inverse : ∀ key b, D key (E key b) = b
  setEncrypt : ∀ key, 0 ≤ (lib.AES_set_encrypt_key key 128).1
  setDecrypt : ∀ key, 0 ≤ (lib.AES_set_decrypt_key key 128).1
  encrypts :
    ∀ key b iv, lib.AES_cbc_encrypt b AES_BLOCK_SIZE (lib.AES_set_encrypt_key key 128).2 iv true =
    (E key (b.xor iv), E key (b.xor iv))
  decrypts :
    ∀ key b iv, lib.AES_cbc_encrypt b AES_BLOCK_SIZE (lib.AES_set_decrypt_key key 128).2 iv false =
    ((D key b).xor iv, b)

namespace EncFile

variable {σ : Type} (lib : AesLib σ) (key : Block)

/-! ## Code

  The `iv` is the caller's and moves on with every block, in either direction. -/

/-- The result, `encrypt_str` and the `iv`; where the key is refused both are left alone. -/
def encrypt_function (plaint_str encrypt_str iv : Block) : Int × Block × Block :=
  let aes := lib.AES_set_encrypt_key key 128
  if aes.1 < 0 then (-1, encrypt_str, iv)
  else (0, lib.AES_cbc_encrypt plaint_str AES_BLOCK_SIZE aes.2 iv true)

/-- The same with the key for decrypting. -/
def decrypt_function (encrypt_str decrypt_str iv : Block) : Int × Block × Block :=
  let aes := lib.AES_set_decrypt_key key 128
  if aes.1 < 0 then (-1, decrypt_str, iv)
  else (0, lib.AES_cbc_encrypt encrypt_str AES_BLOCK_SIZE aes.2 iv false)

/-- `while (do_enc)`; `inBuffer` is zero before each turn. -/
def encryptLoop (outBuffer iv : Block) (inFile outFile : List UInt8) : Run (List UInt8) := do
  let inBuffer ← (Mem.fill AES_BLOCK_SIZE 0).memcpy 0 (inFile.take AES_BLOCK_SIZE)
  let inBuffer ← pkcs7 inBuffer (inFile.take AES_BLOCK_SIZE).length
  -- the result of `encrypt_function` is not looked at
  let out := (encrypt_function lib key inBuffer outBuffer iv).2
  if (inFile.take AES_BLOCK_SIZE).length < AES_BLOCK_SIZE then .ok (outFile ++ out.1.bytes)
  else encryptLoop out.1 out.2 (inFile.drop AES_BLOCK_SIZE) (outFile ++ out.1.bytes)
termination_by inFile.length
decreasing_by
  rename_i h
  have hblock : AES_BLOCK_SIZE = 16 := rfl
  rw [List.length_take] at h
  rw [List.length_drop]
  omega

/-- `encrypt`; whether the two files can be opened is given. -/
def encrypt (inFile : Option (List UInt8)) (outFile : Bool) (iv : Block) : Run (Int × List UInt8) :=
  match inFile with
  | none => .ok (-1, [])
  | some inFile =>
      if outFile then do
        let out ← encryptLoop lib key (Mem.fill AES_BLOCK_SIZE 0) iv inFile []
        .ok (0, out)
      else .ok (-2, [])

/-- `fwrite(outBuffer, 1, AES_BLOCK_SIZE - outBuffer[AES_BLOCK_SIZE - 1], outFile)`, unless that
    byte, a `char`, is 16. -/
def fwriteLast (outBuffer : Block) : Run (List UInt8) :=
  let last := (outBuffer.bytes.getLastD 0).toInt8.toInt
  if last ≠ 16 then
    if 0 ≤ last ∧ last ≤ 16 then .ok (outBuffer.bytes.take (16 - last).toNat)
    else .error .outOfBounds
  else .ok []

/-- The buffers of `decrypt`, which nobody sets before the first turn, and the `iv`. -/
structure Buffers where
  inBuffer : Block
  outBuffer : Block
  iv : Block

/-- `while (do_dec)`; `total` stops at `fileLen` or a block behind it, so it stays an `int`. -/
def decryptLoop (fileLen : Int) (bufs : Buffers) (inFile : List UInt8) (total : Int)
    (outFile : List UInt8) : Run (List UInt8) := do
  let inBuffer ← bufs.inBuffer.memcpy 0 (inFile.take AES_BLOCK_SIZE)
  let total := total + (inFile.take AES_BLOCK_SIZE).length
  let out := (decrypt_function lib key inBuffer bufs.outBuffer bufs.iv).2
  if total ≥ fileLen then do
    let last ← fwriteLast out.1
    .ok (outFile ++ last)
  -- from here on nothing is read, and `total` stays
  else if inFile.length ≤ AES_BLOCK_SIZE then .error .diverged
  else
    decryptLoop fileLen ⟨inBuffer, out.1, out.2⟩ (inFile.drop AES_BLOCK_SIZE) total
      (outFile ++ out.1.bytes)
termination_by inFile.length
decreasing_by
  rename_i h
  have hblock : AES_BLOCK_SIZE = 16 := rfl
  rw [List.length_drop]
  omega

/-- `fileLen`: the `long` of `filesize` in an `int`. -/
def fileLen (inFile : List UInt8) : Int := Int.bmod inFile.length (2 ^ 32)

/-- `stale` is what is in the two buffers before anything is read. -/
def decrypt (inFile : Option (List UInt8)) (outFile : Bool) (iv : Block) (stale : Block × Block) :
    Run (Int × List UInt8) :=
  match inFile with
  | none => .ok (-1, [])
  | some inFile =>
      if (fileLen inFile).tmod AES_BLOCK_SIZE ≠ 0 then .ok (-3, [])
      else if outFile then do
        let out ← decryptLoop lib key (fileLen inFile) ⟨stale.1, stale.2, iv⟩ inFile 0 []
        .ok (0, out)
      else .ok (-2, [])

/-! ## A block

  The law of the library, applied to the two functions. -/

section Spec

variable {lib} {E D : Block → Block → Block}

/-- A block is encrypted after it was mixed with the vector. -/
theorem encrypt_block_eq (haes : lib.IsAes E D) (b out iv : Block) :
    encrypt_function lib key b out iv = (0, E key (b.xor iv), E key (b.xor iv)) := by
  have hset := haes.setEncrypt key
  rw [encrypt_function, haes.encrypts]
  exact if_neg (Int.not_lt.mpr hset)

/-- And decrypted before. -/
theorem decrypt_block_eq (haes : lib.IsAes E D) (b out iv : Block) :
    decrypt_function lib key b out iv = (0, (D key b).xor iv, b) := by
  have hset := haes.setDecrypt key
  rw [decrypt_function, haes.decrypts]
  exact if_neg (Int.not_lt.mpr hset)

/-! ## There

  Turn by turn, the file is cut into blocks as in `Crypt.FileCrypt`, so the blocks and their padding
  are the same. -/

/-- **The loop** writes the chain of the padded file. -/
theorem encryptLoop_spec (haes : lib.IsAes E D) {inFile : List UInt8} {bs : List Block}
    (h : Turns inFile bs) :
    ∀ (outBuffer iv : Block) (outFile : List UInt8),
      encryptLoop lib key outBuffer iv inFile outFile = .ok
        (outFile ++ flat (cbc Block.xor (E key) iv bs)) := by
  induction h with
  | last hshort hb =>
    intro outBuffer iv outFile
    obtain ⟨filled, hfilled, hread⟩ := reads_short hshort hb (Mem.fill AES_BLOCK_SIZE 0)
    rw [encryptLoop, hfilled]
    simp only [Run.ok_bind, hread, encrypt_block_eq key haes]
    rw [if_pos (take_short.mpr hshort), cbc, cbc, flat, List.flatMap_cons, List.flatMap_nil,
      List.append_nil]
  | more hlong hb _ ih =>
    intro outBuffer iv outFile
    obtain ⟨filled, hfilled, hread⟩ := reads_whole hlong hb (Mem.fill AES_BLOCK_SIZE 0)
    rw [encryptLoop, hfilled]
    simp only [Run.ok_bind, hread, encrypt_block_eq key haes]
    rw [if_neg (fun hlt => Nat.not_lt.mpr hlong (take_short.mp hlt)), ih, List.append_assoc]
    rfl

/-! ## Back

  The last block is told by the number of bytes that were written, compared with the size of the
  file; this is where an `int` matters. -/

/-- The last block of a padded file. -/
theorem fwriteLast_pad {b : Block} {file : List UInt8} (h : b.bytes = pad AES_BLOCK_SIZE file) :
    fwriteLast b = .ok file := by
  have hshort : file.length < 16 := by
    have hlen : 16 = 16 * (file.length / 16 + 1) :=
      b.size.symm.trans ((congrArg List.length h).trans (BlockMode.length_pad (by decide) file))
    omega
  obtain ⟨n, hn⟩ : ∃ n, 16 - file.length = n + 1 := ⟨16 - file.length - 1, by omega⟩
  have hpad : b.bytes = file ++ List.replicate (n + 1) (UInt8.ofNat (n + 1)) := by
    rw [h, BlockMode.pad_short (show file.length < AES_BLOCK_SIZE from hshort),
      show AES_BLOCK_SIZE - file.length = n + 1 from hn]
  have hlast : (b.bytes.getLastD 0).toInt8.toInt = n + 1 := by
    have hchar : ∀ k, k < 17 → (UInt8.ofNat k).toInt8.toInt = k := by decide
    rw [hpad, List.replicate_succ', ← List.append_assoc, List.getLastD_concat]
    exact hchar (n + 1) (by omega)
  rw [fwriteLast]
  simp only [hlast]
  by_cases hwhole : (n : Int) + 1 = 16
  · rw [if_neg (not_not.mpr hwhole)]
    have hnil : file = [] := List.eq_nil_of_length_eq_zero (by omega)
    rw [hnil]
  · rw [if_pos hwhole, if_pos (by omega)]
    have hrest : (16 - ((n : Int) + 1)).toNat = file.length := by omega
    rw [hrest, hpad, List.take_left]

/-- **A turn over what `encrypt` wrote** gives the next block, the last one without its padding. -/
theorem decryptLoop_block (haes : lib.IsAes E D) (bufs : Buffers) (b : Block) (bs : List Block)
    (fileLen total : Int)
    (outFile : List UInt8) :
    decryptLoop lib key fileLen bufs
      (flat (cbc Block.xor (E key) bufs.iv (b :: bs))) total outFile =
      if total + 16 ≥ fileLen then do
        let last ← fwriteLast b
        .ok (outFile ++ last)
      else if 16 + (flat bs).length ≤ 16 then .error .diverged
      else decryptLoop lib key fileLen ⟨E key (b.xor bufs.iv), b, E key (b.xor bufs.iv)⟩
        (flat (cbc Block.xor (E key) (E key (b.xor bufs.iv)) bs)) (total + 16)
        (outFile ++ b.bytes) := by
  obtain ⟨stale, staleOut, iv⟩ := bufs
  have hfile : flat (cbc Block.xor (E key) iv (b :: bs)) =
      (E key (b.xor iv)).bytes ++ flat (cbc Block.xor (E key) (E key (b.xor iv)) bs) := rfl
  have hsize := (E key (b.xor iv)).size
  have hlen :
    ((E key (b.xor iv)).bytes ++ flat (cbc Block.xor (E key) (E key (b.xor iv)) bs)).length =
      16 + (flat bs).length := by
    rw [List.length_append, hsize, length_flat, BlockMode.length_cbc, length_flat]
  rw [decryptLoop, hfile, hlen, List.take_left' hsize, List.drop_left' hsize,
    memcpy_whole stale hsize]
  simp only [Run.ok_bind, decrypt_block_eq key haes, hsize, haes.inverse, Block.xor_xor]
  rfl

/-- **The way back**, from a turn on: what is left of the file is given block after block, the last
    one without its padding.  By induction on the turns. -/
theorem decryptLoop_spec (haes : lib.IsAes E D) {file : List UInt8} {bs : List Block}
    (h : Turns file bs) :
    ∀ (bufs : Buffers) {fileLen total : Int} (outFile : List UInt8),
      fileLen = total + (flat bs).length →
      decryptLoop lib key fileLen bufs (flat (cbc Block.xor (E key) bufs.iv bs)) total outFile =
        .ok (outFile ++ file) := by
  induction h with
  | @last file b hshort hb =>
    intro bufs fileLen total outFile htotal
    have hlen : (flat [b]).length = 16 := length_flat [b]
    rw [decryptLoop_block key haes, if_pos (by omega), fwriteLast_pad hb]
    rfl
  | @more file b bs hlong hb hturns ih =>
    intro bufs fileLen total outFile htotal
    have hlen : (flat (b :: bs)).length = 16 * (bs.length + 1) := length_flat (b :: bs)
    have hrest : (flat bs).length = 16 * bs.length := length_flat bs
    have hmore := hturns.length_flat
    have hnext := ih ⟨E key (b.xor bufs.iv), b, E key (b.xor bufs.iv)⟩ (outFile ++ b.bytes)
      (show fileLen = (total + 16) + (flat bs).length by omega)
    rw [decryptLoop_block key haes, if_neg (by omega), if_neg (by omega), hnext, hb,
      List.append_assoc,
      List.take_append_drop]

/-- At most a block is written at the end. -/
theorem fwriteLast_le {b : Block} {last : List UInt8} (h : fwriteLast b = .ok last) :
    last.length ≤ 16 := by
  rw [fwriteLast] at h
  split at h
  · split at h
    · cases h
      exact (List.length_take_le' _ _).trans (Nat.le_of_eq b.size)
    · cases h
  · cases h
    exact Nat.zero_le _

/-- No more is written than the size that was asked for, and a block; by induction on the input,
    whatever it holds. -/
theorem decryptLoop_short {fileLen : Int} :
    ∀ (inFile : List UInt8) {bufs : Buffers} {total : Int} {outFile out : List UInt8},
    decryptLoop lib key fileLen bufs inFile total outFile = .ok out →
      out.length ≤ outFile.length + 16 + (fileLen - total).toNat := by
  have hblock : AES_BLOCK_SIZE = 16 := rfl
  intro inFile
  induction hn : inFile.length using Nat.strong_induction_on generalizing inFile with
  | _ n ih =>
    intro bufs total outFile out hrun
    rw [decryptLoop] at hrun
    obtain ⟨inBuffer, -, hrun⟩ := Run.bind_ok.mp hrun
    dsimp only at hrun
    split at hrun
    · obtain ⟨last, hlast, hout⟩ := Run.bind_ok.mp hrun
      cases hout
      have hle := fwriteLast_le hlast
      rw [List.length_append]
      omega
    · next hmore =>
      split at hrun
      · cases hrun
      · next hrest =>
        have hread : (inFile.take AES_BLOCK_SIZE).length = 16 := by
          rw [List.length_take]
          omega
        have hless : (inFile.drop AES_BLOCK_SIZE).length < n := by
          rw [List.length_drop]
          omega
        have hle := ih _ hless (inFile.drop AES_BLOCK_SIZE) rfl hrun
        have hsize := (decrypt_function lib key inBuffer bufs.outBuffer bufs.iv).2.1.size
        rw [hread] at hle hmore
        rw [List.length_append, hsize] at hle
        omega

/-- A size is its own `int` below 2³¹, and beyond it is taken for one that is at least 2³¹ less. -/
theorem fileLen_cases (inFile : List UInt8) :
    (inFile.length < 2 ^ 31 → fileLen inFile = inFile.length) ∧
    (2 ^ 31 ≤ inFile.length → fileLen inFile + 2147483648 ≤ inFile.length) := by
  have hsize : fileLen inFile = Int.bmod inFile.length 4294967296 := rfl
  rw [hsize, Int.bmod_def]
  split <;> omega

/-! ## Headline

  Below 2³¹ bytes the size is right and the loop stops at the last block; from there on `fileLen` is
  smaller than the file, and so is what is written. -/

/-- **A file comes back**: under the same key and `iv`, `decrypt` gives what `encrypt` was given,
    exactly if the padded file has a size that is an `int`.  A longer one comes back short, or not
    at all. -/
theorem decrypt_encrypt (haes : lib.IsAes E D) (iv : Block) (stale : Block × Block)
    (file : List UInt8) :
    ∃ outFile, encrypt lib key (some file) true iv = .ok (0, outFile) ∧
    outFile.length = 16 * (file.length / 16 + 1) ∧
      (decrypt lib key (some outFile) true iv stale = .ok (0, file) ↔ outFile.length < 2 ^ 31) := by
  obtain ⟨bs, hturns⟩ := turns_of file
  have hloop := encryptLoop_spec key haes hturns (Mem.fill AES_BLOCK_SIZE 0) iv []
  have hsame : (flat (cbc Block.xor (E key) iv bs)).length = (flat bs).length := by
    rw [length_flat, BlockMode.length_cbc, length_flat]
  have hlen := hsame.trans hturns.length_flat
  refine ⟨flat (cbc Block.xor (E key) iv bs), ?_, hlen, ?_⟩
  · rw [encrypt]
    simp only [if_true, hloop, Run.ok_bind, List.nil_append]
  · obtain ⟨hsmall, hlarge⟩ := fileLen_cases (flat (cbc Block.xor (E key) iv bs))
    constructor
    · intro hrun
      rw [decrypt] at hrun
      by_contra hlong
      have hint := hlarge (Nat.le_of_not_lt hlong)
      split at hrun
      · cases hrun
      · rw [if_pos rfl] at hrun
        obtain ⟨out, hout, hrun⟩ := Run.bind_ok.mp hrun
        obtain rfl : out = file := congrArg Prod.snd (Except.ok.inj hrun)
        have hshort := decryptLoop_short key _ hout
        rw [List.length_nil] at hshort
        omega
    · intro hint
      rw [decrypt]
      have hwhole : ((flat (cbc Block.xor (E key) iv bs)).length : Int).tmod AES_BLOCK_SIZE = 0 :=
        Int.tmod_eq_zero_of_dvd ⟨(file.length / 16 + 1 : Nat), by rw [hlen]; rfl⟩
      have htotal : ((flat (cbc Block.xor (E key) iv bs)).length : Int) = 0 + (flat bs).length :=
        by omega
      have hback := decryptLoop_spec key haes hturns ⟨stale.1, stale.2, iv⟩ [] htotal
      rw [hsmall hint, hwhole, if_neg (not_not.mpr rfl), if_pos rfl, hback]
      rfl

end Spec

/-- The library over the permutation of the example; a key is not used. -/
def exampleLib : AesLib Unit where
  AES_set_encrypt_key _ _ := (0, ())
  AES_set_decrypt_key _ _ := (0, ())
  AES_cbc_encrypt input _ _ ivec enc :=
    if enc then (TestCrypto.exampleAes (input.xor ivec), TestCrypto.exampleAes (input.xor ivec))
    else ((TestCrypto.exampleAes.symm input).xor ivec, input)

/-- The library of the example keeps the law. -/
theorem exampleLib_aes :
    exampleLib.IsAes (fun _ => TestCrypto.exampleAes) fun _ => TestCrypto.exampleAes.symm where
  inverse _ := TestCrypto.exampleAes_inverse
  setEncrypt _ := Int.le_refl 0
  setDecrypt _ := Int.le_refl 0
  encrypts _ _ _ := rfl
  decrypts _ _ _ := rfl

/-- The twenty bytes through both loops. -/
theorem decrypt_encrypt_twenty :
    ∃ outFile, encrypt exampleLib TestCrypto.exampleKey
      (some TestCrypto.exampleFile) true TestCrypto.exampleIv = .ok (0, outFile) ∧
      outFile.length = 32 ∧
      decrypt exampleLib TestCrypto.exampleKey (some outFile) true TestCrypto.exampleIv
        (Mem.fill 16 7, Mem.fill 16 9) =
        .ok (0, TestCrypto.exampleFile) := by
  obtain ⟨outFile, hrun, hlen, hback⟩ :=
    decrypt_encrypt TestCrypto.exampleKey exampleLib_aes TestCrypto.exampleIv
    (Mem.fill 16 7, Mem.fill 16 9) TestCrypto.exampleFile
  have hlen : outFile.length = 32 := hlen
  exact ⟨outFile, hrun, hlen, hback.mpr (by rw [hlen]; decide)⟩

end EncFile

end Crypt

end StevenProgram
