/-
  Incremental hashing computes the standard's digest.

  1. **Specification** — `Standard` holds what RFC 1321, RFC 3174 and FIPS 180-4 fix besides the
     block transform: block size, width and byte order of the length field, initial value, digest
     size. `Standard.pad m` is `m ‖ 0x80 ‖ 0…0 ‖ length in bits`, `Standard.digest` iterates a
     transform over its blocks.  Neither knows of chunks, buffers or counters.  (A length field of
     `k` bytes shows the length modulo `256^k`, which is RFC 1321's rule; the SHA standards have no
     longer messages.)

  2. **Final** (`final_digest`) — from `Holds o m` alone: the two updates `finalXxx` makes append
     exactly the bytes `pad` appends to `m`, and the count they encode is the one from before the
     padding.

  3. **Chunks** — `Fits B n cs` says of a list of chunks, the first of which meets `n` bytes, that
     no block loop wraps.  `calcChunks_holds`: where the chunks fit, the run of the calls succeeds,
     holding the concatenation.

  4. **Headline** (`calcMessages_digest`) — any list of messages, each in any chunks, on one object.
-/
import StevenProgram.Lib.Bytes
import StevenProgram.Hash.Streaming

namespace StevenProgram

open BlockFold Bytes HashObj

/-! ## The specification

  Written from the standards alone.  A standard is data; `digest` is one function for all of them,
  with the block transform as an argument. -/

/-- What a standard fixes besides its block transform. -/
structure Standard (w n : Nat) where
  /-- bytes in a block -/
  blockBytes : Nat
  /-- bytes in the length field -/
  lenBytes : Nat
  order : Endian
  iv : Vector (BitVec w) n
  /-- bytes in a digest -/
  size : Nat

namespace Standard

variable {w n : Nat} (S : Standard w n)

def numBytes (k x : Nat) : List UInt8 :=
  match S.order with
  | .little => leBytes k x
  | .big => beBytes k x

/-- The zeros between `0x80` and the length field. -/
def zeros (len : Nat) : Nat :=
  (2 * S.blockBytes - 1 - S.lenBytes - len % S.blockBytes) % S.blockBytes

/-- The message, the bit, the zeros and the length. -/
def pad (m : List UInt8) : List UInt8 :=
  m ++ 0x80 :: (List.replicate (S.zeros m.length) 0 ++ S.numBytes S.lenBytes (8 * m.length))

/-- The digest of a message, for a transform of blocks. -/
def digest (transform : Vector (BitVec w) n → List UInt8 → Vector (BitVec w) n) (m : List UInt8) :
    List UInt8 :=
  ((absorb S.blockBytes transform S.iv (S.pad m)).toList.flatMap fun x =>
    S.numBytes (w / 8) x.toNat).take S.size

end Standard

namespace HashAlg

/-- RFC 1321 for MD5, RFC 3174 for SHA-1, FIPS 180-4 for SHA-2. -/
def standard : (a : HashAlg) → Standard a.cls.w a.cls.stateLen
  | md5 => { blockBytes := 64, lenBytes := 8, order := .little, size := 16
             iv := #v[0x67452301, 0xefcdab89, 0x98badcfe, 0x10325476] }
  | sha1 => { blockBytes := 64, lenBytes := 8, order := .big, size := 20
              iv := #v[0x67452301, 0xefcdab89, 0x98badcfe, 0x10325476, 0xc3d2e1f0] }
  | sha224 => { blockBytes := 64, lenBytes := 8, order := .big, size := 28
                iv := #v[0xc1059ed8, 0x367cd507, 0x3070dd17, 0xf70e5939, 0xffc00b31, 0x68581511,
                  0x64f98fa7, 0xbefa4fa4] }
  | sha256 => { blockBytes := 64, lenBytes := 8, order := .big, size := 32
                iv := #v[0x6a09e667, 0xbb67ae85, 0x3c6ef372, 0xa54ff53a, 0x510e527f, 0x9b05688c,
                  0x1f83d9ab, 0x5be0cd19] }
  | sha384 => { blockBytes := 128, lenBytes := 16, order := .big, size := 48
                iv := #v[0xcbbb9d5dc1059ed8, 0x629a292a367cd507, 0x9159015a3070dd17,
                  0x152fecd8f70e5939,
                  0x67332667ffc00b31, 0x8eb44a8768581511, 0xdb0c2e0d64f98fa7, 0x47b5481dbefa4fa4] }
  | sha512 => { blockBytes := 128, lenBytes := 16, order := .big, size := 64
                iv := #v[0x6a09e667f3bcc908, 0xbb67ae8584caa73b, 0x3c6ef372fe94f82b,
                  0xa54ff53a5f1d36f1,
                  0x510e527fade682d1, 0x9b05688c2b3e6c1f, 0x1f83d9abfb41bd6b, 0x5be0cd19137e2179] }

/-- The digest the standard of `a` gives `m`, under the class's own block transform. -/
def digest (a : HashAlg) (m : List UInt8) : List UInt8 := a.standard.digest a.cls.transform m

/-- The class's constants are the standard's. -/
theorem standard_eq (a : HashAlg) : a.standard =
    { blockBytes := a.cls.blockLen, lenBytes := a.cls.w / 4, order := a.cls.order
      iv := a.cls.initState, size := a.cls.hashSize } := by
  cases a <;> rfl

end HashAlg

/-! ## Words and counters as bytes

  The digest and the length field, in the byte order of the standard. -/

/-- The bytes of a word, the lowest first. -/
theorem wordBytes_little {w : Nat} (x : BitVec w) :
    wordBytes .little x = leBytes (w / 8) x.toNat := by
  refine List.ext_getElem (by simp [wordBytes]) fun j h1 h2 => ?_
  rw [getElem_leBytes]
  simp only [wordBytes, List.getElem_map, List.getElem_range, BitVec.toNat_ushiftRight]
  rw [Nat.shiftRight_eq_div_pow, Nat.pow_mul]

/-- And the highest first. -/
theorem wordBytes_big {w : Nat} (hw : w % 8 = 0) (x : BitVec w) :
    wordBytes .big x = beBytes (w / 8) x.toNat := by
  refine List.ext_getElem (by simp [wordBytes]) fun j h1 h2 => ?_
  have hj : j < w / 8 := by simpa [wordBytes] using h1
  simp only [beBytes, wordBytes, List.getElem_map, List.getElem_range, List.getElem_reverse,
    BitVec.toNat_ushiftRight, getElem_leBytes, leBytes_length]
  rw [Nat.shiftRight_eq_div_pow, show w - 8 - 8 * j = 8 * (w / 8 - 1 - j) from by
    omega, Nat.pow_mul]

namespace Standard

variable {w n : Nat} (S : Standard w n)

/-- A number is written with as many bytes as asked. -/
@[simp] theorem numBytes_length (k x : Nat) : (S.numBytes k x).length = k := by
  rw [numBytes]; split <;> simp

/-- The bytes of a word are those of its number. -/
theorem wordBytes_eq (hw : w % 8 = 0) (x : BitVec w) :
    wordBytes S.order x = S.numBytes (w / 8) x.toNat := by
  rw [numBytes]
  cases S.order with
  | little => exact wordBytes_little x
  | big => exact wordBytes_big hw x

/-- The two counter words are the bytes of the number they hold together. -/
theorem countBytes_eq (hw : w % 8 = 0) (c0 c1 : BitVec w) :
    countBytes S.order c0 c1 = S.numBytes (w / 8 + w / 8) (c1.toNat * 2 ^ w + c0.toNat) := by
  have h256 : 256 ^ (w / 8) = 2 ^ w := by
    rw [show (256 : Nat) = 2 ^ 8 from rfl, ← Nat.pow_mul]; congr 1; omega
  have hle : leBytes (w / 8 + w / 8) (c1.toNat * 2 ^ w + c0.toNat)
      = leBytes (w / 8) c0.toNat ++ leBytes (w / 8) c1.toNat := by
    rw [leBytes_add, h256, ← leBytes_mod (w / 8) (c1.toNat * 2 ^ w + c0.toNat), h256,
      Nat.mul_add_mod_self_right,
      Nat.mod_eq_of_lt c0.isLt, Nat.mul_comm, Nat.mul_add_div (Nat.two_pow_pos w),
      Nat.div_eq_of_lt c0.isLt, Nat.add_zero]
  rw [numBytes]
  cases S.order with
  | little => simp only [countBytes, wordBytes_little, hle]
  | big => simp only [countBytes, wordBytes_big hw, beBytes, hle, List.reverse_append]

/-- What does not fit is not written. -/
theorem numBytes_mod (k x : Nat) : S.numBytes k (x % 256 ^ k) = S.numBytes k x := by
  rw [numBytes, numBytes, beBytes, beBytes, leBytes_mod]

end Standard

/-- Taking whole pieces of equal length. -/
theorem take_flatMap {α : Type} {g : α → List UInt8} {k : Nat} (hg : ∀ x, (g x).length = k) :
    ∀ (q : Nat) (l : List α), (l.take q).flatMap g = (l.flatMap g).take (q * k)
  | 0, _ => by simp
  | q + 1, [] => by simp
  | q + 1, x :: l => by
      rw [List.take_succ_cons, List.flatMap_cons, List.flatMap_cons, take_flatMap hg q l,
        Nat.add_mul, Nat.one_mul,
        Nat.add_comm (q * k), ← hg x, List.take_length_add_append]

/-! ## `finalXxx`

  The padding goes through the same update as the message, so the object afterwards `Holds` the
  padded message, which has whole blocks only. -/

namespace HashObj

/-- `final` on an object that holds a message gives its digest. -/
theorem final_digest (a : HashAlg) {o : HashObj a.cls} {m : List UInt8} (h : o.Holds m) :
    ∃ o', o.final = .ok (o', a.digest m) := by
  have hB := a.cls.blockLen_pos
  have hS := a.standard_eq
  have hidx : m.length % a.cls.blockLen < a.cls.blockLen := Nat.mod_lt _ hB
  have hw8 : a.cls.w % 8 = 0 := by rcases a.cls.width with ⟨hw, -⟩ | ⟨hw, -⟩ <;> omega
  have hlen8 : a.cls.w / 4 = a.cls.w / 8 + a.cls.w / 8 := by omega
  -- the padding that is read, and the length field
  generalize hp : padLen a.cls (m.length % a.cls.blockLen) = p
  have hp1 : 1 ≤ p ∧ p ≤ a.cls.blockLen ∧ p - 1 = a.standard.zeros m.length := by
    rw [hS]; simp only [Standard.zeros, ← hp, padLen]
    rcases a.cls.width with ⟨hw, hb, hl⟩ | ⟨hw, hb, hl⟩ <;> rw [hw, hb, hl] <;> split <;> omega
  have htake : (padding a.cls).take p = 0x80 :: List.replicate (a.standard.zeros m.length) 0 := by
    obtain ⟨k, rfl⟩ := Nat.exists_eq_add_of_le' hp1.1
    rw [padding, List.take_succ_cons, List.take_replicate, ← hp1.2.2]
    congr 2; omega
  have hbits : countBytes a.cls.order o.mCount0 o.mCount1
      = a.standard.numBytes a.standard.lenBytes (8 * m.length) := by
    have ho : a.cls.order = a.standard.order := by rw [hS]
    have hl : a.standard.lenBytes = a.cls.w / 8 + a.cls.w / 8 := by rw [hS]; exact hlen8
    have hmod : 2 ^ (2 * a.cls.w) = 256 ^ (a.cls.w / 8 + a.cls.w / 8) := by
      rw [show (256 : Nat) = 2 ^ 8 from rfl, ← Nat.pow_mul]; congr 1; omega
    rw [ho, a.standard.countBytes_eq hw8, h.count, hmod, a.standard.numBytes_mod, hl]
  have hlb : (countBytes a.cls.order o.mCount0 o.mCount1).length < 100 := by
    rw [hbits, Standard.numBytes_length, hS]
    rcases a.cls.width with ⟨hw, -⟩ | ⟨hw, -⟩ <;> (show a.cls.w / 4 < 100; omega)
  have hBle : a.cls.blockLen ≤ 128 := by rcases a.cls.blockLen_eq with h | h <;> omega
  have hpl : ((padding a.cls).take p).length = p := by
    rw [htake, List.length_cons, List.length_replicate]; omega
  -- the two updates
  obtain ⟨o1, ho1, h1⟩ := update_holds h ((padding a.cls).take p) (by omega) (by omega)
  obtain ⟨o2, ho2, h2⟩ := update_holds h1 (countBytes a.cls.order o.mCount0 o.mCount1) (by omega)
    (by have := Nat.mod_lt (m ++ (padding a.cls).take p).length hB; omega)
  refine ⟨o2, ?_⟩
  rw [final, index_eq h, hp]
  simp only [ho1, ho2, Run.ok_bind]
  congr 2
  have hpad :
    m ++ (padding a.cls).take p ++ countBytes a.cls.order o.mCount0 o.mCount1 =
      a.standard.pad m := by
    rw [htake, hbits, Standard.pad, List.append_assoc, List.cons_append]
  have hst :
    o2.mState = absorb a.standard.blockBytes a.cls.transform a.standard.iv (a.standard.pad m) := by
    rw [h2.state, hpad, hS]
  have ho :
    wordBytes a.cls.order =
      fun x : BitVec a.cls.w => a.standard.numBytes (a.cls.w / 8) x.toNat := by
    funext x; rw [← a.standard.wordBytes_eq hw8]; rw [hS]
  have hsz : a.cls.hashSize / (a.cls.w / 8) * (a.cls.w / 8) = a.standard.size := by
    have := Nat.div_add_mod' a.cls.hashSize (a.cls.w / 8)
    rw [a.cls.hashSize_words, Nat.add_zero] at this
    rw [this, hS]
  rw [digestBytes, HashAlg.digest, Standard.digest, ← hst, ho,
    take_flatMap (fun x => a.standard.numBytes_length _ _), hsz]

/-- The first chunk of a message, whatever the object went through before. -/
theorem initHash_calcHash {C : HashClass} (o : HashObj C) (c : Chunk) :
    ∃ o', o.initHash.calcHash c = .ok o' ∧ o'.Holds c.bytes := by
  have hfits : ([] : List UInt8).length % C.blockLen + c.bytes.length < 2 ^ 32 := by
    rw [List.length_nil, Nat.zero_mod, Nat.zero_add]
    exact c.len_lt
  obtain ⟨o', ho', h'⟩ := update_holds (initHash_holds o) c.bytes c.len_lt hfits
  exact ⟨o', ho', h'⟩

/-- The last chunk of a message. -/
theorem calcHashFinal_digest (a : HashAlg) {o : HashObj a.cls} {m : List UInt8} (h : o.Holds m)
    (c : Chunk)
    (hf : m.length % a.cls.blockLen + c.len < 2 ^ 32) :
    ∃ o' : HashObj a.cls, o.calcHashFinal c = .ok (o'.initHash, a.digest (m ++ c.bytes)) := by
  obtain ⟨o1, ho1, h1⟩ := update_holds h c.bytes c.len_lt hf
  obtain ⟨o2, ho2⟩ := final_digest a h1
  refine ⟨o2, ?_⟩
  rw [calcHashFinal, ho1, Run.ok_bind, ho2, Run.ok_bind]

/-! ## Chunk by chunk

  The bound of one update is on the buffered bytes and the length of the chunk, hence on where the
  message stands when the chunk comes. -/

/-- No chunk of the list makes the block loop wrap, the first one meeting `n` bytes. -/
def Fits (B : Nat) : Nat → List Chunk → Prop
  | _, [] => True
  | n, c :: cs => n % B + c.len < 2 ^ 32 ∧ Fits B (n + c.len) cs

/-- `calcHash(chunk_1, NULL); calcHash(chunk_2, NULL); …` -/
def calcChunks {C : HashClass} (o : HashObj C) : List Chunk → Run (HashObj C)
  | [] => .ok o
  | c :: cs => do
      let o ← o.calcHash c
      o.calcChunks cs

/-- The bytes of the chunks. -/
def concat (cs : List Chunk) : List UInt8 := cs.flatMap Chunk.bytes

/-- The bytes of one chunk more. -/
@[simp] theorem concat_cons (c : Chunk) (cs : List Chunk) :
    concat (c :: cs) = c.bytes ++ concat cs := rfl

/-- The chunks are taken one after the other. By induction on the chunks, with the message so
    far. -/
theorem calcChunks_holds {C : HashClass} : ∀ (cs : List Chunk) {o : HashObj C} {m : List UInt8},
    o.Holds m →
    Fits C.blockLen m.length cs → ∃ o', o.calcChunks cs = .ok o' ∧ o'.Holds (m ++ concat cs) := by
  intro cs
  induction cs with
  | nil =>
    intro o m h _
    refine ⟨o, rfl, ?_⟩
    rw [show concat [] = [] from rfl, List.append_nil]
    exact h
  | cons c cs ih =>
    intro o m h hf
    obtain ⟨o1, ho1, h1⟩ := update_holds h c.bytes c.len_lt hf.1
    obtain ⟨o2, ho2, h2⟩ := ih h1 (by rw [List.length_append]; exact hf.2)
    refine ⟨o2, ?_, ?_⟩
    · rw [calcChunks, calcHash, ho1]
      exact ho2
    · rw [concat_cons, ← List.append_assoc]
      exact h2

/-- Chunks below `2^32 - 128` bytes fit wherever they come. -/
theorem fits_of_short {B : Nat} (hB : B = 64 ∨ B = 128) : ∀ (cs : List Chunk) (n : Nat),
    (∀ c ∈ cs, c.len < 2 ^ 32 - 128) → Fits B n cs := by
  intro cs
  induction cs with
  | nil =>
    intro n _
    trivial
  | cons c cs ih =>
    intro n h
    constructor
    · have := h c (List.mem_cons_self ..)
      rcases hB with rfl | rfl <;> omega
    · exact ih _ fun d hd => h d (List.mem_cons_of_mem c hd)

/-! ## Messages on one object

  `calcHash` ends with `initHash` where it finishes a digest, so the next message begins anew. -/

/-- A message as it is handed over: chunks without a digest, and the chunk the digest is asked
    with. -/
structure Message where
  chunks : List Chunk
  last : Chunk

namespace Message

def pieces (m : Message) : List Chunk := m.chunks ++ [m.last]

def text (m : Message) : List UInt8 := concat m.pieces

end Message

/-- The calls for one message: all chunks but the last are appended. -/
def calcMessage {C : HashClass} (o : HashObj C) (m : Message) : Run (HashObj C × List UInt8) := do
  let o ← o.calcChunks m.chunks
  o.calcHashFinal m.last

/-- One message after the other on the same object: the digests in order. -/
def calcMessages {C : HashClass} (o : HashObj C) :
    List Message → Run (HashObj C × List (List UInt8))
  | [] => .ok (o, [])
  | m :: ms => do
      let (o, d) ← o.calcMessage m
      let (o, ds) ← o.calcMessages ms
      .ok (o, d :: ds)

/-- Chunks fit when the first do and the rest fit behind them. -/
theorem fits_append {B : Nat} : ∀ (cs ds : List Chunk) (n : Nat),
    Fits B n (cs ++ ds) ↔ Fits B n cs ∧ Fits B (n + (concat cs).length) ds := by
  intro cs
  induction cs with
  | nil =>
    intro ds n
    simp [Fits, concat]
  | cons c cs ih =>
    intro ds n
    rw [List.cons_append, Fits, Fits, ih ds, concat_cons, List.length_append, ← Nat.add_assoc,
      and_assoc]
    rfl

/-- **One message**: from an object that holds `m0`, the digest of `m0` and the message's text; the
    object holds nothing afterwards. -/
theorem calcMessage_digest (a : HashAlg) {o : HashObj a.cls} {m0 : List UInt8} (h : o.Holds m0)
    (m : Message)
    (hf : Fits a.cls.blockLen m0.length m.pieces) :
    ∃ o', o.calcMessage m = .ok (o', a.digest (m0 ++ m.text)) ∧ o'.Holds [] ∧
      o'.mState = a.standard.iv ∧ o'.mCount0 = 0 ∧ o'.mCount1 = 0 := by
  rw [Message.pieces, fits_append] at hf
  obtain ⟨o1, ho1, h1⟩ := calcChunks_holds m.chunks h hf.1
  obtain ⟨o2, ho2⟩ := calcHashFinal_digest a h1 m.last (by rw [List.length_append]; exact hf.2.1)
  have htext : m0 ++ concat m.chunks ++ m.last.bytes = m0 ++ m.text := by
    simp [Message.text, Message.pieces, concat]
  refine ⟨o2.initHash, ?_, initHash_holds o2, by rw [a.standard_eq]; rfl, rfl, rfl⟩
  rw [calcMessage, ho1, Run.ok_bind, ho2, htext]

/-- **Headline.**  Whatever the messages and however they are cut, every digest is the standard's
    digest of its own message, and the object ends in its initial chaining state. -/
theorem calcMessages_digest (a : HashAlg) (heap : Nat → UInt8) (ms : List Message)
    (hlen : ∀ m ∈ ms, ∀ c ∈ m.pieces, c.len < 2 ^ 32 - 128) :
    ∃ o', (new a.cls heap).calcMessages ms = .ok (o', ms.map fun m => a.digest m.text) ∧
      o'.mState = a.standard.iv ∧ o'.mCount0 = 0 ∧ o'.mCount1 = 0 := by
  suffices h : ∀ (ms : List Message) (o : HashObj a.cls), o.Holds [] →
      o.mState = a.standard.iv ∧ o.mCount0 = 0 ∧ o.mCount1 = 0 →
      (∀ m ∈ ms, ∀ c ∈ m.pieces, c.len < 2 ^ 32 - 128) →
      ∃ o', o.calcMessages ms = .ok (o', ms.map fun m => a.digest m.text) ∧
        o'.mState = a.standard.iv ∧ o'.mCount0 = 0 ∧ o'.mCount1 = 0 from
    h ms _ (new_holds _ heap) ⟨by rw [a.standard_eq]; rfl, rfl, rfl⟩ hlen
  intro ms
  induction ms with
  | nil => intro o _ hinit _; exact ⟨o, rfl, hinit⟩
  | cons m ms ih =>
    intro o ho _ hlen
    obtain ⟨o1, ho1, h1, hinit1⟩ := calcMessage_digest a ho m
      (fits_of_short a.cls.blockLen_eq _ _ (hlen m (List.mem_cons_self ..)))
    obtain ⟨o2, ho2, hinit2⟩ := ih o1 h1 hinit1 fun m' hm' => hlen m' (List.mem_cons_of_mem m hm')
    refine ⟨o2, ?_, hinit2⟩
    rw [calcMessages, ho1]
    simp only [Run.ok_bind, ho2, List.nil_append, List.map_cons]

/-- `ab` in three chunks, then the empty message. -/
theorem calcMessages_digest_ab :
    ∃ o', (new HashAlg.md5.cls fun _ => 0).calcMessages
        [⟨[⟨[0x61], by decide⟩, .empty], ⟨[0x62], by decide⟩⟩, ⟨[], .empty⟩] =
          .ok (o', [HashAlg.digest .md5 [0x61, 0x62], HashAlg.digest .md5 []]) ∧
      o'.mState = (HashAlg.standard .md5).iv ∧ o'.mCount0 = 0 ∧ o'.mCount1 = 0 :=
  calcMessages_digest .md5 (fun _ => 0) [⟨[⟨[0x61], by decide⟩, .empty], ⟨[0x62], by decide⟩⟩,
    ⟨[], .empty⟩]
    (by decide)

-- RFC 1321, A.5
example :
    HashAlg.digest .md5 [] = [0xd4, 0x1d, 0x8c, 0xd9, 0x8f, 0x00, 0xb2, 0x04, 0xe9, 0x80,
      0x09, 0x98,
    0xec, 0xf8, 0x42, 0x7e] := by decide +kernel

end HashObj

end StevenProgram
