/-
  The SHA-2 classes compute the digests of FIPS 180-4.

  1. **Words and functions** — the shifted bytes are the word of the block (`word32_eq`,
     `word64_eq`), the macros are the functions (`Agrees`).
  2. **The constants** — the tables are the bits of the roots (`table_eq`, `initState_eq`), checked
     entry by entry on integers.
  3. **The transform** — the table `W` is the schedule (`schedule_eq`), a turn of the loop is a
     step: `transformSha2_compress`.
  4. **Digests** — with the streaming of `Hash.Digest`, `sha2_messages`.
-/
import StevenProgram.Lib.Fips180Sha2
import StevenProgram.Hash.Digest

namespace StevenProgram

namespace Sha2

open Fips180.Sha2 (Params words32 words64)

variable {w : Nat}

/-! ## Words and functions

  The two widths share one text, and so do the lemmas about it. -/

/-- One more byte at the low end. -/
theorem shift_byte (n : Nat) (b : UInt8) :
    (BitVec.ofNat w n <<< 8) ||| BitVec.ofNat w b.toNat = BitVec.ofNat w (256 * n + b.toNat) := by
  have hb : b.toNat < 2 ^ 8 := b.toNat_lt
  have hdisjoint : (BitVec.ofNat w n <<< 8) &&& BitVec.ofNat w b.toNat = 0#w := by
    apply BitVec.eq_of_getLsbD_eq
    intro i hi
    simp only [BitVec.getLsbD_and, BitVec.getLsbD_shiftLeft, BitVec.getLsbD_ofNat]
    rcases Nat.lt_or_ge i 8 with h8 | h8
    · simp [h8]
    · rw [Nat.testBit_lt_two_pow (Nat.lt_of_lt_of_le hb (Nat.pow_le_pow_right (by decide) h8))]
      simp
  rw [← BitVec.add_eq_or_of_and_eq_zero _ _ hdisjoint]
  refine BitVec.eq_of_toNat_eq ?_
  simp only [BitVec.toNat_add, BitVec.toNat_shiftLeft, BitVec.toNat_ofNat, Nat.shiftLeft_eq]
  rw [Nat.mul_comm 256, show 256 = 2 ^ 8 from rfl]
  simp [Nat.add_mod, Nat.mul_mod]

/-- Bytes joined by shifts are a big-endian number. -/
theorem join_bytes (l : List UInt8) :
    l.foldl (fun (x : BitVec w) b => (x <<< 8) ||| BitVec.ofNat w b.toNat) (0#w) = BitVec.ofNat w
      (Bytes.beNat l) := by
  have hfold :
    ∀ n, l.foldl (fun (x : BitVec w) b => (x <<< 8) ||| BitVec.ofNat w b.toNat) (BitVec.ofNat w n) =
      BitVec.ofNat w (l.foldl (fun acc b => 256 * acc + b.toNat) n) := by
    induction l with
    | nil => intro n; rfl
    | cons b l ih =>
      intro n
      rw [List.foldl_cons, List.foldl_cons, shift_byte, ih]
  exact hfold 0

/-- Bytes of a block, by their places. -/
theorem drop_take_bytes {block : List UInt8} {p n : Nat} (h : p + n ≤ block.length) :
    (block.drop p).take n = (List.range n).map fun j => block.getD (p + j) 0 := by
  refine List.ext_getElem (by simp; omega) fun j h1 h2 => ?_
  simp only [List.length_take, List.length_drop] at h1
  simp [List.getElem?_eq_getElem (show p + j < block.length by omega)]

/-- A word of 32 bits of the block. -/
theorem word32_eq {block : List UInt8} (hlen : block.length = 64) {t : Nat} (ht : t < 16) :
    word32 block t = Fips180.Sha2.M 32 block t := by
  rw [Fips180.Sha2.M, ← join_bytes, drop_take_bytes (by omega)]
  simp [List.range_succ, word32, byteAt, BitVec.shiftLeft_or_distrib, ← BitVec.shiftLeft_add]

/-- A word of 64 bits of the block. -/
theorem word64_eq {block : List UInt8} (hlen : block.length = 128) {t : Nat} (ht : t < 16) :
    word64 block t = Fips180.Sha2.M 64 block t := by
  rw [Fips180.Sha2.M, ← join_bytes, drop_take_bytes (by omega)]
  simp [List.range_succ, word64, byteAt, BitVec.shiftLeft_or_distrib, ← BitVec.shiftLeft_add]

/-- `ROTR` rotates. -/
theorem ROTR_eq (x : BitVec w) {n : Nat} (h : n < w) : ROTR n x = x.rotateRight n := by
  rw [ROTR, BitVec.rotateRight_def, Nat.mod_eq_of_lt h]

/-! ## The constants

  The standard takes them from the fractional parts of roots of primes.  A bit of such a root is an
  inequality between integers, so the tables can be checked without real numbers. -/

/-- The tables of constants are cube roots of primes. -/
theorem K_table : PrimeRoots.IsTable 3 0 sha256_K ∧ PrimeRoots.IsTable 3 0 sha512_K := by
  decide +kernel

/-- A table that starts with the first prime, as a list of what it is. -/
theorem table_eq {K : List (BitVec w)} (h : PrimeRoots.IsTable 3 0 K) :
    K = (List.range K.length).map (Fips180.Sha2.K w) := by
  refine List.ext_getElem (by simp) fun t h1 h2 => ?_
  have hget := h.get h1
  rw [Nat.zero_add, List.getD_eq_getElem?_getD, List.getElem?_eq_getElem h1] at hget
  rw [List.getElem_map, List.getElem_range]
  exact hget

/-- A table of square roots is that of the standard. -/
theorem roots_eq {t : Nat} {v : Vector (BitVec w) 8} (h : PrimeRoots.IsTable 2 t v.toList) :
    v = Fips180.Sha2.roots w t := by
  refine Vector.ext fun i hi => ?_
  have hget := h.get (i := i) (by simpa using hi)
  rw [List.getD_eq_getElem?_getD, List.getElem?_eq_getElem (by simpa using hi)] at hget
  simpa [Fips180.Sha2.roots] using hget

/-- The initial values of the classes are square roots. -/
theorem initState_eq :
    @Eq (Vector u32 8) HashSha224.initState ((Fips180.Sha2.roots 64 8).map (BitVec.setWidth 32)) ∧
    @Eq (Vector u32 8) HashSha256.initState (Fips180.Sha2.roots 32 0) ∧
    @Eq (Vector u64 8) HashSha384.initState (Fips180.Sha2.roots 64 8) ∧
    @Eq (Vector u64 8) HashSha512.initState (Fips180.Sha2.roots 64 0) := by
  have h384 : @Eq (Vector u64 8) HashSha384.initState (Fips180.Sha2.roots 64 8) :=
    roots_eq (by decide +kernel)
  refine ⟨?_, roots_eq (by decide +kernel), h384, roots_eq (by decide +kernel)⟩
  rw [← h384]
  have hlow :
    HashSha224.initState.toList = HashSha384.initState.toList.map (BitVec.setWidth HashSha224.w) :=
    by decide +kernel
  exact Vector.toList_inj.mp (hlow.trans Vector.toList_map.symm)

/-! ## The transform

  The table `W` is filled first; a turn of the loop reads one entry of it and one constant. -/

/-- The text of one word size computes with the functions and constants of the standard. -/
structure Agrees (X : Sha2Macros w) (P : Params w) : Prop where
  BSIG0 : ∀ x, X.BSIG0 x = Fips180.Sha2.Sigma P.Sigma0 x
  BSIG1 : ∀ x, X.BSIG1 x = Fips180.Sha2.Sigma P.Sigma1 x
  SSIG0 : ∀ x, X.SSIG0 x = Fips180.Sha2.sigma P.sigma0 x
  SSIG1 : ∀ x, X.SSIG1 x = Fips180.Sha2.sigma P.sigma1 x
  K : X.K = (List.range P.rounds).map (Fips180.Sha2.K w)
  rounds : 16 ≤ P.rounds
  word : ∀ {block : List UInt8} {t : Nat}, block.length = 2 * w → t < 16 →
    X.word block t = Fips180.Sha2.M w block t

/-- The macros of the 32-bit versions. -/
theorem agrees32 : Agrees macros32 words32 where
  BSIG0 x := by simp [macros32, words32, Fips180.Sha2.Sigma, ROTR_eq]
  BSIG1 x := by simp [macros32, words32, Fips180.Sha2.Sigma, ROTR_eq]
  SSIG0 x := by simp [macros32, words32, Fips180.Sha2.sigma, ROTR_eq, SHR]
  SSIG1 x := by simp [macros32, words32, Fips180.Sha2.sigma, ROTR_eq, SHR]
  K := table_eq K_table.1
  rounds := by decide
  word hlen ht := word32_eq hlen ht

/-- And those of the 64-bit ones. -/
theorem agrees64 : Agrees macros64 words64 where
  BSIG0 x := by simp [macros64, words64, Fips180.Sha2.Sigma, ROTR_eq]
  BSIG1 x := by simp [macros64, words64, Fips180.Sha2.Sigma, ROTR_eq]
  SSIG0 x := by simp [macros64, words64, Fips180.Sha2.sigma, ROTR_eq, SHR]
  SSIG1 x := by simp [macros64, words64, Fips180.Sha2.sigma, ROTR_eq, SHR]
  K := table_eq K_table.2
  rounds := by decide
  word hlen ht := word64_eq hlen ht

section Transform

variable {X : Sha2Macros w} {P : Params w} {block : List UInt8}

/-- The table `W`, from the words that are there. -/
theorem schedule_eq (h : Agrees X P) (n : Nat) {k : Nat} (hk : 16 ≤ k) :
    schedule X n ((List.range k).map (Fips180.Sha2.W P block)) = (List.range (k + n)).map
      (Fips180.Sha2.W P block) := by
  induction n generalizing k with
  | zero => rfl
  | succ n ih =>
    have hget :
      ∀ j, 0 < j → j ≤ k → ((List.range k).map (Fips180.Sha2.W P block)).getD (k - j) 0 =
      Fips180.Sha2.W P block (k - j) := by
      intro j hj hjk
      rw [List.getD_eq_getElem?_getD, List.getElem?_map, List.getElem?_range (by omega)]
      rfl
    rw [schedule, List.length_map, List.length_range, hget 2 (by decide) (by omega),
      hget 7 (by decide) (by omega), hget 15 (by decide) (by omega),
      hget 16 (by decide) (by omega), h.SSIG0, h.SSIG1, ← Fips180.Sha2.W_next hk,
        ← List.map_singleton, ← List.map_append, ← List.range_succ,
      ih (Nat.le_succ_of_le hk), Nat.succ_add_eq_add_succ]

/-- The working variables under the names of the standard. -/
def Vars.named (v : Vars w) : Fips180.Sha2.Regs w := ⟨v.a, v.b, v.c, v.d, v.e, v.f, v.g, v.h⟩

/-- The variables begin with the state. -/
theorem loadVars_named (mState : Vector (BitVec w) 8) :
    (loadVars mState).named = Fips180.Sha2.load mState := by
  simp [loadVars, Vars.named, Fips180.Sha2.load, Vector.getD]

/-- A round is one of the standard. -/
theorem round_eq (h : Agrees X P) (v : Vars w) (W : Nat → BitVec w) (t : Nat) :
    (round X v (Fips180.Sha2.K w t, W t)).named = Fips180.Sha2.step P W v.named t := by
  simp only [round, h.BSIG0, h.BSIG1]
  rfl

/-- **And so are rounds one after the other**, by induction on them. -/
theorem rounds_eq (h : Agrees X P) (W : Nat → BitVec w) (ts : List Nat) (v : Vars w) :
    (((ts.map fun t => (Fips180.Sha2.K w t, W t)).foldl (round X) v)).named = ts.foldl
      (Fips180.Sha2.step P W) v.named := by
  induction ts generalizing v with
  | nil => rfl
  | cons t ts ih =>
    rw [List.map_cons, List.foldl_cons, List.foldl_cons, ih, round_eq h]

/-- **SHA-2 compresses a block as FIPS 180-4 says**, at both word sizes. -/
theorem transformSha2_compress (h : Agrees X P) (hlen : block.length = 2 * w)
    (mState : Vector (BitVec w) 8) :
    transformSha2 X mState block = Fips180.Sha2.compress P mState block := by
  have hblock :
    (List.range 16).map (X.word block) = (List.range 16).map (Fips180.Sha2.W P block) := by
    refine List.map_congr_left fun t ht => ?_
    have ht := List.mem_range.mp ht
    rw [h.word hlen ht, Fips180.Sha2.W_block ht]
  have hrounds : X.K.length = P.rounds := by rw [h.K, List.length_map, List.length_range]
  have hzip : X.K.zip ((List.range (16 + (P.rounds - 16))).map (Fips180.Sha2.W P block)) =
      (List.range P.rounds).map fun t => (Fips180.Sha2.K w t, Fips180.Sha2.W P block t) := by
    rw [h.K, Nat.add_sub_cancel' h.rounds, List.zip_map']
  rw [transformSha2, hblock, hrounds, schedule_eq h _ (Nat.le_refl 16), hzip]
  rw [Fips180.Sha2.compress, ← loadVars_named, ← rounds_eq h]
  rfl

end Transform

/-! ## Digests

  Nothing is left to prove but that each class carries its own standard. -/

section Digests

variable {X : Sha2Macros w} {P : Params w}

/-- A digest of the class's transform is one of the standard's. -/
theorem digest_eq (h : Agrees X P) (hw : w = 32 ∨ w = 64) {S : Standard w 8}
    (hblock : S.blockBytes = 2 * w) (hlen : S.lenBytes = w / 4)
    (horder : S.order = .big) (m : List UInt8) :
    S.digest (transformSha2 X) m = Fips180.Sha2.hash P S.iv S.size m := by
  have hzeros : S.zeros m.length = Fips180.Sha2.zeros w m.length := by
    rw [Standard.zeros, Fips180.Sha2.zeros, hblock, hlen]
    rcases hw with rfl | rfl <;> omega
  have hnum : S.numBytes = Bytes.beBytes := by
    funext k x
    rw [Standard.numBytes, horder]
  have hpad : S.pad m = Fips180.Sha2.pad w m := by
    rw [Standard.pad, Fips180.Sha2.pad, hzeros, hnum, hlen]
  rw [Standard.digest, Fips180.Sha2.hash, hpad, hnum, hblock,
    BlockFold.absorb_congr (fun s b hb => transformSha2_compress h hb s)]

end Digests

/-- The class of an algorithm. -/
def alg : Fips180.Sha2.Alg → HashAlg
  | .sha224 => .sha224
  | .sha256 => .sha256
  | .sha384 => .sha384
  | .sha512 => .sha512

/-- The digest of a version is that of the standard. -/
theorem alg_digest (v : Fips180.Sha2.Alg) (m : List UInt8) : (alg v).digest m = v.hash m := by
  obtain ⟨h224, h256, h384, h512⟩ := initState_eq
  cases v with
  | sha224 =>
    refine (digest_eq (w := 32) (S := HashAlg.standard .sha224) agrees32
      (.inl rfl) rfl rfl rfl m).trans ?_
    exact congrArg (fun iv => Fips180.Sha2.hash words32 iv 28 m) h224
  | sha256 =>
    refine (digest_eq (w := 32) (S := HashAlg.standard .sha256) agrees32
      (.inl rfl) rfl rfl rfl m).trans ?_
    exact congrArg (fun iv => Fips180.Sha2.hash words32 iv 32 m) h256
  | sha384 =>
    refine (digest_eq (w := 64) (S := HashAlg.standard .sha384) agrees64
      (.inr rfl) rfl rfl rfl m).trans ?_
    exact congrArg (fun iv => Fips180.Sha2.hash words64 iv 48 m) h384
  | sha512 =>
    refine (digest_eq (w := 64) (S := HashAlg.standard .sha512) agrees64
      (.inr rfl) rfl rfl rfl m).trans ?_
    exact congrArg (fun iv => Fips180.Sha2.hash words64 iv 64 m) h512

/-- **Any SHA-2 object, any messages in any chunks**: each digest is the one of FIPS 180-4. -/
theorem sha2_messages (v : Fips180.Sha2.Alg) (heap : Nat → UInt8) (ms : List HashObj.Message)
    (hlen : ∀ m ∈ ms, ∀ c ∈ m.pieces, c.len < 2 ^ 32 - 128) :
    ∃ o', (HashObj.new (alg v).cls heap).calcMessages ms = .ok (o', ms.map fun m => v.hash m.text) ∧
    o'.Holds [] := by
  suffices h : ∀ (ms : List HashObj.Message) (o : HashObj (alg v).cls), o.Holds [] →
      (∀ m ∈ ms, ∀ c ∈ m.pieces, c.len < 2 ^ 32 - 128) →
      ∃ o', o.calcMessages ms = .ok (o', ms.map fun m => v.hash m.text) ∧ o'.Holds [] from
    h ms _ (HashObj.new_holds _ heap) hlen
  intro ms
  induction ms with
  | nil => intro o ho _; exact ⟨o, rfl, ho⟩
  | cons m ms ih =>
    intro o ho hlen
    obtain ⟨o1, ho1, h1, -⟩ := HashObj.calcMessage_digest (alg v) ho m
      (HashObj.fits_of_short (alg v).cls.blockLen_eq _ _ (hlen m (List.mem_cons_self ..)))
    obtain ⟨o2, ho2, h2⟩ := ih o1 h1 fun m' hm' => hlen m' (List.mem_cons_of_mem m hm')
    refine ⟨o2, ?_, h2⟩
    rw [HashObj.calcMessages, ho1]
    simp only [Run.ok_bind, ho2, List.nil_append, List.map_cons, alg_digest]

/-- `abc` in two chunks. -/
theorem sha2_messages_abc :
    ∃ o', (HashObj.new (alg .sha256).cls fun _ => 0).calcMessages
      [⟨[⟨[0x61], by decide⟩], ⟨[0x62, 0x63], by decide⟩⟩] =
    .ok (o', [Fips180.Sha2.Alg.hash .sha256 [0x61, 0x62, 0x63]]) ∧ o'.Holds [] :=
  sha2_messages .sha256 (fun _ => 0) [⟨[⟨[0x61], by decide⟩], ⟨[0x62, 0x63], by decide⟩⟩]
    (by decide)

end Sha2

end StevenProgram
