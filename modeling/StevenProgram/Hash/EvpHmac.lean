/-
  `EvpHmac`: HMAC through OpenSSL (`evpHmac.cpp`), compared with `HashHmac`.

  The two classes offer the same calls, but start the next message differently: `HashHmac` absorbs
  the inner pad again after a final call, `EvpHmac` does nothing, and `EVP_DigestSignFinal` finishes
  a COPY of the context.  From the second message on, `EvpHmac` signs everything since the key was
  set.

  1. **OpenSSL** — the functions `evpHmac.cpp` calls are fields of `OpenSSL`, failures included: no
     key object for an empty key, no MAC from `EVP_DigestSignFinal`.  `OpenSSL.Laws` is what their
     documentation says, over a relation `Signs ctx a K data`: the context signs under `a` and `K`
     and was given `data` since `EVP_DigestSignInit`.  Nothing is said of the empty key.
  2. **Calls** — `answers resets` are the outputs of a list of calls when a final call does or does
     not start a new text.  `runAll_answers` carries an invariant over a list of calls; both classes
     are instances (`HashHmac.getHashHmac_step`, `EvpHmac.getHashHmac_step`).
  3. **Agreement** (`evpHmac_agrees`) — the texts under the two readings are the same if and only if
     every finished message but the last is empty, and then the outputs are.
-/
import Mathlib.Algebra.Group.Int.Defs
import StevenProgram.Hash.HmacRuns

namespace StevenProgram

open BlockFold Hmac HashObj HashHmac

/-! ## OpenSSL

  A parameter and its documentation.  Every function may fail; the laws say when it does not, and
  what it then answers. -/

/-- The functions of `<openssl/evp.h>` that `evpHmac.cpp` calls.  Of a pointer `none` is NULL; of a
    result it is a failure, which `evpHmac.cpp` never looks at. -/
structure OpenSSL where
  Ctx : Type
  Md : Type
  Pkey : Type
  /-- `EVP_MD_CTX_new()` -/
  mdCtxNew : Ctx
  getDigestbyname : String → Option Md
  mdSize : Option Md → Int
  /-- `EVP_PKEY_new_mac_key(EVP_PKEY_HMAC, NULL, key, keylen)`; `keylen` is an `int` -/
  pkeyNewMacKey : List UInt8 → Int → Option Pkey
  /-- the context afterwards, also when the call fails -/
  digestSignInit : Ctx → Option Md → Option Pkey → Ctx
  digestSignUpdate : Ctx → List UInt8 → Ctx
  /-- `*siglen` on the way in; the context afterwards, and the bytes written to `sig` on success -/
  digestSignFinal : Ctx → Nat → Ctx × Option (List UInt8)

/-- `setHashType`: the name each type is looked up by. -/
def digestName : HashType → Option String
  | .md4 => some "MD4"
  | .md5 => some "MD5"
  | .sha1 => some "sha1"
  | .sha2_224 => some "sha224"
  | .sha2_256 => some "sha256"
  | .sha2_384 => some "sha384"
  | .sha2_512 => some "SHA512"
  | .sha3_224 => some "SHA3-224"
  | .sha3_256 => some "SHA3-256"
  | .sha3_384 => some "SHA3-384"
  | .sha3_512 => some "SHA3-512"
  | .sm3 => some "SM3"
  | .unknown => none
  | .md2 => none

/-- What OpenSSL documents of these functions for the six digests. -/
structure OpenSSL.Laws (S : OpenSSL) where
  md : HashAlg → S.Md
  /-- the context signs under this digest and key, and was given this data -/
  Signs : S.Ctx → HashAlg → List UInt8 → List UInt8 → Prop
  byName : ∀ (type : HashType) (a : HashAlg), HashAlg.ofType type = some a →
    ∀ name, digestName type = some name → S.getDigestbyname name = some (md a)
  size : ∀ a, S.mdSize (some (md a)) = a.cls.hashSize
  /-- a key with at least one byte, and not more than an `int` counts -/
  init : ∀ (c : S.Ctx) (a : HashAlg) (K : List UInt8), K ≠ [] → K.length < 2 ^ 31 →
    Signs (S.digestSignInit c (some (md a)) (S.pkeyNewMacKey K K.length)) a K []
  update : ∀ {c : S.Ctx} {a : HashAlg} {K d : List UInt8} (x : List UInt8), Signs c a K d →
    Signs (S.digestSignUpdate c x) a K (d ++ x)
  /-- the call as `getHashHmac` makes it, with `*siglen` zero: it gives the MAC all the same, and
      the copy is finished, not the context -/
  final_siglen_zero : ∀ {c : S.Ctx} {a : HashAlg} {K d : List UInt8}, Signs c a K d →
    (S.digestSignFinal c 0).2 = some (rfc2104 a K d) ∧ Signs (S.digestSignFinal c 0).1 a K d

/-! ## The class

  What `evpHmac.cpp` does with the answers: most of them are not looked at. -/

/-- The members of the class, over the library. -/
structure EvpHmac (S : OpenSSL) where
  mHashType : Option HashType
  mpCtx : S.Ctx
  mpMd : Option S.Md

/-- One `getHashHmac` call.  `stack` is what the local array `md_value[EVP_MAX_MD_SIZE]` of
    `EvpHmac` holds before it is written. -/
structure HmacCall where
  input : Chunk
  output : OutChunk
  stack : Mem 64

namespace EvpHmac

variable {S : OpenSSL}

/-- `EvpHmac()`; `mHashType` and `mpMd` are unset. -/
def new (S : OpenSSL) : EvpHmac S := ⟨none, S.mdCtxNew, none⟩

/-- `setHashType(type)`: the digest is looked up by its name. -/
def setHashType (h : EvpHmac S) (type : HashType) : EvpHmac S × Nat :=
  match digestName type with
  | some name => ({ h with mpMd := S.getDigestbyname name, mHashType := some type }, 0)
  | none => (h, 1)

/-- `setHashKey(key)`: what the library returns is not looked at. -/
def setHashKey (h : EvpHmac S) (key : Chunk) : EvpHmac S :=
  -- `key.len` is converted to `int`
  { h with
    mpCtx := S.digestSignInit h.mpCtx h.mpMd
      (S.pkeyNewMacKey key.bytes ((key.len : Int).bmod (2 ^ 32))) }

/-- `EVP_MD_size(mpMd)`, as a `u32_t`. -/
def getHmacSize (h : EvpHmac S) : Nat := (S.mdSize h.mpMd % 2 ^ 32).toNat

/-- `getHashHmac(input, output)`, as in `HashHmac`. -/
def getHashHmac (h : EvpHmac S) (c : HmacCall) : Run (EvpHmac S × OutChunk) :=
  if h.getHmacSize < c.output.len then .ok (h, c.output)
  else match c.output.ptr with
  | none => .ok ({ h with mpCtx := S.digestSignUpdate h.mpCtx c.input.bytes }, c.output)
  | some ptr => do
      -- `size_t md_len = 0;`
      let (ctx, mac) := S.digestSignFinal (S.digestSignUpdate h.mpCtx c.input.bytes) 0
      -- a failed call writes nothing, and the stack bytes go out
      let md_value ← match mac with
        | some mac => c.stack.memcpy 0 mac
        | none => .ok c.stack
      let len := outLen h.getHmacSize c.output.len
      let ptr ← writeOut ptr (md_value.bytes.take len)
      .ok ({ h with mpCtx := ctx }, ⟨some ptr, len⟩)

end EvpHmac

/-! ## Lists of calls

  The texts are told from the calls alone, without an object.  A call that is refused, one that
  appends and one that finishes are told apart by its output chunk. -/

/-- The calls in order, and their outputs. -/
def runAll {σ : Type} (getHashHmac : σ → HmacCall → Run (σ × OutChunk)) (h : σ) :
    List HmacCall → Run (σ × List OutChunk)
  | [] => .ok (h, [])
  | c :: cs => do
      let (h, out) ← getHashHmac h c
      let (h, outs) ← runAll getHashHmac h cs
      .ok (h, out :: outs)

/-- `setHashType`, `setHashKey` and the calls, on a new `HashHmac`. -/
def hashHmacOutputs (type : HashType) (heap : Nat → UInt8) (K : Chunk) (cs : List HmacCall) :
    Run (List OutChunk) := do
  let h ← HashHmac.new.rekey type heap K
  let (_, outs) ← runAll (fun h c => HashHmac.getHashHmac h c.input c.output) h cs
  .ok outs

/-- The same calls on a new `EvpHmac`. -/
def evpHmacOutputs (S : OpenSSL) (type : HashType) (K : Chunk) (cs : List HmacCall) :
    Run (List OutChunk) := do
  let h := ((EvpHmac.new S).setHashType type).1.setHashKey K
  let (_, outs) ← runAll EvpHmac.getHashHmac h cs
  .ok outs

namespace HmacCall

/-- The call returns at once: more is asked for than a digest has. -/
abbrev Refused (a : HashAlg) (c : HmacCall) : Prop := a.cls.hashSize < c.output.len

/-- The buffer, if there is one and the call is not refused, has room for what is written. -/
def Room (a : HashAlg) (c : HmacCall) : Prop :=
  ∀ ptr, c.output.ptr = some ptr → ¬ c.Refused a → outLen a.cls.hashSize c.output.len ≤ ptr.length

/-- The text after the call, when a final call does (`resets`) or does not start a new one. -/
def after (a : HashAlg) (resets : Bool) (text : List UInt8) (c : HmacCall) : List UInt8 :=
  if c.Refused a then text
  else match c.output.ptr with
  | none => text ++ c.input.bytes
  | some _ => if resets then [] else text ++ c.input.bytes

/-- The output of the call on an object that has taken `text`. -/
def reply (a : HashAlg) (K text : List UInt8) (c : HmacCall) : OutChunk :=
  if c.Refused a then c.output
  else match c.output.ptr with
  | none => c.output
  | some ptr =>
      ⟨some ((rfc2104 a K (text ++ c.input.bytes)).take (outLen a.cls.hashSize c.output.len)
        ++ ptr.drop (outLen a.cls.hashSize c.output.len)), outLen a.cls.hashSize c.output.len⟩

/-- The text a final call asks the HMAC of. -/
def asked (a : HashAlg) (text : List UInt8) (c : HmacCall) : Option (List UInt8) :=
  if c.Refused a then none
  else match c.output.ptr with
  | none => none
  | some _ => some (text ++ c.input.bytes)

section Cases

variable {a : HashAlg} (resets : Bool) (K text : List UInt8) {c : HmacCall}

/-- A refused call changes nothing. -/
theorem of_refused (h : c.Refused a) :
    c.after a resets text = text ∧ c.reply a K text = c.output ∧ c.asked a text = none :=
  ⟨if_pos h, if_pos h, if_pos h⟩

/-- An append call. -/
theorem of_append (h : ¬ c.Refused a) (hp : c.output.ptr = none) :
    c.after a resets text = text ++ c.input.bytes ∧ c.reply a K text = c.output ∧
    c.asked a text = none := by
  rw [after, reply, asked, if_neg h, if_neg h, if_neg h, hp]
  exact ⟨rfl, rfl, rfl⟩

/-- A final call. -/
theorem of_final (h : ¬ c.Refused a) {ptr : List UInt8} (hp : c.output.ptr = some ptr) :
    c.after a resets text = (if resets then [] else text ++ c.input.bytes) ∧
    c.reply a K text =
      ⟨some ((rfc2104 a K (text ++ c.input.bytes)).take (outLen a.cls.hashSize c.output.len)
        ++ ptr.drop (outLen a.cls.hashSize c.output.len)), outLen a.cls.hashSize c.output.len⟩ ∧
    c.asked a text = some (text ++ c.input.bytes) := by
  rw [after, reply, asked, if_neg h, if_neg h, if_neg h, hp]
  exact ⟨rfl, rfl, rfl⟩

end Cases

end HmacCall

/-- The outputs of the calls, from the texts they ask for. -/
def answers (a : HashAlg) (K : List UInt8) (resets : Bool) :
    List UInt8 → List HmacCall → List OutChunk
  | _, [] => []
  | text, c :: cs => c.reply a K text :: answers a K resets (c.after a resets text) cs

/-- The texts whose HMACs the final calls ask for. -/
def texts (a : HashAlg) (resets : Bool) : List UInt8 → List HmacCall → List (List UInt8)
  | _, [] => []
  | text, c :: cs => (c.asked a text).toList ++ texts a resets (c.after a resets text) cs

/-- No chunk makes the block loop of the repository's hash classes wrap. -/
def CallsFit (a : HashAlg) : List UInt8 → List HmacCall → Prop
  | _, [] => True
  | text, c :: cs =>
      (¬ c.Refused a → text.length % a.cls.blockLen + c.input.len < 2 ^ 32) ∧
        CallsFit a (c.after a true text) cs

/-- **Carrying an invariant over the calls.** `O` is what the step needs of the calls that are still
    to come; by induction on them. -/
theorem runAll_answers {σ : Type} {a : HashAlg} {K : List UInt8} {resets : Bool}
    {step : σ → HmacCall → Run (σ × OutChunk)} {I : σ → List UInt8 → Prop}
    {O : List UInt8 → List HmacCall → Prop}
    (htail : ∀ {text c cs}, O text (c :: cs) → O (c.after a resets text) cs)
    (hstep : ∀ {h text c cs}, I h text → O text (c :: cs) → c.Room a →
      ∃ h', step h c = .ok (h', c.reply a K text) ∧ I h' (c.after a resets text)) :
    ∀ (cs : List HmacCall) (h : σ) (text : List UInt8), I h text → O text cs →
      (∀ c ∈ cs, c.Room a) →
      ∃ h', runAll step h cs = .ok (h', answers a K resets text cs) := by
  intro cs
  induction cs with
  | nil => intro h text _ _ _; exact ⟨h, rfl⟩
  | cons c cs ih =>
    intro h text hi hok hroom
    obtain ⟨h1, hh1, hi1⟩ := hstep hi hok (hroom c (List.mem_cons_self ..))
    obtain ⟨h2, hh2⟩ := ih h1 _ hi1 (htail hok) fun d hd => hroom d (List.mem_cons_of_mem c hd)
    refine ⟨h2, ?_⟩
    rw [runAll, hh1]
    simp only [Run.ok_bind, hh2, answers]

/-! ## Both classes as instances

  One step of either class from its invariant; the only difference between the two is `resets`. -/

/-- `HashHmac` under an RFC 2104 key: the text starts anew. -/
theorem HashHmac.getHashHmac_step {a : HashAlg} {K text : List UInt8} {h : HashHmac} {c : HmacCall}
    (hc : h.Computing a (xorAll 0x36 (padKey a.digest a.cls.blockLen K))
      (xorAll 0x5C (padKey a.digest a.cls.blockLen K)) text)
    (hf : ¬ c.Refused a → text.length % a.cls.blockLen + c.input.len < 2 ^ 32) (hroom : c.Room a) :
    ∃ h', h.getHashHmac c.input c.output = .ok (h', c.reply a K text) ∧
      h'.Computing a (xorAll 0x36 (padKey a.digest a.cls.blockLen K))
        (xorAll 0x5C (padKey a.digest a.cls.blockLen K)) (c.after a true text) := by
  by_cases href : c.Refused a
  · obtain ⟨ha, hr, -⟩ := HmacCall.of_refused true K text href
    obtain ⟨o, ho, -⟩ := hc.hash
    refine ⟨h, ?_, by rw [ha]; exact hc⟩
    rw [HashHmac.getHashHmac, ho, hr]
    simp only [deref, Run.ok_bind]
    rw [if_pos href]
  · have hle : c.output.len ≤ a.cls.hashSize := Nat.le_of_not_lt href
    cases hp : c.output.ptr with
    | none =>
      obtain ⟨ha, hr, -⟩ := HmacCall.of_append true K text href hp
      rw [ha, hr]
      exact append_computing hc c.input c.output hp hle (hf href)
    | some ptr =>
      obtain ⟨ha, hr, -⟩ := HmacCall.of_final true K text href hp
      rw [ha, hr, if_pos rfl, rfc2104, ← nested_padKey]
      exact final_computing hc c.input c.output hp hle (hroom ptr hp href) (hf href)

/-- The context signs under `a` and `K` and was given `text`. -/
structure EvpHmac.Signing {S : OpenSSL} (L : S.Laws) (h : EvpHmac S) (a : HashAlg)
    (K text : List UInt8) : Prop where
  ctx : L.Signs h.mpCtx a K text
  md : h.mpMd = some (L.md a)

namespace EvpHmac

variable {S : OpenSSL} {L : S.Laws} {a : HashAlg} {K text : List UInt8} {h : EvpHmac S}

/-- The size of the HMAC is that of the digest. -/
theorem Signing.getHmacSize_eq (hs : h.Signing L a K text) : h.getHmacSize = a.cls.hashSize := by
  have := a.cls.hashSize_lt
  rw [getHmacSize, hs.md, L.size]; omega

/-- A key with at least one byte that an `int` can measure arms the context. -/
theorem setHashKey_signing (hmd : h.mpMd = some (L.md a)) {K : Chunk} (hne : K.bytes ≠ [])
    (hK : K.len < 2 ^ 31) : (h.setHashKey K).Signing L a K.bytes [] := by
  have hint : (K.len : Int).bmod (2 ^ 32) = K.bytes.length := by
    rw [Int.bmod_eq_of_le] <;> first | rfl | (rw [Chunk.len] at *; omega)
  refine ⟨?_, hmd⟩
  rw [setHashKey, hint, hmd]
  exact L.init _ _ _ hne hK

/-- `EvpHmac`: the text goes on. -/
theorem getHashHmac_step {c : HmacCall} (hs : h.Signing L a K text) (hroom : c.Room a) :
    ∃ h', h.getHashHmac c = .ok (h', c.reply a K text) ∧
      h'.Signing L a K (c.after a false text) := by
  have hsz := a.cls.hashSize_lt
  rw [getHashHmac, hs.getHmacSize_eq]
  by_cases href : c.Refused a
  · obtain ⟨ha, hr, -⟩ := HmacCall.of_refused false K text href
    rw [if_pos href, ha, hr]
    exact ⟨h, rfl, hs⟩
  · rw [if_neg href]
    have hupd := L.update c.input.bytes hs.ctx
    cases hp : c.output.ptr with
    | none =>
      obtain ⟨ha, hr, -⟩ := HmacCall.of_append false K text href hp
      rw [ha, hr]
      exact ⟨_, rfl, hupd, hs.md⟩
    | some ptr =>
      obtain ⟨ha, hr, -⟩ := HmacCall.of_final false K text href hp
      rw [ha, hr, if_neg (by decide)]
      -- the MAC of a copy: the context goes on with the text it has
      obtain ⟨hfin, hsign⟩ := L.final_siglen_zero hupd
      have hroom := hroom ptr hp href
      generalize hl : outLen a.cls.hashSize c.output.len = len at hroom ⊢
      have hlen : len ≤ a.cls.hashSize := by
        rw [← hl, outLen]; have := Nat.le_of_not_lt href; split <;> omega
      have hml : (rfc2104 a K (text ++ c.input.bytes)).length = a.cls.hashSize := by
        rw [rfc2104, hmac, digest_length]
      obtain ⟨buf, hbuf, hb⟩ := Mem.memcpy_ok c.stack 0
        (rfc2104 a K (text ++ c.input.bytes)) (by omega)
      have htake : buf.bytes.take len = (rfc2104 a K (text ++ c.input.bytes)).take len := by
        rw [hb, List.take_zero, List.nil_append, List.take_append_of_le_length (by omega)]
      have htl : ((rfc2104 a K (text ++ c.input.bytes)).take len).length = len :=
        List.length_take_of_le (by omega)
      obtain ⟨pm, hpm, hpb⟩ := Mem.memcpy_ok (⟨ptr, rfl⟩ : Mem ptr.length) 0
        ((rfc2104 a K (text ++ c.input.bytes)).take len) (by omega)
      refine ⟨{ h with
        mpCtx := (S.digestSignFinal (S.digestSignUpdate h.mpCtx c.input.bytes) 0).1 },
        ?_, hsign, hs.md⟩
      simp only [hfin, hbuf, Run.ok_bind, htake, writeOut, hpm]
      simp only [hpb, htl, List.take_zero, List.nil_append, Nat.zero_add]

end EvpHmac

/-! ## Agreement

  The two lists of texts are compared before any digest is computed, so the equivalence needs
  nothing of the hash functions. -/

section Agreement

variable (a : HashAlg)

/-- Every text with all the texts before it in front. -/
def running : List UInt8 → List (List UInt8) → List (List UInt8)
  | _, [] => []
  | d, t :: ts => (d ++ t) :: running (d ++ t) ts

/-- Without a fresh start each final call asks for everything up to it. -/
theorem texts_running : ∀ (cs : List HmacCall) (d text : List UInt8),
    texts a false (d ++ text) cs = running d (texts a true text cs) := by
  intro cs
  induction cs with
  | nil =>
    intro d text
    rfl
  | cons c cs ih =>
    intro d text
    rw [texts, texts]
    by_cases href : c.Refused a
    · obtain ⟨ha, -, hk⟩ := HmacCall.of_refused true [] text href
      obtain ⟨ha', -, hk'⟩ := HmacCall.of_refused false [] (d ++ text) href
      rw [ha, ha', hk, hk', ih]
      rfl
    cases hp : c.output.ptr with
    | none =>
      obtain ⟨ha, -, hk⟩ := HmacCall.of_append true [] text href hp
      obtain ⟨ha', -, hk'⟩ := HmacCall.of_append false [] (d ++ text) href hp
      rw [ha, ha', hk, hk', List.append_assoc, ih]
      rfl
    | some ptr =>
      obtain ⟨ha, -, hk⟩ := HmacCall.of_final true [] text href hp
      obtain ⟨ha', -, hk'⟩ := HmacCall.of_final false [] (d ++ text) href hp
      have htail := ih (d ++ (text ++ c.input.bytes)) []
      rw [List.append_nil] at htail
      rw [ha, ha', hk, hk', if_pos rfl, if_neg (by decide), List.append_assoc, htail]
      rfl

/-- Running texts are the single ones only where all before the last are empty. -/
theorem running_eq_iff : ∀ (ts : List (List UInt8)) (d : List UInt8),
    running d ts = ts ↔ ts = [] ∨ (d = [] ∧ ∀ t ∈ ts.dropLast, t = []) := by
  intro ts
  induction ts with
  | nil =>
    intro d
    simp [running]
  | cons t ts ih =>
    intro d
    rw [running, List.cons.injEq, List.append_left_eq_self, ih]
    constructor
    · rintro ⟨rfl, rfl | ⟨rfl, hts⟩⟩
      · exact .inr ⟨rfl, fun t' ht' => absurd ht' List.not_mem_nil⟩
      · refine .inr ⟨rfl, ?_⟩
        intro t' ht'
        cases ts with
        | nil => exact absurd ht' List.not_mem_nil
        | cons u us =>
          rw [List.dropLast_cons_cons] at ht'
          rcases List.mem_cons.mp ht' with rfl | ht'
          · rfl
          · exact hts t' ht'
    · rintro (h | ⟨rfl, hts⟩)
      · nomatch h
      · refine ⟨rfl, ?_⟩
        cases ts with
        | nil => exact .inl rfl
        | cons u us =>
          rw [List.dropLast_cons_cons] at hts
          refine .inr ⟨?_, ?_⟩
          · rw [hts t (List.mem_cons_self ..)]
            rfl
          · intro t' ht'
            exact hts t' (List.mem_cons_of_mem t ht')

/-- The outputs depend on the calls through the texts alone. -/
theorem answers_congr (K : List UInt8) : ∀ (cs : List HmacCall) (text text' : List UInt8),
    texts a true text cs = texts a false text' cs → answers a K true text cs =
      answers a K false text' cs := by
  intro cs
  induction cs with
  | nil =>
    intro text text' _
    rfl
  | cons c cs ih =>
    intro text text' h
    rw [texts, texts] at h
    rw [answers, answers]
    by_cases href : c.Refused a
    · obtain ⟨ha, hr, hk⟩ := HmacCall.of_refused true K text href
      obtain ⟨ha', hr', hk'⟩ := HmacCall.of_refused false K text' href
      rw [ha, ha', hk, hk'] at h
      rw [ha, ha', hr, hr', ih _ _ h]
    cases hp : c.output.ptr with
    | none =>
      obtain ⟨ha, hr, hk⟩ := HmacCall.of_append true K text href hp
      obtain ⟨ha', hr', hk'⟩ := HmacCall.of_append false K text' href hp
      rw [ha, ha', hk, hk'] at h
      rw [ha, ha', hr, hr', ih _ _ h]
    | some ptr =>
      obtain ⟨ha, hr, hk⟩ := HmacCall.of_final true K text href hp
      obtain ⟨ha', hr', hk'⟩ := HmacCall.of_final false K text' href hp
      rw [ha, ha', hk, hk'] at h
      obtain ⟨htext, hrest⟩ := List.cons.inj h
      rw [ha, ha', hr, hr', ih _ _ hrest, htext]

/-- **The two readings ask for the same texts exactly when every finished message but the last is
    empty.** -/
theorem texts_eq_iff (cs : List HmacCall) :
    texts a true [] cs = texts a false [] cs ↔ ∀ t ∈ (texts a true [] cs).dropLast, t = [] := by
  have h := texts_running a cs [] []
  rw [List.append_nil] at h
  rw [h, eq_comm, running_eq_iff]
  constructor
  · rintro (hnil | ⟨-, hall⟩)
    · rw [hnil]; exact fun t ht => absurd ht List.not_mem_nil
    · exact hall
  · exact fun hall => .inr ⟨rfl, hall⟩

end Agreement

section Outputs

variable (type : HashType) {a : HashAlg} (ht : HashAlg.ofType type = some a) (K : Chunk)
  (cs : List HmacCall)
  (hroom : ∀ c ∈ cs, c.Room a)

include ht hroom

/-- `HashHmac` starts each text anew. -/
theorem hashHmacOutputs_eq (heap : Nat → UInt8) (hf : CallsFit a [] cs) :
    hashHmacOutputs type heap K cs = .ok (answers a K.bytes true [] cs) := by
  obtain ⟨h, hre, hc⟩ := rekey_computing HashHmac.new type ht heap K
  obtain ⟨hi, ho⟩ := (pads_eq_iff HashHmac.new a K.bytes).mpr (new_cleanTail a K.bytes)
  rw [hi, ho] at hc
  obtain ⟨h', hrun⟩ := runAll_answers (O := CallsFit a) (fun hok => hok.2)
    (fun hi hok hr => HashHmac.getHashHmac_step hi hok.1 hr) cs h [] hc hf hroom
  rw [hashHmacOutputs, hre, Run.ok_bind, hrun]; rfl

/-- `EvpHmac` signs everything since the key. -/
theorem evpHmacOutputs_eq {S : OpenSSL} (L : S.Laws) (hne : K.bytes ≠ []) (hK : K.len < 2 ^ 31) :
    evpHmacOutputs S type K cs = .ok (answers a K.bytes false [] cs) := by
  have hmd : ((EvpHmac.new S).setHashType type).1.mpMd = some (L.md a) := by
    obtain ⟨name, hname⟩ : ∃ name, digestName type = some name := by
      cases type <;> first | exact ⟨_, rfl⟩ | nomatch ht
    rw [EvpHmac.setHashType, hname]
    exact L.byName type a ht name hname
  obtain ⟨h', hrun⟩ := runAll_answers (O := fun _ _ => True) (fun _ => trivial)
    (fun hi _ hr => EvpHmac.getHashHmac_step hi hr) cs _ []
      (EvpHmac.setHashKey_signing hmd hne hK) trivial hroom
  rw [evpHmacOutputs, hrun]; rfl

/-- **Headline.**  Under one type and one key, with chunks that fit and a key that is not empty and
    that an `int` can measure, `HashHmac` answers with the HMAC of each message and `EvpHmac` with
    the HMAC of everything since the key.  These are the same texts if and only if every finished
    message but the last is empty, and then the outputs of the two classes agree. -/
theorem evpHmac_agrees (heap : Nat → UInt8) {S : OpenSSL} (L : S.Laws) (hne : K.bytes ≠ [])
    (hK : K.len < 2 ^ 31) (hf : CallsFit a [] cs) :
    hashHmacOutputs type heap K cs = .ok (answers a K.bytes true [] cs) ∧
    evpHmacOutputs S type K cs = .ok (answers a K.bytes false [] cs) ∧
    (texts a true [] cs = texts a false [] cs ↔ ∀ t ∈ (texts a true [] cs).dropLast, t = []) ∧
    ((∀ t ∈ (texts a true [] cs).dropLast, t = []) →
      hashHmacOutputs type heap K cs = evpHmacOutputs S type K cs) := by
  have hh := hashHmacOutputs_eq type ht K cs hroom heap hf
  have he := evpHmacOutputs_eq type ht K cs hroom L hne hK
  refine ⟨hh, he, texts_eq_iff a cs, fun hall => ?_⟩
  rw [hh, he, answers_congr a K.bytes cs [] [] ((texts_eq_iff a cs).mpr hall)]

end Outputs

/-- A libcrypto that keeps the algorithm, the key and the data.  It makes no key object without key
    bytes, and does not look at `*siglen`. -/
def OpenSSL.ideal : OpenSSL where
  Ctx := Option (HashAlg × List UInt8 × List UInt8)
  Md := HashAlg
  Pkey := List UInt8
  mdCtxNew := none
  getDigestbyname name :=
    [.md5, .sha1, .sha2_224, .sha2_256, .sha2_384, .sha2_512].findSome? fun type : HashType =>
      if digestName type = some name then HashAlg.ofType type else none
  mdSize
    | some a => a.cls.hashSize
    | none => -1
  pkeyNewMacKey key keylen := if keylen ≤ 0 then none else some (key.take keylen.toNat)
  digestSignInit _ md pkey := do
    let a ← md
    let K ← pkey
    some (a, K, [])
  digestSignUpdate c x := c.map fun (a, K, d) => (a, K, d ++ x)
  digestSignFinal c _ := (c, c.map fun (a, K, d) => rfc2104 a K d)

def OpenSSL.idealLaws : OpenSSL.ideal.Laws where
  md a := a
  Signs c a K d := c = some (a, K, d)
  byName type a ht name hname := by
    cases type <;> cases ht <;> cases hname <;> rfl
  size _ := rfl
  init _ a K hne _ := by
    have hpos : ¬ (K.length : Int) ≤ 0 := by
      have := List.length_pos_iff.mpr hne
      omega
    have hkey : OpenSSL.ideal.pkeyNewMacKey K K.length = some K := by
      show (if (K.length : Int) ≤ 0 then none else some (K.take (Int.toNat (K.length : Int)))) =
        some K
      rw [if_neg hpos, Int.toNat_natCast, List.take_length]
    rw [hkey]
    rfl
  update x h := by rw [h]; rfl
  final_siglen_zero h := by rw [h]; exact ⟨rfl, rfl⟩

/-- One append and one final call under SHA-1 and the key `0b 0b`. -/
theorem evpHmac_agrees_once :
    hashHmacOutputs .sha1 (fun _ => 0) ⟨[0x0B, 0x0B], by decide⟩
        [⟨⟨[1], by decide⟩, .null, .fill 64 0⟩, ⟨⟨[2], by decide⟩, ⟨some [0, 0], 2⟩, .fill 64 0⟩] =
      evpHmacOutputs .ideal .sha1 ⟨[0x0B, 0x0B], by decide⟩
        [⟨⟨[1], by decide⟩, .null, .fill 64 0⟩, ⟨⟨[2], by decide⟩, ⟨some [0, 0], 2⟩, .fill 64 0⟩] :=
  (evpHmac_agrees .sha1 rfl ⟨[0x0B, 0x0B], by decide⟩
    [⟨⟨[1], by decide⟩, .null, .fill 64 0⟩, ⟨⟨[2], by decide⟩, ⟨some [0, 0], 2⟩, .fill 64 0⟩]
    (by intro c hc ptr hptr _
        rcases List.mem_cons.mp hc with rfl | hc
        · nomatch hptr
        · obtain rfl := List.mem_singleton.mp hc
          cases hptr; decide)
    (fun _ => 0) OpenSSL.idealLaws (by decide) (by decide)
    ⟨fun _ => by decide, fun _ => by decide, trivial⟩).2.2.2 (by decide)

/-- **The second message**: `01`, then nothing, under MD5 and the key `0b`.  `EvpHmac` answers the
    second final call with the HMAC of `01` again. -/
theorem evpHmac_second_message :
    ¬ ∀ (type : HashType) (a : HashAlg), HashAlg.ofType type = some a → ∀ (S : OpenSSL), S.Laws →
      ∀ (heap : Nat → UInt8) (K : Chunk) (cs : List HmacCall), (∀ c ∈ cs, c.Room a) →
        hashHmacOutputs type heap K cs = evpHmacOutputs S type K cs := by
  intro hall
  have hroom : ∀ c ∈ [HmacCall.mk ⟨[1], by decide⟩ ⟨some (List.replicate 16 0), 0⟩ (.fill 64 0),
      ⟨.empty, ⟨some (List.replicate 16 0), 0⟩, .fill 64 0⟩], c.Room .md5 := by
    intro c hc ptr hptr _
    rcases List.mem_cons.mp hc with rfl | hc
    · cases hptr; decide
    · obtain rfl := List.mem_singleton.mp hc
      cases hptr; decide
  have heq := hall .md5 .md5 rfl .ideal OpenSSL.idealLaws (fun _ => 0) ⟨[0x0B], by decide⟩ _ hroom
  rw [hashHmacOutputs_eq .md5 rfl _ _ hroom (fun _ => 0)
    ⟨fun _ => by decide, fun _ => by decide, trivial⟩,
    evpHmacOutputs_eq .md5 rfl _ _ hroom OpenSSL.idealLaws (by decide) (by decide)] at heq
  have hans := Except.ok.inj heq
  revert hans
  decide +kernel

end StevenProgram
