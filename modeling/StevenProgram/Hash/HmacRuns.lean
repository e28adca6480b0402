/-
  What a `HashHmac` object computes over whole runs.

  1. **Keys** — `setHashKey_computing` says which pads a key arms on an object in ANY state.
     `CleanTail h a K` says that the pad bytes behind the key (behind the digest, for a long key)
     are zero; `pads_eq_iff` shows that to be exactly when the armed pads are RFC 2104's.  It holds
     of a new object and is what a second, shorter key breaks: the bytes of the old pads stay behind
     it.
  2. **Messages** — on an armed object a message gives the nested digest of its text if its chunks
     fit (`computeHmac_computing`, with `HashObj.Fits`), and is a fault if they do not
     (`computeHmac_fault`).
  3. **Runs** — `rekey_hmac`: any history of calls, then a type and a key.  `hmac_stream`: a new
     object, one key, any number of messages.  The refutations at the end of each part give the
     inputs at which the unconditional statement fails.
-/
import StevenProgram.Hash.HashHmac

namespace StevenProgram

open BlockFold Hmac HashObj

namespace HashHmac

/-- RFC 2104 over the algorithm's standard. -/
def rfc2104 (a : HashAlg) (K text : List UInt8) : List UInt8 := hmac a.digest a.cls.blockLen K text

/-! ## Keys

  The object is arbitrary: nothing is assumed of its pads, which is why the bytes behind the key are
  in every statement. -/

/-- The bytes behind the key: what the pads held, cut at the block. -/
def tailOf (a : HashAlg) (K : List UInt8) (pad : Mem 128) : List UInt8 :=
  (pad.bytes.take a.cls.blockLen).drop (keyBytes a.digest a.cls.blockLen K).length

/-- The pad bytes that a key leaves alone are zero: those of `mIpad`, and those of `mOpad` unless
    the key is longer than a block (then `mOpad` is copied from `mIpad`). -/
def CleanTail (h : HashHmac) (a : HashAlg) (K : List UInt8) : Prop :=
  (∀ b ∈ tailOf a K h.mIpad, b = 0) ∧ (K.length ≤ a.cls.blockLen → ∀ b ∈ tailOf a K h.mOpad, b = 0)

/-- The bytes the inner pad is made from. -/
def innerKey (h : HashHmac) (a : HashAlg) (K : List UInt8) : List UInt8 :=
  keyBytes a.digest a.cls.blockLen K ++ tailOf a K h.mIpad

/-- The bytes the outer pad is made from. -/
def outerKey (h : HashHmac) (a : HashAlg) (K : List UInt8) : List UInt8 :=
  keyBytes a.digest a.cls.blockLen K ++
    tailOf a K (if a.cls.blockLen < K.length then h.mIpad else h.mOpad)

/-- The key that is used fits into a block. -/
theorem keyBytes_length_le (a : HashAlg) (K : List UInt8) :
    (keyBytes a.digest a.cls.blockLen K).length ≤ a.cls.blockLen := by
  rw [keyBytes]
  split
  · rw [digest_length]
    have := a.cls.hashSize_lt
    rcases a.cls.blockLen_eq with h | h <;> omega
  · omega

/-- Writing over the front of a pad keeps what is behind. -/
theorem take_written {pad m : Mem 128} {k : List UInt8} {B : Nat} (h : pad.memcpy 0 k = .ok m)
    (hk : k.length ≤ B) (hB : B ≤ 128) :
    m.bytes.take B = k ++ (pad.bytes.take B).drop k.length := by
  obtain ⟨m', hm', hb⟩ := Mem.memcpy_ok pad 0 k (by omega)
  obtain rfl : m' = m := by rw [hm'] at h; injection h
  rw [hb, List.take_zero, List.nil_append, Nat.zero_add, List.take_append,
    List.take_of_length_le hk,
    List.drop_take]

/-- What `writeKey` leaves in the pads. -/
theorem writeKey_pads {h : HashHmac} {a : HashAlg} {o : HashObj a.cls} (ho : h.mpHash = some ⟨a, o⟩)
    (hb : h.mBlockLen = a.cls.blockLen) (K : Chunk) :
    ∃ (o' : HashObj a.cls) (ipad opad : Mem 128),
      h.writeKey K = .ok ⟨some ⟨a, o'⟩, h.mBlockLen, ipad, opad⟩ ∧
      ipad.bytes.take a.cls.blockLen = h.innerKey a K.bytes ∧
      opad.bytes.take a.cls.blockLen = h.outerKey a K.bytes := by
  have hle := blockLen_le a
  have hkl := keyBytes_length_le a K.bytes
  rw [writeKey, hb, innerKey, outerKey]
  by_cases hlong : a.cls.blockLen < K.len
  · have hkey : keyBytes a.digest a.cls.blockLen K.bytes = a.digest K.bytes := if_pos hlong
    rw [hkey] at hkl
    obtain ⟨o1, ho1⟩ := calcHashFinal_digest a (initHash_holds o) K (by
      rw [List.length_nil, Nat.zero_mod, Nat.zero_add]
      exact K.len_lt)
    rw [List.nil_append] at ho1
    obtain ⟨m, hm, -⟩ := Mem.memcpy_ok h.mIpad 0 (a.digest K.bytes) (by omega)
    refine ⟨o1.initHash, m, m, ?_, ?_, ?_⟩
    · rw [if_pos hlong, ho]
      simp only [deref, Run.ok_bind, ho1, hm]
    · rw [hkey, tailOf, hkey]
      exact take_written hm hkl hle
    · rw [if_pos (show a.cls.blockLen < K.bytes.length from hlong), hkey, tailOf, hkey]
      exact take_written hm hkl hle
  · have hkey : keyBytes a.digest a.cls.blockLen K.bytes = K.bytes := if_neg hlong
    rw [hkey] at hkl
    obtain ⟨mi, hmi, -⟩ := Mem.memcpy_ok h.mIpad 0 K.bytes (by omega)
    obtain ⟨mo, hmo, -⟩ := Mem.memcpy_ok h.mOpad 0 K.bytes (by omega)
    refine ⟨o, mi, mo, ?_, ?_, ?_⟩
    · rw [if_neg hlong]
      simp only [hmi, hmo, Run.ok_bind, ho]
    · rw [hkey, tailOf, hkey]
      exact take_written hmi hkl hle
    · rw [if_neg (show ¬ a.cls.blockLen < K.bytes.length from hlong), hkey, tailOf, hkey]
      exact take_written hmo hkl hle

/-- **Which pads a key arms**, on an object in any state that has a hash of the algorithm. -/
theorem setHashKey_computing {h : HashHmac} {a : HashAlg} {o : HashObj a.cls}
    (ho : h.mpHash = some ⟨a, o⟩)
    (hb : h.mBlockLen = a.cls.blockLen) (K : Chunk) :
    ∃ h', h.setHashKey K = .ok h' ∧
      h'.Computing a (xorAll 0x36 (h.innerKey a K.bytes)) (xorAll 0x5C (h.outerKey a K.bytes))
      [] := by
  have hle := blockLen_le a
  obtain ⟨o', ipad, opad, hw, hi, hop⟩ := writeKey_pads ho hb K
  rw [setHashKey, hw, Run.ok_bind]
  apply absorbIpad_computing (h := ⟨some ⟨a, o'⟩, h.mBlockLen, ipad.xorFront h.mBlockLen 0x36,
    opad.xorFront h.mBlockLen 0x5C⟩) rfl hb
  · show (ipad.xorFront h.mBlockLen 0x36).bytes.take a.cls.blockLen = _
    rw [hb, Mem.take_xorFront _ hle, hi, xorAll]
  · show (opad.xorFront h.mBlockLen 0x5C).bytes.take a.cls.blockLen = _
    rw [hb, Mem.take_xorFront _ hle, hop, xorAll]

/-- What stands behind it in a pad fills the block up. -/
theorem tailOf_length (a : HashAlg) (K : List UInt8) (pad : Mem 128) :
    (tailOf a K pad).length = a.cls.blockLen - (keyBytes a.digest a.cls.blockLen K).length := by
  have := blockLen_le a
  rw [tailOf, List.length_drop, List.length_take, pad.size]; omega

/-- **The armed pads are RFC 2104's exactly when the bytes behind the key are zero.** -/
theorem pads_eq_iff (h : HashHmac) (a : HashAlg) (K : List UInt8) :
    (xorAll 0x36 (h.innerKey a K) = xorAll 0x36 (padKey a.digest a.cls.blockLen K) ∧
      xorAll 0x5C (h.outerKey a K) = xorAll 0x5C (padKey a.digest a.cls.blockLen K)) ↔
        h.CleanTail a K := by
  have hz :
    ∀ pad, keyBytes a.digest a.cls.blockLen K ++ tailOf a K pad = padKey a.digest a.cls.blockLen K ↔
      ∀ b ∈ tailOf a K pad, b = 0 := by
    intro pad
    rw [padKey, List.append_right_inj, ← tailOf_length a K pad, List.eq_replicate_iff]
    exact ⟨fun he => he.2, fun hall => ⟨rfl, hall⟩⟩
  have hinj : ∀ (v : UInt8) (l m : List UInt8), xorAll v l = xorAll v m ↔ l = m :=
    fun v l m => ⟨xorAll_injective, fun he => by rw [he]⟩
  rw [hinj, hinj, innerKey, outerKey, hz, hz, CleanTail]
  by_cases hlong : a.cls.blockLen < K.length
  · rw [if_pos hlong]
    exact ⟨fun hh => ⟨hh.1, fun hle => absurd hle (by omega)⟩, fun hh => ⟨hh.1, hh.1⟩⟩
  · rw [if_neg hlong]
    exact ⟨fun hh => ⟨hh.1, fun _ => hh.2⟩, fun hh => ⟨hh.1, hh.2 (by omega)⟩⟩

/-! ## Messages

  A message is its append calls and its final call.  `Fits` is followed along the pieces, and the
  first that does not fit ends the run. -/

/-- One message: append calls (`output = {NULL, 0}`), then a final call with `output = {ptr,
    len}`. -/
structure Request where
  message : Message
  ptr : List UInt8
  len : Nat

/-- What a caller owes: `len` is at most the hash size (zero asks for all of it), and the buffer has
    room for what is written. -/
def Request.Room (r : Request) (a : HashAlg) : Prop :=
  r.len ≤ a.cls.hashSize ∧ outLen a.cls.hashSize r.len ≤ r.ptr.length

/-- Append calls, with `output = {NULL, 0}`. -/
def appendAll (h : HashHmac) : List Chunk → Run HashHmac
  | [] => .ok h
  | c :: cs => do
      let (h, _) ← h.getHashHmac c .null
      h.appendAll cs

/-- The calls of one message. -/
def computeHmac (h : HashHmac) (r : Request) : Run (HashHmac × OutChunk) := do
  let h ← h.appendAll r.message.chunks
  h.getHashHmac r.message.last ⟨some r.ptr, r.len⟩

/-- The calls of one message after the other: the outputs in order. -/
def computeAll (h : HashHmac) : List Request → Run (HashHmac × List OutChunk)
  | [] => .ok (h, [])
  | r :: rs => do
      let (h, out) ← h.computeHmac r
      let (h, outs) ← h.computeAll rs
      .ok (h, out :: outs)

/-- The output chunk with the first bytes of `mac` in its buffer. -/
def Request.answer (r : Request) (a : HashAlg) (mac : List UInt8) : OutChunk :=
  ⟨some (mac.take (outLen a.cls.hashSize r.len) ++ r.ptr.drop (outLen a.cls.hashSize r.len)),
    outLen a.cls.hashSize r.len⟩

section Messages

variable {a : HashAlg} {ipad opad : List UInt8}

/-- Pieces that fit are appended to the text. By induction on the pieces. -/
theorem appendAll_computing : ∀ (cs : List Chunk) {h : HashHmac} {text : List UInt8},
    h.Computing a ipad opad text → Fits a.cls.blockLen text.length cs →
    ∃ h', h.appendAll cs = .ok h' ∧ h'.Computing a ipad opad (text ++ concat cs) := by
  intro cs
  induction cs with
  | nil =>
    intro h text hc _
    refine ⟨h, rfl, ?_⟩
    rw [show concat [] = [] from rfl, List.append_nil]
    exact hc
  | cons c cs ih =>
    intro h text hc hf
    obtain ⟨h1, hh1, hc1⟩ := append_computing hc c .null rfl (Nat.zero_le _) hf.1
    obtain ⟨h2, hh2, hc2⟩ := ih hc1 (by rw [List.length_append]; exact hf.2)
    refine ⟨h2, ?_, ?_⟩
    · rw [appendAll, hh1]
      exact hh2
    · rw [concat_cons, ← List.append_assoc]
      exact hc2

/-- Pieces that do not fit fault. -/
theorem appendAll_fault : ∀ (cs : List Chunk) {h : HashHmac} {text : List UInt8},
    h.Computing a ipad opad text → ¬ Fits a.cls.blockLen text.length cs →
    h.appendAll cs = .error .outOfBounds := by
  intro cs
  induction cs with
  | nil =>
    intro h text _ hf
    exact absurd trivial hf
  | cons c cs ih =>
    intro h text hc hf
    rw [appendAll]
    rcases Nat.lt_or_ge (text.length % a.cls.blockLen + c.len) (2 ^ 32) with hlt | hge
    · obtain ⟨h1, hh1, hc1⟩ := append_computing hc c .null rfl (Nat.zero_le _) hlt
      rw [hh1]
      apply ih hc1
      rw [List.length_append]
      intro hrest
      exact hf ⟨hlt, hrest⟩
    · rw [append_fault hc c .null rfl (Nat.zero_le _) hge]
      rfl

variable {h : HashHmac} (hc : h.Computing a ipad opad []) (r : Request)

include hc

/-- **One message, fitting**: the nested digest of its text goes out, and the pads are armed
    again. -/
theorem computeHmac_computing (hr : r.Room a) (hf : Fits a.cls.blockLen 0 r.message.pieces) :
    ∃ h', h.computeHmac r = .ok (h', r.answer a (nested a.digest ipad opad r.message.text)) ∧
      h'.Computing a ipad opad [] := by
  rw [Message.pieces, fits_append] at hf
  obtain ⟨h1, hh1, hc1⟩ := appendAll_computing r.message.chunks hc hf.1
  rw [List.nil_append] at hc1
  obtain ⟨h2, hh2, hc2⟩ := final_computing hc1 r.message.last ⟨some r.ptr, r.len⟩
    rfl hr.1 hr.2 (by rw [← Nat.zero_add (concat _).length]; exact hf.2.1)
  refine ⟨h2, ?_, hc2⟩
  have htext : concat r.message.chunks ++ r.message.last.bytes = r.message.text := by
    simp [Message.text, Message.pieces, concat]
  rw [computeHmac, hh1, Run.ok_bind, hh2, htext, Request.answer]

/-- **One message, not fitting**: the block loop leaves the input. -/
theorem computeHmac_fault (hr : r.Room a) (hf : ¬ Fits a.cls.blockLen 0 r.message.pieces) :
    h.computeHmac r = .error .outOfBounds := by
  rw [Message.pieces, fits_append] at hf
  rw [computeHmac]
  by_cases hfc : Fits a.cls.blockLen 0 r.message.chunks
  · obtain ⟨h1, hh1, hc1⟩ := appendAll_computing r.message.chunks hc hfc
    rw [hh1, Run.ok_bind]
    refine final_fault hc1 r.message.last ⟨some r.ptr, r.len⟩ rfl hr.1 ?_
    -- the final chunk is the one that does not fit
    rw [List.nil_append]
    rcases Nat.lt_or_ge ((concat r.message.chunks).length % a.cls.blockLen + r.message.last.len)
      (2 ^ 32)
      with hlt | hge
    · exact absurd ⟨hfc, by rw [Nat.zero_add]; exact hlt, trivial⟩ hf
    · exact hge
  · rw [appendAll_fault r.message.chunks hc hfc]; rfl

end Messages

/-- **Requests one after the other are answered each for itself**, by induction on the requests: an
    answer leaves the object as it was behind the key. -/
theorem computeAll_computing {a : HashAlg} {ipad opad : List UInt8} :
    ∀ (rs : List Request) {h : HashHmac},
    h.Computing a ipad opad [] → (∀ r ∈ rs, r.Room a) →
      (∀ r ∈ rs, Fits a.cls.blockLen 0 r.message.pieces) →
    ∃ h', h.computeAll rs =
        .ok (h', rs.map fun r => r.answer a (nested a.digest ipad opad r.message.text)) ∧
      h'.Computing a ipad opad [] := by
  intro rs
  induction rs with
  | nil =>
    intro h hc _ _
    exact ⟨h, rfl, hc⟩
  | cons r rs ih =>
    intro h hc hr hf
    obtain ⟨h1, hh1, hc1⟩ := computeHmac_computing hc r (hr r (List.mem_cons_self ..))
      (hf r (List.mem_cons_self ..))
    obtain ⟨h2, hh2, hc2⟩ := ih hc1 (fun q hq => hr q (List.mem_cons_of_mem r hq))
      (fun q hq => hf q (List.mem_cons_of_mem r hq))
    refine ⟨h2, ?_, hc2⟩
    rw [computeAll, hh1]
    simp only [Run.ok_bind, hh2, List.map_cons]

/-- And requests that are answered had pieces that fit. -/
theorem computeAll_fits {a : HashAlg} {ipad opad : List UInt8} :
    ∀ (rs : List Request) {h h' : HashHmac}
    {outs : List OutChunk}, h.Computing a ipad opad [] → (∀ r ∈ rs, r.Room a) →
    h.computeAll rs = .ok (h', outs) → ∀ r ∈ rs, Fits a.cls.blockLen 0 r.message.pieces
  | [], _, _, _, _, _, _ => fun _ hr => absurd hr List.not_mem_nil
  | r :: rs, h, h', outs, hc, hroom, hrun => by
      rw [computeAll] at hrun
      have hf : Fits a.cls.blockLen 0 r.message.pieces := by
        rcases Classical.em (Fits a.cls.blockLen 0 r.message.pieces) with hf | hf
        · exact hf
        · rw [computeHmac_fault hc r (hroom r (List.mem_cons_self ..)) hf] at hrun; nomatch hrun
      obtain ⟨h1, hh1, hc1⟩ := computeHmac_computing hc r (hroom r (List.mem_cons_self ..)) hf
      rw [hh1, Run.ok_bind] at hrun
      obtain ⟨⟨h2, outs2⟩, hh2, -⟩ := Run.bind_ok.mp hrun
      have hrest := computeAll_fits rs hc1 (fun q hq => hroom q (List.mem_cons_of_mem r hq)) hh2
      intro q hq
      rcases List.mem_cons.mp hq with rfl | hq
      · exact hf
      · exact hrest q hq

/-! ## Histories

  Whatever was called before, the two calls of a re-key decide everything but the bytes behind the
  key. -/

/-- A call on the object, with its arguments. -/
inductive Call where
  | setHashType (type : HashType) (heap : Nat → UInt8)
  | setHashKey (key : Chunk)
  | getHashHmac (input : Chunk) (output : OutChunk)

/-- What the call does to the object. -/
def Call.run (h : HashHmac) : Call → Run HashHmac
  | setHashType type heap => .ok (h.setHashType type heap).1
  | setHashKey key => h.setHashKey key
  | getHashHmac input output => do
      let (h, _) ← h.getHashHmac input output
      .ok h

/-- The calls in order. -/
def runCalls (h : HashHmac) : List Call → Run HashHmac
  | [] => .ok h
  | c :: cs => do
      let h ← c.run h
      h.runCalls cs

/-- `setHashType(type); setHashKey(key);` -/
def rekey (h : HashHmac) (type : HashType) (heap : Nat → UInt8) (key : Chunk) : Run HashHmac :=
  (h.setHashType type heap).1.setHashKey key

/-- A new type and a new key put the object into the state for that key, with what the old one left
    behind it. -/
theorem rekey_computing (h : HashHmac) (type : HashType) {a : HashAlg}
    (ht : HashAlg.ofType type = some a)
    (heap : Nat → UInt8) (K : Chunk) :
    ∃ h', h.rekey type heap K = .ok h' ∧
      h'.Computing a (xorAll 0x36 (h.innerKey a K.bytes)) (xorAll 0x5C (h.outerKey a K.bytes))
      [] := by
  have hset : (h.setHashType type heap).1 =
      { h with mpHash := some ⟨a, HashObj.new a.cls heap⟩, mBlockLen := blockLenOf a } := by
    rw [setHashType, ht]
  rw [rekey, hset]
  exact setHashKey_computing
    (h := { h with mpHash := some ⟨a, HashObj.new a.cls heap⟩, mBlockLen := blockLenOf a })
    rfl (blockLenOf_eq a) K

/-- With nothing but zeros behind the key the two passes are RFC 2104. -/
theorem nested_eq_rfc2104 {h : HashHmac} {a : HashAlg} {K : List UInt8} (hk : h.CleanTail a K)
    (text : List UInt8) :
    nested a.digest (xorAll 0x36 (h.innerKey a K)) (xorAll 0x5C (h.outerKey a K)) text =
      rfc2104 a K text := by
  obtain ⟨hi, ho⟩ := (pads_eq_iff h a K).mpr hk
  rw [hi, ho, nested_padKey, rfc2104]

/-- In a new object there is nothing behind the key. -/
theorem new_cleanTail (a : HashAlg) (K : List UInt8) : new.CleanTail a K := by
  have hz : ∀ b ∈ tailOf a K (Mem.fill 128 0), b = 0 := fun b hb =>
    List.eq_of_mem_replicate (List.mem_of_mem_take (List.mem_of_mem_drop hb))
  exact ⟨hz, fun _ => hz⟩

/-- A run of calls and a run behind it. -/
theorem runCalls_append : ∀ (cs ds : List Call) {h h1 : HashHmac}, h.runCalls cs = .ok h1 →
    h.runCalls (cs ++ ds) = h1.runCalls ds := by
  intro cs
  induction cs with
  | nil =>
    intro ds h h1 hrun
    cases hrun
    rfl
  | cons c cs ih =>
    intro ds h h1 hrun
    obtain ⟨h2, hh2, hrest⟩ := Run.bind_ok.mp hrun
    rw [List.cons_append, runCalls, hh2, Run.ok_bind]
    exact ih ds hrest

/-- The history `calls` on a new object, then a type, a key and one message: its output. -/
def hmacAfter (calls : List Call) (type : HashType) (heap : Nat → UInt8) (key : Chunk)
    (r : Request) :
    Run OutChunk := do
  let h ← new.runCalls (calls ++ [.setHashType type heap, .setHashKey key])
  let (_, out) ← h.computeHmac r
  .ok out

/-- Re-keying is two calls more. -/
theorem hmacAfter_eq (calls : List Call) {h h' : HashHmac} {type : HashType} {heap : Nat → UInt8}
    {K : Chunk}
    (hrun : new.runCalls calls = .ok h) (hre : h.rekey type heap K = .ok h') :
    new.runCalls (calls ++ [.setHashType type heap, .setHashKey K]) = .ok h' := by
  rw [runCalls_append calls _ hrun, runCalls, Call.run, Run.ok_bind, runCalls, Call.run,
    show (h.setHashType type heap).1.setHashKey K = .ok h' from hre]
  rfl

/-- **Headline, re-keying.**  After any history, a type and a key arm RFC 2104's pads if and only if
    the pads held zeros behind the key; and then every message gives RFC 2104's HMAC under that key,
    if and only if its chunks fit. -/
theorem rekey_hmac (calls : List Call) {h : HashHmac} (hrun : new.runCalls calls = .ok h)
    (type : HashType) {a : HashAlg} (ht : HashAlg.ofType type = some a) (heap : Nat → UInt8)
    (K : Chunk) :
    (∃ h', new.runCalls (calls ++ [.setHashType type heap, .setHashKey K]) = .ok h' ∧
      ((h'.mIpad.bytes.take a.cls.blockLen = xorAll 0x36 (padKey a.digest a.cls.blockLen K.bytes) ∧
        h'.mOpad.bytes.take a.cls.blockLen = xorAll 0x5C (padKey a.digest a.cls.blockLen K.bytes)) ↔
        h.CleanTail a K.bytes)) ∧
    (h.CleanTail a K.bytes → ∀ r : Request, r.Room a →
      (hmacAfter calls type heap K r = .ok (r.answer a (rfc2104 a K.bytes r.message.text)) ↔
        Fits a.cls.blockLen 0 r.message.pieces)) := by
  obtain ⟨h', hre, hc⟩ := rekey_computing h type ht heap K
  have hafter := hmacAfter_eq calls hrun hre
  refine ⟨⟨h', hafter, ?_⟩, fun hk r hr => ?_⟩
  · rw [hc.inner, hc.outer]; exact pads_eq_iff h a K.bytes
  rw [hmacAfter, hafter, Run.ok_bind]
  constructor
  · intro hok
    rcases Classical.em (Fits a.cls.blockLen 0 r.message.pieces) with hf | hf
    · exact hf
    · rw [computeHmac_fault hc r hr hf] at hok; nomatch hok
  · intro hf
    obtain ⟨h2, hh2, -⟩ := computeHmac_computing hc r hr hf
    rw [hh2, Run.ok_bind, nested_eq_rfc2104 hk]

/-- A key as long as a block covers the pads whole, whatever was in them. -/
theorem cleanTail_of_block (h : HashHmac) {a : HashAlg} {K : List UInt8}
    (hK : K.length = a.cls.blockLen) :
    h.CleanTail a K := by
  have hkey : keyBytes a.digest a.cls.blockLen K = K := if_neg (by omega)
  have hnil : ∀ pad, tailOf a K pad = [] := by
    intro pad
    rw [tailOf, hkey]
    exact List.drop_eq_nil_of_le (by rw [List.length_take]; omega)
  have hz : ∀ pad, ∀ b ∈ tailOf a K pad, b = 0 := by
    intro pad b hb
    rw [hnil pad] at hb
    exact absurd hb List.not_mem_nil
  exact ⟨hz _, fun _ => hz _⟩

/-- The key `01`, then a key of a whole block: nothing of the first key is left, and the message
    `abc`, in two pieces, gives RFC 2104's HMAC under the second. -/
theorem rekey_hmac_block :
    hmacAfter [.setHashType .md5 (fun _ => 0), .setHashKey ⟨[1], by decide⟩] .md5 (fun _ => 0)
        ⟨List.replicate 64 0x4A, by decide⟩
        ⟨⟨[⟨[0x61], by decide⟩], ⟨[0x62, 0x63], by decide⟩⟩, List.replicate 16 0, 0⟩ =
      .ok (Request.answer ⟨⟨[⟨[0x61], by decide⟩], ⟨[0x62, 0x63], by decide⟩⟩,
        List.replicate 16 0, 0⟩
        .md5 (rfc2104 .md5 (List.replicate 64 0x4A) [0x61, 0x62, 0x63])) := by
  obtain ⟨h, hre, -⟩ := rekey_computing new .md5 rfl (fun _ => 0) ⟨[1], by decide⟩
  have hrun := hmacAfter_eq [] rfl hre
  have hclean : h.CleanTail .md5 (List.replicate 64 0x4A) := cleanTail_of_block h rfl
  exact ((rekey_hmac _ hrun .md5 rfl (fun _ => 0) ⟨List.replicate 64 0x4A, by decide⟩).2 hclean
    ⟨⟨[⟨[0x61], by decide⟩], ⟨[0x62, 0x63], by decide⟩⟩, List.replicate 16 0, 0⟩
    ⟨by decide, by decide⟩).mpr ⟨by decide, by decide, trivial⟩

/-- **The stale pads**: the key `01`, then the empty key.  The `0x36` and `0x5C` bytes of the first
    key stay behind the second, and are xored away. -/
theorem rekey_hmac_stale :
    ¬ ∀ (calls : List Call) (h : HashHmac), new.runCalls calls = .ok h →
      ∀ (type : HashType) (a : HashAlg), HashAlg.ofType type = some a →
      ∀ (heap : Nat → UInt8) (K : Chunk) (r : Request), r.Room a →
        hmacAfter calls type heap K r = .ok (r.answer a (rfc2104 a K.bytes r.message.text)) := by
  intro hall
  obtain ⟨h, hre, -⟩ := rekey_computing new .md5 rfl (fun _ => 0) ⟨[1], by decide⟩
  have hrun := hmacAfter_eq [] rfl hre
  have hout := hall _ h hrun .md5 .md5 rfl (fun _ => 0) .empty
    ⟨⟨[], .empty⟩, List.replicate 16 0, 0⟩
    ⟨by decide, by decide⟩
  have hcomp := congrArg Except.toOption hout
  revert hcomp
  decide +kernel

/-- **Headline, one key.**  A new object, a type, a key, and any number of messages: the outputs are
    RFC 2104's and the pads are armed for the next message, if and only if every message's chunks
    fit. -/
theorem hmac_stream (type : HashType) {a : HashAlg} (ht : HashAlg.ofType type = some a)
    (heap : Nat → UInt8)
    (K : Chunk) (rs : List Request) (hroom : ∀ r ∈ rs, r.Room a) :
    (∃ h h', new.rekey type heap K = .ok h ∧
      h.computeAll rs = .ok (h', rs.map fun r => r.answer a (rfc2104 a K.bytes r.message.text)) ∧
      h'.Computing a (xorAll 0x36 (padKey a.digest a.cls.blockLen K.bytes))
        (xorAll 0x5C (padKey a.digest a.cls.blockLen K.bytes)) []) ↔
    ∀ r ∈ rs, Fits a.cls.blockLen 0 r.message.pieces := by
  obtain ⟨h, hre, hc⟩ := rekey_computing new type ht heap K
  have hk := new_cleanTail a K.bytes
  obtain ⟨hi, ho⟩ := (pads_eq_iff new a K.bytes).mpr hk
  constructor
  · rintro ⟨h1, h', hre1, hall, -⟩
    obtain rfl : h = h1 := by rw [hre] at hre1; injection hre1
    exact computeAll_fits rs hc hroom hall
  · intro hf
    obtain ⟨h', hall, hc'⟩ := computeAll_computing rs hc hroom hf
    refine ⟨h, h', hre, ?_, by rw [← hi, ← ho]; exact hc'⟩
    rw [hall]
    simp only [nested_eq_rfc2104 hk]

/-- Two messages, the second truncated to four bytes. -/
theorem hmac_stream_two :
    ∃ h h', new.rekey .sha1 (fun _ => 0) .empty = .ok h ∧
      h.computeAll [⟨⟨[⟨[1], by decide⟩], .empty⟩, List.replicate 20 0, 0⟩,
        ⟨⟨[], ⟨[2], by decide⟩⟩, [7, 7, 7, 7], 4⟩] =
        .ok (h', [Request.answer ⟨⟨[⟨[1], by decide⟩], .empty⟩, List.replicate 20 0, 0⟩ .sha1
          (rfc2104 .sha1 [] [1]),
          Request.answer ⟨⟨[], ⟨[2], by decide⟩⟩, [7, 7, 7, 7], 4⟩ .sha1 (rfc2104 .sha1 [] [2])]) ∧
      h'.Computing .sha1 (xorAll 0x36 (padKey (HashAlg.digest .sha1) 64 []))
        (xorAll 0x5C (padKey (HashAlg.digest .sha1) 64 [])) [] :=
  (hmac_stream .sha1 rfl (fun _ => 0) .empty
    [⟨⟨[⟨[1], by decide⟩], .empty⟩, List.replicate 20 0, 0⟩,
      ⟨⟨[], ⟨[2], by decide⟩⟩, [7, 7, 7, 7], 4⟩]
    (by intro r hr
        rcases List.mem_cons.mp hr with rfl | hr
        · exact ⟨by decide, by decide⟩
        · obtain rfl := List.mem_singleton.mp hr
          exact ⟨by decide, by decide⟩)).mpr
    (by intro r hr
        rcases List.mem_cons.mp hr with rfl | hr
        · exact ⟨by decide, by decide, trivial⟩
        · obtain rfl := List.mem_singleton.mp hr
          exact ⟨by decide, trivial⟩)

/-- **The wrapping block loop**: one byte, then `2^32 - 1` bytes.  `i + 63` wraps at the end of the
    second chunk, and the loop transforms what lies behind it. -/
theorem hmac_stream_wraps :
    ¬ ∀ (type : HashType) (a : HashAlg), HashAlg.ofType type = some a →
      ∀ (heap : Nat → UInt8) (K : Chunk) (rs : List Request), (∀ r ∈ rs, r.Room a) →
      ∃ h h', new.rekey type heap K = .ok h ∧
        h.computeAll rs = .ok (h', rs.map fun r => r.answer a (rfc2104 a K.bytes r.message.text)) ∧
        h'.Computing a (xorAll 0x36 (padKey a.digest a.cls.blockLen K.bytes))
          (xorAll 0x5C (padKey a.digest a.cls.blockLen K.bytes)) [] := by
  intro hall
  have hlong : (List.replicate (2 ^ 32 - 1) (0 : UInt8)).length < 2 ^ 32 := by
    rw [List.length_replicate]; decide
  have hroom :
    ∀ r ∈ [(⟨⟨[⟨[0], by decide⟩], ⟨List.replicate (2 ^ 32 - 1) 0, hlong⟩⟩, List.replicate 16 0,
    0⟩ : Request)],
      r.Room .md5 := by
    intro r hr
    obtain rfl := List.mem_singleton.mp hr
    exact ⟨Nat.zero_le _, Nat.le_refl 16⟩
  obtain ⟨h, h', hre, hrun, -⟩ := hall .md5 .md5 rfl (fun _ => 0) .empty _ hroom
  obtain ⟨h1, hre1, hc⟩ := rekey_computing new .md5 rfl (fun _ => 0) .empty
  obtain rfl : h1 = h := by rw [hre1] at hre; injection hre
  -- the second chunk of the only message meets one byte
  obtain ⟨-, hfit, -⟩ := computeAll_fits _ hc hroom hrun _ (List.mem_singleton.mpr rfl)
  rw [show (0 + Chunk.len ⟨[0], by decide⟩) % HashAlg.md5.cls.blockLen = 1 from rfl, Chunk.len,
    List.length_replicate] at hfit
  omega

end HashHmac

end StevenProgram
