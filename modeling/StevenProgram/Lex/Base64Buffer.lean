/-
  `chunk_from_base64` on its own: into a buffer that `malloc` gives it, and into the text it
  decodes.

  The loop writes three bytes for every four digits, behind what it has read of the text, so
  decoding in place reads every digit before it is overwritten.  The text is decoded without a look
  at its alphabet or at where its `=` are: each takes one off the length, down to 0 and no further.
  The decoded length is an `s32_t`: for a text of 2863311532 digits or more it is negative, and
  nothing is decoded.

  1.  **A buffer of its own** — the store `Fresh`, and the loop on it (`decodeGroups_fresh`).
     `Filled` says what the buffer holds behind some writes; the bytes behind them are what `malloc`
     found there.

  2.  **The text as the buffer** (`base64_in_place`) — by the lemma on decoding in front of what is
     read.

  3.  **Alphabets** (`fromBase64_alphabet`) — the digits of the URL alphabet have the values of the
     ones they stand for, byte by byte, so the loops do the same on both.

  4.  **Headline** (`base64_inverts_iff`) — for every text: no fault, and nothing written behind the
     three bytes for each whole group; for every encoding: it is inverted exactly if the decoded
     length is not negative.
-/
import StevenProgram.Lex.PemRoundTrip

namespace StevenProgram

open Asn1 (Cursor)
open CString (Reads)
open Base64 (encode Alphabet urlDigit)

namespace Pem

open Lexparser TextStore

/-! ## A buffer of its own -/

/-- The text, and another buffer for what it decodes to. -/
structure Fresh where
  text : List UInt8
  buf : List UInt8
  written : Nat

instance : TextStore Fresh where
  size s := s.text.length
  read s p := readAt s.text p
  terminate s p := (writeAt s.text p 0).map fun text => { s with text }
  emit s q b := (writeAt s.buf q b).map fun buf =>
    { s with buf := buf, written := max s.written (q + 1) }
  decoded s n := s.buf.take n
  written s := s.written

/-- `buf = malloc(len)`; `heap` is what it holds before anything is written. -/
def Fresh.malloc (heap : Nat → UInt8) (text : List UInt8) : Fresh :=
  ⟨text, (List.range (base64Len text.length).toNat).map heap, 0⟩

/-- The buffer has the length that `BASE64_LEN` computes. -/
theorem Fresh.malloc_length (heap : Nat → UInt8) (text : List UInt8) :
    (Fresh.malloc heap text).buf.length = (base64Len text.length).toNat := by
  rw [Fresh.malloc]
  simp only [List.length_map, List.length_range]

/-- Which is at most three bytes for four digits. -/
theorem base64Len_le (n : Nat) : (base64Len n).toNat ≤ 3 * (n / 4) := by
  rcases Nat.lt_or_ge (n / 4 * 3) 2147483648 with h | h
  · rw [base64Len_eq h]
    omega
  · have hlt : base64Len n < (2 ^ 32 + 1) / 2 := Int.bmod_lt (by decide)
    omega

/-- What the buffer holds behind some writes from `at_` on. -/
structure Filled (s : Fresh) (at_ : Nat) (out : List UInt8) (s' : Fresh) : Prop where
  text_eq : s'.text = s.text
  size_eq : s'.buf.length = s.buf.length
  front : s'.buf.take (at_ + out.length) = s.buf.take at_ ++ out

/-- Nothing written fills nothing. -/
theorem Filled.refl (s : Fresh) (at_ : Nat) : Filled s at_ [] s :=
  ⟨rfl, rfl, (List.append_nil _).symm⟩

/-- Two fillings one behind the other. -/
theorem Filled.trans {s s1 s2 : Fresh} {at_ : Nat} {out out' : List UInt8} (h : Filled s at_ out s1)
    (h' : Filled s1 (at_ + out.length) out' s2) : Filled s at_ (out ++ out') s2 where
  text_eq := h'.text_eq.trans h.text_eq
  size_eq := h'.size_eq.trans h.size_eq
  front := by rw [List.length_append, ← Nat.add_assoc, h'.front, h.front, List.append_assoc]

/-- One byte. -/
theorem Filled.emit (s : Fresh) (at_ : Nat) (b : UInt8) (h : at_ < s.buf.length) :
    ∃ s', TextStore.emit s at_ b = .ok s' ∧ Filled s at_ [b] s' := by
  refine ⟨_, congrArg (Except.map _) (writeAt_lt h b), rfl, List.length_set .., ?_⟩
  exact take_succ_set h b

/-- The turns of the decoder in a buffer of its own. By induction on the turns, with the place the
    next three bytes go to. -/
theorem decodeGroups_fresh :
    ∀ (turns : Nat) {s : Fresh} {pos : Nat} (at_ : Nat) {data : List UInt8} (outlen : Nat),
    Reads (read s) pos data → 4 * turns ≤ data.length → at_ + 3 * turns ≤ s.buf.length →
    ∃ s', decodeGroups turns s pos at_ outlen = .ok (s', outLen turns data outlen) ∧
    Filled s at_ (decodeBytes turns data) s' := by
  intro turns
  induction turns with
  | zero =>
    intro s pos at_ data outlen _ _ _
    exact ⟨s, rfl, .refl s at_⟩
  | succ turns ih =>
    intro s pos at_ data outlen hr hlen hsize
    match data with
    | a :: b :: c :: d :: rest =>
      obtain ⟨ha, hb, hc, hd, hrest⟩ := hr
      simp only [List.length_cons] at hlen
      obtain ⟨s1, h1, hf1⟩ := Filled.emit s at_ (b642bin a <<< 2 ||| b642bin b >>> 4) (by omega)
      obtain ⟨s2, h2, hf2⟩ := Filled.emit s1 (at_ + 1) (b642bin b <<< 4 ||| b642bin c >>> 2)
        (by rw [hf1.size_eq]; omega)
      obtain ⟨s3, h3, hf3⟩ := Filled.emit s2 (at_ + 2) (b642bin c <<< 6 ||| b642bin d)
        (by rw [hf2.size_eq, hf1.size_eq]; omega)
      have hgroup := (hf1.trans hf2).trans hf3
      have hrest' : Reads (read s3) (pos + 4) rest :=
        hrest.congr fun p _ _ => congrArg (readAt · p) hgroup.text_eq
      obtain ⟨s', hs', hf⟩ :=
        ih (at_ + 3) (lessPad d (lessPad c (lessPad b (lessPad a (outlen + 3)))))
        hrest' (by omega) (by rw [hgroup.size_eq]; omega)
      refine ⟨s', ?_, hgroup.trans hf⟩
      simp only [decodeGroups, nextDigit, ha, hb, hc, hd, Run.ok_bind, h1, h2, h3, hs', outLen]
    | [] | [_] | [_, _] | [_, _, _] => simp only [List.length_cons, List.length_nil] at hlen; omega

/-- Equal reads are reads of equal bytes. -/
theorem readAt_inj {bs cs : List UInt8} {p : Nat} (h : readAt bs p = readAt cs p) :
    bs[p]? = cs[p]? := by
  rw [readAt, readAt] at h
  cases hb : bs[p]? with
  | none =>
    cases hc : cs[p]? with
    | none => rfl
    | some c =>
      rw [hb, hc] at h
      cases h
  | some b =>
    cases hc : cs[p]? with
    | none =>
      rw [hb, hc] at h
      cases h
    | some c =>
      rw [hb, hc] at h
      exact congrArg some (Except.ok.inj h)

/-- A text is read from its start. -/
theorem reads_all (bs : List UInt8) : Reads (readAt bs) 0 bs := readAt_reads [] bs

/-- The decoded bytes, from the front of what the groups decode to. -/
theorem take_decoded {mem data : List UInt8} {turns : Nat}
    (hturns : turns = base64Turns data.length)
    (h : mem.take (3 * turns) = decodeBytes turns data) :
    mem.take (fromBase64 data).length = fromBase64 data := by
  have hout := outLen_le turns data 0
  rw [fromBase64_length, ← hturns, fromBase64, ← hturns, ← h, List.take_take,
    Nat.min_eq_left (by omega)]

/-- The decoder in a fresh buffer, at its buffer's own length. -/
theorem base64_fresh (heap : Nat → UInt8) (text : Chunk) :
    ∃ s, chunk_from_base64 (Fresh.malloc heap text.bytes) ⟨some 0, text.len⟩ 0 = .ok
      (s, (fromBase64 text.bytes).length) ∧
      s.buf.length = (base64Len text.len).toNat ∧ decoded s (fromBase64 text.bytes).length =
        fromBase64 text.bytes := by
  have hturns := base64Turns_le text.bytes.length
  have hbuf : 3 * base64Turns text.bytes.length ≤ (Fresh.malloc heap text.bytes).buf.length := by
    rw [Fresh.malloc_length, base64Turns]
    omega
  have hreads : Reads (read (Fresh.malloc heap text.bytes)) 0 text.bytes := reads_all text.bytes
  obtain ⟨s, hs, hfilled⟩ := decodeGroups_fresh (base64Turns text.bytes.length) 0 0 hreads
    (by omega) (by omega)
  rw [← fromBase64_length] at hs
  refine ⟨s, hs, ?_, ?_⟩
  · rw [hfilled.size_eq, Fresh.malloc_length]
    rfl
  · have hfront := hfilled.front
    rw [decodeBytes_length _ _ (by omega), Nat.zero_add, List.take_zero, List.nil_append] at hfront
    exact take_decoded rfl hfront

/-! ## The text as the buffer -/

/-- The decoder over its own source: what it writes stays in front of what it has yet to read. -/
theorem base64_in_place (text : Chunk) :
    ∃ s, chunk_from_base64 (InPlace.of text.bytes) ⟨some 0, text.len⟩ 0 = .ok
      (s, (fromBase64 text.bytes).length) ∧
      written s ≤ 3 * (text.len / 4) ∧
      (∀ p, 3 * (text.len / 4) ≤ p → read s p = readAt text.bytes p) ∧
      decoded s (fromBase64 text.bytes).length = fromBase64 text.bytes := by
  have hlen : text.len = text.bytes.length := rfl
  have hturns := base64Turns_le text.bytes.length
  have hsize : size (InPlace.of text.bytes) = text.bytes.length := rfl
  have hreads : Reads (read (InPlace.of text.bytes)) 0 text.bytes := reads_all text.bytes
  obtain ⟨s, hs, hdecoded⟩ := decodeGroups_at (base64Turns text.bytes.length) 0 0 hreads (by omega)
    (Nat.le_refl 0) (by omega)
  rw [← fromBase64_length] at hs
  have hwritten := hdecoded.written_le
  have hzero : written (InPlace.of text.bytes) = 0 := rfl
  refine ⟨s, hs, by omega, fun p hp => hdecoded.later p (by omega), ?_⟩
  have hfront : s.mem.take (0 + (decodeBytes (base64Turns text.bytes.length) text.bytes).length) =
      text.bytes.take 0 ++ decodeBytes (base64Turns text.bytes.length) text.bytes :=
        hdecoded.decoded_eq
  rw [decodeBytes_length _ _ (by omega), Nat.zero_add, List.take_zero, List.nil_append] at hfront
  exact take_decoded rfl hfront

/-! ## Alphabets -/

/-- The digits of the URL alphabet have the values of the ones they stand for. -/
theorem b642bin_url : ∀ b : UInt8, b642bin (urlDigit b) = b642bin b := Base64.forall_byte
    (by decide +kernel)

/-- Padding is the same in both alphabets. -/
theorem urlDigit_pad : ∀ b : UInt8, urlDigit b = EQUALS ↔ b = EQUALS := Base64.forall_byte
    (by decide +kernel)

/-- So the padding shortens the result in the same way. -/
theorem lessPad_url (b : UInt8) (outlen : Nat) :
    lessPad (urlDigit b) outlen = lessPad b outlen := by
  rw [lessPad, lessPad]
  simp only [urlDigit_pad]

/-- The bytes of a text in the URL alphabet. -/
theorem decodeBytes_url :
    ∀ (turns : Nat) (data : List UInt8), decodeBytes turns (data.map urlDigit) =
      decodeBytes turns data := by
  intro turns
  induction turns with
  | zero => intro data; rfl
  | succ turns ih =>
    intro data
    match data with
    | a :: b :: c :: d :: rest => simp only [List.map_cons, decodeBytes, b642bin_url, ih rest]
    | [] | [_] | [_, _] | [_, _, _] => rfl

/-- Their number. -/
theorem outLen_url : ∀ (turns : Nat) (data : List UInt8) (outlen : Nat),
    outLen turns (data.map urlDigit) outlen = outLen turns data outlen := by
  intro turns
  induction turns with
  | zero => intro data outlen; rfl
  | succ turns ih =>
    intro data outlen
    match data with
    | a :: b :: c :: d :: rest => simp only [List.map_cons, outLen, lessPad_url, ih rest]
    | [] | [_] | [_, _] | [_, _, _] => rfl

/-- **Decoding does not depend on the alphabet.** -/
theorem fromBase64_alphabet (a : Alphabet) (x : List UInt8) :
    fromBase64 (a.encode x) = fromBase64 (encode x) := by
  cases a with
  | standard => rfl
  | urlSafe =>
    rw [Alphabet.encode, fromBase64, fromBase64, List.length_map, decodeBytes_url, outLen_url]

/-- What an encoding decodes to. -/
theorem fromBase64_iff (a : Alphabet) (x : List UInt8) (hfit : (a.encode x).length < 2 ^ 32) :
    fromBase64 (a.encode x) = x ↔ (a.encode x).length / 4 * 3 < 2 ^ 31 := by
  rw [fromBase64_alphabet, a.encode_length]
  rw [a.encode_length] at hfit
  constructor
  · intro h
    rcases Nat.lt_or_ge ((encode x).length / 4 * 3) 2147483648 with hlt | hge
    · exact hlt
    · rw [fromBase64_wraps hge hfit] at h
      rw [← h] at hge
      exact absurd hge (by decide)
  · exact fromBase64_encode

/-! ## Headline -/

/-- **Every text** is decoded without a fault, into at most 3 bytes for each whole group of 4, and
    nothing is written behind those, neither into the text nor into a buffer of that size.  **An
    encoding** gives back what it encodes, either way, exactly if the decoded length is not negative
    as an `s32_t`. -/
theorem base64_inverts_iff (heap : Nat → UInt8) (text : Chunk) :
    ∃ (s : InPlace) (f : Fresh) (outlen : Nat),
      chunk_from_base64 (InPlace.of text.bytes) ⟨some 0, text.len⟩ 0 = .ok (s, outlen) ∧
      chunk_from_base64 (Fresh.malloc heap text.bytes) ⟨some 0, text.len⟩ 0 = .ok (f, outlen) ∧
      outlen ≤ 3 * (text.len / 4) ∧ s.written ≤ 3 * (text.len / 4) ∧
      (∀ p, 3 * (text.len / 4) ≤ p → s.mem[p]? = text.bytes[p]?) ∧
      f.buf.length ≤ 3 * (text.len / 4) ∧
      ∀ (a : Alphabet) (x : List UInt8), text.bytes = a.encode x →
        ((s.mem.take outlen = x ↔ text.len / 4 * 3 < 2 ^ 31) ∧
          (f.buf.take outlen = x ↔ text.len / 4 * 3 < 2 ^ 31)) := by
  obtain ⟨s, hs, hwritten, hlater, hdecoded⟩ := base64_in_place text
  obtain ⟨f, hf, hcapacity, hfilled⟩ := base64_fresh heap text
  have hlen : text.len = text.bytes.length := rfl
  have hturns := base64Turns_le text.bytes.length
  have hout := outLen_le (base64Turns text.bytes.length) text.bytes 0
  rw [← fromBase64_length] at hout
  refine ⟨s, f, _, hs, hf, by omega, hwritten, ?_, ?_, ?_⟩
  · intro p hp
    exact readAt_inj (hlater p hp)
  · rw [hcapacity]
    exact base64Len_le text.len
  · intro a x htext
    have hiff := fromBase64_iff a x (htext ▸ text.len_lt)
    rw [← htext] at hiff
    constructor
    · rw [show s.mem.take _ = _ from hdecoded]
      exact hiff
    · rw [show f.buf.take _ = _ from hfilled]
      exact hiff

/-- Two bytes, in the alphabet for URLs. -/
theorem base64_inverts_iff_url :
    ∃ (s : InPlace) (f : Fresh) (outlen : Nat),
      chunk_from_base64 (InPlace.of [45, 95, 56, 61]) ⟨some 0, 4⟩ 0 = .ok (s, outlen) ∧
      chunk_from_base64 (Fresh.malloc (fun _ => 0) [45, 95, 56, 61]) ⟨some 0, 4⟩ 0 = .ok
        (f, outlen) ∧
      s.mem.take outlen = [0xfb, 0xff] ∧ f.buf.take outlen = [0xfb, 0xff] := by
  obtain ⟨s, f, outlen, hs, hf, -, -, -, -, hinverts⟩ := base64_inverts_iff (fun _ => 0)
    ⟨[45, 95, 56, 61], by decide⟩
  obtain ⟨hin, hfresh⟩ := hinverts .urlSafe [0xfb, 0xff] rfl
  exact ⟨s, f, outlen, hs, hf, hin.mpr (by decide), hfresh.mpr (by decide)⟩

/-- **The negative length**: 2147483649 zeros, which are 2863311532 `A`s, decode to nothing. -/
theorem base64_zeros_lost :
    ¬ ∀ (text : Chunk) (a : Alphabet) (x : List UInt8), text.bytes = a.encode x →
    ∃ (s : InPlace) (outlen : Nat), chunk_from_base64 (InPlace.of text.bytes) ⟨some 0, text.len⟩ 0 =
      .ok (s, outlen) ∧
      s.mem.take outlen = x := by
  intro h
  obtain ⟨x, hx, henc⟩ :
    ∃ x : List UInt8, x.length = 3 * 715827883 ∧ (encode x).length = 4 * 715827883 := by
    refine ⟨List.replicate (3 * 715827883) 0, List.length_replicate, ?_⟩
    rw [Base64.encode_zeros, List.length_replicate]
  have hfit : (encode x).length < 2 ^ 32 := by omega
  obtain ⟨s, outlen, hrun, htake⟩ := h ⟨encode x, hfit⟩ .standard x rfl
  obtain ⟨s', hrun', -⟩ := base64_in_place ⟨encode x, hfit⟩
  have hlost : fromBase64 (encode x) = [] := fromBase64_wraps (by omega) hfit
  simp only [hlost, List.length_nil] at hrun'
  obtain ⟨rfl, rfl⟩ := Prod.mk.inj (Except.ok.inj (hrun.symm.trans hrun'))
  rw [← htake] at hx
  cases hx

end Pem

end StevenProgram
