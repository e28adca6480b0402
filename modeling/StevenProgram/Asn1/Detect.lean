/-
  What `isAsn1Encode` accepts.

  `getCertEncoding` asks it whether a file that is not PEM is DER. The length decoder works on the
  32 bits of an `s32_t` and moves the cursor before it compares; still a length is only returned
  when that many bytes are there, so a blob is accepted exactly if one value fills it, up to a
  newline behind it.

  1.  **Values** (`isAsn1Encode_tlv`) — the answer where a value stands at the front of the blob.

  2.  **No value** (`isAsn1Encode_other`) — and where none does.

  3.  **Headline** (`isAsn1Encode_iff`) — for every blob, wherever it is.

  Nothing is asked of the contents: neither what stands inside the value nor that its length is
  written in the shortest form.
-/
import StevenProgram.Asn1.Failures

namespace StevenProgram

open Asn1 Asn1Parser Der

namespace Asn1

/-- The tags that `isAsn1Encode` looks for. -/
def Detected (tag : UInt8) : Prop :=
  tag.toNat = ASN1_PARSER_SEQUENCE ∨ tag.toNat = ASN1_PARSER_SET ∨
    tag.toNat = ASN1_PARSER_OCTET_STRING

/-- One value under such a tag, with at most four length octets, and perhaps a newline. -/
def WholeObject (bs : List UInt8) : Prop :=
  ∃ t : AnyTlv, Detected t.tag ∧ (bs = t.bytes ∨ bs = t.bytes ++ [0x0a])

variable {input pre bs post : List UInt8}

/-- The test of the tag. -/
theorem isAsn1Encode_tag {tag : UInt8} {r : List UInt8}
    (hin : input = pre ++ ((tag :: r) ++ post)) :
    isAsn1Encode input ⟨some pre.length, (tag :: r).length⟩ =
      if tag.toNat ≠ ASN1_PARSER_SEQUENCE ∧ tag.toNat ≠ ASN1_PARSER_SET ∧
      tag.toNat ≠ ASN1_PARSER_OCTET_STRING then .ok false
      else (do
        let (len, blob) ← asn1Length input ⟨some pre.length, (tag :: r).length⟩
        if len = ASN1_INVALID_LENGTH then .ok false
        else if len = blob.len then .ok true
        else if (len + 1) % 2 ^ 32 = blob.len then do
          let c ← blob.read input len
          .ok (c.toNat == 0x0a)
        else .ok false) := by
  have hsome : ¬ ((tag :: r).length = 0 ∨ (some pre.length : Option Nat) = none) :=
    not_or.mpr ⟨Nat.succ_ne_zero _, Option.some_ne_none _⟩
  have hread : Cursor.read input ⟨some pre.length, (tag :: r).length⟩ 0 = .ok tag :=
    read_at hin 0 rfl
  rw [isAsn1Encode]
  simp only [if_neg hsome, hread, Run.ok_bind]

/-- The three tags that `isAsn1Encode` looks for, told apart. -/
theorem not_detected {tag : UInt8} :
    ¬ Detected tag ↔ tag.toNat ≠ ASN1_PARSER_SEQUENCE ∧ tag.toNat ≠ ASN1_PARSER_SET ∧
    tag.toNat ≠ ASN1_PARSER_OCTET_STRING := by
  rw [Detected, not_or, not_or]

/-! ## Values

  One value, and behind it nothing, one newline, or anything else: only the first two are accepted.
  -/

/-- **A value, and what stands behind it.** -/
theorem isAsn1Encode_tlv (t : AnyTlv) (htag : Detected t.tag) {rest : List UInt8}
    (hin : input = pre ++ ((t.bytes ++ rest) ++ post))
    (hsize : (t.bytes ++ rest).length < 2 ^ 32) :
    isAsn1Encode input ⟨some pre.length, (t.bytes ++ rest).length⟩ = .ok
      (decide (rest = [] ∨ rest = [0x0a])) := by
  have hheader := t.tlv.two_le_header
  have hbytes : t.bytes.length = t.tlv.header.length + t.tlv.body.length := List.length_append
  have hlength : asn1Length input ⟨some pre.length, (t.bytes ++ rest).length⟩ =
      .ok (t.tlv.body.length, ⟨some (pre ++ t.tlv.header).length, (t.tlv.body ++ rest).length⟩) :=
    asn1Length_tlv t.tlv hin (by rw [List.length_append] at hsize; omega)
  have hcons :
    t.bytes ++ rest = t.tag :: (t.tlv.form.encode t.tlv.body.length ++ t.tlv.body ++ rest) := rfl
  have htagged := isAsn1Encode_tag (hcons ▸ hin)
  rw [← hcons, if_neg (fun h => (not_detected.mpr h) htag), hlength, Run.ok_bind] at htagged
  rw [htagged]
  rw [List.length_append] at hsize
  have hvalid : t.tlv.body.length ≠ ASN1_INVALID_LENGTH := by
    show t.tlv.body.length ≠ 4294967295
    omega
  have hleft : (t.tlv.body ++ rest).length = t.tlv.body.length + rest.length := List.length_append
  simp only [if_neg hvalid, hleft]
  rcases rest with - | ⟨c, - | ⟨c', rest⟩⟩
  · exact if_pos rfl
  · -- one byte more than the contents
    have hread :
      Cursor.read input ⟨some (pre ++ t.tlv.header).length,
      t.tlv.body.length + 1⟩ t.tlv.body.length = .ok c := by
      have hsplit : input = pre ++ t.tlv.header ++ (t.tlv.body ++ [c] ++ post) := by
        rw [hin]
        simp only [AnyTlv.bytes, Tlv.bytes, List.append_assoc]
      refine read_at hsplit _ ?_
      · rw [List.getElem?_append_right (Nat.le_refl _), Nat.sub_self]
        rfl
    rw [List.length_singleton, if_neg (by omega), if_pos (by omega), hread, Run.ok_bind]
    congr 1
    rw [Bool.eq_iff_iff, beq_iff_eq, decide_eq_true_eq]
    constructor
    · intro hc
      exact .inr
        (by rw [UInt8.toNat_inj.mp (hc.trans (show (10 : Nat) = (0x0a : UInt8).toNat from rfl))])
    · intro hc
      rcases hc with hc | hc
      · cases hc
      · rw [List.cons.inj hc |>.1]
        rfl
  · rw [List.length_cons, List.length_cons] at hsize ⊢
    rw [if_neg (by omega), if_neg (by omega)]
    congr 1
    symm
    rw [decide_eq_false_iff_not, not_or]
    exact ⟨List.cons_ne_nil _ _, fun h => by cases (List.cons.inj h).2⟩

/-! ## No value

  An invalid length ends the function before the two comparisons with what is left. -/

/-- **The tag is another one, or no value with it stands at the front.** -/
theorem isAsn1Encode_other (hin : input = pre ++ (bs ++ post))
    (hnone : ∀ (t : AnyTlv) (rest : List UInt8), Detected t.tag → bs ≠ t.bytes ++ rest) :
    isAsn1Encode input ⟨some pre.length, bs.length⟩ = .ok false := by
  cases bs with
  | nil => exact if_pos (.inl rfl)
  | cons tag r =>
    rw [isAsn1Encode_tag hin]
    by_cases htag : Detected tag
    · rw [if_neg (fun h => (not_detected.mpr h) htag)]
      rcases asn1Length_cases hin with ⟨t, rest, ht⟩ | ⟨body, hinvalid⟩
      · have htag' : t.tag = tag := (List.cons.inj (show t.tag :: _ = tag :: r from ht.symm)).1
        exact absurd ht (hnone t rest (by rw [htag']; exact htag))
      · rw [hinvalid, Run.ok_bind]
        exact if_pos rfl
    · exact if_pos (not_detected.mp htag)

/-! ## Headline

  A blob has at most one value at its front (`rest_unique`), which turns the two lemmas into an
  equivalence. -/

/-- A whole object is a TLV of such a tag, with or without one newline behind it. -/
theorem wholeObject_append {bs : List UInt8} :
    WholeObject bs ↔ ∃ (t : AnyTlv) (rest : List UInt8), Detected t.tag ∧ bs = t.bytes ++ rest ∧
    (rest = [] ∨ rest = [0x0a]) := by
  constructor
  · intro h
    obtain ⟨t, htag, hwhole⟩ := h
    rcases hwhole with h | h
    · exact ⟨t, [], htag, by rw [h, List.append_nil], .inl rfl⟩
    · exact ⟨t, [0x0a], htag, h, .inr rfl⟩
  · intro h
    obtain ⟨t, rest, htag, rfl, hrest⟩ := h
    refine ⟨t, htag, ?_⟩
    rcases hrest with rfl | rfl
    · exact .inl (List.append_nil _)
    · exact .inr rfl

/-- A blob is split in one way: its front is read off it. -/
theorem rest_unique {t t' : AnyTlv} {rest rest' : List UInt8} (htag : Detected t.tag)
    (htag' : Detected t'.tag)
    (heq : t.bytes ++ rest = t'.bytes ++ rest') (hsize : (t.bytes ++ rest).length < 2 ^ 32) :
    (rest = [] ∨ rest = [0x0a]) ↔ (rest' = [] ∨ rest' = [0x0a]) := by
  have hrun :
    isAsn1Encode (t.bytes ++ rest) ⟨some 0, (t.bytes ++ rest).length⟩ = .ok
    (decide (rest = [] ∨ rest = [0x0a])) :=
    @isAsn1Encode_tlv _ [] [] t htag rest (List.append_nil _).symm hsize
  rw [heq] at hrun hsize
  have hrun' : isAsn1Encode (t'.bytes ++ rest') ⟨some 0, (t'.bytes ++ rest').length⟩ =
      .ok (decide (rest' = [] ∨ rest' = [0x0a])) := @isAsn1Encode_tlv _ [] [] t' htag' rest'
        (List.append_nil _).symm hsize
  exact decide_eq_decide.mp (Except.ok.inj (hrun.symm.trans hrun'))

/-- **`isAsn1Encode` accepts exactly whole objects**, on every blob wherever it stands, and reads
    nothing outside. -/
theorem isAsn1Encode_iff (blob : Chunk) :
    (∀ pre post : List UInt8, ∃ b, isAsn1Encode (pre ++ (blob.bytes ++ post)) ⟨some pre.length,
      blob.len⟩ = .ok b ∧
      (b = true ↔ WholeObject blob.bytes)) ∧
    ∀ (input : List UInt8) (len : Nat), isAsn1Encode input ⟨none, len⟩ = .ok false := by
  refine ⟨?_, fun _ _ => if_pos (.inr rfl)⟩
  intro pre post
  have hsize : blob.bytes.length < 2 ^ 32 := blob.len_lt
  have hlen : blob.len = blob.bytes.length := rfl
  rw [hlen, wholeObject_append]
  by_cases hfront :
    ∃ (t : AnyTlv) (rest : List UInt8), Detected t.tag ∧ blob.bytes = t.bytes ++ rest
  · obtain ⟨t, rest, htag, hbytes⟩ := hfront
    rw [hbytes] at hsize ⊢
    refine ⟨_, isAsn1Encode_tlv t htag rfl hsize, ?_⟩
    rw [decide_eq_true_eq]
    constructor
    · intro hrest
      exact ⟨t, rest, htag, rfl, hrest⟩
    · intro hwhole
      obtain ⟨t', rest', htag', heq, hrest'⟩ := hwhole
      exact (rest_unique htag htag' heq hsize).mpr hrest'
  · have hnone :
      ∀ (t : AnyTlv) (rest : List UInt8), Detected t.tag → blob.bytes ≠ t.bytes ++ rest :=
      fun t rest htag hbytes => hfront ⟨t, rest, htag, hbytes⟩
    refine ⟨false, isAsn1Encode_other rfl hnone, ?_⟩
    constructor
    · intro h
      cases h
    · intro hwhole
      obtain ⟨t, rest, htag, hbytes, -⟩ := hwhole
      exact absurd hbytes (hnone t rest htag)

end Asn1

end StevenProgram
