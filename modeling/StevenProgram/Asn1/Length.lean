/-
  The length field at the front of a blob, for every blob.

  1.  **Reach** (`asn1Length_within`) — what a call returns, and how far it moves the blob, is
     settled by the bytes of the blob, whatever stands around them; with nothing around them a
     further read would be a fault.

  2.  **Value** (`asn1Length_of_hasLength`) — a length that is there is returned, in any form.

  3.  **Both sides** (`asn1Length_iff`) — no other blob has a length, and the value that says so is
     no length.

  The indefinite form, a reserved first octet and a length of five octets or more are not lengths
  here, as they are not in the source.
-/
import StevenProgram.Asn1.Failures

namespace StevenProgram

open Asn1 Der

namespace Asn1

/-! ## Reach

  Each lemma fixes its results before the surroundings are chosen; this order of the quantifiers is
  what it means that the surroundings are not read. -/

/-- No length is read off a blob of fewer than two bytes. -/
theorem asn1Length_short {blob : Cursor} (h : blob.len < 2) (input : List UInt8) :
    asn1Length input blob = .ok (ASN1_INVALID_LENGTH, blob) := if_pos h

variable (bs : List UInt8)

/-- `ptr[i]` of a blob that has moved `k` bytes. -/
theorem read_within {k i : Nat} (len : Nat) (hk : k + i < bs.length) :
    ∃ b, ∀ pre post : List UInt8,
      Cursor.read (pre ++ (bs ++ post)) ⟨some (pre.length + k), len⟩ i = .ok b := by
  refine ⟨bs[k + i], ?_⟩
  intro pre post
  have hread : Cursor.read (pre ++ (bs ++ post)) ⟨some pre.length, len⟩ (k + i) = .ok bs[k + i] :=
    read_at rfl (k + i) (List.getElem?_eq_getElem hk)
  rw [← hread, Cursor.read, Cursor.read]
  simp only [Nat.add_assoc]

/-- The octets of a length depend on the blob alone, whatever stands around it. -/
theorem lengthOctets_within : ∀ (n k len : Nat), k + n ≤ bs.length →
    ∃ v, ∀ pre post : List UInt8,
      lengthOctets (pre ++ (bs ++ post)) n len ⟨some (pre.length + k), bs.length - k⟩ =
        .ok (v, ⟨some (pre.length + (k + n)), bs.length - (k + n)⟩)
  | 0, k, len, _ => ⟨len, fun _ _ => rfl⟩
  | n + 1, k, len, hk => by
      obtain ⟨b, hread⟩ := read_within bs (i := 0) (bs.length - k) (show k + 0 < bs.length by omega)
      obtain ⟨v, hrest⟩ := lengthOctets_within n (k + 1) ((256 * len + b.toNat) % 2 ^ 32) (by omega)
      refine ⟨v, ?_⟩
      intro pre post
      rw [lengthOctets, hread, Run.ok_bind, Cursor.advance_ok (by omega), Run.ok_bind,
        Nat.add_assoc, Nat.sub_sub,
        hrest, Nat.add_assoc, Nat.add_comm 1 n]

/-- **A call reads the blob only.** -/
theorem asn1Length_within : ∃ v k, k ≤ bs.length ∧ ∀ pre post : List UInt8,
    asn1Length (pre ++ (bs ++ post)) ⟨some pre.length, bs.length⟩ =
      .ok (v, ⟨some (pre.length + k), bs.length - k⟩) := by
  rcases Nat.lt_or_ge bs.length 2 with hshort | hlong
  · refine ⟨ASN1_INVALID_LENGTH, 0, Nat.zero_le _, ?_⟩
    intro pre post
    exact asn1Length_short hshort _
  · obtain ⟨n, hread⟩ : ∃ n, ∀ pre post : List UInt8,
        Cursor.read (pre ++ (bs ++ post)) ⟨some pre.length, bs.length⟩ 1 = .ok n :=
      read_within bs (k := 0) (i := 1) bs.length hlong
    by_cases h80 : n &&& 0x80 = 0
    · refine ⟨if bs.length - 2 < n.toNat then ASN1_INVALID_LENGTH else n.toNat, 2, hlong, ?_⟩
      intro pre post
      rw [asn1Length_eq hlong (hread pre post), if_pos h80]
    · by_cases hcount : (n &&& 0x7f).toNat = 0 ∨ bs.length - 2 < (n &&& 0x7f).toNat ∨
        4 < (n &&& 0x7f).toNat
      · refine ⟨ASN1_INVALID_LENGTH, 2, hlong, ?_⟩
        intro pre post
        rw [asn1Length_eq hlong (hread pre post), if_neg h80, if_pos hcount]
      · obtain ⟨v, hrest⟩ := lengthOctets_within bs (n &&& 0x7f).toNat 2 0 (by omega)
        refine ⟨if bs.length - (2 + (n &&& 0x7f).toNat) < v then ASN1_INVALID_LENGTH else v,
          2 + (n &&& 0x7f).toNat, by omega, ?_⟩
        intro pre post
        rw [asn1Length_eq hlong (hread pre post), if_neg h80, if_neg hcount, hrest, Run.ok_bind]

variable {bs}

/-! ## Value -/

/-- **A length that is there is returned**, and the blob stands behind tag and length. -/
theorem asn1Length_of_hasLength {form : LenForm} {L : Nat} (h : HasLength form L bs)
    (hbs : bs.length < 2 ^ 32)
    (pre post : List UInt8) :
    asn1Length (pre ++ (bs ++ post)) ⟨some pre.length, bs.length⟩ =
      .ok (L, ⟨some (pre.length + (1 + (form.encode L).length)),
        bs.length - (1 + (form.encode L).length)⟩) := by
  have hlt : L < 2 ^ 32 := Nat.lt_trans h.lt_length hbs
  obtain ⟨t, rest, rfl, rfl, rfl⟩ := h.tlv
  have hheader : t.tlv.header.length = 1 + (t.tlv.form.encode t.tlv.body.length).length :=
    Nat.add_comm _ 1
  have hrest : (t.bytes ++ rest).length - t.tlv.header.length = (t.tlv.body ++ rest).length := by
    rw [AnyTlv.bytes, Tlv.bytes, List.append_assoc, List.length_append, Nat.add_sub_cancel_left]
  rw [← hheader, hrest, ← List.length_append]
  exact asn1Length_tlv t.tlv rfl hlt

/-! ## Both sides

  `HasLength` is the relation of the encoding; it knows nothing of cursors or of
  `ASN1_INVALID_LENGTH`. -/

/-- **The length field of a blob.**  Below two bytes the pointer, which may be NULL, is not
    followed. -/
theorem asn1Length_iff (blob : Chunk) : ∃ v k, k ≤ blob.len ∧
    (∀ pre post : List UInt8, asn1Length (pre ++ (blob.bytes ++ post)) ⟨some pre.length, blob.len⟩ =
      .ok (v, ⟨some (pre.length + k), blob.len - k⟩)) ∧
    (∀ form L, HasLength form L blob.bytes → v = L ∧ k = 1 + (form.encode L).length ∧
      L ≤ blob.len - k) ∧
    (v = ASN1_INVALID_LENGTH ↔ ∀ form L, ¬ HasLength form L blob.bytes) ∧
    (∀ input ptr, blob.len < 2 → asn1Length input ⟨ptr, blob.len⟩ = .ok (ASN1_INVALID_LENGTH,
      ⟨ptr, blob.len⟩)) := by
  obtain ⟨v, k, hk, hrun⟩ := asn1Length_within blob.bytes
  have hhas : ∀ form L, HasLength form L blob.bytes → v = L ∧ k = 1 + (form.encode L).length ∧
    L ≤ blob.len - k := by
    intro form L hL
    have hread := asn1Length_of_hasLength hL blob.len_lt [] []
    rw [hrun [] []] at hread
    simp only [Except.ok.injEq, Prod.mk.injEq, Cursor.mk.injEq, Option.some.injEq] at hread
    obtain ⟨hv, hptr, -⟩ := hread
    have hkL : k = 1 + (form.encode L).length := Nat.add_left_cancel hptr
    refine ⟨hv, hkL, ?_⟩
    rw [hkL]
    exact hL.le_rest
  refine ⟨v, k, hk, hrun, hhas, ⟨?_, ?_⟩, fun input _ hshort => asn1Length_short hshort input⟩
  · intro hv form L hL
    have hlt := hL.lt_length
    have hmax := blob.len_lt
    have hL : L = 4294967295 := (hhas form L hL).1.symm.trans hv
    omega
  · intro hnone
    rcases asn1Length_cases (Eq.refl ([] ++ (blob.bytes ++ []))) with ⟨t, rest, ht⟩ | ⟨body,
      hinvalid⟩
    · exact absurd (ht ▸ HasLength.of_tlv t rest) (hnone _ _)
    · exact congrArg Prod.fst (Except.ok.inj ((hrun [] []).symm.trans hinvalid))

end Asn1

end StevenProgram
