/-
  What one call of `iterate` does where no value is.

  `Lines` follows the values that are there.  Here is the other side of a line that takes a value:
  on a cursor that `Views` a byte string, either a value with the tag of the line stands at the
  front of it, or the call returns false and hands out no object.  Nothing is assumed of the bytes.

  1.  **Lengths** (`tlv_of_asn1Length`) — a length that is accepted is the length of a value.

  2.  **Lines** (`parseObject_cases`, `iterate_cases`) — the two sides.

  So a walk over any bytes can be followed as long as its lines succeed, and where one does not the
  walk is over: there is no third outcome to carry along.
-/
import StevenProgram.Asn1.Lines
import StevenProgram.Asn1.Containment

namespace StevenProgram

open Asn1 Asn1Parser Der

namespace Asn1

variable {input : List UInt8}

/-- What the last test of `asn1Length` lets through. -/
theorem le_of_valid {len have_ v : Nat} (h : (if have_ < len then ASN1_INVALID_LENGTH else len) = v)
    (hv : v ≠ ASN1_INVALID_LENGTH) : len ≤ have_ := by
  split at h
  · exact absurd h.symm hv
  · next hlt => exact Nat.le_of_not_lt hlt

/-- **A length that is accepted** is the length of a value. -/
theorem tlv_of_asn1Length {pre cur post : List UInt8} (hin : input = pre ++ (cur ++ post)) {v : Nat}
    {body : Cursor}
    (h : asn1Length input ⟨some pre.length, cur.length⟩ = .ok (v, body))
    (hv : v ≠ ASN1_INVALID_LENGTH) :
    ∃ (t : AnyTlv) (rest : List UInt8), cur = t.bytes ++ rest := by
  rcases Nat.lt_or_ge cur.length 2 with hshort | hlong
  · rw [asn1Length, if_pos hshort] at h
    cases h
    exact absurd rfl hv
  · obtain ⟨tag, n, r, rfl⟩ : ∃ tag n r, cur = tag :: n :: r := by
      rcases cur with - | ⟨tag, - | ⟨n, r⟩⟩
      · exact absurd hlong (by decide)
      · exact absurd hlong (Nat.not_le.mpr Nat.one_lt_two)
      · exact ⟨tag, n, r, rfl⟩
    have hread : Cursor.read input ⟨some pre.length, (tag :: n :: r).length⟩ 1 = .ok n :=
      read_at hin 1 rfl
    rw [asn1Length_eq hlong hread] at h
    split at h
    · next h80 =>
      have hle : n.toNat ≤ r.length := le_of_valid (congrArg Prod.fst (Except.ok.inj h)) hv
      obtain ⟨t, rest, ht⟩ := exists_short tag h80 hle
      exact ⟨⟨tag, t⟩, rest, ht⟩
    · next h80 =>
      split at h
      · cases h
        exact absurd rfl hv
      · next hcount =>
        rw [not_or, not_or] at hcount
        obtain ⟨hpos, hfew, hfour⟩ := hcount
        -- the length octets, and what stands behind them
        obtain ⟨os, ys, hr, hos⟩ : ∃ os ys, r = os ++ ys ∧ os.length = (n &&& 0x7f).toNat :=
          ⟨r.take _, r.drop _, (List.take_append_drop _ r).symm,
            List.length_take_of_le (Nat.le_of_not_lt hfew)⟩
        have hlt : 0 * 256 ^ os.length + Bytes.beNat os < 2 ^ 32 := by
          have hpow : (256 : Nat) ^ os.length ≤ 256 ^ 4 := Nat.pow_le_pow_right (by decide)
            (by omega)
          have hnat := Bytes.beNat_lt os
          omega
        have hin' : input = (pre ++ [tag, n]) ++ ((os ++ ys) ++ post) := by
          rw [hin, hr]
          simp
        have hstart : (⟨some (pre.length + 2), (tag :: n :: r).length - 2⟩ : Cursor) =
            ⟨some (pre ++ [tag, n]).length, (os ++ ys).length⟩ := by
          rw [hr, List.length_append]
          rfl
        have hoctets := lengthOctets_at ys post os _ 0 hin' hlt
        rw [hstart, ← hos, hoctets, Run.ok_bind, Nat.zero_mul, Nat.zero_add] at h
        have hle :
          Bytes.beNat os ≤ ys.length := le_of_valid (congrArg Prod.fst (Except.ok.inj h)) hv
        obtain ⟨t, rest, ht⟩ := exists_long tag h80 hos.symm (by omega) (by omega) hle
        exact ⟨⟨tag, t⟩, rest, by rw [hr]; exact ht⟩

/-- The length of a value, or none. -/
theorem asn1Length_cases {pre cur post : List UInt8} (hin : input = pre ++ (cur ++ post)) :
    (∃ (t : AnyTlv) (rest : List UInt8), cur = t.bytes ++ rest) ∨
    ∃ body, asn1Length input ⟨some pre.length, cur.length⟩ = .ok (ASN1_INVALID_LENGTH, body) := by
  rcases Nat.lt_or_ge cur.length 2 with hshort | hlong
  · exact .inr ⟨_, if_pos hshort⟩
  · have hinside : pre.length + cur.length ≤ input.length := by
      rw [hin, List.length_append, List.length_append]
      omega
    obtain ⟨v, q, m, hlength, -⟩ := asn1Length_inside hinside hlong
    by_cases hv : v = ASN1_INVALID_LENGTH
    · exact .inr ⟨_, hv ▸ hlength⟩
    · exact .inl (tlv_of_asn1Length hin hlength hv)

/-! ## Lines

  A line that fails sets `mSuccess` to false and resets the object.  It does not take anything off
  its level, but the walk does not go on to see that. -/

/-- The call returns false and hands out no object. -/
def Stops (r : Run (Asn1Parser × Iterated)) : Prop :=
  ∃ s it, r = .ok (s, it) ∧ it.ret = false ∧ it.object = .null

/-- A failed line ends the walk. -/
theorem fail_stops (s : Asn1Parser) (line : Nat) : Stops (.ok (s.fail line)) :=
  ⟨_, _, rfl, rfl, rfl⟩

section Lines

variable {objects : List Asn1Object} {obj : Asn1Object} {i : Nat} {loop : Nat → Nat}
  {s : Asn1Parser}

/-- A value that the line takes stands at the front. -/
def Takes (obj : Asn1Object) (cur : List UInt8) (t : AnyTlv) (rest : List UInt8) : Prop :=
  cur = t.bytes ++ rest ∧ (obj.has ASN1_RAW = true ∨ t.tag.toNat = obj.type)

variable (objects i) in
/-- **A value, or the end.** -/
theorem parseObject_cases (hsize : input.length < 2 ^ 32) {cur : List UInt8}
    (hview : (s.mBlobs obj.level).Views input cur) (hchoice : obj.has ASN1_CHOICE = false)
    (himplicit : (s.mImplicit && i == 0) = false) :
    (∃ t rest, Takes obj cur t rest) ∨ Stops (s.parseObject objects input i obj) := by
  by_cases hvalue : ∃ (t : AnyTlv) (rest : List UInt8), cur = t.bytes ++ rest
  · obtain ⟨t, rest, rfl⟩ := hvalue
    by_cases htag : obj.has ASN1_RAW = true ∨ t.tag.toNat = obj.type
    · left
      exact ⟨t, rest, rfl, htag⟩
    · right
      rw [not_or] at htag
      obtain ⟨rc, bc, oc, -, -, -, hparse⟩ := parseObject_value objects i hsize t.tlv hview hchoice
      have hwrong : s.wrongType i obj t.tag = true := by
        unfold wrongType
        rw [himplicit]
        simpa using htag.2
      rw [hparse, if_neg htag.1, if_pos hwrong]
      apply fail_stops
  · right
    rw [parseObject]
    simp only []
    split
    · apply fail_stops
    · next hlen =>
      have hne : cur ≠ [] := by
        intro h
        rw [hview.len, h] at hlen
        exact hlen (by decide)
      obtain ⟨pre, post, hin, hblob⟩ := hview.at_of_ne_nil hne
      rcases asn1Length_cases hin with htlv | ⟨body, hinvalid⟩
      · exact absurd htlv hvalue
      · rw [hblob, hinvalid, Run.ok_bind]
        simp only []
        rw [if_pos trivial]
        apply fail_stops

/-- The line comes next, and its value may not be missing. -/
theorem iterate_cases (hsize : input.length < 2 ^ 32) (hline : objects[i]? = some obj)
    (hplain : (obj.has ASN1_EXIT || obj.has ASN1_END) = false)
    (hchoice : obj.has ASN1_CHOICE = false)
    (st : List (List UInt8)) {deep : List (List UInt8)} {cur : List UInt8}
    (hlevel : obj.level = st.length)
    (hmax : obj.level ≤ ASN1_MAX_LEVEL) (hs : Stage.Sees input ⟨i, loop, st ++ cur :: deep⟩ s)
    (himplicit : (s.mImplicit && i == 0) = false) (hmissing : s.missing input obj = .ok false) :
    (∃ t rest, Takes obj cur t rest) ∨ Stops (s.iterate objects input) := by
  rw [Bool.or_eq_false_iff] at hplain
  have hparse : s.parseLine objects input i obj = s.parseObject objects input i obj := by
    unfold parseLine
    rw [inArrays_ok hmax, Run.ok_bind, hmissing, Run.ok_bind]
    simp only [Bool.and_false, Bool.false_eq_true, if_false]
  rw [hs.next hline hplain.1, if_neg (ne_true_of_eq_false hplain.2)]
  simp only []
  rw [hparse]
  exact parseObject_cases objects i hsize (hs.top hlevel) hchoice himplicit

/-- A field that must be there. -/
theorem missing_required (hrequired : (obj.has ASN1_DEF || obj.has ASN1_OPT) = false) :
    s.missing input obj = .ok false := by
  unfold missing
  rw [hrequired, if_neg Bool.false_ne_true]

/-- A field whose tag stands there. -/
theorem missing_head {cur : List UInt8} {b : UInt8}
    (hview : (s.mBlobs obj.level).Views input (b :: cur))
    (hb : b.toNat = obj.type) : s.missing input obj = .ok false := by
  unfold missing
  split
  · obtain ⟨pre, post, hin, hblob⟩ := hview.at_of_ne_nil (List.cons_ne_nil b cur)
    rw [absent, hblob, if_neg (by simp), read_at hin 0 (b := b) rfl, Run.ok_bind, hb]
    simp
  · rfl

end Lines

end Asn1

end StevenProgram
