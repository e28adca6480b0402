/-
  Tag, length and contents: the definite-length encodings of BER.

  A length has several definite forms: the short one, and for every number of octets that can hold
  it a long one (DER allows only the shortest).  A `Tlv tag` carries the form it is written in, with
  the proof that its length fits; `Wrapped tag content` is the same for given contents, so that a
  nested value is a record whose outer form fits its inner encoding by construction.

  Nothing here is about a reader: the forms are what an encoding may be, and the lemmas say in how
  many ways a string of bytes can be one.
-/
import StevenProgram.Lib.Bytes

namespace Der

open Bytes

/-- How a definite length is written: one octet, or a count `n` of octets and the octets. -/
inductive LenForm where
  | short
  | long (n : Nat)
  deriving DecidableEq

namespace LenForm

/-- The form can hold the length. -/
def Fits : LenForm → Nat → Prop
  | short, len => len < 128
  | long n, len => 0 < n ∧ n < 127 ∧ len < 256 ^ n

instance : ∀ (f : LenForm) (len : Nat), Decidable (f.Fits len)
  | short, len => inferInstanceAs (Decidable (len < 128))
  | long n, len => inferInstanceAs (Decidable (0 < n ∧ n < 127 ∧ len < 256 ^ n))

/-- The number of length octets behind the first. -/
def octets : LenForm → Nat
  | short => 0
  | long n => n

/-- The octets of a length in a form. -/
def encode : LenForm → Nat → List UInt8
  | short, len => [UInt8.ofNat len]
  | long n, len => UInt8.ofNat (0x80 + n) :: beBytes n len

end LenForm

/-- A value under a tag, with at most four length octets. -/
structure Tlv (tag : UInt8) where
  form : LenForm
  body : List UInt8
  fits : form.Fits body.length
  octets : form.octets ≤ 4

namespace Tlv

/-- No contents. -/
def empty (tag : UInt8) : Tlv tag := ⟨.short, [], by decide, by decide⟩

variable {tag : UInt8} (t : Tlv tag)

/-- Tag and length. -/
def header : List UInt8 := tag :: t.form.encode t.body.length

/-- Tag, length and contents. -/
def bytes : List UInt8 := t.header ++ t.body

theorem bytes_cons : t.bytes = tag :: (t.form.encode t.body.length ++ t.body) := rfl

/-- A header is a tag and at least one octet of length. -/
theorem two_le_header : 2 ≤ t.header.length := by
  unfold header
  cases t.form <;> simp only [LenForm.encode, List.length_cons] <;> omega

end Tlv

/-- A value under any tag. -/
structure AnyTlv where
  tag : UInt8
  tlv : Tlv tag

def AnyTlv.bytes (t : AnyTlv) : List UInt8 := t.tlv.bytes

/-- How given contents are written under a tag. -/
structure Wrapped (tag : UInt8) (content : List UInt8) where
  form : LenForm
  fits : form.Fits content.length
  octets : form.octets ≤ 4

def Wrapped.tlv {tag : UInt8} {content : List UInt8} (w : Wrapped tag content) : Tlv tag :=
  ⟨w.form, content, w.fits, w.octets⟩

/-- The bytes of a value that may be absent. -/
def optBytes {tag : UInt8} : Option (Tlv tag) → List UInt8
  | none => []
  | some t => t.bytes

/-! ## Reading a length octet

  The top bit tells the two forms apart. -/

/-- A length below 128 is its own octet, with the top bit clear. -/
theorem short_octet {len : Nat} (h : len < 128) :
    UInt8.ofNat len &&& 0x80 = 0 ∧ (UInt8.ofNat len).toNat = len :=
  (by decide : ∀ len < 128, UInt8.ofNat len &&& 0x80 = 0 ∧ (UInt8.ofNat len).toNat = len) len h

/-- Otherwise the first octet has the top bit set, and the number of octets behind it. -/
theorem long_octet {n : Nat} (h : n < 128) :
    UInt8.ofNat (0x80 + n) &&& 0x80 ≠ 0 ∧ (UInt8.ofNat (0x80 + n) &&& 0x7f).toNat = n :=
  (by decide : ∀ n < 128,
    UInt8.ofNat (0x80 + n) &&& 0x80 ≠ 0 ∧ (UInt8.ofNat (0x80 + n) &&& 0x7f).toNat = n) n h

/-! ## Values at the front of a byte string

  A string has at most one value at its front, and what is behind it is then known. -/

/-- And back: an octet with the top bit clear is a length below 128. -/
theorem short_of_octet {n : UInt8} (h : n &&& 0x80 = 0) : n.toNat < 128 := by
  have hall : ∀ k < 256, UInt8.ofNat k &&& 0x80 = 0 → k < 128 := by decide +kernel
  refine hall n.toNat n.toNat_lt ?_
  rw [UInt8.ofNat_toNat]
  exact h

/-- And one with it set counts octets. -/
theorem long_of_octet {n : UInt8} (h : n &&& 0x80 ≠ 0) :
    n = UInt8.ofNat (0x80 + (n &&& 0x7f).toNat) := by
  have hall : ∀ k < 256, UInt8.ofNat k &&& 0x80 ≠ 0 →
      UInt8.ofNat k = UInt8.ofNat (0x80 + (UInt8.ofNat k &&& 0x7f).toNat) := by decide +kernel
  have hn := hall n.toNat n.toNat_lt
  rw [UInt8.ofNat_toNat] at hn
  exact hn h

variable (tag : UInt8) {n : UInt8} {os r : List UInt8}

/-- One length octet, and enough behind it. -/
theorem exists_short (h80 : n &&& 0x80 = 0) (hle : n.toNat ≤ r.length) :
    ∃ (t : Tlv tag) (rest : List UInt8), tag :: n :: r = t.bytes ++ rest := by
  have hlen : (r.take n.toNat).length = n.toNat := List.length_take_of_le hle
  refine ⟨⟨.short, r.take n.toNat, ?_, by decide⟩, r.drop n.toNat, ?_⟩
  · show (r.take n.toNat).length < 128
    rw [hlen]
    exact short_of_octet h80
  · show tag :: n :: r = (tag :: UInt8.ofNat (r.take n.toNat).length :: r.take n.toNat) ++
      r.drop n.toNat
    rw [hlen, UInt8.ofNat_toNat, List.cons_append, List.cons_append, List.take_append_drop]

/-- Up to four length octets, and enough behind them. -/
theorem exists_long (h80 : n &&& 0x80 ≠ 0) (hn : (n &&& 0x7f).toNat = os.length)
    (hpos : 0 < os.length)
    (hfour : os.length ≤ 4) (hle : beNat os ≤ r.length) :
    ∃ (t : Tlv tag) (rest : List UInt8), tag :: n :: (os ++ r) = t.bytes ++ rest := by
  have hlen : (r.take (beNat os)).length = beNat os := List.length_take_of_le hle
  refine ⟨⟨.long os.length, r.take (beNat os), ?_, hfour⟩, r.drop (beNat os), ?_⟩
  · show 0 < os.length ∧ os.length < 127 ∧ (r.take (beNat os)).length < 256 ^ os.length
    rw [hlen]
    exact ⟨hpos, by omega, beNat_lt os⟩
  · show tag :: n :: (os ++ r) = (tag :: UInt8.ofNat (0x80 + os.length) ::
      beBytes os.length (r.take (beNat os)).length) ++ r.take (beNat os) ++ r.drop (beNat os)
    rw [hlen, beBytes_beNat, ← hn, ← long_of_octet h80, List.append_assoc, List.take_append_drop]
    rfl

/-! ## Lengths at the front of a byte string

  The same for tag and length alone, where the contents need not be there. -/

/-- A definite length of at most four octets behind a tag, and that many bytes behind it. -/
structure HasLength (form : LenForm) (len : Nat) (bs : List UInt8) : Prop where
  fits : form.Fits len
  octets : form.octets ≤ 4
  split : ∃ (tag : UInt8) (rest : List UInt8), bs = tag :: (form.encode len ++ rest) ∧
    len ≤ rest.length

namespace HasLength

variable {form : LenForm} {len : Nat} {bs : List UInt8}

/-- There a value stands. -/
theorem tlv (h : HasLength form len bs) :
    ∃ (t : AnyTlv) (rest : List UInt8), t.tlv.form = form ∧ t.tlv.body.length = len ∧
    bs = t.bytes ++ rest := by
  obtain ⟨hfits, hoct, tag, rest, rfl, hle⟩ := h
  have hlen : (rest.take len).length = len := List.length_take_of_le hle
  refine ⟨⟨tag, form, rest.take len, ?_, hoct⟩, rest.drop len, rfl, hlen, ?_⟩
  · rw [hlen]
    exact hfits
  · show tag :: (form.encode len ++ rest) =
      (tag :: (form.encode (rest.take len).length ++ rest.take len)) ++ rest.drop len
    rw [hlen, List.cons_append, List.append_assoc, List.take_append_drop]

/-- A value at the front of a text shows its length there. -/
theorem of_tlv (t : AnyTlv) (rest : List UInt8) :
    HasLength t.tlv.form t.tlv.body.length (t.bytes ++ rest) where
  fits := t.tlv.fits
  octets := t.tlv.octets
  split := by
    refine ⟨t.tag, t.tlv.body ++ rest, ?_, ?_⟩
    · rw [AnyTlv.bytes, Tlv.bytes_cons, List.cons_append, List.append_assoc]
    · rw [List.length_append]
      exact Nat.le_add_right _ _

/-- The length that is shown does not reach behind the text. -/
theorem le_rest (h : HasLength form len bs) : len ≤ bs.length - (1 + (form.encode len).length) := by
  obtain ⟨-, -, tag, rest, rfl, hle⟩ := h
  rw [List.length_cons, List.length_append]
  omega

/-- And is below the length of all of it. -/
theorem lt_length (h : HasLength form len bs) : len < bs.length := by
  obtain ⟨-, -, tag, rest, rfl, hle⟩ := h
  rw [List.length_cons, List.length_append]
  omega

end HasLength

end Der
