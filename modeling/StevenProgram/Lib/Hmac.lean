/-
  HMAC over an arbitrary hash, as RFC 2104 defines it.

  `H` is any function on byte strings and `B` its block size.  Nothing here knows how the inner and
  the outer hash are computed; `nested_padKey` is the form an implementation with two prepared pads
  has.
-/

namespace Hmac

/-- Every byte xored with `v`. -/
def xorAll (v : UInt8) (l : List UInt8) : List UInt8 := l.map (· ^^^ v)

/-- The same byte on both sides can be taken off. -/
theorem xorAll_injective {v : UInt8} {l m : List UInt8} (h : xorAll v l = xorAll v m) : l = m :=
  (List.map_inj_right fun a b hab => by
    have := congrArg (· ^^^ v) hab
    simpa [UInt8.xor_assoc] using this).mp h

variable (H : List UInt8 → List UInt8) (B : Nat)

/-- The key bytes the pads are made from: `K` itself, or `H(K)` for a `K` longer than a block. -/
def keyBytes (K : List UInt8) : List UInt8 := if B < K.length then H K else K

/-- `keyBytes` with zeros appended to a block. -/
def padKey (K : List UInt8) : List UInt8 :=
  keyBytes H B K ++ List.replicate (B - (keyBytes H B K).length) 0

/-- The two passes over prepared pads. -/
def nested (ipad opad text : List UInt8) : List UInt8 := H (opad ++ H (ipad ++ text))

/-- `H(K xor opad, H(K xor ipad, text))`. -/
def hmac (K text : List UInt8) : List UInt8 :=
  H (xorAll 0x5C (padKey H B K) ++ H (xorAll 0x36 (padKey H B K) ++ text))

/-- With the two pads of one key, the nested hash is HMAC. -/
theorem nested_padKey (K text : List UInt8) :
    nested H (xorAll 0x36 (padKey H B K)) (xorAll 0x5C (padKey H B K)) text = hmac H B K text := rfl

end Hmac
