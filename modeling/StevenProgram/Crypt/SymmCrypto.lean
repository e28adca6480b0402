/-
  `SymmCryptoSSl` (`symmCryptoSsl.cpp`): which cipher and which key an object is left with.

  `setCryptoType` assigns `mKeyLen` and `mpCipher` in one branch for each algorithm, some before and
  some without a check of the key size, and takes the call for a success if `mpCipher` is not NULL
  afterwards.  So a request that is not supported succeeds with the cipher of an earlier one, under
  a length of its own, and a lookup that fails leaves an old key buffer with a new length.

  1. **Code** — `setCryptoType`, with its switch apart, and `setKey`.
  2. **Supported combinations** — `supported`, by a table; `switch_eq` says what the switch does by
     it.
  3. **A call** — `meets_iff`: `Meets` is what a call should do and `Clean` when it does.
  4. **Runs** — `crypto_type_run`: in a run of clean calls the configuration is that of the last
     request that was accepted.

  The EVP lookups are a map with or without some entries, and `malloc` gives memory with any
  contents or NULL.  The block and IV sizes are left out.
-/
import StevenProgram.Common.Mem
import StevenProgram.Lib.TransSys

namespace StevenProgram

namespace Crypt

/-! ## Code

  The branches of the switch are of three kinds, told by when the key size is looked at.  Each
  assigns to members as it goes, and an early `break` leaves them as they are by then. -/

abbrev ENCR_DES : UInt32 := 2
abbrev ENCR_3DES : UInt32 := 3
abbrev ENCR_RC5 : UInt32 := 4
abbrev ENCR_IDEA : UInt32 := 5
abbrev ENCR_CAST : UInt32 := 6
abbrev ENCR_BLOWFISH : UInt32 := 7
abbrev ENCR_NULL : UInt32 := 11
abbrev ENCR_AES_CBC : UInt32 := 12
abbrev ENCR_CAMELLIA_CBC : UInt32 := 23
abbrev ENCR_DES_ECB : UInt32 := 1025

/-- The EVP functions that give a cipher. -/
inductive Lookup where
  | EVP_enc_null
  | EVP_des_ecb
  | EVP_get_cipherbyname (name : String)
  deriving DecidableEq, Repr

/-- What the next `malloc` gives: NULL, or memory with these bytes. -/
abbrev Fresh : Type := Option (Nat → UInt8)

/-- `malloc(size)`: NULL, or memory with whatever it held. -/
def malloc (fresh : Fresh) (size : UInt32) : Option (List UInt8) := fresh.map fun byte =>
    (List.range size.toNat).map byte

/-- The members that say which cipher and which key an object has. -/
structure SymmCryptoSSl (κ : Type) where
  mEncryptionType : UInt32
  mpCipher : Option κ
  mpKey : Option (List UInt8)
  mKeyLen : UInt32

namespace SymmCryptoSSl

variable {κ : Type} (evp : Lookup → Option κ) (s : SymmCryptoSSl κ)

/-- `SymmCryptoSSl()`. -/
def new : SymmCryptoSSl κ := ⟨0, none, none, 0⟩

/-- `ENCR_AES_CBC` and `ENCR_CAMELLIA_CBC` -/
def blockCase (keySize : UInt32) (name128 name192 name256 : String) : SymmCryptoSSl κ :=
  let s := if keySize = 16 then { s with mpCipher := evp (.EVP_get_cipherbyname name128) }
    else if keySize = 24 then { s with mpCipher := evp (.EVP_get_cipherbyname name192) }
    else if keySize = 32 then { s with mpCipher := evp (.EVP_get_cipherbyname name256) }
    else s
  { s with mKeyLen := keySize }

/-- `ENCR_DES`, `ENCR_3DES` and `ENCR_IDEA` -/
def fixedCase (keyLen : UInt32) (name : String) : SymmCryptoSSl κ :=
  { s with mKeyLen := keyLen, mpCipher := evp (.EVP_get_cipherbyname name) }

/-- `ENCR_RC5`, `ENCR_CAST` and `ENCR_BLOWFISH` -/
def rangeCase (keySize maxSize : UInt32) (name : String) : SymmCryptoSSl κ :=
  -- "set the key size if it is not set"
  let s := if keySize = 0 then { s with mKeyLen := 16 } else s
  if keySize < 5 ∨ keySize > maxSize then s
  else { s with mKeyLen := keySize, mpCipher := evp (.EVP_get_cipherbyname name) }

/-- `switch (encType)` -/
def switch (encType keySize : UInt32) : SymmCryptoSSl κ :=
  if encType = ENCR_NULL then { s with mpCipher := evp .EVP_enc_null, mKeyLen := 0 }
  else if encType = ENCR_AES_CBC then
    s.blockCase evp keySize "aes-128-cbc" "aes-192-cbc" "aes-256-cbc"
  else if encType = ENCR_CAMELLIA_CBC then
    s.blockCase evp keySize "camellia-128-cbc" "camellia-192-cbc" "camellia-256-cbc"
  else if encType = ENCR_DES_ECB then { s with mKeyLen := 8, mpCipher := evp .EVP_des_ecb }
  else if encType = ENCR_DES then s.fixedCase evp 8 "des-cbc"
  else if encType = ENCR_3DES then s.fixedCase evp 24 "des-ede3-cbc"
  else if encType = ENCR_IDEA then s.fixedCase evp 16 "idea-cbc"
  else if encType = ENCR_RC5 then s.rangeCase evp keySize 255 "rc5-cbc"
  else if encType = ENCR_CAST then s.rangeCase evp keySize 16 "cast5-cbc"
  else if encType = ENCR_BLOWFISH then s.rangeCase evp keySize 56 "bf-cbc"
  else s

/-- `setCryptoType(encType, keySize)`: 0 where `mpCipher` is not NULL behind the switch. -/
def setCryptoType (encType keySize : UInt32) (fresh : Fresh) : UInt32 × SymmCryptoSSl κ :=
  let s := { s with mEncryptionType := encType }
  let s := s.switch evp encType keySize
  if s.mpCipher.isNone then (1, s)
  else (0, { s with mpKey := malloc fresh (s.mKeyLen + 1) })

/-- `memcpy(mpKey, pKey, mKeyLen)`; the caller's `keyLen` is not looked at. -/
def setKey (pKey : List UInt8) : Run (UInt32 × SymmCryptoSSl κ) :=
  if s.mKeyLen.toNat ≤ ((s.mpKey.map List.length).getD 0) ∧ s.mKeyLen.toNat ≤ pKey.length then
    .ok (0, { s with
      mpKey := s.mpKey.map fun key => pKey.take s.mKeyLen.toNat ++ key.drop s.mKeyLen.toNat })
  else .error .outOfBounds

end SymmCryptoSSl

/-! ## Supported combinations

  A table of the algorithms with their key sizes and the name of the cipher, which the switch is
  compared with. -/

/-- The key sizes of a cipher. -/
inductive Sizes where
  /-- this length, whatever size is asked for -/
  | always (len : UInt32)
  | only (len : UInt32)
  | range (min max : UInt32)

/-- The key length for a size that is asked for. -/
def Sizes.keyLen : Sizes → UInt32 → Option UInt32
  | .always len, _ => some len
  | .only len, keySize => if keySize = len then some len else none
  | .range min max, keySize => if min ≤ keySize ∧ keySize ≤ max then some keySize else none

/-- The algorithms, the sizes of their keys, and where their ciphers are looked up. -/
def ciphers : List (UInt32 × Sizes × Lookup) :=
  [ (ENCR_NULL, .always 0, .EVP_enc_null),
    (ENCR_AES_CBC, .only 16, .EVP_get_cipherbyname "aes-128-cbc"),
    (ENCR_AES_CBC, .only 24, .EVP_get_cipherbyname "aes-192-cbc"),
    (ENCR_AES_CBC, .only 32, .EVP_get_cipherbyname "aes-256-cbc"),
    (ENCR_CAMELLIA_CBC, .only 16, .EVP_get_cipherbyname "camellia-128-cbc"),
    (ENCR_CAMELLIA_CBC, .only 24, .EVP_get_cipherbyname "camellia-192-cbc"),
    (ENCR_CAMELLIA_CBC, .only 32, .EVP_get_cipherbyname "camellia-256-cbc"),
    (ENCR_DES_ECB, .always 8, .EVP_des_ecb),
    (ENCR_DES, .always 8, .EVP_get_cipherbyname "des-cbc"),
    (ENCR_3DES, .always 24, .EVP_get_cipherbyname "des-ede3-cbc"),
    (ENCR_IDEA, .always 16, .EVP_get_cipherbyname "idea-cbc"),
    (ENCR_RC5, .range 5 255, .EVP_get_cipherbyname "rc5-cbc"),
    (ENCR_CAST, .range 5 16, .EVP_get_cipherbyname "cast5-cbc"),
    (ENCR_BLOWFISH, .range 5 56, .EVP_get_cipherbyname "bf-cbc")]

/-- The first of these ciphers that takes a key of this size, and the key length. -/
def pick (rows : List (Sizes × Lookup)) (keySize : UInt32) : Option (Lookup × UInt32) :=
  rows.findSome? fun row => (row.1.keyLen keySize).map (row.2, ·)

/-- The rows of one algorithm. -/
def rowsOf (encType : UInt32) : List (Sizes × Lookup) :=
  (ciphers.filter fun row => row.1 = encType).map Prod.snd

/-- The cipher and the key length of a combination, if it is supported. -/
def supported (encType keySize : UInt32) : Option (Lookup × UInt32) := pick (rowsOf encType) keySize

/-- The key length that a combination leaves behind when it is not supported. -/
def strayLen (encType keySize old : UInt32) : UInt32 :=
  if encType = ENCR_AES_CBC ∨ encType = ENCR_CAMELLIA_CBC then keySize
  else if encType = ENCR_RC5 ∨ encType = ENCR_CAST ∨ encType = ENCR_BLOWFISH then
    if keySize = 0 then 16 else old
  else old

section Switch

variable {κ : Type} (evp : Lookup → Option κ) (s : SymmCryptoSSl κ)

/-- The cipher that was picked with its key length, or no more than a key length. -/
def SymmCryptoSSl.assign : Option (Lookup × UInt32) → UInt32 → SymmCryptoSSl κ
  | some (lookup, len), _ => { s with mpCipher := evp lookup, mKeyLen := len }
  | none, stray => { s with mKeyLen := stray }

/-- A cipher with three sizes of keys, as a list of alternatives. -/
theorem blockCase_eq (keySize : UInt32) (name128 name192 name256 : String) :
    s.blockCase evp keySize name128 name192 name256 = s.assign evp
      (pick [(.only 16, .EVP_get_cipherbyname name128), (.only 24, .EVP_get_cipherbyname name192),
        (.only 32, .EVP_get_cipherbyname name256)] keySize) keySize := by
  by_cases h16 : keySize = 16
  · subst h16
    rfl
  by_cases h24 : keySize = 24
  · subst h24
    rfl
  by_cases h32 : keySize = 32
  · subst h32
    rfl
  simp only [SymmCryptoSSl.blockCase, pick, List.findSome?, Sizes.keyLen, if_neg h16, if_neg h24,
    if_neg h32, Option.map_none]
  rfl

/-- A cipher with a range of sizes, too. -/
theorem rangeCase_eq (keySize maxSize : UInt32) (name : String) :
    s.rangeCase evp keySize maxSize name = s.assign evp
      (pick [(.range 5 maxSize, .EVP_get_cipherbyname name)] keySize)
      (if keySize = 0 then 16 else s.mKeyLen) := by
  by_cases hsize : 5 ≤ keySize ∧ keySize ≤ maxSize
  · have hcheck : ¬ (keySize < 5 ∨ keySize > maxSize) := by
      rintro (hlo | hhi)
      · exact absurd hsize.1 (UInt32.not_le.mpr hlo)
      · exact absurd hsize.2 (UInt32.not_le.mpr hhi)
    have hne : keySize ≠ 0 := by
      rintro rfl
      exact absurd hsize.1 (by decide)
    simp only [SymmCryptoSSl.rangeCase, pick, List.findSome?, Sizes.keyLen, if_neg hcheck,
      if_neg hne, if_pos hsize, Option.map_some]
    rfl
  · have hcheck : keySize < 5 ∨ keySize > maxSize := by
      rcases Decidable.not_and_iff_not_or_not.mp hsize with hlo | hhi
      · exact .inl (UInt32.not_le.mp hlo)
      · exact .inr (UInt32.not_le.mp hhi)
    simp only [SymmCryptoSSl.rangeCase, pick, List.findSome?, Sizes.keyLen, if_pos hcheck,
      if_neg hsize, Option.map_none]
    split <;> rfl

/-- Nothing is supported of any other algorithm. -/
theorem rowsOf_eq_nil {encType : UInt32} (h : encType ∉ ciphers.map Prod.fst) :
    rowsOf encType = [] := by
  rw [rowsOf, List.map_eq_nil_iff, List.filter_eq_nil_iff]
  intro row hrow heq
  exact h (of_decide_eq_true heq ▸ List.mem_map_of_mem hrow)

/-- **The switch** leaves what the table says. -/
theorem switch_eq (encType keySize : UInt32) :
    s.switch evp encType keySize = s.assign evp (supported encType keySize)
    (strayLen encType keySize s.mKeyLen) := by
  by_cases hmem : encType ∈ ciphers.map Prod.fst
  · have hcases : encType = ENCR_NULL ∨ encType = ENCR_AES_CBC ∨ encType = ENCR_CAMELLIA_CBC ∨
      encType = ENCR_DES_ECB ∨
        encType = ENCR_DES ∨ encType = ENCR_3DES ∨ encType = ENCR_IDEA ∨ encType = ENCR_RC5 ∨
          encType = ENCR_CAST ∨
        encType = ENCR_BLOWFISH := by
      revert hmem
      simp only [ciphers, List.map_cons, List.map_nil, List.mem_cons, List.not_mem_nil, or_false]
      grind
    rcases hcases with rfl | rfl | rfl | rfl | rfl | rfl | rfl | rfl | rfl | rfl
    · rfl
    · exact blockCase_eq evp s keySize _ _ _
    · exact blockCase_eq evp s keySize _ _ _
    · rfl
    · rfl
    · rfl
    · rfl
    · exact rangeCase_eq evp s keySize _ _
    · exact rangeCase_eq evp s keySize _ _
    · exact rangeCase_eq evp s keySize _ _
  · rw [supported, rowsOf_eq_nil hmem]
    simp only [ciphers, List.map_cons, List.map_nil, List.mem_cons, List.not_mem_nil, or_false,
      not_or] at hmem
    obtain ⟨h1, h2, -, -, h3, -, -, h4, h5, h6, h7, h8, h9, h10⟩ := hmem
    simp only [SymmCryptoSSl.switch, strayLen, h1, h2, h3, h4, h5, h6, h7, h8, h9, h10, or_self,
      if_false]
    rfl

end Switch

/-- No key is longer than 255 bytes. -/
def Sizes.max : Sizes → UInt32
  | .always len | .only len => len
  | .range _ max => max

/-- No key is longer than the largest size. -/
theorem Sizes.keyLen_le {sizes : Sizes} {keySize len : UInt32}
    (h : sizes.keyLen keySize = some len) : len ≤ sizes.max := by
  cases sizes with
  | always n =>
    obtain rfl := Option.some.inj h
    exact UInt32.le_refl _
  | only n =>
    obtain ⟨-, hlen⟩ := Option.ite_none_right_eq_some.mp
      (show (if keySize = n then some n else none) = some len from h)
    exact Option.some.inj hlen ▸ UInt32.le_refl _
  | range lo hi =>
    obtain ⟨hsize, hlen⟩ := Option.ite_none_right_eq_some.mp
      (show (if lo ≤ keySize ∧ keySize ≤ hi then some keySize else none) = some len from h)
    exact Option.some.inj hlen ▸ hsize.2

/-- The length of a key and its NUL does not wrap. -/
theorem supported_len {encType keySize : UInt32} {lookup : Lookup} {len : UInt32}
    (h : supported encType keySize = some (lookup, len)) :
    (len + 1).toNat = len.toNat + 1 := by
  obtain ⟨row, hrow, hpick⟩ := List.exists_of_findSome?_eq_some h
  obtain ⟨len', hlen, heq⟩ := Option.map_eq_some_iff.mp hpick
  obtain rfl : len' = len := (Prod.ext_iff.mp heq).2
  obtain ⟨row', hmem, rfl⟩ := List.mem_map.mp hrow
  have hmax : ∀ row ∈ ciphers, row.2.1.max ≤ 255 := by decide
  have hle :
    len' ≤ 255 := UInt32.le_trans (Sizes.keyLen_le hlen) (hmax row' (List.mem_filter.mp hmem).1)
  have hle : len'.toNat ≤ 255 := hle
  rw [UInt32.toNat_add]
  exact Nat.mod_eq_of_lt (Nat.lt_of_le_of_lt (Nat.succ_le_succ hle) (by decide))

/-! ## A call

  `Clean` is a condition on the call and the state before it: that the branches which leave
  something stale are not taken. -/

/-- How an object is configured, whatever bytes its key buffer holds. -/
structure Config (κ : Type) where
  cipher : Option κ
  keyLen : UInt32
  capacity : Option Nat

section Calls

variable {κ : Type} {evp : Lookup → Option κ} {s : SymmCryptoSSl κ} {encType keySize : UInt32}
  {fresh : Fresh}

def SymmCryptoSSl.config (s : SymmCryptoSSl κ) : Config κ :=
  ⟨s.mpCipher, s.mKeyLen, s.mpKey.map List.length⟩

/-- The configuration that a combination stands for. -/
def accepted (evp : Lookup → Option κ) (encType keySize : UInt32) : Option (Config κ) :=
  (supported encType keySize).bind fun row => (evp row.1).map fun cipher => ⟨some cipher, row.2,
    some (row.2.toNat + 1)⟩

/-- Zero only for a combination that is supported, which is then configured; otherwise nothing
    changes. -/
structure Meets (evp : Lookup → Option κ) (s : SymmCryptoSSl κ) (encType keySize : UInt32)
    (fresh : Fresh) : Prop where
  success : (s.setCryptoType evp encType keySize fresh).1 = 0 →
    accepted evp encType keySize = some (s.setCryptoType evp encType keySize fresh).2.config
  failure : (s.setCryptoType evp encType keySize fresh).1 ≠ 0 →
    (s.setCryptoType evp encType keySize fresh).2 = { s with mEncryptionType := encType }

/-- The combination is supported, its lookup gives a cipher and there is memory for the key; or
    no cipher is configured, none is found, and the length that the branch assigns is the one
    there is. -/
def Clean (evp : Lookup → Option κ) (s : SymmCryptoSSl κ) (encType keySize : UInt32)
    (fresh : Fresh) : Prop :=
  ((accepted evp encType keySize).isSome ∧ fresh.isSome) ∨
  (accepted evp encType keySize = none ∧ s.mpCipher = none ∧
    s.mKeyLen = ((supported encType keySize).map Prod.snd).getD
      (strayLen encType keySize s.mKeyLen))

/-- How a call ends. -/
inductive Outcome (evp : Lookup → Option κ) (s : SymmCryptoSSl κ) (encType keySize : UInt32)
    (fresh : Fresh) :
    UInt32 × SymmCryptoSSl κ → Prop
  | accepted {lookup : Lookup} {len : UInt32} {cipher : κ}
  (hrow : supported encType keySize = some (lookup, len))
      (hcipher : evp lookup = some cipher) :
      Outcome evp s encType keySize fresh (0, ⟨encType, some cipher, malloc fresh (len + 1), len⟩)
  | missing {lookup : Lookup} {len : UInt32} (hrow : supported encType keySize = some (lookup, len))
    (hcipher : evp lookup = none) :
      Outcome evp s encType keySize fresh (1, ⟨encType, none, s.mpKey, len⟩)
  | unsupported (hrow : supported encType keySize = none) (hold : s.mpCipher = none) :
      Outcome evp s encType keySize fresh
        (1, ⟨encType, none, s.mpKey, strayLen encType keySize s.mKeyLen⟩)
  /-- the cipher of an earlier call is still there -/
  | stale {cipher : κ} (hrow : supported encType keySize = none) (hold : s.mpCipher = some cipher) :
      Outcome evp s encType keySize fresh
        (0, ⟨encType, some cipher, malloc fresh (strayLen encType keySize s.mKeyLen + 1),
        strayLen encType keySize s.mKeyLen⟩)

/-- `setCryptoType` behind its switch. -/
theorem setCryptoType_of {s' : SymmCryptoSSl κ}
    (h : { s with mEncryptionType := encType }.switch evp encType keySize = s') :
    s.setCryptoType evp encType keySize fresh =
      if s'.mpCipher.isNone then (1, s') else
        (0, { s' with mpKey := malloc fresh (s'.mKeyLen + 1) }) := by
  subst h
  rfl

/-- **What `setCryptoType` can do.** -/
theorem setCryptoType_cases (evp : Lookup → Option κ) (s : SymmCryptoSSl κ)
    (encType keySize : UInt32) (fresh : Fresh) :
    Outcome evp s encType keySize fresh (s.setCryptoType evp encType keySize fresh) := by
  have hswitch := switch_eq evp { s with mEncryptionType := encType } encType keySize
  rw [setCryptoType_of hswitch]
  rcases Option.eq_none_or_eq_some (supported encType keySize) with hrow | ⟨⟨lookup, len⟩, hrow⟩ <;>
    rw [hrow]
  · obtain ⟨type, cipher, key, keyLen⟩ := s
    cases cipher with
    | none => exact .unsupported hrow rfl
    | some cipher => exact .stale hrow rfl
  · show Outcome _ _ _ _ _ (if (evp lookup).isNone then (1, ⟨encType, evp lookup, s.mpKey, len⟩)
      else (0, ⟨encType, evp lookup, malloc fresh (len + 1), len⟩))
    rcases Option.eq_none_or_eq_some (evp lookup) with hcipher | ⟨cipher, hcipher⟩ <;> rw [hcipher]
    · exact .missing hrow hcipher
    · exact .accepted hrow hcipher

variable (encType) in
/-- When it changes nothing but the type. -/
theorem unchanged_iff {len : UInt32} :
    (⟨encType, none, s.mpKey, len⟩ : SymmCryptoSSl κ) = { s with mEncryptionType := encType } ↔
    s.mpCipher = none ∧ s.mKeyLen = len := by
  obtain ⟨type, cipher, key, keyLen⟩ := s
  rw [SymmCryptoSSl.mk.injEq]
  constructor
  · rintro ⟨-, hcipher, -, hlen⟩
    exact ⟨hcipher.symm, hlen.symm⟩
  · rintro ⟨hcipher, hlen⟩
    exact ⟨rfl, hcipher.symm, rfl, hlen.symm⟩

/-- A combination that stands for no configuration. -/
theorem clean_of_not_accepted (h : accepted evp encType keySize = none) :
    Clean evp s encType keySize fresh ↔
    s.mpCipher = none ∧ s.mKeyLen = ((supported encType keySize).map Prod.snd).getD
      (strayLen encType keySize s.mKeyLen) := by
  rw [Clean, h]
  constructor
  · rintro (⟨hsome, -⟩ | ⟨-, hold⟩)
    · cases hsome
    · exact hold
  · exact fun hold => .inr ⟨rfl, hold⟩

/-- What `Meets` asks of a result. -/
theorem meets_def {r : UInt32 × SymmCryptoSSl κ}
    (hr : s.setCryptoType evp encType keySize fresh = r) :
    Meets evp s encType keySize fresh ↔ (r.1 = 0 → accepted evp encType keySize = some r.2.config) ∧
      (r.1 ≠ 0 → r.2 = { s with mEncryptionType := encType }) := by
  subst hr
  exact ⟨fun h => ⟨h.success, h.failure⟩, fun h => ⟨h.1, h.2⟩⟩

/-- **A call does what it should exactly when it is clean.** -/
theorem meets_iff : Meets evp s encType keySize fresh ↔ Clean evp s encType keySize fresh := by
  have houtcome := setCryptoType_cases evp s encType keySize fresh
  generalize hr : s.setCryptoType evp encType keySize fresh = r at houtcome
  rw [meets_def hr]
  have hone : (1 : UInt32) ≠ 0 := by decide
  cases houtcome with
  | @accepted lookup len cipher hrow hcipher =>
    have haccepted :
      accepted evp encType keySize = some ⟨some cipher, len, some (len.toNat + 1)⟩ := by
      simp only [accepted, hrow, Option.bind_some, hcipher, Option.map_some]
    have hlen := supported_len hrow
    rw [Clean, haccepted]
    cases fresh with
    | none => simp [malloc, SymmCryptoSSl.config]
    | some byte => simp [malloc, SymmCryptoSSl.config, hlen]
  | @missing lookup len hrow hcipher =>
    have haccepted : accepted evp encType keySize = none := by
      simp only [accepted, hrow, Option.bind_some, hcipher, Option.map_none]
    rw [clean_of_not_accepted haccepted, hrow, ← unchanged_iff encType]
    exact ⟨fun h => h.2 hone, fun h => ⟨fun h0 => absurd h0 hone, fun _ => h⟩⟩
  | unsupported hrow hold =>
    have haccepted : accepted evp encType keySize = none := by rw [accepted, hrow, Option.bind_none]
    rw [clean_of_not_accepted haccepted, hrow, ← unchanged_iff encType]
    exact ⟨fun h => h.2 hone, fun h => ⟨fun h0 => absurd h0 hone, fun _ => h⟩⟩
  | stale hrow hold =>
    have haccepted : accepted evp encType keySize = none := by rw [accepted, hrow, Option.bind_none]
    rw [clean_of_not_accepted haccepted, hold, haccepted]
    constructor
    · rintro ⟨hsuccess, -⟩
      cases hsuccess rfl
    · rintro ⟨hnone, -⟩
      cases hnone

/-! ## Runs

  What is remembered of a run is the last request that was accepted. -/

/-- A call of an object. -/
inductive CryptoCall where
  | setCryptoType (encType keySize : UInt32) (fresh : Fresh)
  | setKey (pKey : List UInt8)

/-- A new object, and calls that return. -/
def cryptoSys (evp : Lookup → Option κ) : TransSys (SymmCryptoSSl κ) CryptoCall where
  init := .new
  step s
    | .setCryptoType encType keySize fresh => some (s.setCryptoType evp encType keySize fresh).2
    | .setKey pKey => (s.setKey pKey).toOption.map Prod.snd

def CryptoCall.Clean (evp : Lookup → Option κ) (s : SymmCryptoSSl κ) : CryptoCall → Prop
  | .setCryptoType encType keySize fresh => Crypt.Clean evp s encType keySize fresh
  | .setKey _ => True

/-- The configuration that a call asks for. -/
def CryptoCall.accepted (evp : Lookup → Option κ) : CryptoCall → Option (Config κ)
  | .setCryptoType encType keySize _ => Crypt.accepted evp encType keySize
  | .setKey _ => none

/-- `setKey` leaves the type and the cipher. -/
theorem setKey_config {s' : SymmCryptoSSl κ} {pKey : List UInt8} {res : UInt32}
    (h : s.setKey pKey = .ok (res, s')) : s'.config = s.config := by
  rw [SymmCryptoSSl.setKey] at h
  split at h
  · next hfits =>
    obtain ⟨-, rfl⟩ := Prod.ext_iff.mp (Except.ok.inj h)
    obtain ⟨type, cipher, key, keyLen⟩ := s
    cases key with
    | none => rfl
    | some key =>
      have hkey : keyLen.toNat ≤ key.length := hfits.1
      have hsrc : keyLen.toNat ≤ pKey.length := hfits.2
      have hlen : (pKey.take keyLen.toNat ++ key.drop keyLen.toNat).length = key.length := by
        rw [List.length_append, List.length_take, List.length_drop]
        omega
      show (⟨cipher, keyLen, some _⟩ : Config κ) = ⟨cipher, keyLen, some _⟩
      rw [hlen]
  · cases h

/-- **Step lemma**: a clean call configures what it asks for, or nothing. -/
theorem config_step {s s' : SymmCryptoSSl κ} {call : CryptoCall}
    (hs : (cryptoSys evp).step s call = some s') (hg : call.Clean evp s) :
    s'.config = (call.accepted evp).getD s.config := by
  cases call with
  | setCryptoType encType keySize fresh =>
    obtain rfl := Option.some.inj hs
    have hmeets := meets_iff.mpr hg
    by_cases hzero : (s.setCryptoType evp encType keySize fresh).1 = 0
    · rw [CryptoCall.accepted, hmeets.success hzero]
      rfl
    · have hnone : accepted evp encType keySize = none := by
        rcases hg with ⟨hsome, -⟩ | ⟨hnone, -⟩
        · obtain ⟨config, hconfig⟩ := Option.isSome_iff_exists.mp hsome
          obtain ⟨row, hrow, hcipher⟩ := Option.bind_eq_some_iff.mp hconfig
          obtain ⟨cipher, hcipher, -⟩ := Option.map_eq_some_iff.mp hcipher
          refine absurd ?_ hzero
          simp only [SymmCryptoSSl.setCryptoType, switch_eq, hrow, SymmCryptoSSl.assign, hcipher]
          rfl
        · exact hnone
      rw [CryptoCall.accepted, hnone]
      show (s.setCryptoType evp encType keySize fresh).2.config = s.config
      rw [hmeets.failure hzero]
      rfl
  | setKey pKey =>
    obtain ⟨⟨res, s1⟩, hok, rfl⟩ := Option.map_eq_some_iff.mp hs
    cases hrun : s.setKey pKey with
    | error e =>
      rw [hrun] at hok
      cases hok
    | ok r =>
      rw [hrun] at hok
      obtain rfl := Option.some.inj hok
      exact setKey_config hrun

/-- The configuration is that of the last request that was accepted. -/
theorem config_eq {calls : List CryptoCall} {s : SymmCryptoSSl κ}
    (h : (cryptoSys evp).Trace (fun s call _ => call.Clean evp s) calls s) :
    s.config = (calls.reverse.findSome? (CryptoCall.accepted evp)).getD ⟨none, 0, none⟩ := by
  induction h with
  | init => rfl
  | @step calls s s' call _ hs hg ih =>
    rw [config_step hs hg, List.reverse_append, List.reverse_singleton, List.singleton_append,
      List.findSome?_cons, ih]
    cases call.accepted evp <;> rfl

/-- The key buffer of an accepted request holds its key. -/
theorem accepted_capacity {config : Config κ} (h : accepted evp encType keySize = some config) :
    config.keyLen.toNat ≤ config.capacity.getD 0 := by
  obtain ⟨row, -, hcipher⟩ := Option.bind_eq_some_iff.mp h
  obtain ⟨cipher, -, rfl⟩ := Option.map_eq_some_iff.mp hcipher
  exact Nat.le_succ _

/-- In a clean run the memory for the key has the length that is asked of it. -/
theorem capacity_of_trace {calls : List CryptoCall} {s : SymmCryptoSSl κ}
    (h : (cryptoSys evp).Trace (fun s call _ => call.Clean evp s) calls s) :
    s.mKeyLen.toNat ≤ (s.mpKey.map List.length).getD 0 := by
  show s.config.keyLen.toNat ≤ s.config.capacity.getD 0
  rw [config_eq h]
  cases hlast : calls.reverse.findSome? (CryptoCall.accepted evp) with
  | none => exact Nat.le_refl 0
  | some config =>
    obtain ⟨call, -, hcall⟩ := List.exists_of_findSome?_eq_some hlast
    cases call with
    | setCryptoType encType keySize fresh => exact accepted_capacity hcall
    | setKey pKey => cases hcall

/-- **In a run of clean calls the configuration is that of the last accepted request**, and `setKey`
    stays in the key buffer; a further call does what it should exactly when it is clean. -/
theorem crypto_type_run {calls : List CryptoCall} {s : SymmCryptoSSl κ}
    (h : (cryptoSys evp).Trace (fun s call _ => call.Clean evp s) calls s) :
    s.config = (calls.reverse.findSome? (CryptoCall.accepted evp)).getD ⟨none, 0, none⟩ ∧
    (∀ pKey, s.mKeyLen.toNat ≤ pKey.length → ∃ s', s.setKey pKey = .ok (0, s')) ∧
    ∀ encType keySize fresh, Meets evp s encType keySize fresh ↔
      Clean evp s encType keySize fresh := by
  refine ⟨config_eq h, ?_, fun _ _ _ => meets_iff⟩
  intro pKey hsrc
  rw [SymmCryptoSSl.setKey, if_pos ⟨capacity_of_trace h, hsrc⟩]
  exact ⟨_, rfl⟩

/-- A library with every cipher, each under its own name. -/
def exampleLookup : Lookup → Option String
  | .EVP_enc_null => some "null"
  | .EVP_des_ecb => some "des-ecb"
  | .EVP_get_cipherbyname name => some name

/-- AES-128, an algorithm that is not known and so refused while nothing is configured, and
    AES-256. -/
theorem crypto_type_run_aes : ∃ s : SymmCryptoSSl String,
    (cryptoSys exampleLookup).exec .new [.setCryptoType 999 0 none,
      .setCryptoType ENCR_AES_CBC 16 (some fun _ => 0),
      .setCryptoType ENCR_AES_CBC 32 (some fun _ => 0)] = some s ∧ s.mKeyLen = 32 ∧
      s.mpCipher = some "aes-256-cbc" ∧
    ∀ pKey, s.mKeyLen.toNat ≤ pKey.length → ∃ s', s.setKey pKey = .ok (0, s') := by
  have h0 : (cryptoSys exampleLookup).Trace (fun s call _ => call.Clean exampleLookup s)
    [] _ := .init
  have h1 := h0.step (e := CryptoCall.setCryptoType 999 0 none) rfl (.inr ⟨rfl, rfl, rfl⟩)
  have h2 := h1.step (e := CryptoCall.setCryptoType ENCR_AES_CBC 16 (some fun _ => 0)) rfl
    (.inl ⟨rfl, rfl⟩)
  have h3 := h2.step (e := CryptoCall.setCryptoType ENCR_AES_CBC 32 (some fun _ => 0)) rfl
    (.inl ⟨rfl, rfl⟩)
  exact ⟨_, rfl, rfl, rfl, (crypto_type_run h3).2.1⟩

/-- AES-128, and then AES with a key of 20 bytes, which no AES has: the second call succeeds. -/
theorem stale_cipher_succeeds :
    ¬ ∀ s : SymmCryptoSSl String, (cryptoSys exampleLookup).Reachable s →
    ∀ encType keySize fresh, Meets exampleLookup s encType keySize fresh := by
  intro hall
  have h0 : (cryptoSys exampleLookup).Reachable _ := .init
  have h1 := h0.step (e := CryptoCall.setCryptoType ENCR_AES_CBC 16 (some fun _ => 0)) rfl trivial
  have h2 := (hall _ h1 ENCR_AES_CBC 20 (some fun _ => 0)).success rfl
  cases h2

end Calls

end Crypt

end StevenProgram
