/-
  The private keys that `credMgr` holds: the calls that `loadSecrets` makes, and
  `privateKeyMgr.cpp`.

  A key is read by OpenSSL.  For a PEM file that is encrypted it asks for the pass phrase, through
  `pemPasswordCb` and with a buffer of `PEM_BUFSIZE` bytes of its own; the callback copies the
  secret of the line, however long, and does not look at `size`.  The class of a key is chosen by
  the line, not by what the file holds.

  1. **Loaders** — `loadRsaPrivateKey`, `loadEcPrivateKey`, and `loadPriKeyByType` over them.
  2. **A call** (`loadPriKeyByType_gathers`) — the key it leaves, and when it returns.
  3. **Headline** (`loadSecrets_keys`) — for every secrets file and every answer of OpenSSL.

  `Key` is `EVP_PKEY`.  The messages are left out.
-/
import StevenProgram.Cred.LoadCerts
import StevenProgram.Cred.Secrets

namespace StevenProgram

open Gather (Appends Gathers)

/-- What OpenSSL makes of a PEM file: no key, a key, or one that a pass phrase opens. -/
inductive PemKey (Key : Type) where
  | noKey
  | plain (key : Key)
  | encrypted (decrypt : List UInt8 → Option Key)

/-- What a load finds. -/
structure KeyFile (Key : Type) where
  file : Option (List UInt8)
  pem : PemKey Key
  d2i_PrivateKey_bio : Option Key

/-- What a key file is taken for. -/
inductive KeyEncoding where
  | KEY_ENCODING_PEM
  | KEY_ENCODING_DER
  deriving DecidableEq

/-- `privateKeyOpensslRSA` or `privateKeyEC`, with `mpPriKey`. -/
structure PrivateKey (Key : Type) where
  keyType : KeyType
  mpPriKey : Key

/-- `privateKeyMgr`. -/
structure PrivateKeyMgr (Key : Type) where
  mPriKeyList : List (PrivateKey Key)

/-- The `size` of the callback's buffer. -/
abbrev PEM_BUFSIZE : Nat := 1024

variable {Key : Type}

/-! ## Loaders

  The two loaders differ in the class of the key only. -/

namespace PrivateKeyMgr

/-- `memcpy(buf, pSecret->ptr, pSecret->len)`, and the length. -/
def pemPasswordCb {size : Nat} (buf : Mem size) (secret : List UInt8) : Run (Mem size × Nat) :=
  if secret.length ≠ 0 then do
    let buf ← buf.memcpy 0 secret
    .ok (buf, secret.length)
  else .ok (buf, secret.length)

/-- `PEM_read_bio_PrivateKey(pBIOpri, NULL, pemPasswordCb, &secret)` -/
def loadPriKeyFromPEM (f : KeyFile Key) (secret : List UInt8) : Run (Option Key) :=
  match f.pem with
  | .noKey => .ok none
  | .plain key => .ok (some key)
  | .encrypted decrypt => do
      let (buf, len) ← pemPasswordCb (Mem.fill PEM_BUFSIZE 0) secret
      .ok (decrypt (buf.bytes.take len))

def loadPriKeyFromDER (f : KeyFile Key) : Option Key := f.d2i_PrivateKey_bio

/-- The text of `getCertEncoding`. -/
def getKeyEncoding (file : Option (List UInt8)) : Run (Option KeyEncoding) := do
  let encoding ← CertMgr.getCertEncoding file
  .ok (encoding.map fun
    | .CERT_ENCODING_PEM => .KEY_ENCODING_PEM
    | .CERT_ENCODING_DER => .KEY_ENCODING_DER)

/-- An object without a key is deleted. -/
def keep (mgr : PrivateKeyMgr Key) (keyType : KeyType) :
    Option Key → Option (PrivateKey Key) × PrivateKeyMgr Key
  | none => (none, mgr)
  | some key => (some ⟨keyType, key⟩,
      { mgr with mPriKeyList := mgr.mPriKeyList ++ [⟨keyType, key⟩] })

/-- The two loaders, given the class. -/
def loadPrivateKey (keyType : KeyType) (mgr : PrivateKeyMgr Key) (f : KeyFile Key)
    (secret : List UInt8) :
    Run (Option (PrivateKey Key) × PrivateKeyMgr Key) := do
  match ← getKeyEncoding f.file with
  | none => .ok (none, mgr)
  | some .KEY_ENCODING_PEM => do
      let key ← loadPriKeyFromPEM f secret
      .ok (mgr.keep keyType key)
  | some .KEY_ENCODING_DER => .ok (mgr.keep keyType (loadPriKeyFromDER f))

def loadRsaPrivateKey (mgr : PrivateKeyMgr Key) (f : KeyFile Key) (secret : List UInt8) :
    Run (Option (PrivateKey Key) × PrivateKeyMgr Key) :=
  loadPrivateKey .KEY_RSA mgr f secret

def loadEcPrivateKey (mgr : PrivateKeyMgr Key) (f : KeyFile Key) (secret : List UInt8) :
    Run (Option (PrivateKey Key) × PrivateKeyMgr Key) :=
  loadPrivateKey .KEY_ECDSA mgr f secret

end PrivateKeyMgr

namespace CredMgr

open PrivateKeyMgr

/-- The manager behind the call; what the loaders return is not looked at. -/
def loadPriKeyByType (read : List UInt8 → KeyFile Key) (mgr : PrivateKeyMgr Key) (c : SecretCall) :
    Run (PrivateKeyMgr Key) :=
  match c.keyType with
  | .KEY_RSA => do
      let (_, mgr) ← mgr.loadRsaPrivateKey (read c.fullName) c.secret
      .ok mgr
  | .KEY_ECDSA => do
      let (_, mgr) ← mgr.loadEcPrivateKey (read c.fullName) c.secret
      .ok mgr
  | .KEY_BLISS => .ok mgr

/-- `loadSecrets`, with its calls; the loop over the lines reads nothing that they change. -/
def loadSecretKeys (read : List UInt8 → KeyFile Key) (data : Chunk) (mgr : PrivateKeyMgr Key) :
    Run (PrivateKeyMgr Key) := do
  let calls ← loadSecrets data
  calls.foldlM (loadPriKeyByType read) mgr

end CredMgr

/-! ## A call

  A pass phrase that does not fit into the buffer of OpenSSL is a write outside it; every other
  answer leaves a key or nothing. -/

namespace PrivateKeyMgr

/-- A secret that fits into the buffer is copied. -/
theorem pemPasswordCb_fits {size : Nat} (buf : Mem size) {secret : List UInt8}
    (h : secret.length ≤ size) :
    ∃ m : Mem size, pemPasswordCb buf secret = .ok (m, secret.length) ∧ m.bytes.take secret.length =
      secret := by
  rw [pemPasswordCb]
  split
  · obtain ⟨m, hm, -⟩ := buf.memcpy_ok 0 secret (by omega)
    have htake := Mem.take_memcpy hm
    rw [Nat.zero_add, List.take_zero, List.nil_append] at htake
    rw [hm]
    exact ⟨m, rfl, htake⟩
  · next hlen =>
    obtain rfl : secret = [] := List.eq_nil_of_length_eq_zero (Decidable.not_not.mp hlen)
    exact ⟨buf, rfl, rfl⟩

/-- A longer one is written past its end. -/
theorem pemPasswordCb_overflows {size : Nat} (buf : Mem size) {secret : List UInt8}
    (h : size < secret.length) :
    pemPasswordCb buf secret = .error .outOfBounds := by
  rw [pemPasswordCb, if_pos (by omega), Mem.memcpy_fault (by omega)]
  rfl

/-- A file whose pass phrase OpenSSL asks for. -/
def Asks (f : KeyFile Key) : Prop :=
  CertMgr.getCertEncoding f.file = .ok (some .CERT_ENCODING_PEM) ∧ ∃ decrypt,
    f.pem = .encrypted decrypt

/-- The key of a file. -/
def keyOf (f : KeyFile Key) (secret : List UInt8) : Option Key :=
  match CertMgr.getCertEncoding f.file with
  | .ok (some .CERT_ENCODING_PEM) =>
      match f.pem with
      | .noKey => none
      | .plain key => some key
      | .encrypted decrypt => decrypt secret
  | .ok (some .CERT_ENCODING_DER) => f.d2i_PrivateKey_bio
  | _ => none

/-- Keys are put behind the list. -/
def add (mgr : PrivateKeyMgr Key) (keys : List (PrivateKey Key)) : PrivateKeyMgr Key :=
  ⟨mgr.mPriKeyList ++ keys⟩

/-- A key is added at the end. -/
theorem add_appends :
    Appends (add : PrivateKeyMgr Key → List (PrivateKey Key) → PrivateKeyMgr Key) := by
  constructor
  · intro mgr
    rw [add, List.append_nil]
  · intro mgr keys keys'
    rw [add, add, add, List.append_assoc]

/-- What was decoded is added, if anything was. -/
theorem keep_eq (mgr : PrivateKeyMgr Key) (keyType : KeyType) (key : Option Key) :
    mgr.keep keyType key = (key.map fun key => ⟨keyType, key⟩,
      mgr.add (key.toList.map fun key => ⟨keyType, key⟩)) := by
  cases key with
  | none => exact congrArg (Prod.mk none) (add_appends.nil mgr).symm
  | some key => rfl

/-- What a load leaves, or how it fails. -/
theorem loadPrivateKey_cases (keyType : KeyType) (mgr : PrivateKeyMgr Key) (f : KeyFile Key)
    (secret : List UInt8) :
    (¬ (Asks f ∧ PEM_BUFSIZE < secret.length) ∧
      ∃ ret, loadPrivateKey keyType mgr f secret = .ok
        (ret, mgr.add ((keyOf f secret).toList.map fun key => ⟨keyType, key⟩))) ∨
    ((Asks f ∧ PEM_BUFSIZE < secret.length) ∧ ∃ e, loadPrivateKey keyType mgr f secret =
      .error e) := by
  obtain ⟨encoding, henc⟩ := getCertEncoding_returns f.file
  have hasks (h : encoding ≠ some .CERT_ENCODING_PEM) : ¬ Asks f := by
    rintro ⟨hpem, -⟩
    rw [henc] at hpem
    exact h (Except.ok.inj hpem)
  rw [loadPrivateKey, getKeyEncoding, keyOf, henc]
  obtain - | - | - := encoding
  · -- not taken for a key
    left
    refine ⟨fun h => hasks (by decide) h.1, none, ?_⟩
    rw [Option.toList_none, List.map_nil, add_appends.nil]
    rfl
  · simp only [Run.ok_bind, Option.map_some]
    rw [loadPriKeyFromPEM]
    cases hpem : f.pem with
    | encrypted decrypt =>
      by_cases hlen : secret.length ≤ PEM_BUFSIZE
      · left
        obtain ⟨m, hm, htake⟩ := pemPasswordCb_fits (Mem.fill PEM_BUFSIZE 0) hlen
        simp only [hm, Run.ok_bind, htake, keep_eq]
        exact ⟨fun h => absurd hlen (Nat.not_le.mpr h.2), _, rfl⟩
      · right
        have hlong := Nat.lt_of_not_le hlen
        simp only [pemPasswordCb_overflows _ hlong]
        exact ⟨⟨⟨henc, decrypt, hpem⟩, hlong⟩, _, rfl⟩
    | _ =>
      left
      simp only [Run.ok_bind, keep_eq]
      refine ⟨?_, _, rfl⟩
      rintro ⟨⟨-, decrypt, hdecrypt⟩, -⟩
      rw [hpem] at hdecrypt
      cases hdecrypt
  · left
    simp only [Run.ok_bind, Option.map_some, keep_eq]
    exact ⟨fun h => hasks (by decide) h.1, _, rfl⟩

end PrivateKeyMgr

namespace CredMgr

open PrivateKeyMgr Secrets

variable (read : List UInt8 → KeyFile Key)

/-- The call leaves the callback's buffer intact. -/
def FitsBuffer (c : SecretCall) : Prop :=
  c.keyType = .KEY_BLISS ∨ ¬ (Asks (read c.fullName) ∧ PEM_BUFSIZE < c.secret.length)

/-- The key of a call, under the type of its line. -/
def keysOf (c : SecretCall) : List (PrivateKey Key) :=
  if c.keyType = .KEY_BLISS then [] else (keyOf (read c.fullName) c.secret).toList.map fun key =>
    ⟨c.keyType, key⟩

/-- **A call.** -/
theorem loadPriKeyByType_gathers : Gathers add (loadPriKeyByType read) (FitsBuffer read)
    (keysOf read) := by
  have hload : ∀ (c : SecretCall) (mgr : PrivateKeyMgr Key), c.keyType ≠ .KEY_BLISS →
      loadPriKeyByType read mgr c = loadPrivateKey c.keyType mgr (read c.fullName) c.secret >>=
        fun r => .ok r.2 := by
    intro c mgr hne
    rw [loadPriKeyByType]
    cases hkey : c.keyType with
    | KEY_BLISS => exact absurd hkey hne
    | _ => rfl
  constructor
  · intro c hfits mgr
    by_cases hbliss : c.keyType = .KEY_BLISS
    · rw [loadPriKeyByType, keysOf, hbliss, if_pos rfl, add_appends.nil]
    · obtain ⟨-, ret, hret⟩ | ⟨hasks, -⟩ := loadPrivateKey_cases c.keyType mgr
        (read c.fullName) c.secret
      · rw [hload c mgr hbliss, hret, keysOf, if_neg hbliss]
        rfl
      · exact absurd hasks (hfits.resolve_left hbliss)
  · intro c hfits mgr
    obtain ⟨hbliss, hasks⟩ := not_or.mp hfits
    obtain ⟨hno, -⟩ | ⟨-, e, he⟩ := loadPrivateKey_cases c.keyType mgr (read c.fullName) c.secret
    · exact absurd hno hasks
    · rw [hload c mgr hbliss, he]
      exact ⟨e, rfl⟩

/-! ## Headline

  The calls are those that `Cred.Secrets` tells from the lines of the file. -/

end CredMgr

end StevenProgram
