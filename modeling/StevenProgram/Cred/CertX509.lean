/-
  Loading a certificate: `certX509.cpp` and `certMgr.cpp` as far as a CA certificate goes.

  OpenSSL is what it answers: `X509` has the extension list, or NULL; an `X509_EXTENSION` has its
  kind (`OBJ_obj2nid`) together with what `X509V3_EXT_d2i` makes of it, and whether it is critical.
  `LoadEnv` is all that one call finds outside the program: the bytes of the file, the objects
  OpenSSL returns for it, and what the uninitialised `ok` of the extension loop holds at the start
  of each turn.

  The DER encoding, the type and the path length of a certificate are set here and not read; its
  subject string and the key identifiers only reach the log.
-/
import StevenProgram.Lib.Scan
import StevenProgram.Asn1.Parser

namespace StevenProgram

open Asn1

/-! ## OpenSSL

  What the code asks of OpenSSL, and the answers; no answer is excluded. -/

/-- `BASIC_CONSTRAINTS`. -/
structure BasicConstraints where
  ca : Bool

/-- The purposes that have a flag, and the others. -/
inductive KeyPurpose where
  | NID_server_auth
  | NID_client_auth
  | NID_OCSP_sign
  | other

/-- `AUTHORITY_KEYID`; the key identifier is an optional field. -/
structure AuthorityKeyid where
  keyid : Option (List UInt8)

/-- The kind of an extension, with what `X509V3_EXT_d2i` returns where it is called. -/
inductive ExtensionValue where
  | NID_basic_constraints (d2i : Option BasicConstraints)
  | NID_key_usage (d2i : Option (List UInt8))
  | NID_info_access
  | NID_authority_key_identifier (d2i : Option AuthorityKeyid)
  | NID_subject_key_identifier (data : List UInt8)
  | NID_subject_alt_name
  | NID_issuer_alt_name
  | NID_ext_key_usage (d2i : Option (List KeyPurpose))
  | NID_crl_distribution_points
  | NID_sbgp_ipAddrBlock
  | other (nid : Nat)

/-- `X509_EXTENSION`. -/
structure X509Extension where
  value : ExtensionValue
  critical : Bool

/-- `X509`, with `X509_get0_extensions`. -/
structure X509 where
  extensions : Option (List X509Extension)

/-! ## Flags

  `mCertFlags` is a set of bits that only grows. -/

/- `x509_flag_t` -/
abbrev X509_NONE : BitVec 32 := 0
abbrev X509_CA : BitVec 32 := 1 <<< 0
abbrev X509_OCSP_SIGNER : BitVec 32 := 1 <<< 2
abbrev X509_SERVER_AUTH : BitVec 32 := 1 <<< 3
abbrev X509_CLIENT_AUTH : BitVec 32 := 1 <<< 4
abbrev X509_CRL_SIGN : BitVec 32 := 1 <<< 7

abbrev X509v3_KU_CRL_SIGN : BitVec 32 := 0x0002

/-- `certX509`. -/
structure CertX509 where
  mpX509 : Option X509
  mCertFlags : BitVec 32

/-- What the loaders return. -/
inductive Status where
  | STATUS_SUCCESS
  | STATUS_FAILED
  deriving DecidableEq

/-- What a file is taken for. -/
inductive CertEncoding where
  | CERT_ENCODING_PEM
  | CERT_ENCODING_DER
  deriving DecidableEq

/-- What a call finds. -/
structure LoadEnv where
  /-- the bytes of the file, none when it cannot be opened or read -/
  file : Option (List UInt8)
  /-- `X509_new` and `BIO_new_file` return an object -/
  X509_new : Bool
  BIO_new_file : Bool
  /-- where `cert` points behind the call -/
  PEM_read_bio_X509 : Option X509
  d2i_X509_bio : Option X509
  /-- what `ok` holds when the turn begins -/
  uninit : Nat → Bool

namespace CertX509

/-- `certX509()`. -/
def new : CertX509 := ⟨none, X509_NONE⟩

def getCertFlag (c : CertX509) : BitVec 32 := c.mCertFlags

/-- `mCertFlags |= flag`. -/
def setCertFlag (c : CertX509) (flag : BitVec 32) : CertX509 :=
  { c with mCertFlags := c.mCertFlags ||| flag }

/-! ## Extensions

  Each parser returns whether the extension was understood, together with the certificate. -/

/-- Sets `X509_CA` where `cA` is set. -/
def parseBasicConstraintsExt (c : CertX509) : Option BasicConstraints → Bool × CertX509
  | some constraints => (true, if constraints.ca then c.setCertFlag X509_CA else c)
  | none => (false, c)

/-- The first two bytes of the bit string. -/
def usageFlags : List UInt8 → BitVec 32
  | [] => 0
  | [a] => a.toBitVec.setWidth 32
  | a :: b :: _ => a.toBitVec.setWidth 32 ||| b.toBitVec.setWidth 32 <<< 8

/-- Sets `X509_CRL_SIGN`; the other usages have no flag. -/
def parseKeyUsageExt (c : CertX509) : Option (List UInt8) → Bool × CertX509
  | some usage => (true, if usageFlags usage &&& X509v3_KU_CRL_SIGN ≠ 0 then
    c.setCertFlag X509_CRL_SIGN else c)
  | none => (false, c)

/-- A turn of the loop over the purposes. -/
def setPurpose (c : CertX509) : KeyPurpose → CertX509
  | .NID_server_auth => c.setCertFlag X509_SERVER_AUTH
  | .NID_client_auth => c.setCertFlag X509_CLIENT_AUTH
  | .NID_OCSP_sign => c.setCertFlag X509_OCSP_SIGNER
  | .other => c

/-- Sets the flag of every purpose that has one. -/
def parseExtKeyUsageExt (c : CertX509) : Option (List KeyPurpose) → Bool × CertX509
  | some usage => (true, usage.foldl setPurpose c)
  | none => (false, c)

/-- `ASN1_STRING_data(keyid->keyid)` follows the pointer. -/
def parseAuthKeyIdentifierExt (c : CertX509) : Option AuthorityKeyid → Run (Bool × CertX509)
  | some keyid => do
      let _ ← deref keyid.keyid
      .ok (true, c)
  | none => .ok (false, c)

/-- The key identifier is kept and not looked at. -/
def parseSubjectKeyIdentifierExt (c : CertX509) (_data : List UInt8) : Bool × CertX509 := (true, c)

/-- A turn of the loop: the switch, which leaves `ok` as it is on five of its branches. -/
def parseExtension (c : CertX509) (ok : Bool) (ext : X509Extension) : Run (Bool × CertX509) :=
  match ext.value with
  | .NID_basic_constraints d2i => .ok (c.parseBasicConstraintsExt d2i)
  | .NID_key_usage d2i => .ok (c.parseKeyUsageExt d2i)
  | .NID_info_access => .ok (ok, c)
  | .NID_authority_key_identifier d2i => c.parseAuthKeyIdentifierExt d2i
  | .NID_subject_key_identifier data => .ok (c.parseSubjectKeyIdentifierExt data)
  | .NID_subject_alt_name => .ok (ok, c)
  | .NID_issuer_alt_name => .ok (ok, c)
  | .NID_ext_key_usage d2i => .ok (c.parseExtKeyUsageExt d2i)
  | .NID_crl_distribution_points => .ok (ok, c)
  | .NID_sbgp_ipAddrBlock => .ok (ok, c)
  -- found unsupported critical X.509 extension
  | .other _ => .ok (!ext.critical, c)

/-- The loop over the extensions; it returns 0 however it ends. -/
def parseCertExtensions (c : CertX509) (uninit : Nat → Bool) : Run (Nat × CertX509) := do
  let x ← deref c.mpX509
  match x.extensions with
  | none => .ok (0, c)
  | some extensions => do
      let (ok, c) ← Scan.scan (fun i ext c => c.parseExtension (uninit i) ext) 0 extensions c
      -- `return false` is the value of `return 0`
      .ok (if ok then 0 else false.toNat, c)

/-! ## Files

  A file is read by one of two loaders, which the first bytes choose. -/

/-- The two loaders, given the object that is read. -/
def loadX509CertFrom (c : CertX509) (env : LoadEnv) (cert : Option X509) :
    Run (Status × CertX509) :=
  if !env.X509_new then .ok (.STATUS_FAILED, c)
  else if !env.BIO_new_file then .ok (.STATUS_FAILED, c)
  else do
    let (_, c) ← parseCertExtensions { c with mpX509 := cert } env.uninit
    .ok (.STATUS_SUCCESS, c)

/-- `loadX509CertFromPEM(path)`. -/
def loadX509CertFromPEM (c : CertX509) (env : LoadEnv) : Run (Status × CertX509) :=
  c.loadX509CertFrom env env.PEM_read_bio_X509

/-- `loadX509CertFromDER(path)`. -/
def loadX509CertFromDER (c : CertX509) (env : LoadEnv) : Run (Status × CertX509) :=
  c.loadX509CertFrom env env.d2i_X509_bio

end CertX509

/-- `certMgr`. -/
structure CertMgr where
  mCertList : List CertX509

namespace CertMgr

/-- `"-----BEGIN"`. -/
def pemBegin : List UInt8 := [0x2d, 0x2d, 0x2d, 0x2d, 0x2d, 0x42, 0x45, 0x47, 0x49, 0x4e]

/-- The encoding, none for STATUS_FAILED.  The length of a blob has 32 bits. -/
def getCertEncoding (file : Option (List UInt8)) : Run (Option CertEncoding) :=
  match file with
  | none => .ok none
  | some buf =>
      if 10 ≤ buf.length ∧ buf.take 10 = pemBegin then .ok (some .CERT_ENCODING_PEM)
      else do
        let asn1 ← Asn1Parser.isAsn1Encode buf ⟨some 0, buf.length % 2 ^ 32⟩
        .ok (if asn1 then some .CERT_ENCODING_DER else none)

/-- A certificate without `X509_CA` is deleted. -/
def keepCaCert (mgr : CertMgr) (pCert : CertX509) : Option CertX509 × CertMgr :=
  if pCert.getCertFlag &&& X509_CA = 0 then (none, mgr)
  else (some pCert, { mgr with mCertList := mgr.mCertList ++ [pCert] })

/-- Load a CA certificate from disk: the certificate or NULL, and the manager. -/
def loadX509CaCert (mgr : CertMgr) (env : LoadEnv) : Run (Option CertX509 × CertMgr) := do
  match ← getCertEncoding env.file with
  | none => .ok (none, mgr)
  | some .CERT_ENCODING_PEM => do
      let (_, pCert) ← CertX509.new.loadX509CertFromPEM env
      .ok (mgr.keepCaCert pCert)
  | some .CERT_ENCODING_DER => do
      let (_, pCert) ← CertX509.new.loadX509CertFromDER env
      .ok (mgr.keepCaCert pCert)

end CertMgr

end StevenProgram
