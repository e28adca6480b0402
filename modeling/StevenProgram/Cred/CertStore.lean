/-
  The certificates that `credMgr` holds: `loadCerts` (`credMgr.cpp`) and the loaders it reaches
  (`certMgr.cpp`).

  Five directories are read one after the other, and the type and the flag that come with a
  directory choose the loader for its files.  Each loader but the one for CA certificates keeps what
  it gets: it looks neither at the status of the two functions that read the file nor at what they
  have read, and for the log it asks the certificate for its subject.  The loaders for revocation
  lists and attribute certificates do not look at the file at all.

  1. **Loaders** — `loadX509CaCertLogged`, `loadX509AaCert`, `loadX509Cert`, `loadX509CrlCert`,
     `loadX509AttCert`; and `showCertList`, what a user of the list does with it.
  2. **Directories** — `loadCertByType`, `loadCertDir`, `loadCerts`.

  `CertWorld` is what one call finds outside the program; it does not change during the call.  The
  messages are left out, and of the ones that print a subject the string stays.
-/
import StevenProgram.Cred.CaCerts
import StevenProgram.Cred.CertDir

namespace StevenProgram

open SubjectString (NameEntry getCertSubjectString)
open CertDir (CName FileSystem DirStatus dirPath)

abbrev X509_AA : BitVec 32 := 1 <<< 1

/-- `certificate_type_t` -/
inductive CertificateType where
  | CERT_ANY
  | CERT_X509
  | CERT_X509_CRL
  | CERT_X509_OCSP_REQUEST
  | CERT_X509_OCSP_RESPONSE
  | CERT_X509_AC
  | CERT_TRUSTED_PUBKEY
  | CERT_PKCS10_REQUEST
  | CERT_GPG
  deriving DecidableEq

/-- What a load finds, with the subject of the certificate that is read. -/
structure CertFile extends LoadEnv where
  subject : List NameEntry

/-! ## Loaders

  The log line of a loader is modelled where it can end the program: it prints the subject of a
  certificate that may not be there. -/

namespace CertMgr

/-- `getCertSubjectString`, which follows `mpX509`. -/
def logSubject (pCert : CertX509) (f : CertFile) : Run Unit := do
  let _ ← deref pCert.mpX509
  let _ ← getCertSubjectString f.subject
  .ok ()

/-- `mCertList.push_back(pCert)`. -/
def pushBack (mgr : CertMgr) (pCert : CertX509) : CertMgr :=
  { mgr with mCertList := mgr.mCertList ++ [pCert] }

/-- The branches on the encoding. -/
def loadEncoded (f : CertFile) : CertEncoding → Run (Status × CertX509)
  | .CERT_ENCODING_PEM => CertX509.new.loadX509CertFromPEM f.toLoadEnv
  | .CERT_ENCODING_DER => CertX509.new.loadX509CertFromDER f.toLoadEnv

/-- `loadX509CaCert`, with the subject of the certificate that it keeps. -/
def loadX509CaCertLogged (mgr : CertMgr) (f : CertFile) : Run (Option CertX509 × CertMgr) := do
  let (ret, mgr) ← mgr.loadX509CaCert f.toLoadEnv
  match ret with
  | none => .ok (none, mgr)
  | some pCert => do
      logSubject pCert f
      .ok (some pCert, mgr)

/-- Keeps what it read, with `X509_AA`. -/
def loadX509AaCert (mgr : CertMgr) (f : CertFile) : Run (Option CertX509 × CertMgr) := do
  match ← getCertEncoding f.file with
  | none => .ok (none, mgr)
  | some encoding => do
      let (_, pCert) ← loadEncoded f encoding
      let pCert := pCert.setCertFlag X509_AA
      logSubject pCert f
      .ok (some pCert, mgr.pushBack pCert)

/-- Keeps what it read. -/
def loadX509Cert (mgr : CertMgr) (f : CertFile) : Run (Option CertX509 × CertMgr) := do
  match ← getCertEncoding f.file with
  | none => .ok (none, mgr)
  | some encoding => do
      let (_, pCert) ← loadEncoded f encoding
      logSubject pCert f
      .ok (some pCert, mgr.pushBack pCert)

/-- The file is not looked at. -/
def loadX509CrlCert (mgr : CertMgr) : CertX509 × CertMgr :=
  (CertX509.new, mgr.pushBack CertX509.new)

/-- Nor is this one. -/
def loadX509AttCert (mgr : CertMgr) : CertX509 × CertMgr :=
  (CertX509.new, mgr.pushBack CertX509.new)

/-- `showCertSubject`, which follows `mpX509`. -/
def showCertSubject (c : CertX509) : Run Unit := do
  let _ ← deref c.mpX509
  .ok ()

/-- A pass over `getCertList()` that shows each certificate. -/
def showCertList (mgr : CertMgr) : Run Unit := mgr.mCertList.forM showCertSubject

end CertMgr

/-! ## Directories

  Five calls with fixed arguments; what they return is dropped. -/

/-- What `loadCerts` finds: the file system, the listings, and what a load of a file finds. -/
structure CertWorld where
  fs : FileSystem
  readdir : List UInt8 → List CName
  load : List UInt8 → CertFile

namespace CredMgr

def CA_CERTIFICATE_DIR : CName := ⟨ascii "/usr/local/etc/ipsec.d/cacerts", by decide⟩
def AA_CERTIFICATE_DIR : CName := ⟨ascii "/usr/local/etc/ipsec.d/aacerts", by decide⟩
def OCSP_CERTIFICATE_DIR : CName := ⟨ascii "/usr/local/etc/ipsec.d/ocspcerts", by decide⟩
def ATTR_CERTIFICATE_DIR : CName := ⟨ascii "/usr/local/etc/ipsec.d/acerts", by decide⟩
def CRL_DIR : CName := ⟨ascii "/usr/local/etc/ipsec.d/crls", by decide⟩

/-- The manager behind the call; what the loaders return is not looked at. -/
def loadCertByType (certType : CertificateType) (certFlag : BitVec 32) (mgr : CertMgr)
    (f : CertFile) : Run CertMgr :=
  match certType with
  | .CERT_X509 => do
      if certFlag &&& X509_CA ≠ 0 then do
        let (_, mgr) ← mgr.loadX509CaCertLogged f
        .ok mgr
      else if certFlag &&& X509_AA ≠ 0 then do
        let (_, mgr) ← mgr.loadX509AaCert f
        .ok mgr
      else do
        let (_, mgr) ← mgr.loadX509Cert f
        .ok mgr
  | .CERT_X509_CRL => .ok mgr.loadX509CrlCert.2
  | .CERT_X509_AC => .ok mgr.loadX509AttCert.2
  | _ => .ok mgr

/-- The files are handed over in the order of the listing. -/
def loadCertDir (w : CertWorld) (certType : CertificateType) (certFlag : BitVec 32) (mgr : CertMgr)
    (path : CName) :
    Run (DirStatus × CertMgr) := do
  let (ret, files) ← CertDir.loadCertDir w.fs path (w.readdir (dirPath path))
  let mgr ← files.foldlM (fun mgr file => loadCertByType certType certFlag mgr (w.load file)) mgr
  .ok (ret, mgr)

/-- `loadCerts()`: the five directories, each with its type and its flag. -/
def loadCerts (w : CertWorld) (mgr : CertMgr) : Run CertMgr := do
  let (_, mgr) ← loadCertDir w .CERT_X509 X509_CA mgr CA_CERTIFICATE_DIR
  let (_, mgr) ← loadCertDir w .CERT_X509 X509_AA mgr AA_CERTIFICATE_DIR
  let (_, mgr) ← loadCertDir w .CERT_X509 X509_OCSP_SIGNER mgr OCSP_CERTIFICATE_DIR
  let (_, mgr) ← loadCertDir w .CERT_X509_AC 0 mgr ATTR_CERTIFICATE_DIR
  let (_, mgr) ← loadCertDir w .CERT_X509_CRL 0 mgr CRL_DIR
  .ok mgr

end CredMgr

end StevenProgram
