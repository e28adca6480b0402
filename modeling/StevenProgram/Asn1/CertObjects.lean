/-
  The table of an X.509 certificate (`certObjects` in `certX509.cpp`), and the certificates it
  describes.

  The types are the statement's other side: what a certificate is, said by its parts and not by the
  parser.

  1.  **Certificates** — records of values, each with its own definite length form.  What the table
     takes as one object (names, keys, algorithms) is a value with any contents; the wrapper of a
     sequence fits the bytes of its parts by construction.

  2.  **Lines** — what the table prescribes to be delivered for a certificate: the whole value on
     OBJ and RAW lines, the contents on BODY lines, nothing on lines without a flag, on END lines
     and for fields that are absent.  A missing `[0]` is reported on its version line, a missing
     option on its END line.

  Every length may be in the short form or in any long form that holds it, also a longer one than
  DER allows.
-/
import StevenProgram.Asn1.Lines
import StevenProgram.Asn1.Containment

namespace StevenProgram

open Asn1 Asn1Parser Der

/-- ASN.1 definition of an X.509v3 x509_cert. -/
def certObjects : List Asn1Object :=
  [⟨0, ASN1_PARSER_SEQUENCE, ASN1_OBJ⟩,                -- 0  x509
   ⟨1, ASN1_PARSER_SEQUENCE, ASN1_OBJ⟩,                -- 1  tbsCertificate
   ⟨2, ASN1_PARSER_CONTEXT_C_0, ASN1_DEF⟩,             -- 2  DEFAULT v1
   ⟨3, ASN1_PARSER_INTEGER, ASN1_BODY⟩,                -- 3  version
   ⟨2, ASN1_PARSER_INTEGER, ASN1_BODY⟩,                -- 4  serialNumber
   ⟨2, ASN1_PARSER_EOC, ASN1_RAW⟩,                     -- 5  signature
   ⟨2, ASN1_PARSER_SEQUENCE, ASN1_OBJ⟩,                -- 6  issuer
   ⟨2, ASN1_PARSER_SEQUENCE, ASN1_NONE⟩,               -- 7  validity
   ⟨3, ASN1_PARSER_EOC, ASN1_RAW⟩,                     -- 8  notBefore
   ⟨3, ASN1_PARSER_EOC, ASN1_RAW⟩,                     -- 9  notAfter
   ⟨2, ASN1_PARSER_SEQUENCE, ASN1_OBJ⟩,                -- 10 subject
   ⟨2, ASN1_PARSER_SEQUENCE, ASN1_RAW⟩,                -- 11 subjectPublicKeyInfo
   ⟨2, ASN1_PARSER_CONTEXT_C_1, ASN1_OPT⟩,             -- 12 issuerUniqueID
   ⟨2, ASN1_PARSER_EOC, ASN1_END⟩,                     -- 13 end opt
   ⟨2, ASN1_PARSER_CONTEXT_C_2, ASN1_OPT⟩,             -- 14 subjectUniqueID
   ⟨2, ASN1_PARSER_EOC, ASN1_END⟩,                     -- 15 end opt
   ⟨2, ASN1_PARSER_CONTEXT_C_3, ASN1_OPT⟩,             -- 16 optional extensions
   ⟨3, ASN1_PARSER_SEQUENCE, ASN1_LOOP⟩,               -- 17 extensions
   ⟨4, ASN1_PARSER_SEQUENCE, ASN1_NONE⟩,               -- 18 extension
   ⟨5, ASN1_PARSER_OID, ASN1_BODY⟩,                    -- 19 extnID
   ⟨5, ASN1_PARSER_BOOLEAN, ASN1_DEF ||| ASN1_BODY⟩,   -- 20 critical
   ⟨5, ASN1_PARSER_OCTET_STRING, ASN1_BODY⟩,           -- 21 extnValue
   ⟨3, ASN1_PARSER_EOC, ASN1_END⟩,                     -- 22 end loop
   ⟨2, ASN1_PARSER_EOC, ASN1_END⟩,                     -- 23 end opt
   ⟨1, ASN1_PARSER_EOC, ASN1_RAW⟩,                     -- 24 signatureAlgorithm
   ⟨1, ASN1_PARSER_BIT_STRING, ASN1_BODY⟩,             -- 25 signatureValue
   ⟨0, ASN1_PARSER_EOC, ASN1_EXIT⟩]                    -- 26 exit

/-- So no walk over any input leaves the table or the input. -/
theorem certObjects_strict : StrictTable certObjects :=
  ⟨⟨by decide, ⟨_, rfl, rfl⟩, by decide, by decide⟩, by decide, by decide⟩

/-! ## Certificates

  A `Wrapped` value carries the proof that its contents are the bytes of the parts, so a certificate
  whose lengths do not fit cannot be written down. -/

/-- `[0] { INTEGER }`. -/
structure Version where
  number : Tlv 0x02
  wrap : Wrapped 0xA0 number.bytes

/-- `SEQUENCE { notBefore, notAfter }`, times of any kind. -/
structure Validity where
  notBefore : AnyTlv
  notAfter : AnyTlv
  wrap : Wrapped 0x30 (notBefore.bytes ++ notAfter.bytes)

/-- `SEQUENCE { extnID, critical DEFAULT FALSE, extnValue }`. -/
structure Extension where
  extnID : Tlv 0x06
  critical : Option (Tlv 0x01)
  extnValue : Tlv 0x04
  wrap : Wrapped 0x30 (extnID.bytes ++ (optBytes critical ++ extnValue.bytes))

/-- Its encoding. -/
def Extension.bytes (e : Extension) : List UInt8 := e.wrap.tlv.bytes

/-- `[3] { SEQUENCE OF extension }`. -/
structure Extensions where
  list : List Extension
  sequence : Wrapped 0x30 (list.flatMap Extension.bytes)
  wrap : Wrapped 0xA3 sequence.tlv.bytes

/-- Its encoding. -/
def Version.bytes (v : Version) : List UInt8 := v.wrap.tlv.bytes

/-- Its encoding. -/
def Extensions.bytes (x : Extensions) : List UInt8 := x.wrap.tlv.bytes

/-- The part that is signed. -/
structure TbsCertificate where
  version : Option Version
  serialNumber : Tlv 0x02
  signature : AnyTlv
  issuer : Tlv 0x30
  validity : Validity
  subject : Tlv 0x30
  subjectPublicKeyInfo : AnyTlv
  issuerUniqueID : Option (Tlv 0xA1)
  subjectUniqueID : Option (Tlv 0xA2)
  extensions : Option Extensions

namespace TbsCertificate

variable (tbs : TbsCertificate)

/-- The fields that may be absent, behind the public key. -/
def options : List UInt8 :=
  optBytes tbs.issuerUniqueID ++ (optBytes tbs.subjectUniqueID ++ tbs.extensions.elim
    [] Extensions.bytes)

/-- The fields between the version and the options. -/
def fields : List UInt8 :=
  tbs.serialNumber.bytes ++
    (tbs.signature.bytes ++ (tbs.issuer.bytes ++ (tbs.validity.wrap.tlv.bytes ++
    (tbs.subject.bytes ++ (tbs.subjectPublicKeyInfo.bytes ++ tbs.options)))))

/-- The version, if there is one, and the fields behind it. -/
def content : List UInt8 := tbs.version.elim [] Version.bytes ++ tbs.fields

end TbsCertificate

/-- A certificate in the shape of the table, of less than 2^31 bytes. -/
structure Certificate where
  tbsCertificate : TbsCertificate
  tbsWrap : Wrapped 0x30 tbsCertificate.content
  signatureAlgorithm : AnyTlv
  signatureValue : Tlv 0x03
  wrap : Wrapped 0x30 (tbsWrap.tlv.bytes ++ (signatureAlgorithm.bytes ++ signatureValue.bytes))
  size : wrap.tlv.bytes.length < 2 ^ 31

/-- The bytes of the certificate. -/
def Certificate.encode (c : Certificate) : List UInt8 := c.wrap.tlv.bytes

/-- Nothing in any field, a long form around it. -/
example : Certificate where
  tbsCertificate :=
    { version := none, serialNumber := .empty _, signature := ⟨0x30, .empty _⟩, issuer := .empty _
      validity := ⟨⟨0x17, .empty _⟩, ⟨0x17, .empty _⟩, ⟨.short, by decide, by decide⟩⟩
      subject := .empty _, subjectPublicKeyInfo := ⟨0x30, .empty _⟩, issuerUniqueID := none,
        subjectUniqueID := none
      extensions := none }
  tbsWrap := ⟨.long 2, by decide, by decide⟩
  signatureAlgorithm := ⟨0x30, .empty _⟩
  signatureValue := .empty _
  wrap := ⟨.short, by decide, by decide⟩
  size := by decide

/-! ## Lines

  One definition for each part, in the order of the table; `Certificate.prescribed` puts them
  together. -/

/-- The lines 2 and 3. -/
def Version.lines : Option Version → List Delivery
  | none => [(some 3, [])]
  | some v => [(some 2, []), (some 3, v.number.body)]

/-- An option without lines of its own, closed on the line behind it. -/
def optionLines (line : Nat) {tag : UInt8} : Option (Tlv tag) → List Delivery
  | none => [(some (line + 1), [])]
  | some _ => [(some line, []), (some (line + 1), [])]

/-- A turn of the loop; without `critical` its line delivers nothing. -/
def Extension.lines (e : Extension) : List Delivery :=
  [(some 18, []), (some 19, e.extnID.body), (some 20, e.critical.elim [] Tlv.body),
    (some 21, e.extnValue.body)]

/-- A loop without items goes directly to its END line. -/
def loopLines : List Extension → List Delivery
  | [] => [(some 22, [])]
  | es@(_ :: _) => (some 17, []) :: es.flatMap Extension.lines ++ [(some 22, [])]

/-- The option around the loop. -/
def Extensions.lines : Option Extensions → List Delivery
  | none => [(some 23, [])]
  | some x => (some 16, []) :: loopLines x.list ++ [(some 23, [])]

/-- The lines 2 to 23, for all that is signed. -/
def TbsCertificate.lines (tbs : TbsCertificate) : List Delivery :=
  Version.lines tbs.version ++
  [(some 4, tbs.serialNumber.body), (some 5, tbs.signature.bytes), (some 6, tbs.issuer.bytes),
    (some 7, []),
   (some 8, tbs.validity.notBefore.bytes), (some 9, tbs.validity.notAfter.bytes),
     (some 10, tbs.subject.bytes),
   (some 11, tbs.subjectPublicKeyInfo.bytes)] ++
  optionLines 12 tbs.issuerUniqueID ++ optionLines 14 tbs.subjectUniqueID ++
    Extensions.lines tbs.extensions

/-- **What the table prescribes** for a certificate. -/
def Certificate.prescribed (c : Certificate) : List Delivery :=
  [(some 0, c.encode), (some 1, c.tbsWrap.tlv.bytes)] ++ c.tbsCertificate.lines ++
  [(some 24, c.signatureAlgorithm.bytes), (some 25, c.signatureValue.body)]

end StevenProgram
