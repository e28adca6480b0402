/-
  The fingerprint of a public key: `calculatePublicKeyInfoHash` in `certX509.cpp`.

  The function walks over the DER encoding of its certificate until `iterate` delivers
  `X509_OBJ_SUBJECT_PUBLIC_KEY_INFO` or returns false, and then digests what `object` holds.  It
  does not look at which of the two happened: `object` was reset by the call that returned false, so
  the digest is taken over nothing, and STATUS_SUCCESS is reported for it.

  1.  **Encodings** — a `KeyPath` is what has to stand in an encoding in front of a public key.
     Behind every part anything may follow, and nothing is asked of the fields behind the key.

  2.  **The loop** — `Ends a Q`: from the stage `a` the loop is left, on a call with `Q`.  The rules
     are for a delivery (`Ends.lead`), for a line that takes a value or stops (`Ends.line`), and for
     the last call (`Ends.last`).  There is one walk with a path (`ends_path`) and one over any
     bytes (`ends_any`).

  3.  **Headline** (`key_info_hash_iff`) — the key is found exactly if there is a path to it, and
     exactly then the function reports what it did.

  The walk over any bytes gives the direction that is not a run of the parser: whatever the input
  is, the loop is left on the key behind a path to it, or on a call that returned false.
-/
import StevenProgram.Asn1.CertWalk
import StevenProgram.Asn1.Failures
import StevenProgram.Cred.CertX509

namespace StevenProgram

open Asn1 Asn1Parser Der CertWalk

abbrev X509_OBJ_SUBJECT_PUBLIC_KEY_INFO : Nat := 11

/-- What the functions use of OpenSSL: digests, by name and over any bytes, and the digest over the
    key of `mpX509`. No digest has a NULL `EVP_MD`. -/
structure Evp (Md : Type) where
  EVP_sha1 : Md
  EVP_get_digestbyname : List UInt8 → Option Md
  EVP_Digest : List UInt8 → Option Md → List UInt8
  X509_pubkey_digest : Option X509 → Option Md → List UInt8

namespace CertX509

variable {Md : Type} (evp : Evp Md)

/-- `while (parser->iterate(objectID, object))`, up to `fuel` calls: what the call handed out on
    which the loop was left. -/
def findKeyInfo (input : List UInt8) : Nat → Asn1Parser → Run Iterated
  | 0, _ => .error .diverged
  | fuel + 1, s => do
      let (s, it) ← s.iterate certObjects input
      if it.ret then
        if it.objectID = some X509_OBJ_SUBJECT_PUBLIC_KEY_INFO then .ok it
        else findKeyInfo input fuel s
      else .ok it

/-- The loop over an encoding; no more calls than the table has lines. -/
def keyInfoLoop (mDerEncoding : Chunk) : Run Iterated :=
  findKeyInfo mDerEncoding.bytes certObjects.length (Asn1Parser.new mDerEncoding.bytes)

/-- SHA-1 when no name is given. -/
def digestOf : Option (List UInt8) → Option Md
  | none => some evp.EVP_sha1
  | some name => evp.EVP_get_digestbyname name

/-- The status, and `fp`. -/
def calculatePublicKeyInfoHash (name : Option (List UInt8)) (mDerEncoding : Chunk) :
    Run (Status × List UInt8) := do
  let it ← keyInfoLoop mDerEncoding
  .ok (.STATUS_SUCCESS, evp.EVP_Digest (it.object.bytes mDerEncoding.bytes) (digestOf evp name))

/-- OpenSSL digests the key of its own certificate. -/
def calculatePublicKeyHash (name : Option (List UInt8)) (mpX509 : Option X509) :
    Status × List UInt8 :=
  (.STATUS_SUCCESS, evp.X509_pubkey_digest mpX509 (digestOf evp name))

abbrev KEYID_PUBKEY_INFO_SHA1 : Nat := 0
abbrev KEYID_PUBKEY_SHA1 : Nat := 1

/-- What the two functions return is not looked at. -/
def getFingerprint (type : Nat) (fp : List UInt8) (mpX509 : Option X509) (mDerEncoding : Chunk) :
    Run (Status × List UInt8) :=
  if type = KEYID_PUBKEY_INFO_SHA1 then do
    let (_, fp) ← calculatePublicKeyInfoHash evp none mDerEncoding
    .ok (.STATUS_SUCCESS, fp)
  else if type = KEYID_PUBKEY_SHA1 then
    .ok (.STATUS_SUCCESS, (calculatePublicKeyHash evp none mpX509).2)
  else .ok (.STATUS_FAILED, fp)

end CertX509

/-! ## Encodings -/

/-- What stands in front of a public key, down from the first byte. -/
structure KeyPath (input : List UInt8) where
  certificate : Tlv 0x30
  tbsCertificate : Tlv 0x30
  version : Option (Tlv 0xA0)
  serialNumber : Tlv 0x02
  signature : AnyTlv
  issuer : Tlv 0x30
  validity : Tlv 0x30
  subject : Tlv 0x30
  subjectPublicKeyInfo : AnyTlv
  /-- behind the certificate, behind `tbsCertificate`, behind the key -/
  (after afterTbs afterKey : List UInt8)
  encoded : input = certificate.bytes ++ after
  first : certificate.body = tbsCertificate.bytes ++ afterTbs
  fields : tbsCertificate.body = optBytes version ++
    (serialNumber.bytes ++ (signature.bytes ++ (issuer.bytes ++
    (validity.bytes ++ (subject.bytes ++ (subjectPublicKeyInfo.bytes ++ afterKey))))))
  /-- a number is in the version, and two times in the validity -/
  number : ∀ v ∈ version, ∃ (n : Tlv 0x02) (rest : List UInt8), v.body = n.bytes ++ rest
  times : ∃ (notBefore notAfter : AnyTlv) (rest : List UInt8), validity.body = notBefore.bytes ++
    (notAfter.bytes ++ rest)

/-! ## The loop

  Up to the key the table has no loop of its own, so every turn of the `while` goes forward and as
  many calls as there are lines are enough. -/

namespace Fingerprint

open CertX509

variable {input : List UInt8}

/-- From this stage the loop is left, within as many calls as there are lines up to the key, on a
    call with `Q`. -/
def Ends (input : List UInt8) (Q : Iterated → Prop) (a : Stage) : Prop :=
  ∀ s fuel, a.Sees input s → (s.mImplicit && a.next == 0) = false →
    X509_OBJ_SUBJECT_PUBLIC_KEY_INFO < a.next + fuel → ∃ it, findKeyInfo input fuel s = .ok it ∧
      Q it

/-- The line takes one value; no option, choice or loop begins or ends on it. -/
def plainLine (obj : Asn1Object) : Bool :=
  !obj.has ASN1_EXIT && !obj.has ASN1_END && !obj.has ASN1_CHOICE && !obj.has ASN1_LOOP &&
    !(obj.has ASN1_RAW && (obj.has ASN1_DEF || obj.has ASN1_OPT))

namespace Ends

variable {Q : Iterated → Prop} {a b : Stage} {i : Nat} {obj : Asn1Object} {loop : Nat → Nat}

/-- A delivery of another object. -/
theorem lead {k : Nat} {bs : List UInt8} (h : Leads certObjects input a [(some k, bs)] b)
    (hk : k ≠ X509_OBJ_SUBJECT_PUBLIC_KEY_INFO) (ha : a.next ≤ X509_OBJ_SUBJECT_PUBLIC_KEY_INFO)
    (hlt : a.next < b.next)
    (hb : Ends input Q b) : Ends input Q a := by
  intro s fuel hs _ hfuel
  obtain ⟨s', hrun, hs'⟩ := h s hs
  cases hrun with
  | step hR hrest =>
    cases hrest
    obtain ⟨it, hit, hret, hd⟩ := hR
    have hid : it.objectID = some k := congrArg Prod.fst hd
    obtain ⟨fuel, rfl⟩ : ∃ f, fuel = f + 1 := ⟨fuel - 1, by omega⟩
    have hfirst : (s'.mImplicit && b.next == 0) = false := by
      rw [beq_eq_false_iff_ne.mpr (by omega), Bool.and_false]
    obtain ⟨it', hit', hQ⟩ := hb s' fuel hs' hfirst (by omega)
    refine ⟨it', ?_, hQ⟩
    rw [findKeyInfo, hit, Run.ok_bind]
    simp only [hret, if_true]
    rw [if_neg (by rw [hid]; exact fun h => hk (Option.some.inj h))]
    exact hit'

/-- The delivery of the key. -/
theorem last {bs : List UInt8}
    (h : Leads certObjects input a [(some X509_OBJ_SUBJECT_PUBLIC_KEY_INFO, bs)] b)
    (ha : a.next ≤ X509_OBJ_SUBJECT_PUBLIC_KEY_INFO)
    (hQ : ∀ it : Iterated, it.ret = true → it.objectID = some X509_OBJ_SUBJECT_PUBLIC_KEY_INFO →
      it.object.bytes input = bs → Q it) : Ends input Q a := by
  intro s fuel hs _ hfuel
  obtain ⟨s', hrun, hs'⟩ := h s hs
  cases hrun with
  | step hR hrest =>
    obtain ⟨it, hit, hret, hd⟩ := hR
    have hid : it.objectID = some X509_OBJ_SUBJECT_PUBLIC_KEY_INFO := congrArg Prod.fst hd
    obtain ⟨fuel, rfl⟩ : ∃ f, fuel = f + 1 := ⟨fuel - 1, by omega⟩
    refine ⟨it, ?_, hQ it hret hid (congrArg Prod.snd hd)⟩
    rw [findKeyInfo, hit, Run.ok_bind]
    simp only [hret, hid, if_true]

/-- What a plain line does with a value. -/
theorem leads_plain (hsize : input.length < 2 ^ 32) (hline : certObjects[i]? = some obj)
    (hplain : plainLine obj = true)
    (st : List (List UInt8)) {deep : List (List UInt8)} {cur rest : List UInt8} {t : AnyTlv}
    (hlevel : obj.level = st.length) (hmax : obj.level ≤ ASN1_MAX_LEVEL)
    (ht : Takes obj cur t rest) :
    Leads certObjects input ⟨i, loop, st ++ cur :: deep⟩ [(some i, delivered obj t.tlv)]
      ⟨i + 1, loop, st ++ [rest, t.tlv.body]⟩ := by
  obtain ⟨rfl, htag⟩ := ht
  unfold plainLine at hplain
  simp only [Bool.and_eq_true, Bool.not_eq_true'] at hplain
  obtain ⟨⟨⟨⟨hexit, hend⟩, hchoice⟩, hloop⟩, hraw⟩ := hplain
  have hitem : ItemLine obj t.tag := by
    refine ⟨hmax, hchoice, by rw [hloop, Bool.and_false], ?_⟩
    rcases htag with h | h
    · right
      rw [h, Bool.true_and, Bool.or_eq_false_iff] at hraw
      rw [h, hraw.1, hraw.2]
      rfl
    · left
      exact h
  have hleads :
    Leads certObjects input ⟨i, loop, st ++ (t.bytes ++ rest) :: deep⟩ _
    (behind obj i loop st t.tlv rest) :=
    leads_tlv hsize hline st t.tlv rest hlevel hitem (by rw [hexit, hend]; rfl)
      (fun h => absurd h (ne_true_of_eq_false hloop))
  rw [behind, hloop, if_neg Bool.false_ne_true] at hleads
  exact hleads

/-- A line in front of the key takes its value. -/
theorem step (hsize : input.length < 2 ^ 32) (hline : certObjects[i]? = some obj)
    (hplain : plainLine obj = true)
    (st : List (List UInt8)) {deep : List (List UInt8)} {cur rest : List UInt8} {t : AnyTlv}
    (hlevel : obj.level = st.length) (hmax : obj.level ≤ ASN1_MAX_LEVEL)
    (hi : i < X509_OBJ_SUBJECT_PUBLIC_KEY_INFO)
    (ht : Takes obj cur t rest) (hnext : Ends input Q ⟨i + 1, loop, st ++ [rest, t.tlv.body]⟩) :
    Ends input Q ⟨i, loop, st ++ cur :: deep⟩ :=
  lead (leads_plain hsize hline hplain st hlevel hmax ht) (Nat.ne_of_lt hi) (Nat.le_of_lt hi)
    (Nat.lt_succ_self i) hnext

/-- **A line whose value may not be missing**: a value of the line, or the end of the loop. -/
theorem line (hsize : input.length < 2 ^ 32) (hline : certObjects[i]? = some obj)
    (hplain : plainLine obj = true)
    (st : List (List UInt8)) {deep : List (List UInt8)} {cur : List UInt8}
    (hlevel : obj.level = st.length)
    (hmax : obj.level ≤ ASN1_MAX_LEVEL) (hi : i ≤ X509_OBJ_SUBJECT_PUBLIC_KEY_INFO)
    (hmissing : ∀ s, Stage.Sees input ⟨i, loop, st ++ cur :: deep⟩ s →
      s.missing input obj = .ok false)
    (hstop : ∀ it : Iterated, it.ret = false → it.object = .null → Q it)
    (hvalue : ∀ t rest, Takes obj cur t rest → Ends input Q ⟨i, loop, st ++ cur :: deep⟩) :
    Ends input Q ⟨i, loop, st ++ cur :: deep⟩ := by
  intro s fuel hs himplicit hfuel
  have hflags := hplain
  unfold plainLine at hflags
  simp only [Bool.and_eq_true, Bool.not_eq_true'] at hflags
  obtain ⟨⟨⟨⟨hexit, hend⟩, hchoice⟩, -⟩, -⟩ := hflags
  rcases iterate_cases hsize hline (by rw [hexit, hend]; rfl) hchoice st hlevel hmax hs himplicit
    (hmissing s hs) with
    ⟨t, rest, ht⟩ | ⟨s', it, hit, hret, hobject⟩
  · exact hvalue t rest ht s fuel hs himplicit hfuel
  · obtain ⟨fuel, rfl⟩ : ∃ f, fuel = f + 1 := ⟨fuel - 1, by simp only [] at hfuel; omega⟩
    refine ⟨it, ?_, hstop it hret hobject⟩
    rw [findKeyInfo, hit, Run.ok_bind]
    simp only [hret, Bool.false_eq_true, if_false]

/-- The same, with the lines behind a value. -/
theorem value (hsize : input.length < 2 ^ 32) (hline : certObjects[i]? = some obj)
    (hplain : plainLine obj = true)
    (st : List (List UInt8)) {deep : List (List UInt8)} {cur : List UInt8}
    (hlevel : obj.level = st.length)
    (hmax : obj.level ≤ ASN1_MAX_LEVEL) (hi : i < X509_OBJ_SUBJECT_PUBLIC_KEY_INFO)
    (hmissing : ∀ s, Stage.Sees input ⟨i, loop, st ++ cur :: deep⟩ s →
      s.missing input obj = .ok false)
    (hstop : ∀ it : Iterated, it.ret = false → it.object = .null → Q it)
    (hnext : ∀ t rest, Takes obj cur t rest →
      Ends input Q ⟨i + 1, loop, st ++ [rest, t.tlv.body]⟩) :
    Ends input Q ⟨i, loop, st ++ cur :: deep⟩ := by
  refine line hsize hline hplain st hlevel hmax (Nat.le_of_lt hi) hmissing hstop ?_
  intro t rest ht
  exact step hsize hline hplain st hlevel hmax hi ht (hnext t rest ht)

/-- The deeper levels may be forgotten. -/
theorem forget (st deep : List (List UInt8)) (h : Ends input Q ⟨i, loop, st⟩) :
    Ends input Q ⟨i, loop, st ++ deep⟩ := by
  intro s fuel hs
  exact h s fuel hs.take

end Ends

/-! ## The walk over any bytes

  At each line the bytes are either those of a value the line takes, and the walk goes on with what
  is behind it, or the loop is left.  The continuation is a hypothesis of each lemma, so the parts
  are put together without naming the bytes in between. -/

/-- A value with a tag of its own. -/
theorem typed_of_takes (tag : UInt8) {obj : Asn1Object} {cur rest : List UInt8} {t : AnyTlv}
    (ht : Takes obj cur t rest)
    (hraw : obj.has ASN1_RAW = false) (htype : tag.toNat = obj.type) :
    ∃ v : Tlv tag, v.body = t.tlv.body ∧ cur = v.bytes ++ rest := by
  obtain ⟨hcur, htag⟩ := ht
  obtain ⟨tag', t⟩ := t
  have heq : tag'.toNat = obj.type := htag.resolve_left (ne_true_of_eq_false hraw)
  obtain rfl : tag' = tag := UInt8.toNat_inj.mp (heq.trans htype.symm)
  exact ⟨t, rfl, hcur⟩

section Walk

variable {Q : Iterated → Prop} (hsize : input.length < 2 ^ 32)
  (hstop : ∀ it : Iterated, it.ret = false → it.object = .null → Q it)

include hsize hstop

/-- The version, which may be missing. -/
theorem ends_version (a b cur : List UInt8)
    (hnext : ∀ (version : Option (Tlv 0xA0)) (rest : List UInt8), cur = optBytes version ++ rest →
      (∀ v ∈ version, ∃ (n : Tlv 0x02) (rest : List UInt8), v.body = n.bytes ++ rest) →
      Ends input Q ⟨4, noLoop, [a, b, rest]⟩) :
    Ends input Q ⟨2, noLoop, [a, b, cur]⟩ := by
  have h2 : certObjects[2]? = some _ := rfl
  have h3 : certObjects[3]? = some _ := rfl
  -- with another tag the version is missing; with its own there is a value, and one inside it
  by_cases hhead : ∀ x ∈ cur.head?, x.toNat ≠ ASN1_PARSER_CONTEXT_C_0
  · have habsent :
      Leads certObjects input ⟨2, noLoop, [a, b, cur]⟩ [(some 3, [])] ⟨4, noLoop, [a, b, cur]⟩ :=
      leads_default h2 rfl rfl [a, b] rfl (by decide) hhead
    have hkey : 2 ≤ X509_OBJ_SUBJECT_PUBLIC_KEY_INFO := by decide
    have hlater : 2 < 4 := by decide
    refine Ends.lead habsent (by decide) hkey hlater (hnext none cur rfl ?_)
    intro v hv
    cases hv
  · obtain ⟨x, cur, rfl, hx⟩ : ∃ x r, cur = x :: r ∧ x.toNat = ASN1_PARSER_CONTEXT_C_0 := by
      cases cur with
      | nil =>
        refine absurd ?_ hhead
        intro x hx
        cases hx
      | cons x r =>
        refine ⟨x, r, rfl, ?_⟩
        by_contra hx
        apply hhead
        intro y hy
        obtain rfl : x = y := Option.some.inj hy
        exact hx
    refine Ends.value hsize h2 rfl [a, b] rfl (by decide) (by decide)
      (fun s hs => missing_head (hs.top rfl) hx) hstop ?_
    intro t rest ht
    obtain ⟨v, hbody, hcur⟩ := typed_of_takes 0xA0 ht rfl rfl
    refine Ends.value hsize h3 rfl [a, b, rest] rfl (by decide) (by decide)
      (fun _ _ => missing_required rfl) hstop ?_
    intro t' rest' ht'
    obtain ⟨n, -, hnumber⟩ := typed_of_takes 0x02 ht' rfl rfl
    refine Ends.forget [a, b, rest] [rest', t'.tlv.body] (hnext (some v) rest hcur ?_)
    intro w hw
    obtain rfl : v = w := Option.some.inj hw
    exact ⟨n, rest', by rw [hbody]; exact hnumber⟩

/-- The fields up to the key. -/
theorem ends_fields (a b cur : List UInt8)
    (hkey : ∀ (serialNumber : Tlv 0x02) (signature : AnyTlv) (issuer validity subject : Tlv
      0x30) (key : AnyTlv)
      (rest : List UInt8),
      cur = serialNumber.bytes ++
        (signature.bytes ++
          (issuer.bytes ++ (validity.bytes ++ (subject.bytes ++ (key.bytes ++ rest))))) →
      (∃ (notBefore notAfter : AnyTlv) (rest : List UInt8), validity.body = notBefore.bytes ++
        (notAfter.bytes ++ rest)) →
      ∀ it : Iterated, it.ret = true → it.objectID = some X509_OBJ_SUBJECT_PUBLIC_KEY_INFO →
        it.object.bytes input = key.bytes → Q it) :
    Ends input Q ⟨4, noLoop, [a, b, cur]⟩ := by
  have h4 : certObjects[4]? = some _ := rfl
  have h5 : certObjects[5]? = some _ := rfl
  have h6 : certObjects[6]? = some _ := rfl
  have h7 : certObjects[7]? = some _ := rfl
  have h8 : certObjects[8]? = some _ := rfl
  have h9 : certObjects[9]? = some _ := rfl
  have h10 : certObjects[10]? = some _ := rfl
  have h11 : certObjects[11]? = some _ := rfl
  refine Ends.value hsize h4 rfl [a, b] rfl (by decide) (by decide)
    (fun _ _ => missing_required rfl) hstop ?_
  intro t4 r4 ht4
  obtain ⟨serialNumber, -, rfl⟩ := typed_of_takes 0x02 ht4 rfl rfl
  refine Ends.value hsize h5 rfl [a, b] rfl (by decide) (by decide)
    (fun _ _ => missing_required rfl) hstop ?_
  rintro signature r5 ⟨hsignature, -⟩
  refine Ends.value hsize h6 rfl [a, b] rfl (by decide) (by decide)
    (fun _ _ => missing_required rfl) hstop ?_
  intro t6 r6 ht6
  obtain ⟨issuer, -, hissuer⟩ := typed_of_takes 0x30 ht6 rfl rfl
  refine Ends.value hsize h7 rfl [a, b] rfl (by decide) (by decide)
    (fun _ _ => missing_required rfl) hstop ?_
  intro t7 r7 ht7
  obtain ⟨validity, hbody, hvalidity⟩ := typed_of_takes 0x30 ht7 rfl rfl
  -- the two times are taken off the contents of the validity
  refine Ends.value hsize h8 rfl [a, b, r7] rfl (by decide) (by decide)
    (fun _ _ => missing_required rfl) hstop ?_
  rintro notBefore r8 ⟨hnotBefore, -⟩
  refine Ends.value hsize h9 rfl [a, b, r7] rfl (by decide) (by decide)
    (fun _ _ => missing_required rfl) hstop ?_
  rintro notAfter r9 ⟨hnotAfter, -⟩
  refine Ends.value hsize h10 rfl [a, b] rfl (by decide) (by decide)
    (fun _ _ => missing_required rfl) hstop ?_
  intro t10 r10 ht10
  obtain ⟨subject, -, hsubject⟩ := typed_of_takes 0x30 ht10 rfl rfl
  refine Ends.line hsize h11 rfl [a, b] rfl (by decide) (Nat.le_refl _)
    (fun _ _ => missing_required rfl) hstop ?_
  intro key r11 ht11
  refine Ends.last (Ends.leads_plain hsize h11 rfl [a, b] rfl (by decide) ht11) (Nat.le_refl _) ?_
  refine hkey serialNumber signature issuer validity subject key r11 ?_
    ⟨notBefore, notAfter, r9, ?_⟩
  · rw [hsignature, hissuer, hvalidity, hsubject, ht11.1]
  · rw [hbody, hnotBefore, hnotAfter]

end Walk

/-- How the loop may be left: on the key, behind a path to it, or on a call that returned false and
    handed out nothing. -/
def Outcome (input : List UInt8) (it : Iterated) : Prop :=
  (it.ret = true ∧ it.objectID = some X509_OBJ_SUBJECT_PUBLIC_KEY_INFO ∧
    ∃ p : KeyPath input, it.object.bytes input = p.subjectPublicKeyInfo.bytes) ∨
  (it.ret = false ∧ it.object = .null)

/-- **Whatever the bytes are.** -/
theorem ends_any (hsize : input.length < 2 ^ 32) :
    Ends input (Outcome input) ⟨0, noLoop, [input]⟩ := by
  have h0 : certObjects[0]? = some _ := rfl
  have h1 : certObjects[1]? = some _ := rfl
  have hstop : ∀ it : Iterated, it.ret = false → it.object = .null → Outcome input it := by
    intro it hret hobject
    exact .inr ⟨hret, hobject⟩
  refine Ends.value hsize h0 rfl [] rfl (by decide) (by decide)
    (fun _ _ => missing_required rfl) hstop ?_
  intro t0 after ht0
  obtain ⟨certificate, hbody0, hencoded⟩ := typed_of_takes 0x30 ht0 rfl rfl
  refine Ends.value hsize h1 rfl [after] rfl (by decide) (by decide)
    (fun _ _ => missing_required rfl) hstop ?_
  intro t1 afterTbs ht1
  obtain ⟨tbsCertificate, hbody1, hfirst⟩ := typed_of_takes 0x30 ht1 rfl rfl
  refine ends_version hsize hstop after afterTbs _ ?_
  intro version rest hrest hnumber
  refine ends_fields hsize hstop after afterTbs rest ?_
  intro serialNumber signature issuer validity subject key afterKey hfields htimes it hret
    hid hobject
  exact .inl ⟨hret, hid, ⟨certificate, tbsCertificate, version, serialNumber, signature, issuer,
    validity, subject, key,
    after, afterTbs, afterKey, hencoded,
      by rw [hbody0, hfirst], by rw [hbody1, hrest, hfields], hnumber, htimes⟩, hobject⟩

/-- The fields behind the version, on the level of `tbsCertificate`. -/
theorem ends_behindVersion (hsize : input.length < 2 ^ 32) (p : KeyPath input) :
    Ends input (fun it => it.ret = true ∧ it.objectID = some X509_OBJ_SUBJECT_PUBLIC_KEY_INFO ∧
      it.object.bytes input = p.subjectPublicKeyInfo.bytes) ⟨4, noLoop, [p.after, p.afterTbs,
        p.serialNumber.bytes ++
          (p.signature.bytes ++ (p.issuer.bytes ++ (p.validity.bytes ++ (p.subject.bytes ++
          (p.subjectPublicKeyInfo.bytes ++ p.afterKey)))))]⟩ := by
  have h4 : certObjects[4]? = some _ := rfl
  have h5 : certObjects[5]? = some _ := rfl
  have h6 : certObjects[6]? = some _ := rfl
  have h7 : certObjects[7]? = some _ := rfl
  have h8 : certObjects[8]? = some _ := rfl
  have h9 : certObjects[9]? = some _ := rfl
  have h10 : certObjects[10]? = some _ := rfl
  have h11 : certObjects[11]? = some _ := rfl
  obtain ⟨notBefore, notAfter, r9, htimes⟩ := p.times
  refine Ends.step (t := ⟨0x02, p.serialNumber⟩) hsize h4 rfl [p.after, p.afterTbs] rfl (by decide)
    (by decide) ⟨rfl, .inr rfl⟩ ?_
  refine Ends.step (t := p.signature) hsize h5 rfl [p.after, p.afterTbs] rfl (by decide) (by decide)
    ⟨rfl, .inl rfl⟩ ?_
  refine Ends.step (t := ⟨0x30, p.issuer⟩) hsize h6 rfl [p.after, p.afterTbs] rfl (by decide)
    (by decide) ⟨rfl, .inr rfl⟩ ?_
  refine Ends.step (t := ⟨0x30, p.validity⟩) hsize h7 rfl [p.after, p.afterTbs] rfl (by decide)
    (by decide) ⟨rfl, .inr rfl⟩ ?_
  refine Ends.step (t := notBefore) hsize h8 rfl [p.after, p.afterTbs, _] rfl (by decide)
    (by decide) ⟨htimes, .inl rfl⟩ ?_
  refine Ends.step (t := notAfter) hsize h9 rfl [p.after, p.afterTbs, _] rfl (by decide) (by decide)
    ⟨rfl, .inl rfl⟩ ?_
  refine Ends.step (t := ⟨0x30, p.subject⟩) hsize h10 rfl [p.after, p.afterTbs] rfl (by decide)
    (by decide) ⟨rfl, .inr rfl⟩ ?_
  refine Ends.last (Ends.leads_plain (t := p.subjectPublicKeyInfo) hsize h11 rfl [p.after,
    p.afterTbs] rfl (by decide)
    ⟨rfl, .inl rfl⟩) (Nat.le_refl _) ?_
  intro it hret hid hobject
  exact ⟨hret, hid, hobject⟩

/-- **Where there is a path**, the loop is left on its key. -/
theorem ends_path (hsize : input.length < 2 ^ 32) (p : KeyPath input) :
    Ends input (fun it => it.ret = true ∧ it.objectID = some X509_OBJ_SUBJECT_PUBLIC_KEY_INFO ∧
      it.object.bytes input = p.subjectPublicKeyInfo.bytes) ⟨0, noLoop, [input]⟩ := by
  have h0 : certObjects[0]? = some _ := rfl
  have h1 : certObjects[1]? = some _ := rfl
  have h2 : certObjects[2]? = some _ := rfl
  have h3 : certObjects[3]? = some _ := rfl
  refine Ends.step (t := ⟨0x30, p.certificate⟩) hsize h0 rfl [] rfl (by decide) (by decide)
    ⟨p.encoded, .inr rfl⟩ ?_
  refine Ends.step (t := ⟨0x30, p.tbsCertificate⟩) hsize h1 rfl [p.after] rfl (by decide)
    (by decide) ⟨p.first, .inr rfl⟩ ?_
  have hbody := p.fields
  cases hversion : p.version with
  | none =>
    rw [hversion] at hbody
    -- the serial number stands where the version would
    have habsent : Leads certObjects input ⟨2, noLoop, [p.after, p.afterTbs, p.tbsCertificate.body]⟩
      [(some 3, [])]
        ⟨4, noLoop, [p.after, p.afterTbs, p.tbsCertificate.body]⟩ := by
      refine leads_default h2 rfl rfl [p.after, p.afterTbs] rfl (by decide) ?_
      intro x hx
      rw [hbody] at hx
      obtain rfl : 0x02 = x := Option.some.inj hx
      decide
    have hkey : 2 ≤ X509_OBJ_SUBJECT_PUBLIC_KEY_INFO := by decide
    have hlater : 2 < 4 := by decide
    refine Ends.lead habsent (by decide) hkey hlater ?_
    rw [hbody]
    exact ends_behindVersion hsize p
  | some v =>
    obtain ⟨n, rest, hnumber⟩ := p.number v (by rw [hversion]; rfl)
    rw [hversion] at hbody
    refine Ends.step (t := ⟨0xA0, v⟩) hsize h2 rfl [p.after, p.afterTbs] rfl (by decide) (by decide)
      ⟨hbody, .inr rfl⟩ ?_
    refine Ends.step (t := ⟨0x02, n⟩) hsize h3 rfl [p.after, p.afterTbs, _] rfl (by decide)
      (by decide) ⟨hnumber, .inr rfl⟩ ?_
    exact Ends.forget [p.after, p.afterTbs, _] [rest, n.body] (ends_behindVersion hsize p)

/-! ## Headline

  `Reports` is what is said of the result, and `Delivers` what it speaks of: whether the loop found
  a key.  Both are said without `KeyPath`, which is the condition. -/

/-- The parser begins with the whole input on the lowest level. -/
theorem starts (input : List UInt8) :
    Stage.Sees input ⟨0, noLoop, [input]⟩ (Asn1Parser.new input) := by
  refine ⟨rfl, rfl, rfl, ?_⟩
  intro k bs hk
  cases k with
  | zero =>
    obtain rfl : input = bs := Option.some.inj hk
    exact Cursor.Views.at [] input [] (List.append_nil _).symm
  | succ k => cases hk

/-- The loop over the key ends as its walk does. -/
theorem keyInfoLoop_of_ends {der : Chunk} {Q : Iterated → Prop}
    (h : Ends der.bytes Q ⟨0, noLoop, [der.bytes]⟩) :
    ∃ it, keyInfoLoop der = .ok it ∧ Q it := by
  have hfuel : X509_OBJ_SUBJECT_PUBLIC_KEY_INFO < 0 + certObjects.length := by decide
  exact h _ _ (starts der.bytes) rfl hfuel

/-- The loop delivered the key, and this is the object. -/
def Delivers (der : Chunk) (object : List UInt8) : Prop :=
  ∃ it, keyInfoLoop der = .ok it ∧ it.ret = true ∧
    it.objectID = some X509_OBJ_SUBJECT_PUBLIC_KEY_INFO ∧
    it.object.bytes der.bytes = object

variable {Md : Type}

/-- **What the result should say**: success only if the key was delivered, and then the digest of
    exactly that value; otherwise failure. -/
structure Reports (evp : Evp Md) (name : Option (List UInt8)) (der : Chunk)
    (r : Status × List UInt8) : Prop where
  success : r.1 = .STATUS_SUCCESS →
    ∃ key : AnyTlv, Delivers der key.bytes ∧ r.2 = evp.EVP_Digest key.bytes (digestOf evp name)
  failure : (¬ ∃ object, Delivers der object) → r.1 = .STATUS_FAILED

/-- Along a path to the key it delivers the key. -/
theorem delivers_path {der : Chunk} (p : KeyPath der.bytes) :
    Delivers der p.subjectPublicKeyInfo.bytes :=
  keyInfoLoop_of_ends (ends_path der.len_lt p)

/-- And it delivers a key along such a path only. -/
theorem path_of_delivers {der : Chunk} {object : List UInt8} (h : Delivers der object) :
    Nonempty (KeyPath der.bytes) := by
  obtain ⟨it, hit, hret, -, -⟩ := h
  obtain ⟨it', hit', houtcome⟩ := keyInfoLoop_of_ends (ends_any der.len_lt)
  obtain rfl : it = it' := Except.ok.inj (hit.symm.trans hit')
  rcases houtcome with ⟨-, -, p, -⟩ | ⟨hfalse, -⟩
  · exact ⟨p⟩
  · rw [hret] at hfalse
    cases hfalse

/-- With a path, the digest is taken over the key it leads to. -/
theorem hash_of_path (evp : Evp Md) (name : Option (List UInt8)) {der : Chunk}
    (p : KeyPath der.bytes) :
    calculatePublicKeyInfoHash evp name der =
      .ok (.STATUS_SUCCESS, evp.EVP_Digest p.subjectPublicKeyInfo.bytes (digestOf evp name)) := by
  obtain ⟨it, hit, -, -, hobject⟩ := delivers_path p
  rw [calculatePublicKeyInfoHash, hit, Run.ok_bind, hobject]

/-- Without a path, the digest is taken over nothing, and success is reported all the same. -/
theorem hash_over_nothing (evp : Evp Md) (name : Option (List UInt8)) {der : Chunk}
    (h : ¬ Nonempty (KeyPath der.bytes)) :
    calculatePublicKeyInfoHash evp name der = .ok
      (.STATUS_SUCCESS, evp.EVP_Digest [] (digestOf evp name)) := by
  obtain ⟨it, hit, houtcome⟩ := keyInfoLoop_of_ends (ends_any der.len_lt)
  have hobject : it.object = .null := by
    rcases houtcome with ⟨-, -, p, -⟩ | ⟨-, hnull⟩
    · exact absurd ⟨p⟩ h
    · exact hnull
  rw [calculatePublicKeyInfoHash, hit, Run.ok_bind, hobject]
  rfl

/-- **A path to the key, or a digest over nothing.**  The call reports what it did if and only if
    there is a path to a public key, and then the fingerprint is the digest of exactly that key. -/
theorem key_info_hash_iff (evp : Evp Md) (name : Option (List UInt8)) (der : Chunk) :
    ((∃ r, calculatePublicKeyInfoHash evp name der = .ok r ∧ Reports evp name der r) ↔
      Nonempty (KeyPath der.bytes)) ∧
    ∀ p : KeyPath der.bytes, calculatePublicKeyInfoHash evp name der =
      .ok (.STATUS_SUCCESS, evp.EVP_Digest p.subjectPublicKeyInfo.bytes (digestOf evp name)) := by
  refine ⟨⟨?_, ?_⟩, fun p => hash_of_path evp name p⟩
  · rintro ⟨r, hr, hreports⟩
    by_contra hnone
    have hr' := hash_over_nothing evp name hnone
    rw [hr'] at hr
    obtain rfl := Except.ok.inj hr
    obtain ⟨key, hkey, -⟩ := hreports.success rfl
    exact hnone (path_of_delivers hkey)
  · rintro ⟨p⟩
    refine ⟨_, hash_of_path evp name p, ?_, ?_⟩
    · intro _
      exact ⟨p.subjectPublicKeyInfo, delivers_path p, rfl⟩
    · intro h
      exact absurd ⟨_, delivers_path p⟩ h

/-- **No encoding at all**: an empty `mDerEncoding` has the fingerprint of nothing, with
    STATUS_SUCCESS. -/
theorem empty_encoding_hashed :
    ¬ ∀ (evp : Evp Unit) (name : Option (List UInt8)) (der : Chunk),
      ∃ r, calculatePublicKeyInfoHash evp name der = .ok r ∧ Reports evp name der r := by
  intro h
  have hloop : keyInfoLoop Chunk.empty = .ok ⟨false, some 0, .null⟩ := rfl
  obtain ⟨r, hr, hreports⟩ := h ⟨(), fun _ => none, fun bytes _ => bytes,
    fun _ _ => []⟩ none Chunk.empty
  rw [calculatePublicKeyInfoHash, hloop] at hr
  obtain rfl := Except.ok.inj hr
  obtain ⟨key, ⟨it, hit, hret, -⟩, -⟩ := hreports.success rfl
  rw [hloop] at hit
  obtain rfl := Except.ok.inj hit
  cases hret

end Fingerprint

end StevenProgram
