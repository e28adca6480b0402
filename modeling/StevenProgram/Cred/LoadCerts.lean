/-
  What `loadCerts` leaves in the certificate list, and when it gets to its end.

  A load keeps a certificate or it stops the program: the loaders go through `mpX509` where nothing
  was read, and the subject is printed into 128 bytes.  Which of the two it is, and the flags of
  what is kept, is a matter of the file and the directory (`Gathers`), so the list is told from the
  directories, one file after the other.

  Each loader is shown to *gather*: what it appends to the list depends on its file alone, and
  whether it returns does too.  Gathering composes along a list of files, along the directories and
  along any number of loads, so no proof above a loader looks into the list again.

  1. **The subject** (`getCertSubjectString_returns`) — up to 129 bytes; one more than what the
     buffer takes, since the last two are cut off again.
  2. **A certificate** (`parseCertExtensions_eq`) — its flags are those of the extensions in front
     of the first that ends the loop.
  3. **Loaders** — what each keeps of a file (`Directory.keeps`), and when it returns
     (`Directory.Safe`).
  4. **Headlines** — `loadCerts_list`, for every file system, and `list_trusted`, over every run of
     loads: where a certificate of the list comes from (`Traced`).
-/
import StevenProgram.Lib.Gather
import StevenProgram.Asn1.Detect
import StevenProgram.Cred.CertStore

namespace StevenProgram

open CertX509 X509Extension
open SubjectString
open Gather (Appends Gathers)

/-! ## The subject

  Here the question is only whether the string is made at all; its value has been settled with the
  buffer. -/

namespace SubjectString

/-- An entry that prints nothing is passed over. -/
theorem printedAll_cons_none {entry : NameEntry} {entries : List NameEntry}
    (h : entry.printed = none) :
    printedAll (entry :: entries) = printedAll entries := by
  rw [printedAll, List.filterMap_cons_none h]
  rfl

/-- One that prints is in front of the rest. -/
theorem printedAll_cons_some {entry : NameEntry} {entries : List NameEntry} {new : List UInt8}
    (h : entry.printed = some new) :
    printedAll (entry :: entries) = new ++ printedAll entries := by
  rw [printedAll, List.filterMap_cons_some h]
  rfl

/-- Entries that print nothing leave the buffer. -/
theorem appendAll_silent : ∀ {entries : List NameEntry}, printedAll entries = [] → ∀ st,
    entries.foldlM appendEntry st = .ok st := by
  intro entries
  induction entries with
  | nil =>
    intro _ st
    rfl
  | cons entry entries ih =>
    intro h st
    cases hnew : entry.printed with
    | none =>
      rw [printedAll_cons_none hnew] at h
      rw [List.foldlM_cons, appendEntry, hnew]
      exact ih h st
    | some new =>
      rw [printedAll_cons_some hnew, List.append_eq_nil_iff] at h
      obtain ⟨rfl, -⟩ := h
      obtain ⟨label, -, htext⟩ := Option.map_eq_some_iff.mp hnew
      have hlen := congrArg List.length htext
      rw [List.length_append] at hlen
      exact absurd hlen (Nat.succ_ne_zero _)

/-- A text that ends one byte behind the buffer is cut off. -/
theorem appendEntry_cut {text : List UInt8} {st : Mem STR_SIZE × Nat} (h : Holds text st)
    {entry : NameEntry} {new : List UInt8}
    (hnew : entry.printed = some new) (htext : text.length ≤ STR_SIZE)
    (hlen : text.length + new.length = STR_SIZE + 1) :
    ∃ str, appendEntry st entry = .ok (str, STR_SIZE + 1) := by
  obtain ⟨str, off⟩ := st
  obtain rfl : off = text.length := h.offset
  have hsize : remaining text.length = 128 - text.length := by
    show (128 + 2 ^ 64 - text.length) % 2 ^ 64 = 128 - text.length
    have hle : text.length ≤ 128 := htext
    omega
  have hs32 : text.length + new.length < 2 ^ 31 := hlen ▸ by decide
  rw [appendEntry, hnew]
  simp only [snprintf, hsize]
  split
  · rw [Run.ok_bind, if_pos hs32, hlen]
    exact ⟨_, rfl⟩
  · have hfit : text.length + (new.take (128 - text.length - 1) ++ [0]).length ≤ 128 := by
      rw [List.length_append, List.length_take, List.length_singleton]
      omega
    obtain ⟨str', hcopy, -⟩ := str.memcpy_ok text.length
      (new.take (128 - text.length - 1) ++ [0]) hfit
    rw [hcopy, Run.ok_bind, Run.ok_bind, if_pos hs32, hlen]
    exact ⟨_, rfl⟩

/-- The entries are appended while their texts fit into the buffer, the last NUL included. -/
theorem appendAll_returns :
    ∀ (entries : List NameEntry) {text : List UInt8} {st : Mem STR_SIZE × Nat}, Holds text st →
    text.length ≤ STR_SIZE → text.length + (printedAll entries).length ≤ STR_SIZE + 1 → ∃ st',
      entries.foldlM appendEntry st = .ok st' := by
  intro entries
  induction entries with
  | nil =>
    intro text st _ _ _
    exact ⟨st, rfl⟩
  | cons entry entries ih =>
    intro text st h htext htotal
    rw [List.foldlM_cons]
    cases hnew : entry.printed with
    | none =>
      rw [printedAll_cons_none hnew] at htotal
      rw [appendEntry, hnew]
      exact ih h htext htotal
    | some new =>
      rw [printedAll_cons_some hnew, List.length_append] at htotal
      by_cases hfits : text.length + new.length ≤ STR_SIZE
      · obtain ⟨st', hentry, hst'⟩ := appendEntry_holds h hnew
          (by rw [List.length_append]; exact hfits)
        rw [hentry]
        exact ih hst' (by rw [List.length_append]; exact hfits)
          (by rw [List.length_append, Nat.add_assoc]; exact htotal)
      · -- the last text that is printed
        obtain ⟨str, hentry⟩ := appendEntry_cut h hnew htext (by omega)
        have hrest : printedAll entries = [] := List.eq_nil_of_length_eq_zero (by omega)
        rw [hentry]
        exact ⟨_, appendAll_silent hrest _⟩

/-- **The string is made exactly if 129 bytes hold what is printed.** -/
theorem getCertSubjectString_returns {entries : List NameEntry} :
    (∃ s, getCertSubjectString entries = .ok s) ↔ (printedAll entries).length ≤ STR_SIZE + 1 := by
  have hwrite :
    ∀ {str : Mem STR_SIZE} {len : Nat}, entries.foldlM appendEntry (Mem.fill STR_SIZE 0, 0) = .ok
    (str, len) →
      len = (printedAll entries).length := by
    intro str len hloop
    have hoff : len = 0 + (printedAll entries).length := appendAll_offset entries hloop
    omega
  rw [getCertSubjectString, subjectLoop]
  -- the last write is of the NUL in place of the separator, two bytes in front of the offset
  constructor
  · rintro ⟨s, hs⟩
    obtain ⟨⟨str, len⟩, hloop, hs⟩ := Run.bind_ok.mp hs
    obtain rfl := hwrite hloop
    dsimp only at hs
    split at hs
    · obtain ⟨bytes, hset, -⟩ := Run.bind_ok.mp hs
      rw [writeAt, str.size] at hset
      split at hset
      · next hlt =>
        have hlt : (printedAll entries).length - 2 < 128 := hlt
        show (printedAll entries).length ≤ 129
        omega
      · cases hset
    · next hshort =>
      show (printedAll entries).length ≤ 129
      omega
  · intro htotal
    obtain ⟨⟨str, len⟩, hloop⟩ := appendAll_returns entries holds_init (Nat.zero_le _)
      (show ([] : List UInt8).length + (printedAll entries).length ≤ STR_SIZE + 1 by
        rw [List.length_nil, Nat.zero_add]; exact htotal)
    obtain rfl := hwrite hloop
    rw [hloop, Run.ok_bind]
    dsimp only
    split
    · have hlt : (printedAll entries).length - 2 < str.bytes.length := by
        rw [str.size]
        have htotal : (printedAll entries).length ≤ 129 := htotal
        show _ < 128
        omega
      rw [writeAt, if_pos hlt]
      exact ⟨_, rfl⟩
    · exact ⟨_, rfl⟩

end SubjectString

/-! ## A certificate

  The loop over the extensions stops, crashes or goes on; with the extensions that it passes
  (`passed`) its result is an equation. -/

namespace X509Extension

instance (e : X509Extension) : Decidable e.Unsupported := by
  unfold Unsupported
  split <;> infer_instance

instance (e : X509Extension) : Decidable e.Undecoded := by
  unfold Undecoded
  split <;> infer_instance

instance (e : X509Extension) : Decidable e.Ignored := by
  unfold Ignored
  split <;> infer_instance

instance (e : X509Extension) (ok : Bool) : Decidable (e.Stops ok) :=
  inferInstanceAs (Decidable (e.Unsupported ∨ e.Undecoded ∨ (e.Ignored ∧ ok = false)))

/-- The extensions in front of the first that ends the loop. -/
def passed (uninit : Nat → Bool) : Nat → List X509Extension → List X509Extension
  | _, [] => []
  | i, e :: es => if e.Stops (uninit i) then [] else e :: passed uninit (i + 1) es

end X509Extension

/-- The loop over the extensions, from the turn `i`: an equation if none of those it passes crashes
    it, and a fault if one does.  By induction on the extensions. -/
theorem scan_passed (uninit : Nat → Bool) : ∀ (es : List X509Extension) (i : Nat) (c : CertX509),
    ((∀ e ∈ passed uninit i es, ¬ e.Crashes) →
      ∃ go, Scan.scan (turn uninit) i es c = .ok
        (go, c.setCertFlag (grantsAll (passed uninit i es)))) ∧
    ((¬ ∀ e ∈ passed uninit i es, ¬ e.Crashes) → Scan.scan (turn uninit) i es c =
      .error .nullPtr) := by
  intro es
  induction es with
  | nil =>
    intro i c
    refine ⟨fun _ => ⟨true, ?_⟩, fun h => absurd (fun _ hb => absurd hb List.not_mem_nil) h⟩
    rw [show c.setCertFlag (grantsAll (passed uninit i [])) = c from setCertFlag_none c]
    rfl
  | cons e es ih =>
    intro i c
    rw [passed, Scan.scan]
    obtain ⟨hstop, -, hturn⟩ | ⟨hstop, hcrash, hturn⟩ | ⟨hstop, hcrash, hturn⟩ :=
      parseExtension_cases c (uninit i) e
    · rw [turn, hturn, if_pos hstop, Run.ok_bind]
      refine ⟨fun _ => ⟨false, ?_⟩, fun h => absurd (fun _ hb => absurd hb List.not_mem_nil) h⟩
      rw [show c.setCertFlag (grantsAll []) = c from setCertFlag_none c]
      rfl
    · rw [turn, hturn, if_neg hstop]
      exact ⟨fun h => absurd hcrash (h e List.mem_cons_self), fun _ => rfl⟩
    · obtain ⟨hpass, hfail⟩ := ih (i + 1) (c.setCertFlag e.grants)
      have hsplit :
        (∀ b ∈ e :: passed uninit (i + 1) es, ¬ b.Crashes) ↔ ∀ b ∈ passed uninit (i + 1) es,
        ¬ b.Crashes := by
        simp only [List.mem_cons, forall_eq_or_imp, hcrash, not_false_eq_true, true_and]
      rw [turn, hturn, if_neg hstop, Run.ok_bind, hsplit]
      refine ⟨fun h => ?_, hfail⟩
      obtain ⟨go, hgo⟩ := hpass h
      refine ⟨go, hgo.trans ?_⟩
      rw [setCertFlag_or]
      rfl

namespace LoadEnv

variable (env : LoadEnv)

/-- The extensions that the loop passes. -/
def seen (x : X509) : List X509Extension := passed env.uninit 0 x.list

/-- The certificate behind the loop. -/
def parsed (x : X509) : CertX509 := (readCert x).setCertFlag (grantsAll (env.seen x))

/-- None of them is an authority key identifier without a key identifier. -/
def Parses (x : X509) : Prop := ∀ e ∈ env.seen x, ¬ e.Crashes

/-- The two objects that a loader asks for. -/
def Opened : Prop := (env.X509_new && env.BIO_new_file) = true

instance : Decidable env.Opened := inferInstanceAs (Decidable (_ = true))

/-- The file is taken for a certificate. -/
def Recognised : Prop := CertMgr.getCertEncoding env.file ≠ .ok none

end LoadEnv

variable {env : LoadEnv} {x : X509}

/-- **What becomes of the extensions.** -/
theorem parseCertExtensions_eq (h : env.Parses x) :
    parseCertExtensions (readCert x) env.uninit = .ok (0, env.parsed x) := by
  obtain ⟨go, hgo⟩ := (scan_passed env.uninit x.list 0 (readCert x)).1 h
  rw [parseCertExtensions_scan, hgo]
  rfl

/-- A certificate that cannot be parsed crashes the walk. -/
theorem parseCertExtensions_crash (h : ¬ env.Parses x) :
    parseCertExtensions (readCert x) env.uninit = .error .nullPtr := by
  rw [parseCertExtensions_scan, (scan_passed env.uninit x.list 0 (readCert x)).2 h]
  rfl

/-- `X509_CA` stands for a `basicConstraints` in front of the end of the loop. -/
theorem parsed_ca : (env.parsed x).getCertFlag &&& X509_CA ≠ 0 ↔ ∃ e ∈ env.seen x, e.MarksCA :=
  ca_of_grants

/-- A flag is set by some purpose. -/
theorem purposes_bit (usage : List KeyPurpose) (i : Nat) :
    (usage.foldr (fun purpose flags => KeyPurpose.flag purpose ||| flags) (0 : BitVec 32)).getLsbD i
      = true ↔
      ∃ purpose ∈ usage, purpose.flag.getLsbD i = true := by
  induction usage with
  | nil => simp
  | cons purpose usage ih =>
    simp only [List.foldr_cons, BitVec.getLsbD_or, Bool.or_eq_true, ih, List.mem_cons,
      exists_eq_or_imp]

/-- An extended key usage for signing OCSP answers. -/
def X509Extension.MarksOcsp (e : X509Extension) : Prop :=
  ∃ usage, e.value = .NID_ext_key_usage (some usage) ∧ KeyPurpose.NID_OCSP_sign ∈ usage

/-- The flags of an extension: those of its purposes, or one of two others, or none. -/
theorem grants_cases (e : X509Extension) :
    (∃ usage, e.value = .NID_ext_key_usage (some usage) ∧
      e.grants = usage.foldr (fun purpose flags => purpose.flag ||| flags) 0) ∨
    ((∀ usage, e.value ≠ .NID_ext_key_usage (some usage)) ∧
      (e.grants = 0 ∨ e.grants = X509_CA ∨ e.grants = X509_CRL_SIGN)) := by
  obtain ⟨value, critical⟩ := e
  cases value with
  | NID_basic_constraints d2i =>
    right
    obtain - | ⟨_ | _⟩ := d2i
    · exact ⟨fun _ h => (by cases h), .inl rfl⟩
    · exact ⟨fun _ h => (by cases h), .inl rfl⟩
    · exact ⟨fun _ h => (by cases h), .inr (.inl rfl)⟩
  | NID_key_usage d2i =>
    right
    cases d2i with
    | none => exact ⟨fun _ h => (by cases h), .inl rfl⟩
    | some usage =>
      refine ⟨fun _ h => (by cases h), ?_⟩
      simp only [grants]
      split
      · exact .inr (.inr rfl)
      · exact .inl rfl
  | NID_ext_key_usage d2i =>
    cases d2i with
    | none => exact .inr ⟨fun _ h => (by cases h), .inl rfl⟩
    | some usage => exact .inl ⟨usage, rfl, rfl⟩
  | _ => exact .inr ⟨fun _ h => (by cases h), .inl rfl⟩

/-- No extension stands for the flag `X509_AA`. -/
theorem grants_aa (e : X509Extension) : e.grants.getLsbD 1 = false := by
  obtain ⟨usage, -, hgrants⟩ | ⟨-, hgrants | hgrants | hgrants⟩ := grants_cases e
  · apply Bool.eq_false_iff.mpr
    intro hbit
    rw [hgrants] at hbit
    obtain ⟨purpose, -, hbit⟩ := (purposes_bit usage 1).mp hbit
    cases purpose <;> exact absurd hbit (by decide)
  all_goals
    rw [hgrants]
    decide

/-- The flag `X509_OCSP_SIGNER` comes from the extended key usage only. -/
theorem grants_ocsp (e : X509Extension) : e.grants.getLsbD 2 = true ↔ e.MarksOcsp := by
  obtain ⟨usage, hvalue, hgrants⟩ | ⟨hvalue, hgrants⟩ := grants_cases e
  · rw [hgrants, purposes_bit]
    constructor
    · rintro ⟨purpose, hmem, hbit⟩
      have hsign : purpose = .NID_OCSP_sign := by
        cases purpose with
        | NID_OCSP_sign => rfl
        | _ => exact absurd hbit (by decide)
      exact ⟨usage, hvalue, hsign ▸ hmem⟩
    · rintro ⟨usage', hvalue', hmem⟩
      obtain rfl : usage = usage' := by
        rw [hvalue] at hvalue'
        cases hvalue'
        rfl
      exact ⟨_, hmem, by decide⟩
  · apply iff_of_false
    · obtain hgrants | hgrants | hgrants := hgrants <;> rw [hgrants] <;> decide
    · rintro ⟨usage, husage, -⟩
      exact hvalue usage husage

/-- The encoding is found for every file. -/
theorem getCertEncoding_returns (file : Option (List UInt8)) :
    ∃ encoding, CertMgr.getCertEncoding file = .ok encoding := by
  cases file with
  | none => exact ⟨none, rfl⟩
  | some buf =>
    rw [CertMgr.getCertEncoding]
    split
    · exact ⟨_, rfl⟩
    · have hsplit :
        buf = [] ++ (buf.take (buf.length % 2 ^ 32) ++ buf.drop (buf.length % 2 ^ 32)) := by
        rw [List.take_append_drop, List.nil_append]
      have hlen : (buf.take (buf.length % 2 ^ 32)).length = buf.length % 2 ^ 32 := by
        rw [List.length_take, Nat.min_eq_left (Nat.mod_le _ _)]
      have hanswer : ∃ b, Asn1Parser.isAsn1Encode buf ⟨some 0, buf.length % 2 ^ 32⟩ = .ok b := by
        by_cases hfront : ∃ (t : Der.AnyTlv) (rest : List UInt8), Asn1.Detected t.tag ∧
          buf.take (buf.length % 2 ^ 32) = t.bytes ++ rest
        · obtain ⟨t, rest, htag, hbytes⟩ := hfront
          rw [hbytes] at hsplit hlen
          have hrun := Asn1.isAsn1Encode_tlv t htag hsplit (hlen ▸ Nat.mod_lt _ (by decide))
          rw [hlen] at hrun
          exact ⟨_, hrun⟩
        · have hrun := Asn1.isAsn1Encode_other hsplit fun t rest htag hbytes => hfront
            ⟨t, rest, htag, hbytes⟩
          rw [hlen] at hrun
          exact ⟨_, hrun⟩
      obtain ⟨b, hb⟩ := hanswer
      rw [hb]
      exact ⟨_, rfl⟩

/-! ## Loaders

  Three of them read the file, two do not.  The first three differ in what they do with a
  certificate once it is there. -/

namespace CertMgr

variable {f : CertFile} {encoding : CertEncoding} {mgr : CertMgr}

/-- What the two functions that read a file leave. -/
theorem loadEncoded_cases (henc : getCertEncoding f.file = .ok (some encoding)) :
    (¬ f.Opened ∧ f.certificate = none ∧ loadEncoded f encoding = .ok (.STATUS_FAILED,
      CertX509.new)) ∨
    (f.Opened ∧ (∀ x, f.certificate = some x → ¬ f.Parses x) ∧
      loadEncoded f encoding = .error .nullPtr) ∨
    (f.Opened ∧ ∃ x, f.certificate = some x ∧ f.Parses x ∧
      loadEncoded f encoding = .ok (.STATUS_SUCCESS, f.parsed x)) := by
  obtain ⟨cert, hcert, hload⟩ : ∃ cert, (f.Opened → f.certificate = cert) ∧
      loadEncoded f encoding = CertX509.new.loadX509CertFrom f.toLoadEnv cert := by
    cases encoding with
    | CERT_ENCODING_PEM =>
      exact ⟨_, fun ho => by rw [LoadEnv.certificate, if_pos (show _ = true from ho), henc], rfl⟩
    | CERT_ENCODING_DER =>
      exact ⟨_, fun ho => by rw [LoadEnv.certificate, if_pos (show _ = true from ho), henc], rfl⟩
  rw [hload, loadX509CertFrom]
  by_cases hopen : f.Opened
  · obtain ⟨hX, hB⟩ := Bool.and_eq_true_iff.mp hopen
    rw [hX, hB, hcert hopen]
    right
    cases cert with
    | none => exact .inl ⟨hopen, nofun, rfl⟩
    | some x =>
      by_cases hparse : f.Parses x
      · refine .inr ⟨hopen, x, rfl, hparse, ?_⟩
        simp only [Bool.not_true, Bool.false_eq_true, if_false]
        rw [show ({ CertX509.new with mpX509 := some x } : CertX509) = readCert x from rfl,
          parseCertExtensions_eq hparse]
        rfl
      · refine .inl ⟨hopen, fun y hy => Option.some.inj hy ▸ hparse, ?_⟩
        simp only [Bool.not_true, Bool.false_eq_true, if_false]
        rw [show ({ CertX509.new with mpX509 := some x } : CertX509) = readCert x from rfl,
          parseCertExtensions_crash hparse]
        rfl
  · refine .inl ⟨hopen, if_neg hopen, ?_⟩
    obtain hX | hB := Bool.and_eq_false_iff.mp ((Bool.not_eq_true _).mp hopen)
    · rw [hX]
      rfl
    · rw [hB]
      cases f.X509_new <;> rfl

/-- The subject can be printed. -/
def Prints (f : CertFile) : Prop := (printedAll f.subject).length ≤ STR_SIZE + 1

/-- A subject that prints is logged. -/
theorem logSubject_ok {c : CertX509} (hx : c.mpX509 = some x) (hprint : Prints f) :
    logSubject c f = .ok () := by
  obtain ⟨s, hs⟩ := getCertSubjectString_returns.mpr hprint
  rw [logSubject, hx, hs]
  rfl

/-- One that does not, or no certificate at all, is a fault. -/
theorem logSubject_fails {c : CertX509} (h : c.mpX509 = none ∨ ¬ Prints f) :
    ∃ e, logSubject c f = .error e := by
  rw [logSubject]
  cases hx : c.mpX509 with
  | none => exact ⟨_, rfl⟩
  | some x =>
    have hprint : ¬ Prints f := h.resolve_left (by rw [hx]; nofun)
    cases hs : getCertSubjectString f.subject with
    | error e => exact ⟨e, rfl⟩
    | ok s => exact absurd (getCertSubjectString_returns.mp ⟨s, hs⟩) hprint

/-- Certificates are put behind the list. -/
def add (mgr : CertMgr) (cs : List CertX509) : CertMgr := ⟨mgr.mCertList ++ cs⟩

/-- A certificate is added at the end. -/
theorem add_appends : Appends add := by
  constructor
  · intro mgr
    rw [add, List.append_nil]
  · intro mgr cs cs'
    rw [add, add, add, List.append_assoc]

/-- The certificate of a file, with the flags of its extensions. -/
def readFrom (f : CertFile) : List CertX509 := (f.certificate.map f.parsed).toList

/-- It is there, and its subject can be printed; or the file is not taken for a certificate. -/
def Shown (f : CertFile) : Prop :=
  f.Recognised → ∃ x, f.certificate = some x ∧ f.Parses x ∧ Prints f

/-- For a CA certificate, only where it is kept; and a file that cannot be opened is passed over. -/
def ShownCa (f : CertFile) : Prop :=
  f.Recognised → f.Opened → ∃ x, f.certificate = some x ∧ f.Parses x ∧
    ((∃ e ∈ f.seen x, e.MarksCA) → Prints f)

/-- A file with an encoding is recognised. -/
theorem recognised_of (henc : getCertEncoding f.file = .ok (some encoding)) : f.Recognised := by
  rw [LoadEnv.Recognised, henc]
  nofun

/-- A file that is not taken for a certificate. -/
theorem readFrom_of_not_recognised (henc : getCertEncoding f.file = .ok none) : readFrom f =
    [] := by
  rw [readFrom, LoadEnv.certificate, henc]
  split <;> rfl

/-- A loader that keeps what it gets, and adds a flag. -/
def loadKeeping (flag : BitVec 32) (mgr : CertMgr) (f : CertFile) : Run CertMgr := do
  match ← getCertEncoding f.file with
  | none => .ok mgr
  | some encoding => do
      let (_, pCert) ← loadEncoded f encoding
      let pCert := pCert.setCertFlag flag
      logSubject pCert f
      .ok (mgr.pushBack pCert)

/-- A file of certificates adds those it holds, with the flag of its directory.  Whether it returns
    is decided by the log, which follows `mpX509`, and by the extensions. -/
theorem loadKeeping_gathers (flag : BitVec 32) :
    Gathers add (loadKeeping flag) Shown (fun f => (readFrom f).map (·.setCertFlag flag)) := by
  constructor
  · intro f hok mgr
    obtain ⟨encoding, henc⟩ := getCertEncoding_returns f.file
    rw [loadKeeping, henc, Run.ok_bind]
    cases encoding with
    | none =>
      rw [readFrom_of_not_recognised henc, List.map_nil, add_appends.nil]
    | some encoding =>
      obtain ⟨x, hx, hparse, hprint⟩ := hok (recognised_of henc)
      obtain ⟨-, hnone, -⟩ | ⟨-, hbad, -⟩ | ⟨-, y, hy, -, hload⟩ := loadEncoded_cases henc
      · nomatch hx.symm.trans hnone
      · exact absurd hparse (hbad x hx)
      · obtain rfl : x = y := Option.some.inj (hx.symm.trans hy)
        simp only [hload, Run.ok_bind]
        rw [logSubject_ok (show ((f.parsed x).setCertFlag flag).mpX509 = some x from rfl) hprint,
          readFrom, hx]
        rfl
  · intro f hok mgr
    obtain ⟨encoding, henc⟩ := getCertEncoding_returns f.file
    rw [loadKeeping, henc, Run.ok_bind]
    cases encoding with
    | none => exact absurd (fun h => absurd henc h) hok
    | some encoding =>
      obtain ⟨-, -, hload⟩ | ⟨-, -, hload⟩ | ⟨-, x, hx, hparse, hload⟩ := loadEncoded_cases henc
      · obtain ⟨e, he⟩ := logSubject_fails (f := f) (c := CertX509.new.setCertFlag flag) (.inl rfl)
        simp only [hload, Run.ok_bind, he]
        exact ⟨e, rfl⟩
      · simp only [hload]
        exact ⟨_, rfl⟩
      · have hprint : ¬ Prints f := fun hp => hok fun _ => ⟨x, hx, hparse, hp⟩
        obtain ⟨e, he⟩ := logSubject_fails (c := (f.parsed x).setCertFlag flag) (.inr hprint)
        simp only [hload, Run.ok_bind, he]
        exact ⟨e, rfl⟩

/-- What the loader for CA certificates asks of a certificate. -/
def isCa (c : CertX509) : Bool := decide (c.getCertFlag &&& X509_CA ≠ 0)

/-- A certificate of an authority has the CA flag. -/
theorem isCa_iff {c : CertX509} : isCa c = true ↔ c.getCertFlag &&& X509_CA ≠ 0 :=
  decide_eq_true_iff

/-- `loadX509CaCert` on a file whose encoding is known. -/
theorem loadX509CaCert_encoded (henc : getCertEncoding f.file = .ok (some encoding)) :
    mgr.loadX509CaCert f.toLoadEnv =
      loadEncoded f encoding >>= fun r => .ok (mgr.keepCaCert r.2) := by
  rw [loadX509CaCert, henc]
  cases encoding <;> rfl

/-- A file of CA certificates adds those that have the CA flag.  Only a certificate that is kept is
    shown, so another one need not print. -/
theorem loadCaCert_gathers :
    Gathers add (fun mgr f => mgr.loadX509CaCertLogged f >>= fun r => .ok r.2) ShownCa
      (fun f => (readFrom f).filter isCa) := by
  constructor
  · intro f hok mgr
    obtain ⟨encoding, henc⟩ := getCertEncoding_returns f.file
    cases encoding with
    | none =>
      rw [loadX509CaCertLogged, loadX509CaCert, henc, readFrom_of_not_recognised henc,
        List.filter_nil, add_appends.nil]
      rfl
    | some encoding =>
      rw [loadX509CaCertLogged, loadX509CaCert_encoded henc]
      obtain ⟨-, hnone, hload⟩ | ⟨hopen, hbad, -⟩ | ⟨hopen, x, hx, -, hload⟩ :=
        loadEncoded_cases henc
      · rw [hload, readFrom, hnone, Option.map_none, Option.toList_none, List.filter_nil,
          add_appends.nil]
        rfl
      · obtain ⟨x, hx, hparse, -⟩ := hok (recognised_of henc) hopen
        exact absurd hparse (hbad x hx)
      · obtain ⟨y, hy, -, hprint⟩ := hok (recognised_of henc) hopen
        obtain rfl : x = y := Option.some.inj (hx.symm.trans hy)
        rw [hload, readFrom, hx, Option.map_some, Option.toList_some, Run.ok_bind]
        by_cases hca : (f.parsed x).getCertFlag &&& X509_CA = 0
        · rw [keepCaCert, if_pos hca, List.filter_cons_of_neg (mt isCa_iff.mp (not_not_intro hca)),
            List.filter_nil, add_appends.nil]
          rfl
        · have hlog := logSubject_ok (show (f.parsed x).mpX509 = some x from rfl)
            (hprint (parsed_ca.mp hca))
          rw [keepCaCert, if_neg hca, List.filter_cons_of_pos (isCa_iff.mpr hca), List.filter_nil]
          simp only [Run.ok_bind, hlog]
          rfl
  · intro f hok mgr
    obtain ⟨encoding, henc⟩ := getCertEncoding_returns f.file
    cases encoding with
    | none => exact absurd (fun h => absurd henc h) hok
    | some encoding =>
      rw [loadX509CaCertLogged, loadX509CaCert_encoded henc]
      obtain ⟨hopen, -⟩ | ⟨-, -, hload⟩ | ⟨-, x, hx, hparse, hload⟩ := loadEncoded_cases henc
      · exact absurd (fun _ h => absurd h hopen) hok
      · rw [hload]
        exact ⟨_, rfl⟩
      · -- a certificate that is kept, and a subject that cannot be printed
        have hbad : ¬ ((∃ e ∈ f.seen x, e.MarksCA) → Prints f) := fun h => hok fun _ _ =>
          ⟨x, hx, hparse, h⟩
        obtain ⟨hmark, hprint⟩ := Classical.not_imp.mp hbad
        obtain ⟨e, he⟩ := logSubject_fails (c := f.parsed x) (.inr hprint)
        rw [hload, Run.ok_bind, keepCaCert, if_neg (parsed_ca.mpr hmark)]
        simp only [Run.ok_bind, he]
        exact ⟨e, rfl⟩

end CertMgr

/-! ## Directories

  `Directory` is the table that the five calls of `loadCerts` are: a path, a type and a flag each.
  -/

namespace CredMgr

open CertMgr

/-- The directories, in the order in which they are read. -/
inductive Directory where
  | cacerts
  | aacerts
  | ocspcerts
  | acerts
  | crls
  deriving DecidableEq

namespace Directory

def all : List Directory := [.cacerts, .aacerts, .ocspcerts, .acerts, .crls]

/-- The path of the directory. -/
def path : Directory → CertDir.CName
  | .cacerts => CA_CERTIFICATE_DIR
  | .aacerts => AA_CERTIFICATE_DIR
  | .ocspcerts => OCSP_CERTIFICATE_DIR
  | .acerts => ATTR_CERTIFICATE_DIR
  | .crls => CRL_DIR

/-- The second argument of its call. -/
def certType : Directory → CertificateType
  | .cacerts | .aacerts | .ocspcerts => .CERT_X509
  | .acerts => .CERT_X509_AC
  | .crls => .CERT_X509_CRL

/-- The third one; no flag where 0 is passed. -/
def certFlag : Directory → BitVec 32
  | .cacerts => X509_CA
  | .aacerts => X509_AA
  | .ocspcerts => X509_OCSP_SIGNER
  | .acerts | .crls => 0

/-- What is kept of a file of the directory. -/
def keeps (d : Directory) (f : CertFile) : List CertX509 :=
  match d with
  | .cacerts => (readFrom f).filter isCa
  | .aacerts => (readFrom f).map (·.setCertFlag X509_AA)
  | .ocspcerts => readFrom f
  | .acerts | .crls => [CertX509.new]

/-- Its load returns. -/
def Safe (d : Directory) (f : CertFile) : Prop :=
  match d with
  | .cacerts => ShownCa f
  | .aacerts | .ocspcerts => Shown f
  | .acerts | .crls => True

end Directory

/-- The two loaders that keep what they get. -/
theorem loadCertByType_keeping (mgr : CertMgr) (f : CertFile) :
    loadCertByType .CERT_X509 X509_AA mgr f = loadKeeping X509_AA mgr f ∧
      loadCertByType .CERT_X509 X509_OCSP_SIGNER mgr f = loadKeeping 0 mgr f := by
  have haa : loadCertByType .CERT_X509 X509_AA mgr f = mgr.loadX509AaCert f >>= fun r =>
    .ok r.2 := rfl
  have hee :
    loadCertByType .CERT_X509 X509_OCSP_SIGNER mgr f = mgr.loadX509Cert f >>= fun r =>
    .ok r.2 := rfl
  rw [haa, hee, loadX509AaCert, loadX509Cert, loadKeeping, loadKeeping]
  obtain ⟨encoding, henc⟩ := getCertEncoding_returns f.file
  rw [henc]
  cases encoding with
  | none => exact ⟨rfl, rfl⟩
  | some encoding =>
    simp only [Run.ok_bind]
    cases loadEncoded f encoding with
    | error e => exact ⟨rfl, rfl⟩
    | ok r =>
      simp only [Run.ok_bind, setCertFlag_none]
      cases logSubject (r.2.setCertFlag X509_AA) f <;> cases logSubject r.2 f <;> exact ⟨rfl, rfl⟩

/-- **A file of a directory.** -/
theorem loadCertByType_gathers (d : Directory) :
    Gathers add (loadCertByType d.certType d.certFlag) d.Safe d.keeps := by
  cases d with
  | cacerts => exact loadCaCert_gathers
  | aacerts =>
    exact (loadKeeping_gathers X509_AA).congr
      (fun mgr f => (loadCertByType_keeping mgr f).1) fun _ => rfl
  | ocspcerts =>
    refine (loadKeeping_gathers 0).congr (fun mgr f => (loadCertByType_keeping mgr f).2) fun f => ?_
    rw [show (·.setCertFlag 0) = (id : CertX509 → CertX509) from funext setCertFlag_none,
      List.map_id]
    rfl
  | acerts => exact ⟨fun _ _ => rfl, fun h => absurd trivial h⟩
  | crls => exact ⟨fun _ _ => rfl, fun h => absurd trivial h⟩

namespace Directory

/-- The files that are handed over, in the order of the listing. -/
def files (d : Directory) (w : CertWorld) : List (List UInt8) :=
  if CertDir.Opens w.fs d.path then CertDir.handedOver w.fs (CertDir.front d.path)
    (w.readdir (CertDir.dirPath d.path)) else []

/-- The loads of all of them return. -/
def AllSafe (d : Directory) (w : CertWorld) : Prop := ∀ file ∈ d.files w, d.Safe (w.load file)

/-- What is kept of them. -/
def kept (d : Directory) (w : CertWorld) : List CertX509 :=
  (d.files w).flatMap fun file => d.keeps (w.load file)

end Directory

/-- The call of `loadCertDir` for a directory. -/
def loadDirectory (w : CertWorld) (mgr : CertMgr) (d : Directory) : Run CertMgr := do
  let (_, mgr) ← loadCertDir w d.certType d.certFlag mgr d.path
  .ok mgr

/-- A directory adds what its files add. -/
theorem loadDirectory_gathers (w : CertWorld) :
    Gathers add (loadDirectory w) (fun d => d.AllSafe w) (fun d => d.kept w) := by
  have hfiles (d : Directory) := ((loadCertByType_gathers d).comap w.load).loop add_appends
  have hdir : ∀ (mgr : CertMgr) (d : Directory), loadDirectory w mgr d =
      List.foldlM (fun mgr file => loadCertByType d.certType d.certFlag mgr (w.load file)) mgr
        (d.files w) := by
    intro mgr d
    obtain ⟨ret, hret⟩ := CertDir.loadCertDir_eq w.fs d.path (w.readdir (CertDir.dirPath d.path))
    rw [loadDirectory, loadCertDir, hret, Run.ok_bind]
    show (List.foldlM _ mgr (d.files w) >>= _) >>= _ = _
    cases List.foldlM (fun mgr file => loadCertByType d.certType d.certFlag mgr (w.load file)) mgr
      (d.files w) <;> rfl
  constructor
  · intro d hsafe mgr
    rw [hdir]
    exact (hfiles d).adds hsafe mgr
  · intro d hsafe mgr
    rw [hdir]
    exact (hfiles d).fails hsafe mgr

/-- What a call adds to the list. -/
def loaded (w : CertWorld) : List CertX509 := Directory.all.flatMap (·.kept w)

/-- **All directories**, one after the other. -/
theorem loadCerts_gathers :
    Gathers add (fun mgr w => loadCerts w mgr) (fun w => ∀ d ∈ Directory.all, d.AllSafe w)
      loaded := by
  -- the five calls as a loop
  have hloop :
    ∀ (w : CertWorld) (mgr : CertMgr), loadCerts w mgr = Directory.all.foldlM
    (loadDirectory w) mgr := by
    intro w mgr
    simp only [loadCerts, Directory.all, List.foldlM_cons, List.foldlM_nil, loadDirectory,
      bind_assoc, Run.ok_bind]
    rfl
  constructor
  · intro w hsafe mgr
    rw [hloop]
    exact ((loadDirectory_gathers w).loop add_appends).adds hsafe mgr
  · intro w hsafe mgr
    rw [hloop]
    exact ((loadDirectory_gathers w).loop add_appends).fails hsafe mgr

/-! ## Headlines

  What the program holds after a load, without the loads in between. -/

/-! ## Where a certificate comes from

  Read the other way round: given a certificate of the list, what its flags say of the directory it
  was found in and of the file. -/

/-- What a certificate of the list tells about its directory and its file. -/
structure Traced (d : Directory) (f : CertFile) (c : CertX509) : Prop where
  object : ∀ x, c.mpX509 = some x → f.certificate = some x
  blank : c.mpX509 = none ↔ d = .acerts ∨ d = .crls
  ca : c.mCertFlags.getLsbD 0 = true ↔ ∃ x, c.mpX509 = some x ∧ ∃ e ∈ f.seen x, e.MarksCA
  anchor : d = .cacerts → c.mCertFlags.getLsbD 0 = true
  aa : c.mCertFlags.getLsbD 1 = true ↔ d = .aacerts
  /-- the directory for the signers of OCSP answers gives no flag -/
  ocsp : c.mCertFlags.getLsbD 2 = true ↔ ∃ x, c.mpX509 = some x ∧ ∃ e ∈ f.seen x, e.MarksOcsp

variable {f : CertFile} {c : CertX509}

/-- What is read from a file is its certificate. -/
theorem mem_readFrom : c ∈ readFrom f ↔ ∃ x, f.certificate = some x ∧ f.parsed x = c := by
  rw [readFrom, Option.mem_toList, Option.map_eq_some_iff]

/-- Its flags are granted by the extensions that were seen. -/
theorem parsed_bit {i : Nat} : (f.parsed x).mCertFlags.getLsbD i = true ↔ ∃ e ∈ f.seen x,
    e.grants.getLsbD i = true := by
  rw [LoadEnv.parsed, readCert_flags, grantsAll_bit]

/-- A certificate whose flags are those of its extensions, apart from the flag for authorities on
    attributes. -/
theorem traced_of_read {d : Directory} (hx : f.certificate = some x)
    (hd : ¬ (d = .acerts ∨ d = .crls)) {flag : BitVec 32}
    (hca : flag.getLsbD 0 = false) (haa : flag.getLsbD 1 = true ↔ d = .aacerts)
    (hocsp : flag.getLsbD 2 = false)
    (hanchor : d = .cacerts → ∃ e ∈ f.seen x, e.MarksCA) :
    Traced d f ((f.parsed x).setCertFlag flag) := by
  have hbit : ∀ i, ((f.parsed x).setCertFlag flag).mCertFlags.getLsbD i = true ↔
      (∃ e ∈ f.seen x, e.grants.getLsbD i = true) ∨ flag.getLsbD i = true := by
    intro i
    rw [setCertFlag, BitVec.getLsbD_or, Bool.or_eq_true, parsed_bit]
  have hself : ∀ P : X509 → Prop, (∃ y, ((f.parsed x).setCertFlag flag).mpX509 = some y ∧ P y) ↔
    P x := by
    intro P
    constructor
    · rintro ⟨y, hy, hp⟩
      obtain rfl : x = y := Option.some.inj hy
      exact hp
    · intro hp
      exact ⟨x, rfl, hp⟩
  have hmarks : ((f.parsed x).setCertFlag flag).mCertFlags.getLsbD 0 = true ↔ ∃ e ∈ f.seen x,
    e.MarksCA := by
    rw [hbit, hca]
    simp only [grants_ca, Bool.false_eq_true, or_false]
  constructor
  · intro y hy
    rw [hx, ← hy]
    rfl
  · exact iff_of_false nofun hd
  · rw [hself, hmarks]
  · intro hcacerts
    exact hmarks.mpr (hanchor hcacerts)
  · rw [hbit, ← haa]
    simp only [grants_aa, Bool.false_eq_true, and_false, exists_false, false_or]
  · rw [hself, hbit, hocsp]
    simp only [grants_ocsp, Bool.false_eq_true, or_false]

/-- **What a directory keeps is traced to it**, by the directory. -/
theorem keeps_traced {d : Directory} (h : c ∈ d.keeps f) : Traced d f c := by
  cases d with
  | cacerts =>
    obtain ⟨hread, hca⟩ := List.mem_filter.mp h
    obtain ⟨x, hx, rfl⟩ := mem_readFrom.mp hread
    rw [← setCertFlag_none (f.parsed x)]
    exact traced_of_read hx (by decide) rfl (by decide) rfl fun _ => parsed_ca.mp (isCa_iff.mp hca)
  | aacerts =>
    obtain ⟨c, hread, rfl⟩ := List.mem_map.mp h
    obtain ⟨x, hx, rfl⟩ := mem_readFrom.mp hread
    exact traced_of_read hx (by decide) rfl (by decide) rfl nofun
  | ocspcerts =>
    obtain ⟨x, hx, rfl⟩ := mem_readFrom.mp h
    rw [← setCertFlag_none (f.parsed x)]
    exact traced_of_read hx (by decide) rfl (by decide) rfl nofun
  | acerts =>
    obtain rfl := List.mem_singleton.mp h
    exact ⟨nofun,
      by simp [CertX509.new], by simp [CertX509.new], nofun, by decide, by simp [CertX509.new]⟩
  | crls =>
    obtain rfl := List.mem_singleton.mp h
    exact ⟨nofun,
      by simp [CertX509.new], by simp [CertX509.new], nofun, by decide, by simp [CertX509.new]⟩

/-- The list is shown when each of its entries has a certificate. -/
theorem showCertList_ok {mgr : CertMgr} : mgr.showCertList = .ok () ↔ ∀ c ∈ mgr.mCertList,
    c.mpX509 ≠ none := by
  obtain ⟨certs⟩ := mgr
  show certs.forM showCertSubject = .ok () ↔ ∀ c ∈ certs, c.mpX509 ≠ none
  induction certs with
  | nil => exact iff_of_true rfl nofun
  | cons c certs ih =>
    show (showCertSubject c >>= fun _ => certs.forM showCertSubject) = .ok () ↔ _
    rw [List.forall_mem_cons, ← ih, showCertSubject]
    cases c.mpX509 with
    | none => exact iff_of_false nofun fun h => h.1 rfl
    | some x => exact ⟨fun h => ⟨nofun, h⟩, fun h => h.2⟩

/-- **The list, over any number of loads**: each certificate is traced to a directory and a file of
    one of them, and the list can be shown exactly if no load has found an attribute certificate or
    a revocation list. -/
theorem list_trusted {ws : List CertWorld} {mgr : CertMgr}
    (h : ws.foldlM (fun mgr w => loadCerts w mgr) ⟨[]⟩ = .ok mgr) :
    (∀ c ∈ mgr.mCertList, ∃ w ∈ ws, ∃ d, ∃ file ∈ Directory.files d w, Traced d (w.load file) c) ∧
    (mgr.showCertList = .ok () ↔ ∀ w ∈ ws, Directory.files .acerts w = [] ∧
      Directory.files .crls w = []) := by
  obtain ⟨-, rfl⟩ := (loadCerts_gathers.loop add_appends).of_ok h
  have hmem : ∀ c, c ∈ (CertMgr.add ⟨[]⟩ (ws.flatMap loaded)).mCertList ↔
      ∃ w ∈ ws, ∃ d, ∃ file ∈ Directory.files d w, c ∈ d.keeps (w.load file) := by
    intro c
    simp only [CertMgr.add, List.nil_append, loaded, Directory.kept, List.mem_flatMap]
    constructor
    · rintro ⟨w, hw, d, -, hd⟩
      exact ⟨w, hw, d, hd⟩
    · rintro ⟨w, hw, d, hd⟩
      exact ⟨w, hw, d, by cases d <;> decide, hd⟩
  constructor
  · intro c hc
    obtain ⟨w, hw, d, file, hfile, hkeeps⟩ := (hmem c).mp hc
    exact ⟨w, hw, d, file, hfile, keeps_traced hkeeps⟩
  · rw [showCertList_ok]
    constructor
    · intro hall w hw
      have hnone : ∀ d : Directory, d = .acerts ∨ d = .crls → Directory.files d w = [] := by
        intro d hd
        apply List.eq_nil_iff_forall_not_mem.mpr
        intro file hfile
        have hnew : CertX509.new ∈ d.keeps (w.load file) := by
          obtain rfl | rfl := hd <;> exact List.mem_singleton_self _
        exact hall _ ((hmem _).mpr ⟨w, hw, d, file, hfile, hnew⟩) rfl
      exact ⟨hnone _ (.inl rfl), hnone _ (.inr rfl)⟩
    · intro hempty c hc hblank
      obtain ⟨w, hw, d, file, hfile, hkeeps⟩ := (hmem c).mp hc
      obtain rfl | rfl := (keeps_traced hkeeps).blank.mp hblank
      · rw [(hempty w hw).1] at hfile
        exact absurd hfile List.not_mem_nil
      · rw [(hempty w hw).2] at hfile
        exact absurd hfile List.not_mem_nil

/-- One file for attribute authorities and one that passes for a revocation list. -/
def twoDirs : CertWorld where
  fs := ⟨fun dir => dir = AA_CERTIFICATE_DIR.bytes || dir = CRL_DIR.bytes, fun _ => true⟩
  readdir _ := [⟨ascii "a.pem", by decide⟩]
  load _ := { unknownCriticalFile with subject := [] }

/-- Two directories: a certificate that stopped at an unknown critical extension, and an entry
    without a certificate. -/
theorem list_trusted_twoDirs :
    (∀ c ∈ [⟨some unknownCritical, X509_CA ||| X509_AA⟩, CertX509.new],
      ∃ w ∈ [twoDirs], ∃ d, ∃ file ∈ Directory.files d w, Traced d (w.load file) c) ∧
    (CertMgr.showCertList ⟨[⟨some unknownCritical, X509_CA ||| X509_AA⟩, CertX509.new]⟩ = .ok () ↔
      ∀ w ∈ [twoDirs], Directory.files .acerts w = [] ∧ Directory.files .crls w = []) :=
  @list_trusted [twoDirs] ⟨[⟨some unknownCritical, X509_CA ||| X509_AA⟩, CertX509.new]⟩ rfl

end CredMgr

end StevenProgram
