/-
  Which extensions a loaded CA certificate has been checked for.

  `parseCertExtensions` returns 0 whether or not an extension was refused, and the loaders do not
  look at it; all that an early end of the loop does is leave the flags of the later extensions out.
  A refused certificate is dropped only if `X509_CA` is among what was left out.

  `ok` is not initialised, and five branches of the switch leave it as it was; its value at every
  turn is a parameter (`uninit`), and the results hold for each.

  1. **Extensions** — what an extension is refused for (`Unsupported`, `Undecoded`) and the flags it
     contributes (`grants`); `parseExtension_cases` is everything a turn can do.
  2. **The loop** — the extensions it passes add their flags (`passes_flags`); how it ends is
     `Scan.scan_ends`.
  3. **Headline** (`loadX509CaCert_honours_iff`) — a load meets the rule exactly when nothing ends
     the loop behind a `basicConstraints` with `cA`, or what ends it is no refusal and hides no
     flag. `critical_ignored` is the load of a certificate with an unsupported critical extension.
-/
import StevenProgram.Cred.CertX509

namespace StevenProgram

open CertX509

/-! ## Extensions

  Four disjoint things can be the matter with an extension, and they are told from its kind, its
  criticality and what its decoder returned; no flag of the certificate plays a part. -/

def KeyPurpose.flag : KeyPurpose → BitVec 32
  | .NID_server_auth => X509_SERVER_AUTH
  | .NID_client_auth => X509_CLIENT_AUTH
  | .NID_OCSP_sign => X509_OCSP_SIGNER
  | .other => 0

namespace X509Extension

/-- Of no supported kind, and critical. -/
def Unsupported (e : X509Extension) : Prop :=
  match e.value with
  | .other _ => e.critical = true
  | _ => False

/-- Of a handled kind, and not decoded. -/
def Undecoded (e : X509Extension) : Prop :=
  match e.value with
  | .NID_basic_constraints d2i => d2i.isNone = true
  | .NID_key_usage d2i => d2i.isNone = true
  | .NID_authority_key_identifier d2i => d2i.isNone = true
  | .NID_ext_key_usage d2i => d2i.isNone = true
  | _ => False

/-- Recognised, but not handled. -/
def Ignored (e : X509Extension) : Prop :=
  match e.value with
  | .NID_info_access | .NID_subject_alt_name | .NID_issuer_alt_name | .NID_crl_distribution_points
  | .NID_sbgp_ipAddrBlock => True
  | _ => False

/-- An authority key identifier without a key identifier, which its parser reads. -/
def Crashes (e : X509Extension) : Prop :=
  match e.value with
  | .NID_authority_key_identifier (some aki) => aki.keyid = none
  | _ => False

/-- The flags of a decoded extension. -/
def grants (e : X509Extension) : BitVec 32 :=
  match e.value with
  | .NID_basic_constraints (some constraints) => if constraints.ca then X509_CA else 0
  | .NID_key_usage (some usage) => if usageFlags usage &&& X509v3_KU_CRL_SIGN ≠ 0 then
      X509_CRL_SIGN else 0
  | .NID_ext_key_usage (some usage) => usage.foldr (fun purpose flags => purpose.flag ||| flags) 0
  | _ => 0

/-- The loop ends at the extension: a refusal, or an ignored extension with a stale `ok`. -/
def Stops (e : X509Extension) (ok : Bool) : Prop :=
  e.Unsupported ∨ e.Undecoded ∨ (e.Ignored ∧ ok = false)

/-- `basicConstraints` with `cA`. -/
def MarksCA (e : X509Extension) : Prop :=
  ∃ constraints, e.value = .NID_basic_constraints (some constraints) ∧ constraints.ca = true

end X509Extension

open X509Extension

/-- No flag to set. -/
theorem setCertFlag_none (c : CertX509) : c.setCertFlag 0 = c := by
  unfold setCertFlag
  rw [show c.mCertFlags ||| 0 = c.mCertFlags from BitVec.or_zero]

/-- Two flags one after the other are both set. -/
theorem setCertFlag_or (c : CertX509) (a b : BitVec 32) :
    (c.setCertFlag a).setCertFlag b = c.setCertFlag (a ||| b) := by
  unfold setCertFlag
  rw [BitVec.or_assoc]

/-- A flag that is set under a condition. -/
theorem setCertFlag_ite (c : CertX509) (p : Prop) [Decidable p] (flag : BitVec 32) :
    (if p then c.setCertFlag flag else c) = c.setCertFlag (if p then flag else 0) := by
  split
  · rfl
  · exact (setCertFlag_none c).symm

/-- A purpose sets its flag. -/
theorem setPurpose_eq (c : CertX509) (purpose : KeyPurpose) :
    c.setPurpose purpose = c.setCertFlag purpose.flag := by
  cases purpose with
  | other => exact (setCertFlag_none c).symm
  | _ => rfl

/-- All purposes of a certificate set theirs. -/
theorem setPurposes_eq (usage : List KeyPurpose) : ∀ c : CertX509,
    usage.foldl setPurpose c = c.setCertFlag
      (usage.foldr (fun purpose flags => purpose.flag ||| flags) 0) := by
  induction usage with
  | nil =>
    intro c
    exact (setCertFlag_none c).symm
  | cons purpose usage ih =>
    intro c
    rw [List.foldl_cons, ih, setPurpose_eq, setCertFlag_or]
    rfl

/-- A turn over an ignored extension hands `ok` on. -/
theorem ignored_cases {c : CertX509} {ok : Bool} {e : X509Extension} (hi : e.Ignored)
    (hu : ¬ e.Unsupported)
    (hd : ¬ e.Undecoded) (hc : ¬ e.Crashes) (hg : e.grants = 0)
    (h : c.parseExtension ok e = .ok (ok, c)) :
    (e.Stops ok ∧ e.grants = 0 ∧ c.parseExtension ok e = .ok (false, c)) ∨
    (¬ e.Stops ok ∧ e.Crashes ∧ c.parseExtension ok e = .error .nullPtr) ∨
    (¬ e.Stops ok ∧ ¬ e.Crashes ∧ c.parseExtension ok e = .ok (true, c.setCertFlag e.grants)) := by
  cases ok with
  | false => exact .inl ⟨.inr (.inr ⟨hi, rfl⟩), hg, h⟩
  | true =>
    refine .inr (.inr ⟨?_, hc, ?_⟩)
    · rintro (hs | hs | hs)
      · exact hu hs
      · exact hd hs
      · nomatch hs.2
    · rw [hg, setCertFlag_none]
      exact h

/-- A decoded extension of a handled kind is neither refused nor ignored. -/
theorem not_stops {e : X509Extension} (hu : ¬ e.Unsupported) (hd : ¬ e.Undecoded) (hi : ¬ e.Ignored)
    (ok : Bool) :
    ¬ e.Stops ok := by
  rintro (h | h | h)
  · exact hu h
  · exact hd h
  · exact hi h.1

/-- A turn over it goes on with its flags. -/
theorem handled_cases {c : CertX509} {ok : Bool} {e : X509Extension} (hu : ¬ e.Unsupported)
    (hd : ¬ e.Undecoded)
    (hi : ¬ e.Ignored) (hc : ¬ e.Crashes) {c' : CertX509}
    (h : c.parseExtension ok e = .ok (true, c'))
    (hflags : c' = c.setCertFlag e.grants) :
    (e.Stops ok ∧ e.grants = 0 ∧ c.parseExtension ok e = .ok (false, c)) ∨
    (¬ e.Stops ok ∧ e.Crashes ∧ c.parseExtension ok e = .error .nullPtr) ∨
    (¬ e.Stops ok ∧ ¬ e.Crashes ∧ c.parseExtension ok e = .ok (true, c.setCertFlag e.grants)) :=
  .inr (.inr ⟨not_stops hu hd hi ok, hc, hflags ▸ h⟩)

/-- **A turn** ends the loop and changes nothing, crashes, or goes on with the flags of its
    extension.  One case for each kind of extension. -/
theorem parseExtension_cases (c : CertX509) (ok : Bool) (e : X509Extension) :
    (e.Stops ok ∧ e.grants = 0 ∧ c.parseExtension ok e = .ok (false, c)) ∨
    (¬ e.Stops ok ∧ e.Crashes ∧ c.parseExtension ok e = .error .nullPtr) ∨
    (¬ e.Stops ok ∧ ¬ e.Crashes ∧ c.parseExtension ok e = .ok (true, c.setCertFlag e.grants)) := by
  obtain ⟨value, critical⟩ := e
  cases value with
  | NID_basic_constraints d2i =>
    cases d2i with
    | none => exact .inl ⟨.inr (.inl rfl), rfl, rfl⟩
    | some constraints =>
      exact handled_cases id Bool.false_ne_true id id rfl
        (setCertFlag_ite c (constraints.ca = true) X509_CA)
  | NID_key_usage d2i =>
    cases d2i with
    | none => exact .inl ⟨.inr (.inl rfl), rfl, rfl⟩
    | some usage =>
      exact handled_cases id Bool.false_ne_true id id rfl (setCertFlag_ite c _ X509_CRL_SIGN)
  | NID_ext_key_usage d2i =>
    cases d2i with
    | none => exact .inl ⟨.inr (.inl rfl), rfl, rfl⟩
    | some usage => exact handled_cases id Bool.false_ne_true id id rfl (setPurposes_eq usage c)
  | NID_authority_key_identifier d2i =>
    cases d2i with
    | none => exact .inl ⟨.inr (.inl rfl), rfl, rfl⟩
    | some aki =>
      obtain ⟨keyid⟩ := aki
      cases keyid with
      | none =>
        have hstops := not_stops (e := ⟨.NID_authority_key_identifier (some ⟨none⟩), critical⟩)
          id Bool.false_ne_true id ok
        exact .inr (.inl ⟨hstops, rfl, rfl⟩)
      | some data =>
        exact handled_cases id Bool.false_ne_true id (Option.some_ne_none data) rfl
          (setCertFlag_none c).symm
  | NID_subject_key_identifier data => exact handled_cases id id id id rfl (setCertFlag_none c).symm
  | NID_info_access => exact ignored_cases trivial id id id rfl rfl
  | NID_subject_alt_name => exact ignored_cases trivial id id id rfl rfl
  | NID_issuer_alt_name => exact ignored_cases trivial id id id rfl rfl
  | NID_crl_distribution_points => exact ignored_cases trivial id id id rfl rfl
  | NID_sbgp_ipAddrBlock => exact ignored_cases trivial id id id rfl rfl
  | other nid =>
    cases critical with
    | true => exact .inl ⟨.inl rfl, rfl, rfl⟩
    | false => exact handled_cases Bool.false_ne_true id id id rfl (setCertFlag_none c).symm

/-! ## The loop

  `Scan` is a loop over a list that may be left at any element.  Flags are only ever set, so those
  behind the loop are the union of what the passed extensions grant. -/

/-- The flags of all extensions. -/
def grantsAll (es : List X509Extension) : BitVec 32 :=
  es.foldr (fun e flags => e.grants ||| flags) 0

/-- A flag is granted by some extension. -/
theorem grantsAll_bit (es : List X509Extension) (i : Nat) :
    (grantsAll es).getLsbD i = true ↔ ∃ e ∈ es, e.grants.getLsbD i = true := by
  induction es with
  | nil => exact ⟨fun h => by simp [grantsAll] at h, fun ⟨_, h, _⟩ => nomatch h⟩
  | cons e es ih =>
    rw [grantsAll, List.foldr_cons, BitVec.getLsbD_or, Bool.or_eq_true, ← grantsAll, ih]
    constructor
    · rintro (h | ⟨x, hx, h⟩)
      · exact ⟨e, List.mem_cons_self, h⟩
      · exact ⟨x, List.mem_cons_of_mem e hx, h⟩
    · rintro ⟨x, hx, h⟩
      rcases List.mem_cons.mp hx with rfl | hx
      · exact .inl h
      · exact .inr ⟨x, hx, h⟩

/-- No purpose is the CA flag. -/
theorem purposes_ca (usage : List KeyPurpose) :
    (usage.foldr (fun purpose flags => KeyPurpose.flag purpose ||| flags) (0 : BitVec 32)).getLsbD 0
      = false := by
  induction usage with
  | nil => rfl
  | cons purpose usage ih =>
    rw [List.foldr_cons, BitVec.getLsbD_or, ih, Bool.or_false]
    cases purpose <;> rfl

/-- The flag `X509_CA` comes from `basicConstraints` only; the key usages and the purposes set other
    bits. -/
theorem grants_ca (e : X509Extension) : e.grants.getLsbD 0 = true ↔ e.MarksCA := by
  obtain ⟨value, critical⟩ := e
  have hzero : ¬ (0 : BitVec 32).getLsbD 0 = true := by decide
  constructor
  · intro h
    cases value with
    | NID_basic_constraints d2i =>
      cases d2i with
      | none => exact absurd h hzero
      | some constraints =>
        refine ⟨constraints, rfl, ?_⟩
        cases hca : constraints.ca with
        | true => rfl
        | false =>
          simp only [grants, hca, Bool.false_eq_true, if_false] at h
          exact absurd h hzero
    | NID_key_usage d2i =>
      cases d2i with
      | none => exact absurd h hzero
      | some usage =>
        simp only [grants] at h
        split at h
        · exact absurd h (by decide)
        · exact absurd h hzero
    | NID_ext_key_usage d2i =>
      cases d2i with
      | none => exact absurd h hzero
      | some usage => exact absurd ((purposes_ca usage).symm.trans h) Bool.false_ne_true
    | _ => exact absurd h hzero
  · rintro ⟨constraints, rfl, hca⟩
    simp only [grants, hca, if_true]
    rfl

/-- The turn of the extension loop. -/
abbrev turn (uninit : Nat → Bool) (i : Nat) (e : X509Extension) (c : CertX509) :
    Run (Bool × CertX509) :=
  c.parseExtension (uninit i) e

/-- The loop goes on over each of the extensions. -/
def PassesOver (uninit : Nat → Bool) (es : List X509Extension) : Prop :=
  ∀ (k : Nat) (e : X509Extension), es[k]? = some e → ¬ e.Stops (uninit k) ∧ ¬ e.Crashes

/-- A walk that passes every extension sets what they grant, and nothing else. -/
theorem passes_flags {uninit : Nat → Bool} {es : List X509Extension} {i : Nat} {c c' : CertX509}
    (h : Scan.Passes (turn uninit) i es c c') :
    (∀ (k : Nat) (e : X509Extension), es[k]? = some e → ¬ e.Stops (uninit (i + k)) ∧ ¬ e.Crashes) ∧
      c' = c.setCertFlag (grantsAll es) := by
  induction h with
  | nil i c => exact ⟨nofun, (setCertFlag_none c).symm⟩
  | @cons i e es c c₁ c₂ hx _ ih =>
    rcases parseExtension_cases c (uninit i) e with ⟨-, -, h⟩ | ⟨-, -, h⟩ | ⟨hs, hc, h⟩
    · rw [turn, h] at hx
      nomatch hx
    · rw [turn, h] at hx
      nomatch hx
    · rw [turn, h] at hx
      cases hx
      refine ⟨?_, ?_⟩
      · intro k x hk
        cases k with
        | zero =>
          obtain rfl : e = x := Option.some.inj hk
          exact ⟨hs, hc⟩
        | succ k =>
          rw [Scan.turn_behind]
          exact ih.1 k x hk
      · rw [ih.2, setCertFlag_or]
        rfl

/-- Extensions that neither stop the walk nor crash it are passed. By induction on the extensions,
    from wherever the walk stands. -/
theorem passes_of_passesOver {uninit : Nat → Bool} (es : List X509Extension) :
    ∀ (i : Nat) (c : CertX509),
    (∀ (k : Nat) (e : X509Extension), es[k]? = some e → ¬ e.Stops (uninit (i + k)) ∧ ¬ e.Crashes) →
    Scan.Passes (turn uninit) i es c (c.setCertFlag (grantsAll es)) := by
  induction es with
  | nil =>
    intro i c _
    rw [show c.setCertFlag (grantsAll []) = c from setCertFlag_none c]
    exact .nil i c
  | cons e es ih =>
    intro i c h
    obtain ⟨hs, hc⟩ := h 0 e rfl
    rcases parseExtension_cases c (uninit i) e with ⟨hs', -⟩ | ⟨-, hc', -⟩ | ⟨-, -, hx⟩
    · exact absurd hs' hs
    · exact absurd hc' hc
    · have htail := ih (i + 1) (c.setCertFlag e.grants) (fun k x hk => by
        rw [← Scan.turn_behind]
        exact h (k + 1) x hk)
      rw [setCertFlag_or] at htail
      exact .cons hx htail

/-! ## The loader

  A certificate is added exactly when it has the flag, whatever ended the loop. -/

/-- The extensions of the certificate, none for NULL. -/
def X509.list (x : X509) : List X509Extension := x.extensions.getD []

/-- The object that a loader gets from OpenSSL. -/
def LoadEnv.certificate (env : LoadEnv) : Option X509 :=
  if env.X509_new && env.BIO_new_file then
    match CertMgr.getCertEncoding env.file with
    | .ok (some .CERT_ENCODING_PEM) => env.PEM_read_bio_X509
    | .ok (some .CERT_ENCODING_DER) => env.d2i_X509_bio
    | _ => none
  else none

/-- What is behind the loader, given the object that is read. -/
theorem loadX509CertFrom_ok {env : LoadEnv} {cert : Option X509} {st : Status} {pCert : CertX509}
    (h : CertX509.new.loadX509CertFrom env cert = .ok (st, pCert))
    (hca : pCert.getCertFlag &&& X509_CA ≠ 0) :
    (env.X509_new && env.BIO_new_file) = true ∧
      ∃ x n, cert = some x ∧ parseCertExtensions ⟨some x, X509_NONE⟩ env.uninit = .ok
        (n, pCert) := by
  unfold loadX509CertFrom at h
  have hnew : CertX509.new.getCertFlag &&& X509_CA = 0 := by decide
  cases hX : env.X509_new with
  | false =>
    simp only [hX, Bool.not_false, if_true] at h
    cases h
    exact absurd hnew hca
  | true =>
    cases hB : env.BIO_new_file with
    | false =>
      simp only [hX, hB, Bool.not_true, Bool.not_false, Bool.false_eq_true, if_false, if_true] at h
      cases h
      exact absurd hnew hca
    | true =>
      simp only [hX, hB, Bool.not_true, Bool.false_eq_true, if_false] at h
      obtain ⟨⟨n, c⟩, hparse, hc⟩ := Run.bind_ok.mp h
      cases hc
      refine ⟨rfl, ?_⟩
      cases cert with
      | none => nomatch hparse
      | some x => exact ⟨x, n, rfl, hparse⟩

/-- What is added to the list is the certificate, and it has the CA flag. -/
theorem keepCaCert_added {mgr : CertMgr} {c pCert : CertX509}
    (hadd : (mgr.keepCaCert c).2.mCertList = mgr.mCertList ++ [pCert]) :
    c = pCert ∧ pCert.getCertFlag &&& X509_CA ≠ 0 := by
  unfold CertMgr.keepCaCert at hadd
  split at hadd
  · exact absurd hadd (by simp)
  · next hca =>
    obtain rfl : c = pCert := by simpa using hadd
    exact ⟨rfl, hca⟩

/-- A certificate that is added was read, its extensions were parsed from no flags, and it has
    `X509_CA`. -/
theorem loadX509CaCert_added {env : LoadEnv} {mgr mgr' : CertMgr} {ret : Option CertX509}
    {pCert : CertX509}
    (h : mgr.loadX509CaCert env = .ok (ret, mgr'))
    (hadd : mgr'.mCertList = mgr.mCertList ++ [pCert]) :
    ∃ x n, env.certificate = some x ∧ parseCertExtensions ⟨some x, X509_NONE⟩ env.uninit = .ok
      (n, pCert) ∧
      pCert.getCertFlag &&& X509_CA ≠ 0 := by
  have hload : ∀ {cert : Option X509},
      (CertX509.new.loadX509CertFrom env cert >>= fun r => .ok (mgr.keepCaCert r.2)) = .ok
        (ret, mgr') →
      (env.X509_new && env.BIO_new_file) = true ∧ ∃ x n, cert = some x ∧
        parseCertExtensions ⟨some x, X509_NONE⟩ env.uninit = .ok (n, pCert) ∧
          pCert.getCertFlag &&& X509_CA ≠ 0 := by
    intro cert hrun
    obtain ⟨⟨st, c⟩, hfrom, hkeep⟩ := Run.bind_ok.mp hrun
    have hmgr : (mgr.keepCaCert c).2 = mgr' := congrArg Prod.snd (Except.ok.inj hkeep)
    rw [← hmgr] at hadd
    obtain ⟨rfl, hca⟩ := keepCaCert_added hadd
    obtain ⟨hopen, x, n, hx, hparse⟩ := loadX509CertFrom_ok hfrom hca
    exact ⟨hopen, x, n, hx, hparse, hca⟩
  unfold CertMgr.loadX509CaCert at h
  obtain ⟨enc, henc, h⟩ := Run.bind_ok.mp h
  unfold LoadEnv.certificate
  rw [henc]
  cases enc with
  | none =>
    cases h
    exact absurd hadd (by simp)
  | some encoding =>
    cases encoding with
    | CERT_ENCODING_PEM =>
      obtain ⟨hopen, hrest⟩ := hload h
      rw [if_pos hopen]
      exact hrest
    | CERT_ENCODING_DER =>
      obtain ⟨hopen, hrest⟩ := hload h
      rw [if_pos hopen]
      exact hrest

/-- A certificate that is parsed to its end is returned. -/
theorem loadX509CertFrom_reads {env : LoadEnv} {x : X509} {n : Nat} {pCert : CertX509}
    (hopen : (env.X509_new && env.BIO_new_file) = true)
    (hparse : parseCertExtensions ⟨some x, X509_NONE⟩ env.uninit = .ok (n, pCert)) :
    CertX509.new.loadX509CertFrom env (some x) = .ok (.STATUS_SUCCESS, pCert) := by
  rw [Bool.and_eq_true] at hopen
  unfold loadX509CertFrom
  simp only [hopen.1, hopen.2, Bool.not_true, Bool.false_eq_true, if_false]
  rw [show ({ CertX509.new with mpX509 := some x } : CertX509) = ⟨some x, X509_NONE⟩ from rfl,
    hparse]
  rfl

/-- And such a certificate is added. -/
theorem loadX509CaCert_adds {env : LoadEnv} {x : X509} {n : Nat} {pCert : CertX509}
    (hx : env.certificate = some x)
    (hparse : parseCertExtensions ⟨some x, X509_NONE⟩ env.uninit = .ok (n, pCert))
    (hca : pCert.getCertFlag &&& X509_CA ≠ 0) (mgr : CertMgr) :
    mgr.loadX509CaCert env =
      .ok (some pCert, { mgr with mCertList := mgr.mCertList ++ [pCert] }) := by
  have hkeep :
    mgr.keepCaCert pCert = (some pCert, { mgr with mCertList := mgr.mCertList ++ [pCert] }) :=
    if_neg hca
  unfold LoadEnv.certificate at hx
  unfold CertMgr.loadX509CaCert
  split at hx
  · next hopen =>
    have hload := loadX509CertFrom_reads hopen hparse
    split at hx
    · next henc =>
      rw [henc, Run.ok_bind]
      simp only [loadX509CertFromPEM, hx, hload, Run.ok_bind, hkeep]
    · next henc =>
      rw [henc, Run.ok_bind]
      simp only [loadX509CertFromDER, hx, hload, Run.ok_bind, hkeep]
    · nomatch hx
  · nomatch hx

/-! ## What a load honours

  `Honours` is the rule, for every list and every answer of OpenSSL. `Orderly` is about the
  extensions alone. -/

/-- **The rule**: a certificate that is added has no unsupported critical extension and none that
    could not be decoded, and its flags are the ones its extensions contribute, in whatever order
    they stand. -/
def Honours (env : LoadEnv) : Prop :=
  ∀ (mgr mgr' : CertMgr) (ret : Option CertX509) (pCert : CertX509), mgr.loadX509CaCert env = .ok
    (ret, mgr') →
    mgr'.mCertList = mgr.mCertList ++ [pCert] →
    ∃ x, pCert.mpX509 = some x ∧ (∀ e ∈ x.list, ¬ e.Unsupported ∧ ¬ e.Undecoded) ∧
      ∀ i, pCert.mCertFlags.getLsbD i = true ↔ ∃ e ∈ x.list, e.grants.getLsbD i = true

/-- Where the loop ends, no `basicConstraints` with `cA` is before it, or no extension is refused
    and no flag is missed. -/
def Orderly (uninit : Nat → Bool) (es : List X509Extension) : Prop :=
  ∀ before e after, es = before ++ e :: after → PassesOver uninit before →
    e.Stops (uninit before.length) →
    (∃ b ∈ before, b.MarksCA) →
    (∀ b ∈ es, ¬ b.Unsupported ∧ ¬ b.Undecoded) ∧
      ∀ i, (∃ b ∈ after, b.grants.getLsbD i = true) → ∃ b ∈ before, b.grants.getLsbD i = true

/-- The certificate when the loop begins. -/
abbrev readCert (x : X509) : CertX509 := ⟨some x, X509_NONE⟩

/-- A certificate that was read has no flags before its extensions. -/
theorem readCert_flags (x : X509) (flags : BitVec 32) :
    ((readCert x).setCertFlag flags).mCertFlags = flags := BitVec.zero_or

/-- Both values of `ok` give the same value, and what is behind the loop is kept. -/
theorem parseCertExtensions_scan (x : X509) (uninit : Nat → Bool) :
    parseCertExtensions (readCert x) uninit =
      (Scan.scan (turn uninit) 0 x.list (readCert x)).map fun r => (0, r.2) := by
  obtain ⟨extensions⟩ := x
  cases extensions with
  | none => rfl
  | some es =>
    unfold parseCertExtensions
    simp only [deref, Run.ok_bind, X509.list, Option.getD_some]
    cases Scan.scan (turn uninit) 0 es (readCert ⟨some es⟩) with
    | error => rfl
    | ok r => obtain ⟨ok, c⟩ := r; cases ok <;> rfl

/-- The CA flag is the lowest bit. -/
theorem ca_set {flags : BitVec 32} : flags &&& X509_CA ≠ 0 ↔ flags.getLsbD 0 = true := by
  rw [show X509_CA = 1#32 from rfl, BitVec.and_one_eq_setWidth_ofBool_getLsbD]
  cases flags.getLsbD 0 <;> decide

/-- **How the loop ends**, if it does not crash: behind the last extension, or at one that stops
    it. -/
theorem parseCertExtensions_ends {x : X509} {uninit : Nat → Bool} {n : Nat} {c : CertX509}
    (h : parseCertExtensions (readCert x) uninit = .ok (n, c)) :
    (PassesOver uninit x.list ∧ c = (readCert x).setCertFlag (grantsAll x.list)) ∨
    (∃ before e after, x.list = before ++ e :: after ∧ PassesOver uninit before ∧
      e.Stops (uninit before.length) ∧
      e.grants = 0 ∧ c = (readCert x).setCertFlag (grantsAll before)) := by
  rw [parseCertExtensions_scan] at h
  have hends := Scan.scan_ends (turn uninit) x.list 0 (readCert x)
  generalize Scan.scan (turn uninit) 0 x.list (readCert x) = r at h hends
  cases hends with
  | passed hp =>
    obtain ⟨-, rfl⟩ := Prod.mk.inj (Except.ok.inj h)
    obtain ⟨hover, hc⟩ := passes_flags hp
    simp only [Nat.zero_add] at hover
    exact .inl ⟨hover, hc⟩
  | @stopped before after e c' c'' hes hp hx =>
    obtain ⟨-, rfl⟩ := Prod.mk.inj (Except.ok.inj h)
    obtain ⟨hover, hc⟩ := passes_flags hp
    simp only [Nat.zero_add] at hover hx
    rcases parseExtension_cases c' (uninit before.length) e with ⟨hstop, hg, h⟩ | ⟨-, -,
      h⟩ | ⟨-, -, h⟩
    · rw [turn, h] at hx
      obtain ⟨-, rfl⟩ := Prod.mk.inj (Except.ok.inj hx)
      exact .inr ⟨before, e, after, hes, hover, hstop, hg, hc⟩
    · rw [turn, h] at hx
      nomatch hx
    · rw [turn, h] at hx
      nomatch hx
  | failed => nomatch h

/-- The walk ends at the first extension that stops it, with the flags granted so far. -/
theorem parseCertExtensions_stops {x : X509} {uninit : Nat → Bool}
    {before after : List X509Extension} {e : X509Extension}
    (hes : x.list = before ++ e :: after) (hpass : PassesOver uninit before)
    (hstop : e.Stops (uninit before.length)) :
    parseCertExtensions (readCert x) uninit = .ok
      (0, (readCert x).setCertFlag (grantsAll before)) := by
  have hpasses := passes_of_passesOver before 0 (readCert x) (fun k b hk => by
    rw [Nat.zero_add]
    exact hpass k b hk)
  have hturn : turn uninit (0 + before.length) e ((readCert x).setCertFlag (grantsAll before)) =
      .ok (false, (readCert x).setCertFlag (grantsAll before)) := by
    rw [turn, Nat.zero_add]
    rcases parseExtension_cases ((readCert x).setCertFlag (grantsAll before))
      (uninit before.length) e with
      ⟨-, -, h⟩ | ⟨hs, -⟩ | ⟨hs, -⟩
    · exact h
    · exact absurd hstop hs
    · exact absurd hstop hs
  rw [parseCertExtensions_scan, hes, Scan.scan_stopped hpasses hturn]
  rfl

/-- `X509_CA` is set when one of the extensions marks a CA. -/
theorem ca_of_grants {x : X509} {es : List X509Extension} :
    ((readCert x).setCertFlag (grantsAll es)).getCertFlag &&& X509_CA ≠ 0 ↔ ∃ b ∈ es,
      b.MarksCA := by
  rw [ca_set, getCertFlag, readCert_flags, grantsAll_bit]
  constructor
  · rintro ⟨b, hb, h⟩
    exact ⟨b, hb, (grants_ca b).mp h⟩
  · rintro ⟨b, hb, h⟩
    exact ⟨b, hb, (grants_ca b).mpr h⟩

/-- **Headline.** A load meets the rule exactly when the loop over the extensions of the certificate
    ends in order. -/
theorem loadX509CaCert_honours_iff (env : LoadEnv) :
    Honours env ↔ ∀ x, env.certificate = some x → Orderly env.uninit x.list := by
  constructor
  · intro hH x hx before e after hes hpass hstop hmark
    have hparse := parseCertExtensions_stops hes hpass hstop
    have hca : ((readCert x).setCertFlag (grantsAll before)).getCertFlag &&& X509_CA ≠ 0 :=
      ca_of_grants.mpr hmark
    obtain ⟨x', hx', hfine, hbits⟩ := hH ⟨[]⟩ _ _ _ (loadX509CaCert_adds hx hparse hca ⟨[]⟩) rfl
    obtain rfl : x = x' := Option.some.inj hx'
    refine ⟨hfine, ?_⟩
    rintro i ⟨b, hb, hi⟩
    rw [← grantsAll_bit, ← readCert_flags x (grantsAll before), hbits i]
    refine ⟨b, ?_, hi⟩
    rw [hes]
    exact List.mem_append_right before (List.mem_cons_of_mem e hb)
  · intro hO mgr mgr' ret pCert hload hadd
    obtain ⟨x, n, hx, hparse, hca⟩ := loadX509CaCert_added hload hadd
    rcases parseCertExtensions_ends hparse with ⟨hpass, rfl⟩ | ⟨before, e, after, hes, hpass, hstop,
      hg, rfl⟩
    · refine ⟨x, rfl, ?_, ?_⟩
      · intro e he
        obtain ⟨k, hk⟩ := List.mem_iff_getElem?.mp he
        have hs := (hpass k e hk).1
        exact ⟨fun h => hs (.inl h), fun h => hs (.inr (.inl h))⟩
      · intro i
        rw [readCert_flags]
        exact grantsAll_bit x.list i
    · obtain ⟨hfine, hafter⟩ := hO x hx before e after hes hpass hstop (ca_of_grants.mp hca)
      refine ⟨x, rfl, hfine, ?_⟩
      intro i
      rw [readCert_flags, grantsAll_bit, hes]
      constructor
      · rintro ⟨y, hy, hi⟩
        exact ⟨y, List.mem_append_left _ hy, hi⟩
      · rintro ⟨y, hy, hi⟩
        rcases List.mem_append.mp hy with hy | hy
        · exact ⟨y, hy, hi⟩
        · rcases List.mem_cons.mp hy with rfl | hy
          · -- the extension that ends the loop has no flags
            rw [hg] at hi
            exact absurd hi (by simp)
          · exact hafter i ⟨y, hy, hi⟩

/-- `basicConstraints` with `cA`, then a critical extension of a kind nobody knows. -/
def unknownCritical : X509 :=
  ⟨some [⟨.NID_basic_constraints (some ⟨true⟩), true⟩, ⟨.other 666, true⟩]⟩

/-- A PEM file with that certificate. -/
def unknownCriticalFile : LoadEnv where
  file := some CertMgr.pemBegin
  X509_new := true
  BIO_new_file := true
  PEM_read_bio_X509 := some unknownCritical
  d2i_X509_bio := none
  uninit _ := true

/-- **Ignored**: the loop ends at the unknown extension, and the certificate is added. -/
theorem critical_ignored : ¬ ∀ env : LoadEnv, Honours env := by
  intro h
  have hload : CertMgr.loadX509CaCert ⟨[]⟩ unknownCriticalFile =
      .ok (some ⟨some unknownCritical, X509_CA⟩, ⟨[⟨some unknownCritical, X509_CA⟩]⟩) := rfl
  obtain ⟨x, hx, hfine, -⟩ := h unknownCriticalFile ⟨[]⟩ _ _ _ hload rfl
  obtain rfl : unknownCritical = x := Option.some.inj hx
  exact (hfine ⟨.other 666, true⟩ (.tail _ (.head _))).1 rfl

end StevenProgram
