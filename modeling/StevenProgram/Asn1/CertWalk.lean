/-
  The walk over a certificate delivers what its table prescribes.

  The stages below name what is left on the levels: `a` and `b` are the rests of the input and of
  the certificate, `c` and `d` the rests of `tbsCertificate` and of the extensions field.

  1.  **Parts** — one lemma for each part of a certificate that may be there or not: the version
     (`leads_version`), the two identifiers (`leads_optionLine`), one extension (`leads_extension`,
     or `leads_nextExtension` from the END line of the loop), the loop (`leads_loop`) and the field
     around it (`leads_extensions`).

  2.  **The walk** (`leads_certificate`) — the parts one after the other.

  3.  **Headline** (`walk_certificate`) — the calls of `iterate` on the encoding of any certificate
     return true with exactly the prescribed deliveries, then false on the EXIT line, with
     `mSuccess` still set.

  The crux is the optional parts.  A line can only see that its field is absent by the tag of the
  next value, so each lemma about a part asks that what stands behind it begins with another tag;
  `optBytes_head` and `extensions_head` supply that from the fields that follow.
-/
import StevenProgram.Asn1.CertObjects

namespace StevenProgram

open Asn1 Asn1Parser Der

namespace CertWalk

variable {input : List UInt8}

/-- No jump back address is set. -/
def noLoop : Nat → Nat := fun _ => 0

/-- The loop over the extensions is on. -/
def inLoop : Nat → Nat := Function.update noLoop 3 18

/-- Leaving a level that is in no loop changes nothing. -/
theorem noLoop_exit (level : Nat) : Function.update noLoop level 0 = noLoop :=
  Function.update_eq_self level noLoop

/-- Leaving the loop over the extensions leaves no loop behind. -/
theorem inLoop_exit : Function.update inLoop 3 0 = noLoop := by
  unfold inLoop
  rw [Function.update_idem, noLoop_exit]

/-! ## Parts

  The tables are concrete here: the numbers are those of the lines of `certObjects`. -/

/-- The three lines of the optional version: with a version the two of its field are delivered,
    without one the walk skips to the serial number. -/
theorem leads_version (hsize : input.length < 2 ^ 32) (v : Option Version) (a b : List UInt8)
    {rest : List UInt8}
    (hrest : ∀ x ∈ rest.head?, x ≠ 0xA0) :
    Leads certObjects input ⟨2, noLoop, [a, b, v.elim [] Version.bytes ++ rest]⟩ (Version.lines v)
      ⟨4, noLoop, [a, b, rest]⟩ := by
  have h2 : certObjects[2]? = some _ := rfl
  have h3 : certObjects[3]? = some _ := rfl
  cases v with
  | none =>
    refine leads_default h2 rfl rfl [a, b] rfl (by decide) ?_
    intro x hx h
    exact hrest x hx (UInt8.toNat_inj.mp h)
  | some v =>
    refine Leads.forget [a, b, rest] [[], v.number.body] ?_
    refine .cons
      (leads_tlv hsize h2 [a, b] v.wrap.tlv rest rfl ⟨by decide, rfl, rfl, .inl rfl⟩ rfl nofun) ?_
    exact leads_last hsize h3 [a, b, rest] v.number rfl ⟨by decide, rfl, rfl, .inl rfl⟩ rfl nofun

/-- The END line of an option on the level of the fields. -/
theorem leads_endOption {i : Nat} (hline : certObjects[i]? = some ⟨2, ASN1_PARSER_EOC, ASN1_END⟩)
    (stack : List (List UInt8)) :
    Leads certObjects input ⟨i, noLoop, stack⟩ [(some i, [])] ⟨i + 1, noLoop, stack⟩ := by
  have h : Leads certObjects input _ _ _ := leads_end hline rfl rfl (by decide) stack
    (.inl (rfl : noLoop 2 = 0))
  rw [noLoop_exit] at h
  exact h

/-- An option without lines of its own. -/
theorem leads_optionLine (hsize : input.length < 2 ^ 32) {i : Nat} {obj : Asn1Object} {tag : UInt8}
    (hline : certObjects[i]? = some obj) (hlevel : obj.level = 2) (htype : tag.toNat = obj.type)
    (hflags : ∀ flag, obj.has flag = (ASN1_OPT &&& flag != 0))
    (hend : certObjects[i + 1]? = some ⟨2, ASN1_PARSER_EOC, ASN1_END⟩)
    (o : Option (Tlv tag)) (a b : List UInt8) {rest : List UInt8}
    (hrest : ∀ x ∈ rest.head?, x ≠ tag) :
    Leads certObjects input ⟨i, noLoop, [a, b, optBytes o ++ rest]⟩ (optionLines i o)
    ⟨i + 2, noLoop, [a, b, rest]⟩ := by
  have hplain : (obj.has ASN1_EXIT || obj.has ASN1_END) = false := by rw [hflags, hflags]; rfl
  have hmax : obj.level ≤ ASN1_MAX_LEVEL := by rw [hlevel]; decide
  cases o with
  | none =>
    have hnext : nextLine certObjects (isEnd obj.level) i = some (i + 1) := by
      obtain ⟨hlt, hobj⟩ := List.getElem?_eq_some_iff.mp hend
      unfold nextLine
      rw [hlevel, List.drop_eq_getElem_cons hlt, hobj]
      rfl
    refine leads_option hline hplain (by rw [hflags, hflags]; rfl) hnext [a, b] hlevel hmax ?_
    intro x hx h
    rw [← htype] at h
    exact hrest x hx (UInt8.toNat_inj.mp h)
  | some t =>
    have hnoloop : obj.has ASN1_LOOP = false := hflags ASN1_LOOP
    have hitem :
      ItemLine obj tag := ⟨hmax, hflags ASN1_CHOICE, by rw [hnoloop, Bool.and_false], .inl htype⟩
    have hd : delivered obj t = [] := by
      unfold delivered
      rw [hflags, hflags, hflags]
      rfl
    have h : Leads certObjects input ⟨i, noLoop, [a, b, t.bytes ++ rest]⟩ _ _ :=
      leads_tlv hsize hline [a, b] t rest hlevel hitem hplain (by rw [hnoloop]; nofun)
    rw [hd, behind, hnoloop] at h
    refine Leads.forget [a, b, rest] [t.body] ?_
    exact .cons h (leads_endOption hend [a, b, rest, t.body])

/-- The lines of an extension behind the first. -/
theorem leads_extensionBody (hsize : input.length < 2 ^ 32) (e : Extension)
    (a b c d rest : List UInt8) :
    Leads certObjects input ⟨19, inLoop, [a, b, c, d, rest, e.wrap.tlv.body]⟩
      [(some 19, e.extnID.body), (some 20, e.critical.elim [] Tlv.body),
        (some 21, e.extnValue.body)]
      ⟨22, inLoop, [a, b, c, d, rest]⟩ := by
  have h19 : certObjects[19]? = some _ := rfl
  have h20 : certObjects[20]? = some _ := rfl
  have h21 : certObjects[21]? = some _ := rfl
  refine Leads.forget [a, b, c, d, rest] [[], e.extnValue.body] ?_
  refine .cons
    (leads_tlv hsize h19 [a, b, c, d, rest] e.extnID (optBytes e.critical ++ e.extnValue.bytes) rfl
    ⟨by decide, rfl, rfl, .inl rfl⟩ rfl nofun) ?_
  cases e.critical with
  | none =>
    -- the value follows, with another tag
    refine .cons (leads_default h20 rfl rfl [a, b, c, d, rest] rfl (by decide) ?_) ?_
    · intro x hx
      obtain rfl : 0x04 = x := Option.some.inj hx
      decide
    · exact leads_last hsize h21 [a, b, c, d, rest] e.extnValue rfl
        ⟨by decide, rfl, rfl, .inl rfl⟩ rfl nofun
  | some t =>
    refine .cons (leads_tlv hsize h20 [a, b, c, d, rest] t e.extnValue.bytes rfl
      ⟨by decide, rfl, rfl, .inl rfl⟩ rfl nofun) ?_
    exact leads_last hsize h21 [a, b, c, d, rest] e.extnValue rfl
      ⟨by decide, rfl, rfl, .inl rfl⟩ rfl nofun

/-- The first extension, from its own line. -/
theorem leads_extension (hsize : input.length < 2 ^ 32) (e : Extension)
    (a b c d rest : List UInt8) :
    Leads certObjects input ⟨18, inLoop, [a, b, c, d, e.bytes ++ rest]⟩ e.lines
      ⟨22, inLoop, [a, b, c, d, rest]⟩ := by
  have h18 : certObjects[18]? = some _ := rfl
  refine .cons
    (leads_tlv hsize h18 [a, b, c, d] e.wrap.tlv rest rfl
    ⟨by decide, rfl, rfl, .inl rfl⟩ rfl nofun) ?_
  exact leads_extensionBody hsize e a b c d rest

/-- A later extension, from the END line of the loop. -/
theorem leads_nextExtension (hsize : input.length < 2 ^ 32) (e : Extension)
    (a b c d rest : List UInt8) :
    Leads certObjects input ⟨22, inLoop, [a, b, c, d, e.bytes ++ rest]⟩ e.lines
      ⟨22, inLoop, [a, b, c, d, rest]⟩ := by
  have h18 : certObjects[18]? = some _ := rfl
  have h22 : certObjects[22]? = some _ := rfl
  refine .cons (leads_again hsize h22 rfl (by decide) h18 rfl (by decide) rfl [a, b, c,
    d] e.wrap.tlv rest rfl
    ⟨by decide, rfl, rfl, .inl rfl⟩ nofun) ?_
  exact leads_extensionBody hsize e a b c d rest

/-- **The loop**: a turn for each extension, none if there are none.  By induction on the extensions
    behind the first, whose turn begins at the END line. -/
theorem leads_loop (hsize : input.length < 2 ^ 32) {es : List Extension}
    (w : Wrapped 0x30 (es.flatMap Extension.bytes))
    (a b c : List UInt8) :
    Leads certObjects input ⟨17, noLoop, [a, b, c, w.tlv.bytes]⟩ (loopLines es)
    ⟨23, noLoop, [a, b, c]⟩ := by
  have h17 : certObjects[17]? = some _ := rfl
  have h22 : certObjects[22]? = some _ := rfl
  cases es with
  | nil =>
    have h : Leads certObjects input ⟨17, noLoop, [a, b, c, w.tlv.bytes ++ []]⟩ _ _ :=
      leads_loopEmpty hsize h17 [a, b, c] w.tlv [] rfl
        ⟨by decide, rfl, rfl, .inl rfl⟩ rfl rfl rfl rfl
    rw [List.append_nil] at h
    exact Leads.forget [a, b, c] [[], []] h
  | cons e es =>
    have hbody : (e :: es).flatMap Extension.bytes ≠ [] := by
      rw [List.flatMap_cons, Extension.bytes, Tlv.bytes_cons]
      exact List.cons_ne_nil _ _
    -- the state before a turn has the extensions that are left on level 4
    have hturns : Emit.Leads _ _ _ _ := Emit.Leads.forEach
      (I := fun es : List Extension => Stage.Sees input ⟨22, inLoop,
        [a, b, c, [], es.flatMap Extension.bytes]⟩)
      (fun e es => leads_nextExtension hsize e a b c [] (es.flatMap Extension.bytes)) es
    have hend :
      Leads certObjects input ⟨22, inLoop, [a, b, c, [], []]⟩ [(some 22, [])]
      ⟨23, noLoop, [a, b, c, [], []]⟩ := by
      rw [← inLoop_exit]
      exact leads_end h22 rfl rfl (by decide) [a, b, c, [], []] (.inr rfl)
    refine Leads.forget [a, b, c] [[], []] ?_
    refine .cons
      (leads_last hsize h17 [a, b, c] w.tlv rfl ⟨by decide, rfl, rfl, .inl rfl⟩ rfl fun _ =>
      hbody) ?_
    refine Emit.Leads.trans
      (.trans (leads_extension hsize e a b c [] (es.flatMap Extension.bytes)) hturns) hend

/-- The optional field with the loop in it, behind the last field of `tbsCertificate`. -/
theorem leads_extensions (hsize : input.length < 2 ^ 32) (x : Option Extensions)
    (a b : List UInt8) :
    Leads certObjects input ⟨16, noLoop, [a, b, x.elim [] Extensions.bytes]⟩ (Extensions.lines x)
      ⟨24, noLoop, [a, b, []]⟩ := by
  have h16 : certObjects[16]? = some _ := rfl
  have h23 : certObjects[23]? = some _ := rfl
  cases x with
  | none => exact leads_option h16 rfl rfl rfl [a, b] rfl (by decide) nofun
  | some x =>
    refine .cons
      (leads_last hsize h16 [a, b] x.wrap.tlv rfl ⟨by decide, rfl, rfl, .inl rfl⟩ rfl nofun) ?_
    exact .trans (leads_loop hsize x.sequence a b []) (leads_endOption h23 [a, b, []])

/-! ## The walk

  From the inside out: the fields that are always there, the part that is signed, the certificate.
  -/

/-- An optional object does not begin with another tag than its own, if what follows it does not. -/
theorem optBytes_head {tag : UInt8} (o : Option (Tlv tag)) {rest : List UInt8} {x : UInt8}
    (htag : tag ≠ x)
    (hrest : ∀ y ∈ rest.head?, y ≠ x) : ∀ y ∈ (optBytes o ++ rest).head?, y ≠ x := by
  cases o with
  | none => exact hrest
  | some t =>
    intro y hy
    obtain rfl : tag = y := Option.some.inj hy
    exact htag

/-- Nor do the extensions. -/
theorem extensions_head (x : Option Extensions) {y : UInt8} (h : 0xA3 ≠ y) :
    ∀ z ∈ (x.elim [] Extensions.bytes).head?, z ≠ y := by
  cases x with
  | none => nofun
  | some x =>
    intro z hz
    obtain rfl : 0xA3 = z := Option.some.inj hz
    exact h

/-- The fields that are always there, each on a line of its own; the validity has two more below it.
    -/
theorem leads_fields (hsize : input.length < 2 ^ 32) (tbs : TbsCertificate) (a b : List UInt8) :
    Leads certObjects input ⟨4, noLoop, [a, b, tbs.fields]⟩
      [(some 4, tbs.serialNumber.body), (some 5, tbs.signature.bytes), (some 6, tbs.issuer.bytes),
        (some 7, []),
       (some 8, tbs.validity.notBefore.bytes), (some 9, tbs.validity.notAfter.bytes),
         (some 10, tbs.subject.bytes),
       (some 11, tbs.subjectPublicKeyInfo.bytes)]
      ⟨12, noLoop, [a, b, tbs.options]⟩ := by
  have h4 : certObjects[4]? = some _ := rfl
  have h5 : certObjects[5]? = some _ := rfl
  have h6 : certObjects[6]? = some _ := rfl
  have h7 : certObjects[7]? = some _ := rfl
  have h8 : certObjects[8]? = some _ := rfl
  have h9 : certObjects[9]? = some _ := rfl
  have h10 : certObjects[10]? = some _ := rfl
  have h11 : certObjects[11]? = some _ := rfl
  refine Leads.forget [a, b, tbs.options] [tbs.subjectPublicKeyInfo.tlv.body] ?_
  refine .cons
    (leads_tlv hsize h4 [a, b] tbs.serialNumber _ rfl ⟨by decide, rfl, rfl, .inl rfl⟩ rfl nofun) ?_
  refine .cons
    (leads_tlv hsize h5 [a, b] tbs.signature.tlv _ rfl ⟨by decide, rfl, rfl, .inr rfl⟩ rfl nofun) ?_
  refine .cons
    (leads_tlv hsize h6 [a, b] tbs.issuer _ rfl ⟨by decide, rfl, rfl, .inl rfl⟩ rfl nofun) ?_
  refine .cons
    (leads_tlv hsize h7 [a, b] tbs.validity.wrap.tlv _ rfl
    ⟨by decide, rfl, rfl, .inl rfl⟩ rfl nofun) ?_
  refine .cons (leads_tlv hsize h8 [a, b, _] tbs.validity.notBefore.tlv _ rfl
    ⟨by decide, rfl, rfl, .inr rfl⟩ rfl nofun) ?_
  refine .cons (leads_last hsize h9 [a, b, _] tbs.validity.notAfter.tlv rfl
    ⟨by decide, rfl, rfl, .inr rfl⟩ rfl nofun) ?_
  refine .cons
    (leads_tlv hsize h10 [a, b] tbs.subject _ rfl ⟨by decide, rfl, rfl, .inl rfl⟩ rfl nofun) ?_
  exact leads_tlv hsize h11 [a, b] tbs.subjectPublicKeyInfo.tlv _ rfl
    ⟨by decide, rfl, rfl, .inr rfl⟩ rfl nofun

/-- **The lines of the part that is signed**, from the serial number to the extensions. -/
theorem leads_tbs (hsize : input.length < 2 ^ 32) (tbs : TbsCertificate) (a b : List UInt8) :
    Leads certObjects input ⟨2, noLoop, [a, b, tbs.content]⟩ tbs.lines
      ⟨24, noLoop, [a, b, []]⟩ := by
  have h12 : certObjects[12]? = some _ := rfl
  have h14 : certObjects[14]? = some _ := rfl
  have hserial : ∀ y ∈ tbs.fields.head?, y ≠ 0xA0 := by
    intro y hy
    obtain rfl : 0x02 = y := Option.some.inj hy
    decide
  have hsubject : ∀ y ∈ (tbs.extensions.elim [] Extensions.bytes).head?, y ≠ 0xA2 :=
    extensions_head tbs.extensions (by decide)
  have hissuer :
    ∀ y ∈ (optBytes tbs.subjectUniqueID ++ tbs.extensions.elim [] Extensions.bytes).head?,
    y ≠ 0xA1 :=
    optBytes_head tbs.subjectUniqueID (by decide) (extensions_head tbs.extensions (by decide))
  have hversion := leads_version hsize tbs.version a b hserial
  have hfields := leads_fields hsize tbs a b
  have hissuerID := leads_optionLine hsize h12 rfl rfl
    (fun _ => rfl) rfl tbs.issuerUniqueID a b hissuer
  have hsubjectID := leads_optionLine hsize h14 rfl rfl
    (fun _ => rfl) rfl tbs.subjectUniqueID a b hsubject
  exact (((hversion.trans hfields).trans hissuerID).trans hsubjectID).trans
    (leads_extensions hsize tbs.extensions a b)

/-- **From the first line to the EXIT line.** -/
theorem leads_certificate (c : Certificate) :
    Leads certObjects c.encode ⟨0, noLoop, [c.encode]⟩ c.prescribed ⟨26, noLoop, []⟩ := by
  have hsize : c.encode.length < 2 ^ 32 := Nat.lt_trans c.size (by decide)
  have h0 : certObjects[0]? = some _ := rfl
  have h1 : certObjects[1]? = some _ := rfl
  have h24 : certObjects[24]? = some _ := rfl
  have h25 : certObjects[25]? = some _ := rfl
  have hopen :
    Leads certObjects c.encode ⟨0, noLoop, [c.encode]⟩
    [(some 0, c.encode), (some 1, c.tbsWrap.tlv.bytes)]
      ⟨2, noLoop, [[], c.signatureAlgorithm.bytes ++ c.signatureValue.bytes,
        c.tbsCertificate.content]⟩ := by
    refine .cons
      (leads_last hsize h0 [] c.wrap.tlv rfl ⟨by decide, rfl, rfl, .inl rfl⟩ rfl nofun) ?_
    exact leads_tlv hsize h1 [[]] c.tbsWrap.tlv _ rfl ⟨by decide, rfl, rfl, .inl rfl⟩ rfl nofun
  have htbs := leads_tbs hsize c.tbsCertificate []
    (c.signatureAlgorithm.bytes ++ c.signatureValue.bytes)
  have hclose : Leads certObjects c.encode
      ⟨24, noLoop, [[], c.signatureAlgorithm.bytes ++ c.signatureValue.bytes, []]⟩
      [(some 24, c.signatureAlgorithm.bytes), (some 25, c.signatureValue.body)]
      ⟨26, noLoop, []⟩ := by
    refine Leads.forget [] [[], [], c.signatureValue.body] ?_
    refine .cons
      (leads_tlv hsize h24 [[]] c.signatureAlgorithm.tlv _ rfl
      ⟨by decide, rfl, rfl, .inr rfl⟩ rfl nofun) ?_
    exact leads_last hsize h25 [[]] c.signatureValue rfl ⟨by decide, rfl, rfl, .inl rfl⟩ rfl nofun
  exact (hopen.trans htbs).trans hclose

/-- `while (parser.iterate(objectID, object))`, up to `fuel` calls: the deliveries, and the parser
    behind the call that returned false. -/
def walk (objects : List Asn1Object) (input : List UInt8) :
    Nat → Asn1Parser → Run (List Delivery × Asn1Parser)
  | 0, _ => .error .diverged
  | fuel + 1, s => do
      let (s, it) ← s.iterate objects input
      if it.ret then do
        let (ds, s) ← walk objects input fuel s
        .ok ((it.objectID, it.object.bytes input) :: ds, s)
      else .ok ([], s)

/-- A run of calls that return true, and the call that does not: the walk with one call for each
    delivery and one more. -/
theorem walk_emits {objects : List Asn1Object} {s s' s'' : Asn1Parser} {ds : List Delivery}
    {it : Iterated}
    (h : Emit.Emits (Delivers objects input) s ds s')
    (hlast : s'.iterate objects input = .ok (s'', it))
    (hret : it.ret = false) : walk objects input (ds.length + 1) s = .ok (ds, s'') := by
  induction h with
  | done s =>
    unfold walk
    rw [hlast, Run.ok_bind]
    simp only [hret, Bool.false_eq_true, if_false]
  | step hR _ ih =>
    obtain ⟨it', hiterate, htrue, hd⟩ := hR
    rw [List.length_cons, walk, hiterate, Run.ok_bind]
    simp only [htrue, if_true, ih hlast, Run.ok_bind, hd]

/-- **A certificate is delivered as its table prescribes**, for every certificate, in every choice
    of lengths: whatever `setFlags` chose, the calls of `iterate` return true with exactly these
    objects, and false on the EXIT line. -/
theorem walk_certificate (c : Certificate) (implicit : Bool) :
    ∃ s, walk certObjects c.encode (c.prescribed.length + 1) ((new c.encode).setFlags implicit) =
      .ok (c.prescribed, s) ∧
      s.mSuccess = true ∧ s.mLine = 26 := by
  have hstart : Stage.Sees c.encode ⟨0, noLoop, [c.encode]⟩ ((new c.encode).setFlags implicit) := by
    refine ⟨rfl, rfl, rfl, ?_⟩
    intro k bs hk
    cases k with
    | zero =>
      obtain rfl : c.encode = bs := Option.some.inj hk
      exact Cursor.Views.at [] c.encode [] (List.append_nil _).symm
    | succ k => nomatch hk
  obtain ⟨s, hrun, hs⟩ := leads_certificate c _ hstart
  have hline : s.mLine + 1 = 26 := hs.line
  have hexit :
    s.iterate certObjects c.encode = .ok ({ s with mLine := 26 }, ⟨false, none, .null⟩) := by
    unfold iterate
    rw [hline]
    rfl
  exact ⟨_, walk_emits hrun hexit rfl, hs.success, rfl⟩

end CertWalk

end StevenProgram
