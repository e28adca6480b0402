/-
  What one call of `iterate` does with an encoded value.

  A cursor `Views` a byte string when that string stands at its place in the input.  `Sees s stage`
  says that a parser is about to take the line `stage.next` and that the cursors of the levels from
  0 up view the strings of `stage.stack`; deeper cursors may be left over from earlier siblings and
  are not mentioned.  A call takes a value off the string of its line's level and puts its contents
  on the next.

  1.  **Lengths** (`asn1Length_tlv`) — every definite form is read back.

  2.  **Lines** — one lemma for each way a line can go: a value is there (`leads_tlv`,
     `leads_last`), a loop has no items (`leads_loopEmpty`) or goes round again (`leads_again`), an
     option or a loop ends (`leads_end`), a field is missing (`leads_default`, `leads_option`).
     They hold for any table.

  3.  **Composition** — `Leads a ds b`: from the stage `a`, exactly the deliveries `ds`, to the
     stage `b`; the rules are those of `Emit.Leads`.

  With these a walk over a syntax is written down like the value itself: one line after the other,
  each with what it delivers, and no parser state is looked at again.
-/
import StevenProgram.Lib.Der
import StevenProgram.Lib.Emit
import StevenProgram.Asn1.Parser

namespace StevenProgram

open Asn1 Asn1Parser Der

namespace Asn1

variable {input : List UInt8}

/-- The bytes stand in the input where the cursor points. -/
inductive Cursor.Views (input : List UInt8) : Cursor → List UInt8 → Prop
  | null : Views input .null []
  | at (pre bs post : List UInt8) :
    input = pre ++ (bs ++ post) → Views input ⟨some pre.length, bs.length⟩ bs

namespace Cursor.Views

/-- A cursor is as long as what it views. -/
theorem len {c : Cursor} {bs : List UInt8} (h : c.Views input bs) : c.len = bs.length := by
  cases h <;> rfl

/-- And its bytes are what it views. -/
theorem bytes {c : Cursor} {bs : List UInt8} (h : c.Views input bs) : c.bytes input = bs := by
  cases h with
  | null => rfl
  | «at» pre _ post hin =>
    rw [Cursor.bytes, hin]
    simp only []
    rw [List.drop_left, List.take_left]

/-- What is viewed and not empty has a place in the input. -/
theorem at_of_ne_nil {c : Cursor} {bs : List UInt8} (h : c.Views input bs) (hne : bs ≠ []) :
    ∃ pre post, input = pre ++ (bs ++ post) ∧ c = ⟨some pre.length, bs.length⟩ := by
  cases h with
  | null => exact absurd rfl hne
  | «at» pre _ post hin => exact ⟨pre, post, hin, rfl⟩

end Cursor.Views

/-! ## Lengths

  The short form is one octet below 128, the long form an octet that counts those behind it.  Both
  are read here, and a long form need not be the shortest one. -/

/-- A read at a known place of the input. -/
theorem read_at {pre bs post : List UInt8} (hin : input = pre ++ (bs ++ post)) (k : Nat) {b : UInt8}
    {len : Nat}
    (hb : bs[k]? = some b) : Cursor.read input ⟨some pre.length, len⟩ k = .ok b := by
  have hk : k < bs.length := (List.getElem?_eq_some_iff.mp hb).1
  rw [Cursor.read]
  simp only []
  rw [hin, List.getElem?_append_right (by omega), show pre.length + k - pre.length = k by omega,
    List.getElem?_append_left hk, hb]

/-- A step over the front of what is left. -/
theorem advance_at (pre xs ys : List UInt8) :
    Cursor.advance ⟨some pre.length, (xs ++ ys).length⟩ xs.length = .ok ⟨some (pre ++ xs).length,
      ys.length⟩ := by
  rw [Cursor.advance]
  simp only [List.length_append]
  rw [if_pos (by omega)]
  congr 2
  omega

/-- The octets of a length add up to the big-endian number they write, while it fits into a `size_t`
    of 32 bits. By induction on the octets, with the number read so far. -/
theorem lengthOctets_at (ys post : List UInt8) : ∀ (os pre : List UInt8) (acc : Nat),
    input = pre ++ ((os ++ ys) ++ post) → acc * 256 ^ os.length + Bytes.beNat os < 2 ^ 32 →
    lengthOctets input os.length acc ⟨some pre.length, (os ++ ys).length⟩ =
      .ok (acc * 256 ^ os.length + Bytes.beNat os, ⟨some (pre ++ os).length, ys.length⟩)
  | [], pre, acc, _, _ => by simp [lengthOctets, Bytes.beNat]
  | b :: os, pre, acc, hin, hlt => by
      have hval : acc * 256 ^ (b :: os).length + Bytes.beNat (b :: os)
          = (256 * acc + b.toNat) * 256 ^ os.length + Bytes.beNat os := by
        rw [← List.singleton_append, Bytes.beNat_append, List.length_append, Nat.pow_add,
          Nat.add_mul,
          show Bytes.beNat [b] = b.toNat from Nat.zero_add _, List.length_singleton, Nat.pow_one,
            ← Nat.mul_assoc,
          Nat.mul_comm acc 256, Nat.add_assoc]
      rw [hval] at hlt ⊢
      have hacc : (256 * acc + b.toNat) % 2 ^ 32 = 256 * acc + b.toNat := by
        refine Nat.mod_eq_of_lt (Nat.lt_of_le_of_lt ?_ hlt)
        exact Nat.le_add_right_of_le (Nat.le_mul_of_pos_right _ (Nat.pow_pos (by decide)))
      have ih := lengthOctets_at ys post os (pre ++ [b]) (256 * acc + b.toNat)
        (by rw [hin]; simp) hlt
      rw [List.length_cons, lengthOctets, read_at hin 0 (b := b) rfl, Run.ok_bind,
        show (b :: os) ++ ys = [b] ++ (os ++ ys) from rfl, show (1 : Nat) = [b].length from rfl,
          advance_at pre [b],
        Run.ok_bind, hacc, ih]
      simp

/-- **Every definite form is read back**, and the cursor stands behind tag and length. -/
theorem asn1Length_tlv {tag : UInt8} (t : Tlv tag) {pre rest post : List UInt8}
    (hin : input = pre ++ ((t.bytes ++ rest) ++ post)) (hlt : t.body.length < 2 ^ 32) :
    asn1Length input ⟨some pre.length, (t.bytes ++ rest).length⟩ =
      .ok (t.body.length, ⟨some (pre ++ t.header).length, (t.body ++ rest).length⟩) := by
  have hfits := t.fits
  have hoct := t.octets
  have hsplit : t.bytes ++ rest = t.header ++ (t.body ++ rest) := by
    rw [Tlv.bytes, List.append_assoc]
  rw [asn1Length]
  -- one octet, or an octet that counts the ones behind it
  cases hform : t.form with
  | short =>
    rw [hform] at hfits
    have hhead : t.header = [tag, UInt8.ofNat t.body.length] := by rw [Tlv.header, hform]; rfl
    obtain ⟨h80, hnat⟩ := short_octet hfits
    rw [hsplit, hhead, if_neg (by simp), read_at hin 1
      (b := UInt8.ofNat t.body.length) (by rw [hsplit, hhead]; rfl), Run.ok_bind,
      show (2 : Nat) = [tag, UInt8.ofNat t.body.length].length from rfl, advance_at, Run.ok_bind,
        if_pos h80, hnat,
      if_neg (by simp)]
  | long n =>
    rw [hform] at hfits hoct
    obtain ⟨hn0, hn127, hL⟩ := hfits
    have hn4 : n ≤ 4 := hoct
    have hhead : t.header = [tag, UInt8.ofNat (0x80 + n)] ++ Bytes.beBytes n t.body.length := by
      rw [Tlv.header, hform]; rfl
    obtain ⟨h80, hnat⟩ := long_octet (n := n) (by omega)
    have hval :
      0 * 256 ^ (Bytes.beBytes n t.body.length).length + Bytes.beNat (Bytes.beBytes n t.body.length)
        = t.body.length := by
      rw [Nat.zero_mul, Nat.zero_add, Bytes.beNat_beBytes, Nat.mod_eq_of_lt hL]
    have hin' : input = (pre ++ [tag, UInt8.ofNat (0x80 + n)]) ++
        ((Bytes.beBytes n t.body.length ++ (t.body ++ rest)) ++ post) := by
          rw [hin, hsplit, hhead]; simp
    have hoctets := lengthOctets_at _ _ _ _ 0 hin' (by rw [hval]; exact hlt)
    rw [hval, Bytes.beBytes_length] at hoctets
    rw [hsplit, hhead, if_neg (by simp), read_at hin 1
      (b := UInt8.ofNat (0x80 + n)) (by rw [hsplit, hhead]; rfl), Run.ok_bind, List.append_assoc,
      show (2 : Nat) = [tag, UInt8.ofNat (0x80 + n)].length from rfl, advance_at, Run.ok_bind,
        if_neg h80]
    simp only [hnat]
    rw [if_neg (by simp only [List.length_append, Bytes.beBytes_length]; omega), if_neg (by omega),
      hoctets, Run.ok_bind,
      if_neg (by simp), List.append_assoc]

/-! ## Stages

  A stage is what the next call depends on, and no more: the line, the jump back addresses and what
  is left on each level. -/

/-- A delivery of one call: `objectID`, and the bytes of `object`. -/
abbrev Delivery : Type := Option Nat × List UInt8

/-- A call of `iterate` that returns true, with what it delivers. -/
def Delivers (objects : List Asn1Object) (input : List UInt8) (s : Asn1Parser) (d : Delivery)
    (s' : Asn1Parser) : Prop :=
  ∃ it : Iterated, s.iterate objects input = .ok (s', it) ∧ it.ret = true ∧
    (it.objectID, it.object.bytes input) = d

/-- The line of the next call, the jump back addresses, and what is left on each level. -/
structure Stage where
  next : Nat
  loop : Nat → Nat
  stack : List (List UInt8)

/-- The parser is at the stage.  Cursors above the stack are left over from earlier siblings. -/
structure Stage.Sees (input : List UInt8) (a : Stage) (s : Asn1Parser) : Prop where
  line : s.mLine + 1 = (a.next : Int)
  success : s.mSuccess = true
  loop : s.mLoopAddr = a.loop
  views : ∀ k bs, a.stack[k]? = some bs → (s.mBlobs k).Views input bs

/-- From one stage to another, with exactly these deliveries. -/
abbrev Leads (objects : List Asn1Object) (input : List UInt8) (a : Stage) (ds : List Delivery)
    (b : Stage) : Prop :=
  Emit.Leads (Delivers objects input) (a.Sees input) ds (b.Sees input)

section Lines

variable {objects : List Asn1Object} {obj : Asn1Object} {i : Nat} {loop : Nat → Nat}

/-- The deeper levels may be forgotten: a stage with fewer levels says less about the same parser.
    -/
theorem Stage.Sees.take {s : Asn1Parser} {st deep : List (List UInt8)}
    (h : Stage.Sees input ⟨i, loop, st ++ deep⟩ s) :
    Stage.Sees input ⟨i, loop, st⟩ s := by
  refine ⟨h.line, h.success, h.loop, ?_⟩
  intro k bs hk
  have hlt : k < st.length := (List.getElem?_eq_some_iff.mp hk).1
  apply h.views
  rw [List.getElem?_append_left hlt]
  exact hk

/-- Levels below the ones a stage speaks of do not matter. -/
theorem Leads.forget {a : Stage} {ds : List Delivery} (st deep : List (List UInt8))
    (h : Leads objects input a ds ⟨i, loop, st ++ deep⟩) : Leads objects input a ds ⟨i, loop, st⟩ :=
  Emit.Leads.weaken h fun _ hs => hs.take

/-- The cursor of a level. -/
theorem Stage.Sees.top {s : Asn1Parser} {n l : Nat} {st deep : List (List UInt8)} {cur : List UInt8}
    (h : Stage.Sees input ⟨n, loop, st ++ cur :: deep⟩ s) (hl : l = st.length) :
    (s.mBlobs l).Views input cur := by
  apply h.views
  rw [hl, List.getElem?_append_right (Nat.le_refl _), Nat.sub_self]
  rfl

/-- What a line hands out of a value. -/
def delivered (obj : Asn1Object) {tag : UInt8} (t : Tlv tag) : List UInt8 :=
  if obj.has ASN1_RAW || obj.has ASN1_OBJ then t.bytes else if obj.has ASN1_BODY then t.body else []

/-- The cursors behind a value that was taken off a level. -/
def taken (s : Asn1Parser) (level : Nat) (rest body : Cursor) : Asn1Parser :=
  { s with mBlobs := Function.update (Function.update s.mBlobs level rest) (level + 1) body }

/-- Taking an object writes its level and the one below. -/
theorem taken_mBlobs (s : Asn1Parser) (level : Nat) (rest body : Cursor) :
    (taken s level rest body).mBlobs =
    Function.update (Function.update s.mBlobs level rest) (level + 1) body := rfl

/-- The cursor of a level is behind the value, the next one on its contents. -/
theorem taken_views {s : Asn1Parser} {st deep : List (List UInt8)} {cur rest body : List UInt8}
    {rc bc : Cursor}
    (hs : ∀ k bs, (st ++ cur :: deep)[k]? = some bs → (s.mBlobs k).Views input bs)
    (hr : rc.Views input rest) (hb : bc.Views input body) :
    ∀ k bs, (st ++ [rest, body])[k]? = some bs →
      ((taken s st.length rc bc).mBlobs k).Views input bs := by
  intro k bs hk
  rcases Nat.lt_trichotomy k st.length with hlt | heq | hgt
  · rw [List.getElem?_append_left hlt] at hk
    rw [taken_mBlobs, Function.update_of_ne (by omega), Function.update_of_ne (by omega)]
    apply hs
    rw [List.getElem?_append_left hlt]
    exact hk
  · subst heq
    rw [List.getElem?_append_right (Nat.le_refl _), Nat.sub_self] at hk
    obtain rfl : rest = bs := Option.some.inj hk
    rw [taken_mBlobs, Function.update_of_ne (by omega), Function.update_self]
    exact hr
  · have hlen := (List.getElem?_eq_some_iff.mp hk).1
    simp only [List.length_append, List.length_cons, List.length_nil] at hlen
    obtain rfl : k = st.length + 1 := by omega
    rw [List.getElem?_append_right (by omega), Nat.add_sub_cancel_left] at hk
    obtain rfl : body = bs := Option.some.inj hk
    rw [taken_mBlobs, Function.update_self]
    exact hb

variable (objects i) in
/-- **A value is taken off**: the cursors of what is left and of the contents, and the object.  A
    RAW line takes any value. -/
theorem parseObject_value (hsize : input.length < 2 ^ 32) {s : Asn1Parser} {tag : UInt8}
    (t : Tlv tag) {rest : List UInt8}
    (hview : (s.mBlobs obj.level).Views input (t.bytes ++ rest))
    (hchoice : obj.has ASN1_CHOICE = false) :
    ∃ rc bc oc : Cursor, rc.Views input rest ∧ bc.Views input t.body ∧ oc.bytes input = t.bytes ∧
      s.parseObject objects input i obj =
        if obj.has ASN1_RAW then .ok ((taken s obj.level rc bc).finish i oc)
        else if s.wrongType i obj tag then .ok ((taken s obj.level rc bc).fail i)
        else (taken s obj.level rc bc).typedObject objects i obj oc bc := by
  obtain ⟨pre, post, hin, hblob⟩ := hview.at_of_ne_nil
    (by rw [Tlv.bytes_cons]; exact List.cons_ne_nil _ _)
  have hinlen := congrArg List.length hin
  simp only [List.length_append] at hinlen
  have hbytes : t.bytes.length = t.header.length + t.body.length := List.length_append
  have hheader : 2 ≤ t.header.length := t.two_le_header
  have hvalid : t.body.length ≠ ASN1_INVALID_LENGTH := by
    unfold ASN1_INVALID_LENGTH
    omega
  -- the length is read, and the two cursors behind it are known
  have hread := asn1Length_tlv t hin (by omega)
  have hadvance := advance_at (pre ++ t.header) t.body rest
  have htagRead : Cursor.read input ⟨some pre.length, (t.bytes ++ rest).length⟩ 0 = .ok tag :=
    read_at hin 0 rfl
  refine ⟨⟨some (pre ++ t.header ++ t.body).length, rest.length⟩,
    ⟨some (pre ++ t.header).length, t.body.length⟩,
    ⟨some pre.length, t.bytes.length⟩, ?_, ?_, ?_, ?_⟩
  · apply Cursor.Views.at _ _ post
    rw [hin, Tlv.bytes]; simp only [List.append_assoc]
  · apply Cursor.Views.at _ _ (rest ++ post)
    rw [hin, Tlv.bytes]; simp only [List.append_assoc]
  · apply Cursor.Views.bytes
    apply Cursor.Views.at _ _ (rest ++ post)
    rw [hin]; simp only [List.append_assoc]
  · have hupTo : Cursor.upTo ⟨some pre.length, (t.bytes ++ rest).length⟩
        ⟨some (pre ++ t.header ++ t.body).length, rest.length⟩ = ⟨some pre.length,
          t.bytes.length⟩ := by
      simp only [Cursor.upTo, List.length_append, hbytes]
      congr 1; omega
    rw [parseObject]
    simp only [hblob]
    rw [if_neg (by simp only [List.length_append]; omega), hread, Run.ok_bind]
    simp only []
    rw [if_neg hvalid, hadvance, Run.ok_bind]
    simp only [hchoice, Bool.false_and, Bool.false_eq_true, if_false, hupTo, htagRead, Run.ok_bind]
    rfl

variable (objects i) in
/-- A value with the tag of the line. -/
theorem parseObject_tlv (hsize : input.length < 2 ^ 32) {s : Asn1Parser} {tag : UInt8} (t : Tlv tag)
    {rest : List UInt8}
    (hview : (s.mBlobs obj.level).Views input (t.bytes ++ rest))
    (hchoice : obj.has ASN1_CHOICE = false)
    (htag : obj.has ASN1_RAW = true ∨ tag.toNat = obj.type) :
    ∃ rc bc oc : Cursor, rc.Views input rest ∧ bc.Views input t.body ∧ oc.bytes input = t.bytes ∧
      s.parseObject objects input i obj =
        if obj.has ASN1_RAW then .ok ((taken s obj.level rc bc).finish i oc)
        else (taken s obj.level rc bc).typedObject objects i obj oc bc := by
  obtain ⟨rc, bc, oc, hr, hb, ho, hparse⟩ := parseObject_value objects i hsize t hview hchoice
  refine ⟨rc, bc, oc, hr, hb, ho, ?_⟩
  rw [hparse]
  split
  · rfl
  · next hraw =>
    have hmatch : s.wrongType i obj tag = false := by
      unfold wrongType
      rw [htag.resolve_left hraw, bne_self_eq_false, Bool.false_and]
    rw [hmatch, if_neg Bool.false_ne_true]

/-! ## Lines -/

/-- A line on which a value with this tag is taken off. -/
structure ItemLine (obj : Asn1Object) (tag : UInt8) : Prop where
  level : obj.level ≤ ASN1_MAX_LEVEL
  choice : obj.has ASN1_CHOICE = false
  rawLoop : (obj.has ASN1_RAW && obj.has ASN1_LOOP) = false
  typed : tag.toNat = obj.type ∨ (obj.has ASN1_RAW && !obj.has ASN1_DEF && !obj.has ASN1_OPT) = true

/-- A line of the table is found. -/
theorem lineAt_ok (h : objects[i]? = some obj) : lineAt objects i = .ok obj := by
  unfold lineAt
  rw [h]

/-- A level up to the highest one lies in the arrays. -/
theorem inArrays_ok (h : obj.level ≤ ASN1_MAX_LEVEL) : inArrays obj = .ok () := by
  unfold inArrays
  rw [if_pos h]

/-- A value with the tag of the line is there. -/
theorem missing_tlv {s : Asn1Parser} {tag : UInt8} (t : Tlv tag) {rest : List UInt8}
    (hview : (s.mBlobs obj.level).Views input (t.bytes ++ rest)) (hitem : ItemLine obj tag) :
    s.missing input obj = .ok false := by
  unfold missing
  split
  · next hflag =>
    have htype : tag.toNat = obj.type := by
      rcases hitem.typed with h | h
      · exact h
      · simp only [Bool.and_eq_true, Bool.not_eq_true'] at h
        rw [h.1.2, h.2] at hflag
        nomatch hflag
    obtain ⟨pre, post, hin, hblob⟩ := hview.at_of_ne_nil
      (by rw [Tlv.bytes_cons]; exact List.cons_ne_nil _ _)
    rw [absent, hblob, if_neg (by rw [Tlv.bytes_cons]; simp), read_at hin 0 (b := tag) rfl,
      Run.ok_bind, htype]
    simp
  · rfl

/-- The level is used up, or another tag stands there. -/
theorem absent_head {s : Asn1Parser} {cur : List UInt8}
    (hview : (s.mBlobs obj.level).Views input cur)
    (hhead : ∀ b ∈ cur.head?, b.toNat ≠ obj.type) :
    absent input (s.mBlobs obj.level) obj = .ok true := by
  unfold absent
  cases cur with
  | nil => rw [if_pos (by rw [hview.len]; rfl)]
  | cons b bs =>
    obtain ⟨pre, post, hin, hblob⟩ := hview.at_of_ne_nil (List.cons_ne_nil b bs)
    have hb : b.toNat ≠ obj.type := hhead b rfl
    rw [hblob, if_neg (by simp), read_at hin 0 (b := b) rfl, Run.ok_bind]
    simp [hb]

/-- A line without choice delivers what it asks for, the object or its body. -/
theorem typedObject_item {s : Asn1Parser} {object body : Cursor}
    (hchoice : obj.has ASN1_CHOICE = false)
    (hloop : obj.has ASN1_LOOP = true → body.len ≠ 0) :
    s.typedObject objects i obj object body = .ok ((s.startLoop i obj).finish i
      (if obj.has ASN1_OBJ then object else if obj.has ASN1_BODY then body else .null)) := by
  have hempty : ¬ (obj.has ASN1_LOOP && body.len == 0) = true := by
    intro h
    simp only [Bool.and_eq_true, beq_iff_eq] at h
    exact hloop h.1 h.2
  unfold typedObject startChoice
  rw [if_neg hempty]
  simp only [hchoice, Bool.false_and, Bool.false_eq_true, if_false]

/-- What `finish` delivers in a parser without a failure. -/
theorem finish_eq {s : Asn1Parser} {line : Nat} {object : Cursor} (h : s.mSuccess = true) :
    s.finish line object = ({ s with mLine := line }, ⟨true, some line, object⟩) := by
  unfold finish
  rw [h]

/-- And the stage that the parser is in behind it. -/
theorem sees_finish {s : Asn1Parser} {line : Nat} {stack : List (List UInt8)}
    (hs : s.mSuccess = true)
    (hl : s.mLoopAddr = loop) (hv : ∀ k bs, stack[k]? = some bs → (s.mBlobs k).Views input bs) :
    Stage.Sees input ⟨line + 1, loop, stack⟩ { s with mLine := line } :=
  ⟨rfl, hs, hl, hv⟩

/-- The stage behind a line that took `t` off. -/
def behind (obj : Asn1Object) (i : Nat) (loop : Nat → Nat) (st : List (List UInt8)) {tag : UInt8}
    (t : Tlv tag)
    (rest : List UInt8) : Stage :=
  ⟨i + 1, if obj.has ASN1_LOOP then Function.update loop st.length (i + 1) else loop,
    st ++ [rest, t.body]⟩

variable (objects i) in
/-- A line with its value, reached from the line before it or by a jump back, takes the value
    off. -/
theorem parseLine_taken (hsize : input.length < 2 ^ 32) {s : Asn1Parser} {n : Nat}
    {st deep : List (List UInt8)}
    {tag : UInt8} (t : Tlv tag) {rest : List UInt8} (hlevel : obj.level = st.length)
    (hitem : ItemLine obj tag)
    (hs : Stage.Sees input ⟨n, loop, st ++ (t.bytes ++ rest) :: deep⟩ s) :
    ∃ rc bc oc : Cursor, bc.Views input t.body ∧ oc.bytes input = t.bytes ∧
      (∀ k bs, (st ++ [rest, t.body])[k]? = some bs →
        ((taken s obj.level rc bc).mBlobs k).Views input bs) ∧
      s.parseLine objects input i obj =
        if obj.has ASN1_RAW then .ok ((taken s obj.level rc bc).finish i oc)
        else (taken s obj.level rc bc).typedObject objects i obj oc bc := by
  have hview := hs.top hlevel
  have htag : obj.has ASN1_RAW = true ∨ tag.toNat = obj.type := by
    rcases hitem.typed with h | h
    · exact .inr h
    · simp only [Bool.and_eq_true] at h
      exact .inl h.1.1
  obtain ⟨rc, bc, oc, hr, hb, ho, hparse⟩ :=
    parseObject_tlv objects i hsize t hview hitem.choice htag
  have hviews := taken_views hs.views hr hb
  rw [← hlevel] at hviews
  refine ⟨rc, bc, oc, hb, ho, hviews, ?_⟩
  rw [← hparse]
  unfold parseLine
  rw [inArrays_ok hitem.level, Run.ok_bind, missing_tlv t hview hitem, Run.ok_bind]
  simp only [Bool.and_false, Bool.false_eq_true, if_false]

variable (objects i) in
/-- **A line meets its object**: it is delivered and the walk goes on behind it. -/
theorem parseLine_tlv (hsize : input.length < 2 ^ 32) {s : Asn1Parser} {n : Nat}
    {st deep : List (List UInt8)}
    {tag : UInt8} (t : Tlv tag) {rest : List UInt8} (hlevel : obj.level = st.length)
    (hitem : ItemLine obj tag)
    (hloop : obj.has ASN1_LOOP = true → t.body ≠ [])
    (hs : Stage.Sees input ⟨n, loop, st ++ (t.bytes ++ rest) :: deep⟩ s) :
    ∃ s' oc, s.parseLine objects input i obj = .ok (s', ⟨true, some i, oc⟩) ∧
    oc.bytes input = delivered obj t ∧
      (behind obj i loop st t rest).Sees input s' := by
  obtain ⟨rc, bc, oc, hb, ho, hviews, hparse⟩ := parseLine_taken objects i hsize t hlevel hitem hs
  rw [hparse]
  -- a RAW line hands out the object as it is, another one goes on with its type
  rcases Bool.eq_false_or_eq_true (obj.has ASN1_RAW) with hraw | hraw
  · have hnoloop : obj.has ASN1_LOOP = false := by
      have := hitem.rawLoop
      rwa [hraw, Bool.true_and] at this
    rw [if_pos hraw]
    refine ⟨_, oc, congrArg Except.ok (finish_eq hs.success), ?_, ?_⟩
    · rw [delivered, hraw, ho]
      rfl
    · unfold behind
      rw [hnoloop]
      exact sees_finish hs.success hs.loop hviews
  · rw [if_neg (ne_true_of_eq_false hraw), typedObject_item hitem.choice (by
      intro h
      rw [hb.len]
      exact fun h0 => hloop h (List.length_eq_zero_iff.mp h0))]
    have hstart : ((taken s obj.level rc bc).startLoop i obj).mSuccess = true := by
      unfold startLoop
      split <;> exact hs.success
    refine ⟨_, _, congrArg Except.ok (finish_eq hstart), ?_, ?_⟩
    · unfold delivered
      rw [hraw, Bool.false_or]
      split
      · exact ho
      · split
        · exact hb.bytes
        · rfl
    · unfold behind startLoop
      split
      · refine ⟨rfl, hs.success, ?_, hviews⟩
        rw [← hlevel]
        exact congrArg (fun f => Function.update f obj.level (i + 1)) hs.loop
      · exact sees_finish hs.success hs.loop hviews

/-- The line comes next. -/
theorem Stage.Sees.next {a : Stage} {s : Asn1Parser} (h : a.Sees input s)
    (hline : objects[a.next]? = some obj)
    (hexit : obj.has ASN1_EXIT = false) :
    s.iterate objects input =
      if obj.has ASN1_END then do
        inArrays obj
        if s.mLoopAddr obj.level ≠ 0 ∧ 0 < (s.mBlobs (obj.level + 1)).len then do
          let line := s.mLoopAddr obj.level
          let obj ← lineAt objects line
          s.parseLine objects input line obj
        else s.endLine objects a.next obj
      else s.parseLine objects input a.next obj := by
  have hnext : (s.mLine + 1).toNat = a.next := by
    rw [h.line]
    exact Int.toNat_natCast _
  unfold iterate
  simp only [hnext, lineAt_ok hline, Run.ok_bind, hexit, Bool.false_eq_true, if_false]

/-- **The value of the next line is there.** It is taken off its level, its contents become the next
    level, and the line hands out the object or its body as its flags ask. -/
theorem leads_tlv (hsize : input.length < 2 ^ 32) (hline : objects[i]? = some obj)
    (st : List (List UInt8))
    {deep : List (List UInt8)} {tag : UInt8} (t : Tlv tag) (rest : List UInt8)
    (hlevel : obj.level = st.length) (hitem : ItemLine obj tag)
    (hplain : (obj.has ASN1_EXIT || obj.has ASN1_END) = false)
    (hloop : obj.has ASN1_LOOP = true → t.body ≠ []) :
    Leads objects input ⟨i, loop, st ++ (t.bytes ++ rest) :: deep⟩ [(some i, delivered obj t)]
      (behind obj i loop st t rest) := by
  rw [Bool.or_eq_false_iff] at hplain
  apply Emit.Leads.one
  intro s hs
  obtain ⟨s', oc, hparse, hbytes, hsees⟩ := parseLine_tlv objects i hsize t hlevel hitem hloop hs
  refine ⟨s', ⟨⟨true, some i, oc⟩, ?_, rfl, by rw [← hbytes]⟩, hsees⟩
  rw [hs.next hline hplain.1, if_neg (ne_true_of_eq_false hplain.2)]
  exact hparse

/-- The last value of its level: the same line with nothing left behind the value. -/
theorem leads_last (hsize : input.length < 2 ^ 32) (hline : objects[i]? = some obj)
    (st : List (List UInt8))
    {deep : List (List UInt8)} {tag : UInt8} (t : Tlv tag) (hlevel : obj.level = st.length)
    (hitem : ItemLine obj tag)
    (hplain : (obj.has ASN1_EXIT || obj.has ASN1_END) = false)
    (hloop : obj.has ASN1_LOOP = true → t.body ≠ []) :
    Leads objects input ⟨i, loop, st ++ t.bytes :: deep⟩ [(some i, delivered obj t)]
    (behind obj i loop st t []) := by
  rw [← List.append_nil t.bytes]
  exact leads_tlv hsize hline st t [] hlevel hitem hplain hloop

/-- **A loop has no items**: its value is there with an empty body, and the walk goes on to the line
    that closes it. -/
theorem leads_loopEmpty (hsize : input.length < 2 ^ 32) (hline : objects[i]? = some obj)
    (st : List (List UInt8))
    {deep : List (List UInt8)} {tag : UInt8} (t : Tlv tag) (rest : List UInt8)
    (hlevel : obj.level = st.length)
    (hitem : ItemLine obj tag) (hplain : (obj.has ASN1_EXIT || obj.has ASN1_END) = false)
    (hloop : obj.has ASN1_LOOP = true) (hbody : t.body = []) {m : Nat}
    (hend : nextLine objects (isEnd obj.level) i = some m) :
    Leads objects input ⟨i, loop, st ++ (t.bytes ++ rest) :: deep⟩ [(some m, [])]
    ⟨m + 1, loop, st ++ [rest, []]⟩ := by
  rw [Bool.or_eq_false_iff] at hplain
  have hraw : obj.has ASN1_RAW = false := by
    have := hitem.rawLoop
    rwa [hloop, Bool.and_true] at this
  apply Emit.Leads.one
  intro s hs
  obtain ⟨rc, bc, oc, hb, ho, hviews, hparse⟩ := parseLine_taken objects i hsize t hlevel hitem hs
  rw [hbody] at hviews
  refine ⟨{ taken s obj.level rc bc with mLine := m }, ⟨⟨true, some m, .null⟩, ?_, rfl, rfl⟩,
    sees_finish hs.success hs.loop hviews⟩
  rw [hs.next hline hplain.1, if_neg (ne_true_of_eq_false hplain.2)]
  simp only []
  rw [hparse, if_neg (ne_true_of_eq_false hraw)]
  unfold typedObject
  rw [hloop, hb.len, hbody]
  simp only [List.length_nil, beq_self_eq_true, Bool.and_self, if_true]
  rw [search, hend, Run.ok_bind]
  exact congrArg Except.ok (finish_eq hs.success)

/-- **A loop goes round again**: something is left on the level of its END line, so the call jumps
    back and takes the first line of another turn. -/
theorem leads_again (hsize : input.length < 2 ^ 32) {e : Asn1Object} {k : Nat}
    (hend : objects[k]? = some e)
    (hplain : (!e.has ASN1_EXIT && e.has ASN1_END) = true) (helevel : e.level ≤ ASN1_MAX_LEVEL)
    (hline : objects[i]? = some obj) (hback : loop e.level = i) (hi : i ≠ 0)
    (hnext : obj.level = e.level + 1)
    (st : List (List UInt8)) {deep : List (List UInt8)} {tag : UInt8} (t : Tlv tag)
    (rest : List UInt8)
    (hlevel : obj.level = st.length) (hitem : ItemLine obj tag)
    (hloop : obj.has ASN1_LOOP = true → t.body ≠ []) :
    Leads objects input ⟨k, loop, st ++ (t.bytes ++ rest) :: deep⟩ [(some i, delivered obj t)]
      (behind obj i loop st t rest) := by
  simp only [Bool.and_eq_true, Bool.not_eq_true'] at hplain
  apply Emit.Leads.one
  intro s hs
  obtain ⟨s', oc, hparse, hbytes, hsees⟩ := parseLine_tlv objects i hsize t hlevel hitem hloop hs
  refine ⟨s', ⟨⟨true, some i, oc⟩, ?_, rfl, by rw [← hbytes]⟩, hsees⟩
  have hback' : s.mLoopAddr e.level = i := by rw [hs.loop]; exact hback
  have hleft : 0 < (s.mBlobs (e.level + 1)).len := by
    rw [← hnext, (hs.top hlevel).len, Tlv.bytes_cons]
    exact Nat.zero_lt_succ _
  rw [hs.next hend hplain.1, if_pos hplain.2, inArrays_ok helevel, Run.ok_bind, hback',
    if_pos ⟨hi, hleft⟩]
  simp only []
  rw [lineAt_ok hline]
  exact hparse

/-- **An option or a loop ends.** Nothing is left on its level; the call delivers no object and
    forgets the jump back address. -/
theorem leads_end (hline : objects[i]? = some obj)
    (hplain : (!obj.has ASN1_EXIT && obj.has ASN1_END) = true)
    (hchoices : (obj.has ASN1_CHOICE || obj.has ASN1_CH) = false)
    (hlevel : obj.level ≤ ASN1_MAX_LEVEL)
    (stack : List (List UInt8)) (hover : loop obj.level = 0 ∨ stack[obj.level + 1]? = some []) :
    Leads objects input ⟨i, loop, stack⟩ [(some i, [])] ⟨i + 1, Function.update loop obj.level 0,
      stack⟩ := by
  simp only [Bool.and_eq_true, Bool.not_eq_true'] at hplain
  rw [Bool.or_eq_false_iff] at hchoices
  apply Emit.Leads.one
  intro s hs
  have hexit : ¬ (s.mLoopAddr obj.level ≠ 0 ∧ 0 < (s.mBlobs (obj.level + 1)).len) := by
    rintro ⟨hne, hlt⟩
    rcases hover with h | h
    · rw [hs.loop] at hne
      exact hne h
    · rw [(hs.views _ _ h).len] at hlt
      nomatch hlt
  refine ⟨{ s with mLine := i, mLoopAddr := Function.update s.mLoopAddr obj.level 0 },
    ⟨⟨true, some i, .null⟩, ?_, rfl, rfl⟩, ?_⟩
  · rw [hs.next hline hplain.1, if_pos hplain.2, inArrays_ok hlevel, Run.ok_bind, if_neg hexit]
    unfold endLine finish
    simp only [hchoices.1, hchoices.2, Bool.false_and, Bool.false_eq_true, if_false, hs.success]
  · refine ⟨rfl, hs.success, ?_, hs.views⟩
    exact congrArg (fun f => Function.update f obj.level 0) hs.loop

/-- **A DEFAULT field is missing**; a constructed one has one more line, for its contents, and both
    are passed. -/
theorem leads_default (hline : objects[i]? = some obj)
    (hplain : (obj.has ASN1_EXIT || obj.has ASN1_END) = false)
    (hdef : obj.has ASN1_DEF = true) (st : List (List UInt8)) {deep : List (List UInt8)}
    {cur : List UInt8}
    (hlevel : obj.level = st.length) (hmax : obj.level ≤ ASN1_MAX_LEVEL)
    (hhead : ∀ b ∈ cur.head?, b.toNat ≠ obj.type) :
    let m := if obj.type &&& ASN1_PARSER_CONSTRUCTED ≠ 0 then i + 1 else i
    Leads objects input ⟨i, loop, st ++ cur :: deep⟩ [(some m, [])]
      ⟨m + 1, loop, st ++ cur :: deep⟩ := by
  intro m
  rw [Bool.or_eq_false_iff] at hplain
  apply Emit.Leads.one
  intro s hs
  have hview := hs.top hlevel
  refine ⟨{ s with mLine := m }, ⟨⟨true, some m, .null⟩, ?_, rfl, rfl⟩,
    sees_finish hs.success hs.loop hs.views⟩
  rw [hs.next hline hplain.1, if_neg (ne_true_of_eq_false hplain.2)]
  unfold parseLine missing
  rw [inArrays_ok hmax, Run.ok_bind, hdef, Bool.true_or, if_pos rfl, absent_head hview hhead,
    Run.ok_bind,
    finish_eq hs.success]
  rfl

/-- **An option is missing**: on to the line that closes it, with nothing taken off. -/
theorem leads_option (hline : objects[i]? = some obj)
    (hplain : (obj.has ASN1_EXIT || obj.has ASN1_END) = false)
    (hopt : (!obj.has ASN1_DEF && obj.has ASN1_OPT) = true) {m : Nat}
    (hend : nextLine objects (isEnd obj.level) i = some m)
    (st : List (List UInt8)) {deep : List (List UInt8)} {cur : List UInt8}
    (hlevel : obj.level = st.length)
    (hmax : obj.level ≤ ASN1_MAX_LEVEL) (hhead : ∀ b ∈ cur.head?, b.toNat ≠ obj.type) :
    Leads objects input ⟨i, loop, st ++ cur :: deep⟩ [(some m, [])]
    ⟨m + 1, loop, st ++ cur :: deep⟩ := by
  rw [Bool.or_eq_false_iff] at hplain
  simp only [Bool.and_eq_true, Bool.not_eq_true'] at hopt
  apply Emit.Leads.one
  intro s hs
  have hview := hs.top hlevel
  refine ⟨{ s with mLine := m }, ⟨⟨true, some m, .null⟩, ?_, rfl, rfl⟩,
    sees_finish hs.success hs.loop hs.views⟩
  rw [hs.next hline hplain.1, if_neg (ne_true_of_eq_false hplain.2)]
  unfold parseLine missing
  rw [inArrays_ok hmax, Run.ok_bind, hopt.1, hopt.2, Bool.or_true, if_pos rfl,
    absent_head hview hhead, Run.ok_bind]
  simp only [Bool.false_and, Bool.and_self, Bool.false_eq_true, if_false, if_true]
  rw [search, hend, Run.ok_bind, finish_eq hs.success]

end Lines

end Asn1

end StevenProgram
