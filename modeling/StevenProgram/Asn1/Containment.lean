/-
  Nothing outside the blob is read, for every table and every input.

  The input decides how deep the walk goes, how often a loop turns and how long every object claims
  to be; the table decides which line comes next.  Both can drive a cursor or an index out of its
  range, so the statement needs a condition on the table and a proof about the input.

  1.  **Tables** — `SyntaxTable` is what a table has to satisfy for the searches of `iterate` to
     end; `StrictTable` adds that no line jumps over the last one: no constructed DEFAULT field
     stands right before it, and it closes no option and no loop.

  2.  **Cursors** — `Inside`: a sub-range of the input.  `asn1Length_inside` is the only place where
     lengths come from the input; what it returns fits into what is left.

  3.  **Calls** — `Inv` between two calls, `Delivered` of one call.  One lemma for each function of
     the parser, `iterate_delivered` on top.

  4.  **Headline** (`iterate_contained`) — every call of every run succeeds as a computation: no
     fault, all cursors inside, the object inside.  `iterate_leaves_table` is the run of a table
     that is not strict.

  The crux is that a length is compared with what is left before the contents are cut off, so a
  length that lies can only end the parse.
-/
import StevenProgram.Lib.TransSys
import StevenProgram.Asn1.Parser

namespace StevenProgram

open Asn1 Asn1Parser

/-! ## Tables

  `iterate` looks forward through the table for an END line and does not test for its end.  What
  follows is the condition under which each of these searches has something to find. -/

/-- Levels have cursors, the table ends in an EXIT line, and every forward search finds its line. -/
structure SyntaxTable (objects : List Asn1Object) : Prop where
  level : ∀ i, (h : i < objects.length) → objects[i].level ≤ ASN1_MAX_LEVEL
  exit : ∃ obj ∈ objects.getLast?, obj.has ASN1_EXIT = true
  closes : ∀ i, (h : i < objects.length) → objects[i].has ASN1_EXIT = false →
    (objects[i].has ASN1_OPT = true ∨ objects[i].has ASN1_LOOP = true) →
    (nextLine objects (isEnd objects[i].level) i).isSome = true
  choices : ∀ i, (h : i < objects.length) → objects[i].has ASN1_EXIT = false →
    objects[i].has ASN1_END = true → objects[i].has ASN1_CH = true →
    (nextLine objects (isEndChoices objects[i].level) i).isSome = true

/-- And no line jumps over the last one. -/
structure StrictTable (objects : List Asn1Object) : Prop extends SyntaxTable objects where
  closesBefore : ∀ i, (h : i < objects.length) → objects[i].has ASN1_EXIT = false →
    (objects[i].has ASN1_OPT = true ∨ objects[i].has ASN1_LOOP = true) →
    ∀ m ∈ nextLine objects (isEnd objects[i].level) i, m + 1 < objects.length
  skips : ∀ i, (h : i < objects.length) → objects[i].has ASN1_EXIT = false →
    objects[i].has ASN1_DEF = true →
    objects[i].type &&& ASN1_PARSER_CONSTRUCTED ≠ 0 → i + 2 < objects.length

/-- The line exists and is not an EXIT line. -/
def NotExit (objects : List Asn1Object) (i : Nat) : Prop :=
  ∃ obj, objects[i]? = some obj ∧ obj.has ASN1_EXIT = false

section Tables

variable {objects : List Asn1Object}

/-- A search ends behind the line it starts at, inside the table. -/
theorem nextLine_lt {p : Asn1Object → Bool} {line m : Nat} (h : nextLine objects p line = some m) :
    line < m ∧ m < objects.length := by
  obtain ⟨k, hk, rfl⟩ := Option.map_eq_some_iff.mp h
  obtain ⟨hlt, -⟩ := List.findIdx?_eq_some_iff_getElem.mp hk
  rw [List.length_drop] at hlt
  omega

/-- A search that has a line to find runs without a fault. -/
theorem search_ok {p : Asn1Object → Bool} {line : Nat}
    (h : (nextLine objects p line).isSome = true) :
    ∃ m, nextLine objects p line = some m ∧ search objects p line = .ok m := by
  obtain ⟨m, hm⟩ := Option.isSome_iff_exists.mp h
  exact ⟨m, hm, by rw [search, hm]⟩

/-- A line that is not EXIT is not the last, since the last one is EXIT. -/
theorem SyntaxTable.notExit_lt (ht : SyntaxTable objects) {i : Nat} (h : NotExit objects i) :
    i + 1 < objects.length := by
  obtain ⟨obj, ho, hx⟩ := h
  obtain ⟨last, hl, hlx⟩ := ht.exit
  have hi := (List.getElem?_eq_some_iff.mp ho).1
  rcases Nat.lt_or_ge (i + 1) objects.length with hlt | hge
  · exact hlt
  · rw [List.getLast?_eq_getElem?, show objects.length - 1 = i from by omega, ho] at hl
    cases hl
    rw [hx] at hlx; nomatch hlx

/-- A line that is in the table, with what the table says of it. -/
theorem StrictTable.line (ht : StrictTable objects) {line : Nat} {obj : Asn1Object}
    (ho : objects[line]? = some obj)
    (hx : obj.has ASN1_EXIT = false) :
    line + 1 < objects.length ∧ obj.level ≤ ASN1_MAX_LEVEL ∧
    ((obj.has ASN1_OPT = true ∨ obj.has ASN1_LOOP = true) →
      ∃ m, search objects (isEnd obj.level) line = .ok m ∧ m + 1 < objects.length) ∧
    (obj.has ASN1_END = true → obj.has ASN1_CH = true →
      ∃ m, search objects (isEndChoices obj.level) line = .ok m ∧ line < m ∧ m < objects.length) ∧
    (obj.has ASN1_DEF = true → obj.type &&& ASN1_PARSER_CONSTRUCTED ≠ 0 →
      line + 2 < objects.length) := by
  obtain ⟨hlt, rfl⟩ := List.getElem?_eq_some_iff.mp ho
  refine ⟨ht.notExit_lt ⟨_, ho, hx⟩, ht.level line hlt, fun h => ?_, fun h1 h2 => ?_,
    ht.skips line hlt hx⟩
  · obtain ⟨m, hm, hs⟩ := search_ok (ht.closes line hlt hx h)
    exact ⟨m, hs, ht.closesBefore line hlt hx h m hm⟩
  · obtain ⟨m, hm, hs⟩ := search_ok (ht.choices line hlt hx h1 h2)
    exact ⟨m, hs, nextLine_lt hm⟩

end Tables

/-! ## Cursors -/

namespace Asn1

/-- A sub-range of the input; an unset cursor is empty. -/
def Cursor.Inside (input : List UInt8) (c : Cursor) : Prop :=
  match c.ptr with
  | none => c.len = 0
  | some p => p + c.len ≤ input.length

variable {input : List UInt8}

/-- The null cursor lies in every input. -/
theorem Cursor.null_inside : Cursor.null.Inside input := rfl

/-- A cursor with bytes left has an address, and its bytes are those of the input. -/
theorem Cursor.Inside.of_pos {c : Cursor} (h : c.Inside input) (hl : 0 < c.len) :
    ∃ p, c = ⟨some p, c.len⟩ ∧ p + c.len ≤ input.length := by
  obtain ⟨ptr, len⟩ := c
  cases ptr with
  | none => exact absurd h (Nat.ne_of_gt hl)
  | some p => exact ⟨p, rfl, h⟩

/-- A read within the length of a cursor inside the input gives a byte. -/
theorem Cursor.read_ok {p len k : Nat} (h : p + len ≤ input.length) (hk : k < len) :
    ∃ b, Cursor.read input ⟨some p, len⟩ k = .ok b := by
  have hlt : p + k < input.length := by omega
  exact ⟨input[p + k], by rw [Cursor.read]; simp only []; rw [List.getElem?_eq_getElem hlt]⟩

/-- A step within the length moves both the address and the length. -/
theorem Cursor.advance_ok {p len k : Nat} (hk : k ≤ len) :
    Cursor.advance ⟨some p, len⟩ k = .ok ⟨some (p + k), len - k⟩ := by
  rw [Cursor.advance]; simp only []; rw [if_pos hk]

/-- The octets of a length are read without a fault where the cursor has that many, by induction on
    how many there are. -/
theorem lengthOctets_inside (input : List UInt8) :
    ∀ (n len p l : Nat), p + l ≤ input.length → n ≤ l →
    ∃ v, lengthOctets input n len ⟨some p, l⟩ = .ok (v, ⟨some (p + n), l - n⟩)
  | 0, len, p, l, _, _ => ⟨len, rfl⟩
  | n + 1, len, p, l, h, hn => by
      obtain ⟨b, hb⟩ := Cursor.read_ok h (show 0 < l by omega)
      obtain ⟨v, hv⟩ := lengthOctets_inside input n ((256 * len + b.toNat) % 2 ^ 32) (p + 1) (l - 1)
        (by omega) (by omega)
      refine ⟨v, ?_⟩
      rw [lengthOctets, hb, Run.ok_bind, Cursor.advance_ok (by omega), Run.ok_bind, hv,
        show p + 1 + n = p + (n + 1) by omega, show l - 1 - n = l - (n + 1) by omega]

/-- A call on a blob of two bytes at least, whose second byte is `n`. -/
theorem asn1Length_eq {p l : Nat} {n : UInt8} (hl : 2 ≤ l)
    (hread : Cursor.read input ⟨some p, l⟩ 1 = .ok n) :
    asn1Length input ⟨some p, l⟩ =
      if n &&& 0x80 = 0 then .ok (if l - 2 < n.toNat then ASN1_INVALID_LENGTH else n.toNat,
        ⟨some (p + 2), l - 2⟩)
      else if (n &&& 0x7f).toNat = 0 ∨ l - 2 < (n &&& 0x7f).toNat ∨ 4 < (n &&& 0x7f).toNat then
        .ok (ASN1_INVALID_LENGTH, ⟨some (p + 2), l - 2⟩)
      else lengthOctets input (n &&& 0x7f).toNat 0 ⟨some (p + 2), l - 2⟩ >>= fun r =>
        .ok (if r.2.len < r.1 then ASN1_INVALID_LENGTH else r.1, r.2) := by
  rw [asn1Length, if_neg (Nat.not_lt.mpr hl), hread, Run.ok_bind, Cursor.advance_ok hl, Run.ok_bind]
  simp only []
  by_cases h80 : n &&& 0x80 = 0
  · rw [if_pos h80, if_pos h80]
  · rw [if_neg h80, if_neg h80]
    by_cases hcount : (n &&& 0x7f).toNat = 0 ∨ l - 2 < (n &&& 0x7f).toNat
    · rw [if_pos hcount, if_pos (hcount.imp_right .inl)]
    · rw [if_neg hcount]
      by_cases hfour : 4 < (n &&& 0x7f).toNat
      · rw [if_pos hfour, if_pos (.inr (.inr hfour))]
      · rw [if_neg hfour, if_neg (fun h => (or_assoc.mpr h).elim hcount hfour)]

/-- **Lengths from the input.**  The cursor moves forward inside its range, and a length that is
    returned fits into what is left. -/
theorem asn1Length_inside {p l : Nat} (h : p + l ≤ input.length) (hl : 2 ≤ l) :
    ∃ v q m, asn1Length input ⟨some p, l⟩ = .ok (v, ⟨some q, m⟩) ∧ p ≤ q ∧ q + m = p + l ∧
      (v ≠ ASN1_INVALID_LENGTH → v ≤ m) := by
  have hfits : ∀ m len : Nat, (if m < len then ASN1_INVALID_LENGTH else len) ≠ ASN1_INVALID_LENGTH →
      (if m < len then ASN1_INVALID_LENGTH else len) ≤ m := by
    intro m len hv
    split at hv
    · exact absurd rfl hv
    · next hle =>
      rw [if_neg hle]
      exact Nat.le_of_not_lt hle
  obtain ⟨n, hn⟩ := Cursor.read_ok h (show 1 < l by omega)
  rw [asn1Length_eq hl hn]
  split
  · exact ⟨_, p + 2, l - 2, rfl, by omega, by omega, hfits _ _⟩
  · split
    · exact ⟨_, p + 2, l - 2, rfl, by omega, by omega, fun hv => absurd rfl hv⟩
    · next hcount =>
      obtain ⟨v, hv⟩ := lengthOctets_inside input (n &&& 0x7f).toNat 0 (p + 2) (l - 2) (by omega)
        (by omega)
      rw [hv, Run.ok_bind]
      exact ⟨_, p + 2 + (n &&& 0x7f).toNat, l - 2 - (n &&& 0x7f).toNat, rfl,
        by omega, by omega, hfits _ _⟩

end Asn1

/-! ## Calls -/

namespace Asn1Parser

section Calls

variable (objects : List Asn1Object) (input : List UInt8)

/-- Between two calls, as long as all returned `true`. -/
structure Inv (s : Asn1Parser) : Prop where
  success : s.mSuccess = true
  blobs : ∀ k, (s.mBlobs k).Inside input
  /-- the next line exists -/
  line : 0 ≤ s.mLine + 1 ∧ s.mLine + 1 < objects.length
  /-- a loop jumps to the next line or to one that is not EXIT -/
  loops : ∀ l, s.mLoopAddr l = 0 ∨ (s.mLoopAddr l : Int) = s.mLine + 1 ∨ NotExit objects
    (s.mLoopAddr l)

/-- After the EXIT test. -/
structure Ready (s : Asn1Parser) : Prop where
  success : s.mSuccess = true
  blobs : ∀ k, (s.mBlobs k).Inside input
  loops : ∀ l, s.mLoopAddr l = 0 ∨ NotExit objects (s.mLoopAddr l)

/-- The call has a result; its object is inside, and when it returns `true` the invariant holds. -/
def Delivered (r : Run (Asn1Parser × Iterated)) : Prop :=
  ∃ s d, r = .ok (s, d) ∧ d.object.Inside input ∧ (d.ret = true → s.Inv objects input)

end Calls

variable {objects : List Asn1Object} {input : List UInt8} {s : Asn1Parser}

/-- A line that ends with `finish` and stands before the last line keeps all that is asked of the
    parser. -/
theorem finish_delivered {line : Nat} {object : Cursor} (hs : s.mSuccess = true)
    (hb : ∀ k, (s.mBlobs k).Inside input) (hline : line + 1 < objects.length)
    (hl : ∀ l, s.mLoopAddr l = 0 ∨ s.mLoopAddr l = line + 1 ∨ NotExit objects (s.mLoopAddr l))
    (ho : object.Inside input) : Delivered objects input (.ok (s.finish line object)) := by
  refine ⟨_, _, rfl, ho, fun _ => ⟨hs, hb, ?_, fun l => ?_⟩⟩
  · show 0 ≤ (line : Int) + 1 ∧ (line : Int) + 1 < objects.length
    omega
  · rcases hl l with h | h | h
    · exact .inl h
    · exact .inr (.inl (by show (s.mLoopAddr l : Int) = line + 1; omega))
    · exact .inr (.inr h)

/-- A failed line delivers nothing. -/
theorem fail_delivered (line : Nat) : Delivered objects input (.ok (s.fail line)) :=
  ⟨_, _, rfl, Cursor.null_inside, fun h => nomatch h⟩

/-- The same from a parser that is ready for a line. -/
theorem Ready.finish (h : s.Ready objects input) {line : Nat} {object : Cursor}
    (hline : line + 1 < objects.length)
    (ho : object.Inside input) : Delivered objects input (.ok (s.finish line object)) :=
  finish_delivered h.success h.blobs hline (fun l => (h.loops l).imp_right .inr) ho

/-- `Ready` does not depend on `mChoice`, and survives new cursors that are inside. -/
theorem Ready.withBlobs (h : s.Ready objects input) {blobs : Nat → Cursor}
    (hb : ∀ k, (blobs k).Inside input)
    (choice : Nat → Bool) :
    ({ s with mBlobs := blobs, mChoice := choice } : Asn1Parser).Ready objects input :=
  ⟨h.success, hb, h.loops⟩

/-- One blob more inside the input leaves all blobs inside. -/
theorem update_inside {blobs : Nat → Cursor} (hb : ∀ k, (blobs k).Inside input) {c : Cursor}
    (hc : c.Inside input)
    (l : Nat) : ∀ k, (Function.update blobs l c k).Inside input := by
  intro k
  by_cases hk : k = l
  · rw [hk, Function.update_self]; exact hc
  · rw [Function.update_of_ne hk]; exact hb k

/-- A loop remembers the next line. -/
theorem startLoop_fields (h : s.Ready objects input) (line : Nat) (obj : Asn1Object) :
    (s.startLoop line obj).mSuccess = true ∧ (s.startLoop line obj).mBlobs = s.mBlobs ∧
    ∀ l, (s.startLoop line obj).mLoopAddr l = 0 ∨ (s.startLoop line obj).mLoopAddr l = line + 1 ∨
      NotExit objects ((s.startLoop line obj).mLoopAddr l) := by
  rw [startLoop]
  split
  · refine ⟨h.success, rfl, fun l => ?_⟩
    by_cases hl : l = obj.level
    · exact .inr (.inl (by rw [hl]; exact Function.update_self ..))
    · simp only [Function.update_of_ne hl]; exact (h.loops l).imp_right .inr
  · exact ⟨h.success, rfl, fun l => (h.loops l).imp_right .inr⟩

/-- The start of a choice writes none of the success, the blobs and the loops. -/
theorem startChoice_fields (s : Asn1Parser) (obj : Asn1Object) :
    (s.startChoice obj).mSuccess = s.mSuccess ∧ (s.startChoice obj).mBlobs = s.mBlobs ∧
    (s.startChoice obj).mLoopAddr = s.mLoopAddr := by
  rw [startChoice]; split <;> exact ⟨rfl, rfl, rfl⟩

/-- Whether an object is missing is found out without reading outside the input. -/
theorem missing_ok (h : s.Ready objects input) (obj : Asn1Object) :
    ∃ b, s.missing input obj = .ok b := by
  rw [missing]
  split
  · rw [absent]
    split
    · exact ⟨_, rfl⟩
    · obtain ⟨p, hp, hin⟩ := (h.blobs obj.level).of_pos (by omega)
      obtain ⟨tag, htag⟩ := Cursor.read_ok hin (show 0 < (s.mBlobs obj.level).len by omega)
      exact ⟨_, by rw [hp, htag]; rfl⟩
  · exact ⟨_, rfl⟩

section Line

variable (ht : StrictTable objects) {line : Nat} {obj : Asn1Object} (ho : objects[line]? = some obj)
  (hx : obj.has ASN1_EXIT = false) (h : s.Ready objects input)

include ht ho hx h

/-- The part of `iterate` behind the tag and the length. -/
theorem typedObject_delivered {object body : Cursor} (hobj : object.Inside input)
    (hbody : body.Inside input) :
    Delivered objects input (s.typedObject objects line obj object body) := by
  obtain ⟨hline, -, hclose, -, -⟩ := ht.line ho hx
  rw [typedObject]
  split
  · -- an empty loop ends at its END line
    rename_i hl
    obtain ⟨m, hm, hlt⟩ := hclose (.inr (by simp only [Bool.and_eq_true] at hl; exact hl.1))
    rw [hm]
    exact h.finish hlt Cursor.null_inside
  · simp only []
    have hout :
      (if obj.has ASN1_OBJ = true then object else if obj.has ASN1_BODY = true then body else
      .null).Inside
        input := by
      split
      · exact hobj
      · split
        · exact hbody
        · exact Cursor.null_inside
    split
    · exact fail_delivered line
    · obtain ⟨hsuc, hblobs, hloops⟩ := startLoop_fields h line obj
      obtain ⟨hsuc', hblobs', hloops'⟩ := startChoice_fields (s.startLoop line obj) obj
      refine finish_delivered (hsuc'.trans hsuc) (fun k => ?_) hline (fun l => ?_) hout
      · rw [hblobs', hblobs]; exact h.blobs k
      · rw [hloops']; exact hloops l

/-- The object of a line, from its tag on. -/
theorem parseObject_delivered : Delivered objects input (s.parseObject objects input line obj) := by
  obtain ⟨hline, -, -, -, -⟩ := ht.line ho hx
  rw [parseObject]
  simp only []
  split
  · exact fail_delivered line
  · rename_i hlen
    obtain ⟨p, hp, hin⟩ := (h.blobs obj.level).of_pos (by omega)
    generalize (s.mBlobs obj.level).len = l at hp hin hlen
    rw [hp]
    obtain ⟨v, q, m, hlength, hpq, hqm, hv⟩ := asn1Length_inside hin (by omega)
    rw [hlength, Run.ok_bind]
    simp only []
    split
    · exact fail_delivered line
    · rename_i hne
      have hv := hv hne
      rw [Cursor.advance_ok hv, Run.ok_bind]
      -- the three ranges the object is cut into
      have hblob : (⟨some p, l⟩ : Cursor).Inside input := hin
      have hbody : (⟨some q, v⟩ : Cursor).Inside input := by show q + v ≤ input.length; omega
      have hrest : (⟨some (q + v), m - v⟩ : Cursor).Inside input := by
        show q + v + (m - v) ≤ input.length; omega
      have hwhole : (Cursor.upTo ⟨some p, l⟩ ⟨some (q + v), m - v⟩).Inside input := by
        show p + (q + v - p) ≤ input.length; omega
      have hblobs := update_inside (update_inside h.blobs hrest obj.level) hbody (obj.level + 1)
      split
      · exact (h.withBlobs (update_inside hblobs hblob _) _).finish hline Cursor.null_inside
      · have hready := h.withBlobs hblobs s.mChoice
        split
        · exact hready.finish hline hwhole
        · obtain ⟨tag, htag⟩ := Cursor.read_ok hin (show 0 < l by omega)
          rw [htag, Run.ok_bind]
          split
          · exact fail_delivered line
          · exact typedObject_delivered ht ho hx hready hwhole hbody

/-- A line that is no END. -/
theorem parseLine_delivered : Delivered objects input (s.parseLine objects input line obj) := by
  obtain ⟨hline, hlevel, hclose, -, hskip⟩ := ht.line ho hx
  obtain ⟨missing, hm⟩ := missing_ok h obj
  rw [parseLine, inArrays, if_pos hlevel, Run.ok_bind, hm, Run.ok_bind]
  split
  · -- a missing default skips one line more when it is constructed
    rename_i hdef
    refine h.finish ?_ Cursor.null_inside
    split
    · exact hskip (by simp only [Bool.and_eq_true] at hdef; exact hdef.1) ‹_›
    · exact hline
  · split
    · rename_i hopt
      obtain ⟨m, hm, hlt⟩ := hclose (.inl (by simp only [Bool.and_eq_true] at hopt; exact hopt.1))
      rw [hm]
      exact h.finish hlt Cursor.null_inside
    · exact parseObject_delivered ht ho hx h

/-- An END line, where a loop or an optional part may go on. -/
theorem endLine_delivered (hend : obj.has ASN1_END = true) :
    Delivered objects input (s.endLine objects line obj) := by
  obtain ⟨hline, -, -, hch, -⟩ := ht.line ho hx
  have hready :
    ({ s with mLoopAddr := Function.update s.mLoopAddr obj.level 0 } : Asn1Parser).Ready objects
    input := by
    refine ⟨h.success, h.blobs, fun l => ?_⟩
    by_cases hl : l = obj.level
    · exact .inl (by rw [hl]; exact Function.update_self ..)
    · simp only [Function.update_of_ne hl]; exact h.loops l
  rw [endLine]
  simp only []
  split
  · exact fail_delivered line
  · split
    · rename_i hc
      obtain ⟨m, hm, hlt, hmN⟩ := hch hend hc
      rw [hm]
      exact (hready.withBlobs h.blobs _).finish (by omega) Cursor.null_inside
    · exact hready.finish hline Cursor.null_inside

end Line

/-- **One call.** From a parser that meets the invariant a call ends without a fault, delivers an
    object inside the input, and leaves a parser that meets the invariant.  The cases are those of
    `iterate`: EXIT, an END line that goes back to its loop, an END line that closes, and a line
    with an object. -/
theorem iterate_delivered (ht : StrictTable objects) (h : s.Inv objects input) :
    Delivered objects input (s.iterate objects input) := by
  obtain ⟨line, hline⟩ : ∃ line : Nat, s.mLine + 1 = line :=
    ⟨(s.mLine + 1).toNat, (Int.toNat_of_nonneg h.line.1).symm⟩
  have hlt : line < objects.length := by have := h.line; omega
  have hat : objects[line]? = some objects[line] := List.getElem?_eq_getElem hlt
  rw [iterate]
  simp only [hline, Int.toNat_natCast, lineAt, hat, Run.ok_bind]
  split
  · -- EXIT
    exact ⟨_, _, rfl, Cursor.null_inside, fun hr => nomatch hr⟩
  · rename_i hx
    have hx : objects[line].has ASN1_EXIT = false := by simpa using hx
    have hready : s.Ready objects input := by
      refine ⟨h.success, h.blobs, fun l => ?_⟩
      rcases h.loops l with hl | hl | hl
      · exact .inl hl
      · -- the next line, which is not EXIT
        exact .inr ⟨_, by rw [show s.mLoopAddr l = line by omega]; exact hat, hx⟩
      · exact .inr hl
    split
    · rename_i hend
      obtain ⟨-, hlevel, -⟩ := ht.line hat hx
      rw [inArrays, if_pos hlevel, Run.ok_bind]
      split
      · rename_i hloop
        rcases hready.loops objects[line].level with hl | ⟨obj, ho, hox⟩
        · exact absurd hl hloop.1
        · rw [ho, Run.ok_bind]
          exact parseLine_delivered ht ho hox hready
      · exact endLine_delivered ht hat hx hready hend
    · exact parseLine_delivered ht hat hx hready

/-! ## Runs of calls

  The caller goes on as long as `iterate` returns true.  The calls are a transition system, so what
  one call keeps holds of every parser that a run reaches. -/

/-- The calls of `iterate` up to the first that returns `false`. -/
def calls (objects : List Asn1Object) (input : List UInt8) (implicit : Bool) :
    TransSys Asn1Parser Unit where
  init := (new input).setFlags implicit
  step s _ :=
    match s.iterate objects input with
    | .ok (s', d) => if d.ret then some s' else none
    | .error _ => none

/-- A new parser meets the invariant: its only cursor is the whole blob, and it stands in front of
    the first line. -/
theorem inv_init (ht : SyntaxTable objects) (implicit : Bool) :
    ((new input).setFlags implicit).Inv objects input := by
  refine ⟨rfl, fun k => ?_, ?_, fun _ => .inl rfl⟩
  · show (if k = 0 then (⟨some 0, input.length⟩ : Cursor) else .null).Inside input
    split
    · show 0 + input.length ≤ input.length; omega
    · exact Cursor.null_inside
  · obtain ⟨obj, hobj, -⟩ := ht.exit
    have : 0 < objects.length := List.length_pos_of_mem (List.mem_of_getLast? hobj)
    show 0 ≤ (-1 : Int) + 1 ∧ (-1 : Int) + 1 < objects.length
    omega

/-- And so does every parser that calls of `iterate` reach, by induction on the calls. -/
theorem inv_reachable (ht : StrictTable objects) {implicit : Bool}
    (h : (calls objects input implicit).Reachable s) :
    s.Inv objects input := by
  refine TransSys.Runs.invariant (I := fun s => s.Inv objects input)
    (inv_init ht.toSyntaxTable implicit)
    (fun {s e s'} hi hs _ => ?_) h
  obtain ⟨s1, d, hr, -, hinv⟩ := iterate_delivered ht hi
  simp only [calls, hr] at hs
  split at hs
  · rename_i hret; cases hs; exact hinv hret
  · nomatch hs

/-- **Headline.**  Over a table in which no line jumps over the last, every call of every run, on
    every input, ends without a fault; until one returns `false` the cursors are sub-ranges of the
    input, and what each call delivers is one. -/
theorem iterate_contained (ht : StrictTable objects) (input : List UInt8) (implicit : Bool)
    {s : Asn1Parser}
    (h : (calls objects input implicit).Reachable s) :
    (∀ k, (s.mBlobs k).Inside input) ∧
    ∃ s' d, s.iterate objects input = .ok (s', d) ∧ d.object.Inside input ∧
      (d.ret = true → ∀ k, (s'.mBlobs k).Inside input) := by
  have hi := inv_reachable ht h
  obtain ⟨s', d, hr, ho, hinv⟩ := iterate_delivered ht hi
  exact ⟨hi.blobs, s', d, hr, ho, fun hret => (hinv hret).blobs⟩

/-- A SEQUENCE and the end, on an empty SEQUENCE. -/
theorem iterate_contained_sequence :
    (∀ k, ((new [0x30, 0x00]).mBlobs k).Inside [0x30, 0x00]) ∧
    ∃ s' d, (new [0x30, 0x00]).iterate [⟨0, ASN1_PARSER_SEQUENCE, ASN1_OBJ⟩,
      ⟨0, ASN1_PARSER_EOC, ASN1_EXIT⟩] [0x30, 0x00]
        = .ok (s', d) ∧ d.object.Inside [0x30, 0x00] ∧
        (d.ret = true → ∀ k, (s'.mBlobs k).Inside [0x30, 0x00]) :=
  iterate_contained (s := new [0x30, 0x00]) ⟨⟨by decide, ⟨_, rfl, rfl⟩, by decide, by decide⟩,
    by decide, by decide⟩
    [0x30, 0x00] false .init

/-- **Over the last line**: a constructed DEFAULT field right before the EXIT line, on the empty
    blob. The first call skips the EXIT line with the field's tag; the second reads behind the
    table. -/
theorem iterate_leaves_table :
    ¬ ∀ (objects : List Asn1Object) (input : List UInt8) (implicit : Bool), SyntaxTable objects →
      ∀ s, (calls objects input implicit).Reachable s →
        (∀ k, (s.mBlobs k).Inside input) ∧
        ∃ s' d, s.iterate objects input = .ok (s', d) ∧ d.object.Inside input ∧
          (d.ret = true → ∀ k, (s'.mBlobs k).Inside input) := by
  intro h
  have hreach :
    (calls [⟨0, ASN1_PARSER_CONTEXT_C_0, ASN1_DEF⟩, ⟨0, ASN1_PARSER_EOC, ASN1_EXIT⟩]
    [] false).Reachable _ :=
    .step .init (e := ()) rfl trivial
  obtain ⟨-, s', d, hr, -⟩ := h _ [] false ⟨by decide, ⟨_, rfl, rfl⟩, by decide, by decide⟩ _ hreach
  nomatch (show Except.error Fault.outOfBounds = _ from hr)

end Asn1Parser

end StevenProgram
