/-
  How many calls of `iterate` a walk takes.

  A line moves forward in the table, or skips ahead over a missing option; only the END line of a
  loop moves back, when bytes are left on the level below the loop.  The first line of the loop's
  body takes a value off that level, two bytes at least.  So a walk over a table with one loop comes
  to an end: `turnsLeft` counts the lines ahead and, until the loop is behind, a turn of it for each
  byte.

  1.  **Lines** (`parseLine_moved`) — what a line does to the table position, the cursors and the
     jumps.

  2.  **Calls** — `Call` has one constructor for each kind of line, `iterate_call` is the inversion.

  3.  **Loops** — `OneLoop` tables, `LoopAddrs`, and the call that has fewer turns left
     (`callsLeft_call`).

  4.  **Headline** (`cert_walk_terminates`) — for `certObjects` and every blob.

  The argument needs nothing of the input but that a delivered value takes two bytes; whether the
  blob is a certificate does not matter, nor whether the walk ends in success.
-/
import StevenProgram.Asn1.CertWalk

namespace StevenProgram

open Asn1 Asn1Parser

namespace Asn1Parser

/-! ## Lines

  Each function of the parser has a lemma about `Moved`: the line of the table does not go back, the
  cursors of the line's level and of those above it do not grow, and a jump back address is written
  by a LOOP line only. -/

/-- What a line that is not an END line does to the parser. -/
structure Moved (s : Asn1Parser) (line : Nat) (obj : Asn1Object) (s' : Asn1Parser) (d : Iterated) :
    Prop where
  forward : (line : Int) ≤ s'.mLine
  stays : d.ret = false → s'.mLine = line
  blobs : ∀ k, k ≤ obj.level → (s'.mBlobs k).len ≤ (s.mBlobs k).len
  loops : s'.mLoopAddr = s.mLoopAddr ∨
    obj.has ASN1_LOOP = true ∧ s'.mLoopAddr = Function.update s.mLoopAddr obj.level (line + 1)

section Line

variable {objects : List Asn1Object} {input : List UInt8} {s s' : Asn1Parser} {line : Nat}
  {obj : Asn1Object} {d : Iterated}

/-- A step takes its length off the cursor. -/
theorem advance_len {c c' : Cursor} {k : Nat} (h : c.advance k = .ok c') : c'.len + k = c.len := by
  rw [Cursor.advance] at h
  split at h
  · cases h
  · split at h
    · cases h
      simp only []
      omega
    · cases h

/-- Reading a length makes the cursor no longer. -/
theorem lengthOctets_le : ∀ {n len : Nat} {blob : Cursor} {r : Nat × Cursor},
    lengthOctets input n len blob = .ok r → r.2.len ≤ blob.len := by
  intro n
  induction n with
  | zero =>
    intro len blob r h
    cases h
    exact Nat.le_refl _
  | succ n ih =>
    intro len blob r h
    rw [lengthOctets] at h
    obtain ⟨b, -, h⟩ := Run.bind_ok.mp h
    obtain ⟨blob1, hskip, h⟩ := Run.bind_ok.mp h
    have hle := ih h
    have hlen := advance_len hskip
    omega

/-- Tag and length are two bytes at least. -/
theorem asn1Length_skips {blob : Cursor} {r : Nat × Cursor} (h : asn1Length input blob = .ok r)
    (htwo : 2 ≤ blob.len) :
    r.2.len + 2 ≤ blob.len := by
  rw [asn1Length, if_neg (Nat.not_lt.mpr htwo)] at h
  obtain ⟨n, -, h⟩ := Run.bind_ok.mp h
  obtain ⟨blob1, hskip, h⟩ := Run.bind_ok.mp h
  have hlen := advance_len hskip
  split at h
  · cases h
    exact Nat.le_of_eq hlen
  · simp only [] at h
    split at h
    · cases h
      exact Nat.le_of_eq hlen
    · split at h
      · cases h
        exact Nat.le_of_eq hlen
      · obtain ⟨r1, hoctets, h⟩ := Run.bind_ok.mp h
        have hle := lengthOctets_le hoctets
        cases h
        simp only []
        omega

/-- A search goes forward. -/
theorem search_lt {p : Asn1Object → Bool} {m : Nat} (h : search objects p line = .ok m) :
    line < m := by
  rw [search] at h
  split at h
  · next hnext =>
    cases h
    exact (nextLine_lt hnext).1
  · cases h

/-- The end of a line, at `m`. -/
theorem finish_moved {m : Nat} {object : Cursor} (hs : s.mSuccess = true) (hm : line ≤ m) :
    Moved s line obj (s.finish m object).1 (s.finish m object).2 where
  forward := Int.ofNat_le.mpr hm
  stays h := absurd (show s.mSuccess = false from h) (by rw [hs]; decide)
  blobs _ _ := Nat.le_refl _
  loops := .inl rfl

/-- A failed line takes nothing. -/
theorem fail_moved : Moved s line obj (s.fail line).1 (s.fail line).2 where
  forward := Int.le_refl _
  stays _ := rfl
  blobs _ _ := Nat.le_refl _
  loops := .inl rfl

/-- A line only looks at the fields that `startChoice` and a new set of cursors leave alone. -/
theorem Moved.after {s1 : Asn1Parser} (h : Moved s1 line obj s' d)
    (hblobs : ∀ k, k ≤ obj.level → (s1.mBlobs k).len ≤ (s.mBlobs k).len)
    (hloops : s1.mLoopAddr = s.mLoopAddr ∨
      obj.has ASN1_LOOP = true ∧ s1.mLoopAddr = Function.update s.mLoopAddr obj.level (line + 1)) :
    Moved s line obj s' d where
  forward := h.forward
  stays := h.stays
  blobs k hk := Nat.le_trans (h.blobs k hk) (hblobs k hk)
  loops := by
    rcases h.loops with hsame | ⟨hloop, hset⟩
    · rw [hsame]
      exact hloops
    · right
      refine ⟨hloop, ?_⟩
      rcases hloops with hsame | ⟨-, hset'⟩
      · rw [hset, hsame]
      · rw [hset, hset', Function.update_idem]

/-- Nor does the part behind the tag and the length take more. -/
theorem typedObject_moved {object body : Cursor} (hs : s.mSuccess = true)
    (h : s.typedObject objects line obj object body = .ok (s', d)) : Moved s line obj s' d := by
  rw [typedObject] at h
  split at h
  · obtain ⟨m, hm, h⟩ := Run.bind_ok.mp h
    cases h
    exact finish_moved hs (Nat.le_of_lt (search_lt hm))
  · simp only [] at h
    split at h
    · cases h
      refine Moved.after fail_moved ?_ ?_
      all_goals rw [startLoop]
      · intro k _
        split <;> exact Nat.le_refl _
      · split
        · exact .inr ⟨‹_›, rfl⟩
        · exact .inl rfl
    · cases h
      obtain ⟨hsuccess, hblobs, hloops⟩ := startChoice_fields (s.startLoop line obj) obj
      have hstart : (s.startLoop line obj).mSuccess = s.mSuccess := by
        rw [startLoop]
        split <;> rfl
      refine Moved.after (finish_moved (hsuccess.trans (hstart.trans hs)) (Nat.le_refl line)) ?_ ?_
      · intro k _
        rw [hblobs, startLoop]
        split <;> exact Nat.le_refl _
      · rw [hloops, startLoop]
        split
        · exact .inr ⟨‹_›, rfl⟩
        · exact .inl rfl

/-- The cursor of the line's level is behind the value. -/
theorem taken_len {blobs : Nat → Cursor} {level : Nat} {rest : Cursor} (body : Cursor) {have_ : Nat}
    (hrest : rest.len ≤ have_)
    (hlevel : (blobs level).len = have_) : ∀ k, k ≤ level →
      (Function.update (Function.update blobs level rest) (level + 1) body k).len ≤
        (blobs k).len := by
  intro k hk
  rw [Function.update_of_ne (by omega)]
  by_cases heq : k = level
  · rw [heq, Function.update_self, hlevel]
    exact hrest
  · exact Nat.le_of_eq (congrArg Cursor.len (Function.update_of_ne heq _ _))

/-- An object that is delivered takes at least the two bytes of its tag and its length. -/
theorem parseObject_moved (hs : s.mSuccess = true)
    (h : s.parseObject objects input line obj = .ok (s', d)) :
    Moved s line obj s' d ∧
    (d.ret = true → (s'.mBlobs obj.level).len + 2 ≤ (s.mBlobs obj.level).len) := by
  rw [parseObject] at h
  simp only [] at h
  split at h
  · cases h
    exact ⟨fail_moved, fun hret => by cases hret⟩
  · next htwo =>
    have htwo : 2 ≤ (s.mBlobs obj.level).len := Nat.le_of_not_lt htwo
    obtain ⟨⟨len, body⟩, hlength, h⟩ := Run.bind_ok.mp h
    have hskip : body.len + 2 ≤ (s.mBlobs obj.level).len := asn1Length_skips hlength htwo
    simp only [] at h
    split at h
    · cases h
      refine ⟨Moved.after fail_moved ?_ (.inl rfl), fun hret => by cases hret⟩
      exact taken_len _ (by omega) rfl
    · obtain ⟨rest, hadvance, h⟩ := Run.bind_ok.mp h
      have hrest := advance_len hadvance
      have hlen : rest.len ≤ (s.mBlobs obj.level).len := by omega
      -- what stays of the level's cursor, whatever is put on the next
      have hlevel : ∀ c : Cursor,
          (Function.update (Function.update s.mBlobs obj.level rest)
            (obj.level + 1) c obj.level).len = rest.len := by
        intro c
        rw [Function.update_of_ne (by omega), Function.update_self]
      split at h
      · cases h
        refine ⟨Moved.after (finish_moved (by exact hs) (Nat.le_refl line)) ?_ (.inl rfl),
          fun _ => ?_⟩
        · simp only [Function.update_idem]
          exact taken_len _ hlen rfl
        · simp only [Function.update_idem, hlevel]
          omega
      · have hblobs := taken_len ⟨body.ptr, len⟩ hlen rfl
        split at h
        · cases h
          refine ⟨Moved.after (finish_moved (by exact hs) (Nat.le_refl line)) hblobs (.inl rfl),
            fun _ => ?_⟩
          simp only [hlevel]
          omega
        · obtain ⟨tag, -, h⟩ := Run.bind_ok.mp h
          split at h
          · cases h
            exact ⟨Moved.after fail_moved hblobs (.inl rfl), fun hret => by cases hret⟩
          · have hmoved := typedObject_moved (by exact hs) h
            refine ⟨Moved.after hmoved hblobs (.inl rfl), fun _ => ?_⟩
            have hle := hmoved.blobs obj.level (Nat.le_refl _)
            rw [hlevel] at hle
            omega

/-- **What a line does.**  One that takes a value shortens the cursor of its level. -/
theorem parseLine_moved (hs : s.mSuccess = true)
    (h : s.parseLine objects input line obj = .ok (s', d)) :
    Moved s line obj s' d ∧ ((obj.has ASN1_DEF || obj.has ASN1_OPT) = false → d.ret = true →
      (s'.mBlobs obj.level).len + 2 ≤ (s.mBlobs obj.level).len) := by
  rw [parseLine] at h
  obtain ⟨-, -, h⟩ := Run.bind_ok.mp h
  obtain ⟨missing, -, h⟩ := Run.bind_ok.mp h
  split at h
  · next hdef =>
    cases h
    rw [Bool.and_eq_true] at hdef
    refine ⟨finish_moved hs ?_, fun hreq => ?_⟩
    · split
      · exact Nat.le_succ line
      · exact Nat.le_refl line
    · rw [hdef.1] at hreq
      cases hreq
  · split at h
    · next hopt =>
      obtain ⟨m, hm, h⟩ := Run.bind_ok.mp h
      cases h
      rw [Bool.and_eq_true] at hopt
      refine ⟨finish_moved hs (Nat.le_of_lt (search_lt hm)), fun hreq => ?_⟩
      rw [hopt.1, Bool.or_true] at hreq
      cases hreq
    · obtain ⟨hmoved, hshort⟩ := parseObject_moved hs h
      exact ⟨hmoved, fun _ => hshort⟩

/-- The end of an option, a choice or a loop. -/
theorem endLine_moved (hs : s.mSuccess = true) (h : s.endLine objects line obj = .ok (s', d)) :
    (line : Int) ≤ s'.mLine ∧ (d.ret = false → s'.mLine = line) ∧ s'.mBlobs = s.mBlobs ∧
    s'.mLoopAddr = Function.update s.mLoopAddr obj.level 0 := by
  rw [endLine] at h
  simp only [] at h
  split at h
  · cases h
    exact ⟨Int.le_refl _, fun _ => rfl, rfl, rfl⟩
  · split at h
    · obtain ⟨m, hm, h⟩ := Run.bind_ok.mp h
      have hlt := search_lt hm
      cases h
      refine ⟨?_, fun hret => ?_, rfl, rfl⟩
      · show (line : Int) ≤ ((m - 1 : Nat) : Int)
        omega
      · exact absurd (show s.mSuccess = false from hret) (by rw [hs]; decide)
    · cases h
      exact ⟨Int.le_refl _, fun _ => rfl, rfl, rfl⟩

end Line

/-! ## Calls

  The proofs below split on the kind of the line once, through `iterate_call`, and do not unfold
  `iterate` again. -/

/-- A call of `iterate`, by the kind of its line. -/
inductive Call (objects : List Asn1Object) (input : List UInt8) (s : Asn1Parser) :
    Asn1Parser → Iterated → Prop
  | exit {n : Nat} {obj : Asn1Object} : s.mLine + 1 = n → objects[n]? = some obj →
      Call objects input s { s with mLine := n } ⟨false, none, .null⟩
  | line {n : Nat} {obj : Asn1Object} {s' : Asn1Parser} {d : Iterated} :
    s.mLine + 1 = n → objects[n]? = some obj →
      obj.has ASN1_END = false → s.parseLine objects input n obj = .ok (s', d) →
        Call objects input s s' d
  | again {n : Nat} {obj obj' : Asn1Object} {s' : Asn1Parser} {d : Iterated} :
    s.mLine + 1 = n → objects[n]? = some obj →
      obj.has ASN1_END = true → s.mLoopAddr obj.level ≠ 0 → 0 < (s.mBlobs (obj.level + 1)).len →
      objects[s.mLoopAddr obj.level]? = some obj' →
      s.parseLine objects input (s.mLoopAddr obj.level) obj' = .ok (s', d) →
        Call objects input s s' d
  | close {n : Nat} {obj : Asn1Object} {s' : Asn1Parser} {d : Iterated} :
    s.mLine + 1 = n → objects[n]? = some obj →
      obj.has ASN1_END = true → s.endLine objects n obj = .ok (s', d) → Call objects input s s' d

variable {objects : List Asn1Object} {input : List UInt8} {s s' : Asn1Parser} {d : Iterated}

/-- A line that was read is a line of the table. -/
theorem lineAt_inv {line : Nat} {obj : Asn1Object} (h : lineAt objects line = .ok obj) :
    objects[line]? = some obj := by
  rw [lineAt] at h
  split at h
  · next hat =>
    rw [hat, Except.ok.inj h]
  · cases h

/-- **One call of `iterate`, by the line it looks at.** Its three branches are EXIT, END, and a line
    with an object; the END line has two, as it goes round again or not. -/
theorem iterate_call (hline : 0 ≤ s.mLine + 1) (h : s.iterate objects input = .ok (s', d)) :
    Call objects input s s' d := by
  obtain ⟨n, hn⟩ :
    ∃ n : Nat, s.mLine + 1 = n := ⟨(s.mLine + 1).toNat, (Int.toNat_of_nonneg hline).symm⟩
  rw [iterate] at h
  simp only [hn, Int.toNat_natCast] at h
  obtain ⟨obj, hobj, h⟩ := Run.bind_ok.mp h
  have hat := lineAt_inv hobj
  split at h
  · cases h
    exact .exit hn hat
  · split at h
    · next hend =>
      obtain ⟨-, -, h⟩ := Run.bind_ok.mp h
      split at h
      · next hloop =>
        obtain ⟨obj', hobj', h⟩ := Run.bind_ok.mp h
        exact .again hn hat hend hloop.1 hloop.2 (lineAt_inv hobj') h
      · exact .close hn hat hend h
    · next hend => exact .line hn hat (Bool.eq_false_iff.mpr hend) h

/-! ## Loops

  With one loop there is one address to jump back to.  Behind it the lines up to its END line are
  deeper than the loop itself, so what is left below the loop shrinks with every turn and grows with
  none of its lines. -/

/-- The only loop of the table: LOOP line `start`, END line `stop`, on this level.  The lines
    between are deeper, and the first of them is right below and takes a value. -/
structure OneLoop (objects : List Asn1Object) (start stop level : Nat) : Prop where
  order : start + 1 < stop ∧ stop < objects.length
  loops : ∀ i, (h : i < objects.length) → objects[i].has ASN1_LOOP = true → i = start ∧
    objects[i].level = level
  ends : ∀ i, (h : i < objects.length) → objects[i].has ASN1_END = true → objects[i].level = level →
    i = stop
  closes : ∀ h : stop < objects.length, objects[stop].has ASN1_END = true
  deeper : ∀ i, (h : i < objects.length) → start < i → i < stop → level < objects[i].level
  first : ∀ h : start + 1 < objects.length, objects[start + 1].level = level + 1 ∧
    (objects[start + 1].has ASN1_DEF || objects[start + 1].has ASN1_OPT) = false

/-- Only the loop jumps back. -/
def LoopAddrs (start level : Nat) (s : Asn1Parser) : Prop :=
  ∀ l, s.mLoopAddr l = 0 ∨ l = level ∧ s.mLoopAddr l = start + 1

/-- The calls to come, at most: with the next line `n` and `left` bytes on the level below the
    loop. -/
def turnsLeft (objects : List Asn1Object) (input : List UInt8) (start stop n left : Nat) : Nat :=
  objects.length - n +
    (if n ≤ start then (stop - start) * input.length else if n ≤ stop then (stop - start) *
      left else 0)

section Loop

variable {start stop level : Nat}

/-- How a line stands to the only loop of the table. -/
theorem OneLoop.line (hl : OneLoop objects start stop level) {i : Nat} {obj : Asn1Object}
    (ho : objects[i]? = some obj) :
    i < objects.length ∧ (obj.has ASN1_LOOP = true → i = start ∧ obj.level = level) ∧
    (obj.has ASN1_END = true → obj.level = level → i = stop) ∧
    (i = stop → obj.has ASN1_END = true) ∧
    (start < i → i < stop → level < obj.level) ∧
    (i = start + 1 → obj.level = level + 1 ∧ (obj.has ASN1_DEF || obj.has ASN1_OPT) = false) := by
  obtain ⟨hlt, rfl⟩ := List.getElem?_eq_some_iff.mp ho
  refine ⟨hlt, hl.loops i hlt, hl.ends i hlt, ?_, hl.deeper i hlt, ?_⟩
  · intro hstop
    subst hstop
    exact hl.closes hlt
  · intro hfirst
    subst hfirst
    exact hl.first hlt

/-- **Step lemma** for the jump back addresses. -/
theorem loopAddrs_call (hl : OneLoop objects start stop level) (hs : s.mSuccess = true)
    (h : LoopAddrs start level s)
    (hcall : Call objects input s s' d) : LoopAddrs start level s' := by
  have hline :
    ∀ {n : Nat} {obj : Asn1Object}, objects[n]? = some obj → s.parseLine objects input n obj = .ok
    (s', d) →
      LoopAddrs start level s' := by
    intro n obj hobj hparse l
    rcases (parseLine_moved hs hparse).1.loops with hsame | ⟨hloop, hset⟩
    · rw [hsame]
      exact h l
    · obtain ⟨rfl, hlevel⟩ := (hl.line hobj).2.1 hloop
      rw [hset, hlevel]
      by_cases heq : l = level
      · right
        exact ⟨heq, by rw [heq, Function.update_self]⟩
      · rw [Function.update_of_ne heq]
        exact h l
  cases hcall with
  | exit _ _ => exact h
  | line _ hobj _ hparse => exact hline hobj hparse
  | again _ _ _ _ _ hobj' hparse => exact hline hobj' hparse
  | @close n obj _ _ _ hobj _ hend =>
    intro l
    rw [(endLine_moved hs hend).2.2.2]
    by_cases heq : l = obj.level
    · left
      rw [heq, Function.update_self]
    · rw [Function.update_of_ne heq]
      exact h l

/-- Behind a line further down, with no more bytes below the loop, fewer calls are to come. -/
theorem turnsLeft_forward {n n' left left' : Nat} (hn : n < n') (hn' : n' < objects.length)
    (hinput : left' ≤ input.length)
    (hleft : start < n → n ≤ stop → left' ≤ left) :
    turnsLeft objects input start stop n' left' < turnsLeft objects input start stop n left := by
  rw [turnsLeft, turnsLeft]
  have hall := Nat.mul_le_mul_left (stop - start) hinput
  by_cases hstart : n ≤ start
  · rw [if_pos hstart]
    split
    · omega
    · split <;> omega
  · by_cases hstop : n ≤ stop
    · have hsome := Nat.mul_le_mul_left (stop - start) (hleft (Nat.lt_of_not_le hstart) hstop)
      rw [if_neg hstart, if_pos hstop, if_neg (by omega)]
      split <;> omega
    · rw [if_neg hstart, if_neg hstop, if_neg (by omega), if_neg (by omega)]
      omega

/-- Behind the first line of the body, on another turn: the jump back costs less than the two bytes
    that were taken are worth. -/
theorem turnsLeft_again {n' left left' : Nat} (horder : start + 1 < stop) (hn : start + 2 ≤ n')
    (hn' : n' < objects.length)
    (hstop : stop < objects.length) (hleft : left' + 2 ≤ left) :
    turnsLeft objects input start stop n' left' < turnsLeft objects input start stop stop left := by
  have hmul := Nat.mul_le_mul_left (stop - start) hleft
  rw [Nat.mul_add] at hmul
  rw [turnsLeft, turnsLeft, if_neg (show ¬ n' ≤ start by omega),
    if_neg (show ¬ stop ≤ start by omega),
    if_pos (Nat.le_refl stop)]
  split <;> omega

/-- The line of the next call, and what is left below the loop. -/
def callsLeft (objects : List Asn1Object) (input : List UInt8) (start stop level : Nat)
    (s : Asn1Parser) : Nat :=
  turnsLeft objects input start stop (s.mLine + 1).toNat (s.mBlobs (level + 1)).len

/-- A cursor inside the input is no longer than the input. -/
theorem inside_le {c : Cursor} (h : c.Inside input) : c.len ≤ input.length := by
  obtain ⟨ptr, len⟩ := c
  cases ptr with
  | none =>
    obtain rfl : len = 0 := h
    exact Nat.zero_le _
  | some p => exact Nat.le_trans (Nat.le_add_left len p) h

/-- **A call that returns true has fewer to come.** On a line that moves forward the lines ahead get
    fewer, on the END line that goes back the bytes do. -/
theorem callsLeft_call (hl : OneLoop objects start stop level) (hs : s.Inv objects input)
    (haddr : LoopAddrs start level s)
    (hs' : s'.Inv objects input) (hret : d.ret = true) (hcall : Call objects input s s' d) :
    callsLeft objects input start stop level s' < callsLeft objects input start stop level s := by
  have hleft := inside_le (hs'.blobs (level + 1))
  have hlast := hs'.line
  obtain ⟨horder, hstop⟩ := hl.order
  rw [callsLeft, callsLeft]
  cases hcall with
  | exit _ _ => cases hret
  -- forward, and in the loop nothing is added below it
  | @line n obj _ _ hn hobj hend hparse =>
    obtain ⟨-, -, -, hcloses, hdeeper, -⟩ := hl.line hobj
    have hmoved := (parseLine_moved hs.success hparse).1
    have hforward := hmoved.forward
    apply turnsLeft_forward (by omega) (by omega) hleft
    intro hafter hbefore
    have hne : n ≠ stop := by
      intro heq
      rw [hcloses heq] at hend
      cases hend
    exact hmoved.blobs _ (hdeeper (by omega) (by omega))
  -- back, but the first line of the body has taken two bytes
  | @again n obj obj' _ _ hn hobj hend hloop _ hobj' hparse =>
    rcases haddr obj.level with hzero | ⟨hlevel, hfirst⟩
    · exact absurd hzero hloop
    · rw [hfirst] at hobj' hparse
      obtain ⟨-, -, hends, -, -, -⟩ := hl.line hobj
      obtain ⟨-, -, -, -, -, hbody⟩ := hl.line hobj'
      obtain ⟨hlevel', hplain⟩ := hbody rfl
      obtain ⟨hmoved, hshort⟩ := parseLine_moved hs.success hparse
      have hforward := hmoved.forward
      have hshort := hshort hplain hret
      obtain rfl := hends hend hlevel
      rw [hlevel'] at hshort
      have hnext : (s.mLine + 1).toNat = n := by omega
      rw [hnext]
      exact turnsLeft_again horder (by omega) (by omega) hstop hshort
  | @close n obj _ _ hn hobj _ hend =>
    obtain ⟨hforward, -, hblobs, -⟩ := endLine_moved hs.success hend
    apply turnsLeft_forward (by omega) (by omega) hleft
    intro _ _
    exact Nat.le_of_eq (by rw [hblobs])

/-- **A walk comes to an end.** By induction on the number of calls allowed, with the invariant of
    the run and the addresses of the loop. -/
theorem walk_ends (ht : StrictTable objects) (hl : OneLoop objects start stop level) :
    ∀ (fuel : Nat) (s : Asn1Parser), s.Inv objects input → LoopAddrs start level s →
      callsLeft objects input start stop level s < fuel → ∃ r, CertWalk.walk objects input fuel s =
        .ok r := by
  intro fuel
  induction fuel with
  | zero =>
    intro s _ _ hfuel
    exact absurd hfuel (Nat.not_lt_zero _)
  | succ fuel ih =>
    intro s hs haddr hfuel
    obtain ⟨s', d, hiterate, -, hinv⟩ := iterate_delivered ht hs
    have hcall := iterate_call hs.line.1 hiterate
    rw [CertWalk.walk, hiterate, Run.ok_bind]
    cases hret : d.ret with
    | false =>
      simp only [hret, Bool.false_eq_true, if_false]
      exact ⟨_, rfl⟩
    | true =>
      have hs' := hinv hret
      have hless := callsLeft_call hl hs haddr hs' hret hcall
      obtain ⟨r, hr⟩ := ih s' hs' (loopAddrs_call hl hs.success haddr hcall) (by omega)
      simp only [hret, if_true, hr, Run.ok_bind]
      exact ⟨_, rfl⟩

end Loop

/-- A call leaves `mLine` on a line of the table. -/
theorem mLine_call (ht : StrictTable objects) (hs : s.Inv objects input) :
    ∃ s' d, s.iterate objects input = .ok (s', d) ∧ 0 ≤ s'.mLine ∧ s'.mLine < objects.length := by
  obtain ⟨s', d, hiterate, -, hinv⟩ := iterate_delivered ht hs
  refine ⟨s', d, hiterate, ?_⟩
  have hbounds : ∀ {n : Nat} {obj : Asn1Object}, objects[n]? = some obj → (n : Int) ≤ s'.mLine →
      (d.ret = false → s'.mLine = n) → 0 ≤ s'.mLine ∧ s'.mLine < objects.length := by
    intro n obj hobj hforward hstays
    have hlt := (List.getElem?_eq_some_iff.mp hobj).1
    cases hret : d.ret with
    | false =>
      have := hstays hret
      omega
    | true =>
      have := (hinv hret).line
      omega
  cases iterate_call hs.line.1 hiterate with
  | exit hn hobj => exact hbounds hobj (Int.le_refl _) fun _ => rfl
  | line _ hobj _ hparse =>
    have hmoved := (parseLine_moved hs.success hparse).1
    exact hbounds hobj hmoved.forward hmoved.stays
  | again _ _ _ _ _ hobj' hparse =>
    have hmoved := (parseLine_moved hs.success hparse).1
    exact hbounds hobj' hmoved.forward hmoved.stays
  | close _ hobj _ hend =>
    obtain ⟨hforward, hstays, -, -⟩ := endLine_moved hs.success hend
    exact hbounds hobj hforward hstays

end Asn1Parser

/-! ## Headline

  The table has 27 lines and its loop spans lines 17 to 22; five calls for each byte and 28 for the
  lines are more than a walk can take. -/

namespace CertWalk

/-- The extensions are the only loop of the table of certificates. -/
theorem certObjects_loop : OneLoop certObjects 17 22 3 where
  order := by decide
  loops := by decide
  ends := by decide
  closes := by decide
  deeper := by decide
  first := by decide

/-- **The walk over a certificate terminates**, for every blob, in a number of calls that is linear
    in its length; and `mLine` never leaves the table. -/
theorem cert_walk_terminates (blob : Chunk) (implicit : Bool) :
    (∃ r, walk certObjects blob.bytes (5 * blob.len + 28) ((new blob.bytes).setFlags implicit) =
      .ok r) ∧
    ∀ s, (calls certObjects blob.bytes implicit).Reachable s → -1 ≤ s.mLine ∧ s.mLine ≤ 26 ∧
      ∃ s' d, s.iterate certObjects blob.bytes = .ok (s', d) ∧ 0 ≤ s'.mLine ∧ s'.mLine ≤ 26 := by
  have htable : certObjects.length = 27 := rfl
  constructor
  · apply walk_ends certObjects_strict certObjects_loop
    · exact inv_init certObjects_strict.toSyntaxTable implicit
    · intro _
      exact .inl rfl
    · show 27 - 0 + (22 - 17) * blob.len < 5 * blob.len + 28
      omega
  · intro s hs
    have hinv := inv_reachable certObjects_strict hs
    have hline := hinv.line
    refine ⟨by omega, by omega, ?_⟩
    obtain ⟨s', d, hiterate, hlo, hhi⟩ := mLine_call certObjects_strict hinv
    exact ⟨s', d, hiterate, hlo, by omega⟩

end CertWalk

end StevenProgram
