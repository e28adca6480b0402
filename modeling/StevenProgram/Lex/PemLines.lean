/-
  PEM as a machine on lines, and `convertPEM2BIN` as a run of it.

  `step` says what one line does in one state, as a function of the bytes of the line and of whether
  a newline ends it: it moves on with the bytes the line decodes to, ends the run, or faults.  The
  machine has no buffer, so what it decodes cannot run into what it has not read; that the source
  agrees with it, in a buffer of its own or apart from the text, is what has to be shown.

  1.  **The machine** — `boundary`, `fromBase64`, `step`, `runLines`.  Runs over two lists of lines
     are composed by `after_append` and `runLines_after`.

  2.  **Helpers** — `findBoundary` (`findBoundary_at`), headers (`extractKeyValue_views`), and
     decoding behind the place that is being read (`chunk_from_base64_views`).  A group of four
     digits is read before its three bytes are written, and they end in front of the next group:
     this is the induction of `decodeGroups_at`, with the store and both places generalised.

  3.  **A line** (`analyseLine_step`) — `Does` relates a look at a line to a `Step`.  The one state
     that asks for its line again is left by asking, so two looks are enough.

  4.  **A text** (`convertPEM2BIN_lines`), on any lawful store.  The crux is `Stands`, what is so
     between two lines: the rest of the text is still there, everything decoded is in front of it,
     and the cursor is at its start.  `pemTurn_step` is the step lemma and `pemLoop_lines` the run
     lemma, by induction on the fuel.
-/
import StevenProgram.Lex.Pem
import StevenProgram.Lex.Tokens

namespace StevenProgram

open Asn1 (Cursor)
open CString (Reads cut)
open TextLines (Line lines afterLine)

namespace Pem

open Lexparser

/-! ## The machine

  Everything here is a function of lists, and can be evaluated.  A fault is an outcome like any
  other, so that the machine and the source can be compared on every text. -/

/-- How the test for a boundary ends. -/
inductive Boundary where
  | found
  /-- no boundary; what is left of the line -/
  | other (rest : List UInt8)
  | fault (f : Fault)
  deriving DecidableEq

/-- The search for the closing dashes; `ended` says that a NUL follows. -/
def closing (name : List UInt8) (ended : Bool) : Boundary :=
  if name = [] then .fault .nullPtr
  else match CString.search DASHES name with
    | .found _ => .found
    | .stopped => .other name
    | .ranOut => if ended then .other name else .fault .outOfBounds

/-- The test for a boundary, on the bytes of a line. -/
def boundary (tag bs : List UInt8) (ended : Bool) : Boundary :=
  if DASHES.isPrefixOf bs = false then .other bs
  else if tag.isPrefixOf (bs.drop DASHES.length) = false then .other (bs.drop DASHES.length)
  else if [SPACE].isPrefixOf (bs.drop (DASHES.length + tag.length)) = false then
    .other (bs.drop (DASHES.length + tag.length))
  else closing (bs.drop (DASHES.length + tag.length + 1)) ended

/-- What the groups of four digits decode to. -/
def decodeBytes : Nat → List UInt8 → List UInt8
  | turns + 1, a :: b :: c :: d :: rest =>
      (b642bin a <<< 2 ||| b642bin b >>> 4) :: (b642bin b <<< 4 ||| b642bin c >>> 2) ::
        (b642bin c <<< 6 ||| b642bin d) :: decodeBytes turns rest
  | _, _ => []

/-- `outlen` behind the groups. -/
def outLen : Nat → List UInt8 → Nat → Nat
  | turns + 1, a :: b :: c :: d :: rest, outlen =>
      outLen turns rest (lessPad d (lessPad c (lessPad b (lessPad a (outlen + 3)))))
  | _, _, outlen => outlen

/-- The bytes `chunk_from_base64` returns. -/
def fromBase64 (data : List UInt8) : List UInt8 :=
  (decodeBytes (base64Turns data.length) data).take (outLen (base64Turns data.length) data 0)

/-- The bytes up to the first blank. -/
def trimmed (bs : List UInt8) : List UInt8 :=
  match cut blank bs with
  | some (data, _) => data
  | none => bs

/-- What a line does. -/
inductive Step where
  | fault (f : Fault)
  | failed
  /-- the state behind the line, and what the line decodes to -/
  | next (state : PemState) (data : List UInt8)
  deriving DecidableEq

/-- A name, and a value whose quote is closed. -/
def isKeyValue (bs : List UInt8) : Bool :=
  match cut (· == COLON) bs with
  | none => false
  | some (_, rest) => !begins (rest.dropWhile blank) || (valueOf (rest.dropWhile blank)).isSome

/-- A line of the header; an empty one ends it. -/
def headerStep (bs : List UInt8) : Step :=
  if bs = [] then .next .PEM_BODY []
  else if isKeyValue bs then .next .PEM_HEADER []
  else .failed

/-- A line of the body; END ends it. -/
def bodyStep (bs : List UInt8) (ended : Bool) : Step :=
  match boundary END bs ended with
  | .found => .next .PEM_POST []
  | .other rest => .next .PEM_BODY (fromBase64 (trimmed rest))
  | .fault f => .fault f

/-- **What a line does**, by the state it is met in. -/
def step (state : PemState) (l : Line) : Step :=
  match state with
  | .PEM_PRE =>
      match boundary BEGIN l.content l.ended with
      | .found => .next .PEM_MSG []
      | .other _ => .next .PEM_PRE []
      | .fault f => .fault f
  | .PEM_MSG => if COLON ∈ l.content then headerStep l.content else bodyStep l.content l.ended
  | .PEM_HEADER => headerStep l.content
  | .PEM_BODY => bodyStep l.content l.ended
  | _ => .failed

/-- The end of a run: its status, what it decoded, and whether it came to the end of the lines. -/
structure Verdict where
  status : LexStatus
  decoded : List UInt8
  finished : Bool
  deriving DecidableEq

/-- The machine on the lines from `state` on, with what is decoded so far. -/
def runLines : PemState → List UInt8 → List Line → Run Verdict
  | state, acc, [] => .ok ⟨if state = .PEM_POST then .STATUS_SUCCESS else .STATUS_FAILED, acc, true⟩
  | state, acc, l :: ls =>
      match step state l with
      | .fault f => .error f
      | .failed => .ok ⟨.STATUS_FAILED, acc, false⟩
      | .next state data => runLines state (acc ++ data) ls

/-- The run on a text. -/
def pemRun (text : List UInt8) : Run Verdict := runLines .PEM_PRE [] (lines text)

/-- The state and what is decoded behind the lines, if the machine gets that far. -/
def after : PemState → List UInt8 → List Line → Option (PemState × List UInt8)
  | state, acc, [] => some (state, acc)
  | state, acc, l :: ls =>
      match step state l with
      | .next state data => after state (acc ++ data) ls
      | _ => none

/-- The state behind two runs of lines. -/
theorem after_append : ∀ {xs : List Line} (ys : List Line) (state : PemState) (acc : List UInt8),
    after state acc (xs ++ ys) = (after state acc xs).bind fun r => after r.1 r.2 ys := by
  intro xs
  induction xs with
  | nil =>
    intro ys state acc
    rfl
  | cons l xs ih =>
    intro ys state acc
    rw [List.cons_append, after, after]
    cases step state l with
    | fault f => rfl
    | failed => rfl
    | next state' data => exact ih ys state' (acc ++ data)

/-- A run goes on from the state that its first lines lead to. -/
theorem runLines_after :
    ∀ {xs : List Line} (ys : List Line) {state state' : PemState} {acc acc' : List UInt8},
    after state acc xs = some (state', acc') → runLines state acc (xs ++ ys) =
      runLines state' acc' ys := by
  intro xs
  induction xs with
  | nil =>
    intro ys state state' acc acc' h
    cases h
    rfl
  | cons l xs ih =>
    intro ys state state' acc acc' h
    rw [after] at h
    rw [List.cons_append, runLines]
    cases hs : step state l with
    | fault f =>
      rw [hs] at h
      cases h
    | failed =>
      rw [hs] at h
      cases h
    | next state1 data =>
      rw [hs] at h
      exact ih ys h

/-! ## Boundaries

  `stop` says what stands behind the line: a NUL if a newline was there, or the end of the buffer.
  It is what decides between the last two outcomes of the search. -/

section Boundaries

variable {σ : Type} [TextStore σ] {s : σ} {a e p : Nat} {c : Cursor} {bs : List UInt8}

/-- `startsWith` compares with the front of the line. -/
theorem startsWith_views (h : Views s a e c bs) {lit : List UInt8} (hlit : lit ≠ []) :
    startsWith s c lit = .ok (lit.isPrefixOf bs) := by
  rw [startsWith, h.len]
  split
  · next hlt =>
    congr 1
    rw [eq_comm, ← Bool.not_eq_true, List.isPrefixOf_iff_prefix]
    exact fun hp => absurd hp.length_le (by omega)
  · next hge =>
    refine strncmp_views h (fun hb => ?_) (by omega)
    rw [hb] at hge
    exact hlit (List.eq_nil_of_length_eq_zero (by simp only [List.length_nil] at hge; omega))

/-- The chunk of what is left of a line: NULL when nothing is. -/
def tail (p : Nat) (bs : List UInt8) : Cursor := if bs = [] then .null else ⟨some p, bs.length⟩

/-- What is left of a line is viewed where it stands. -/
theorem tail_views (h : Reads (TextStore.read s) p bs) (ha : a ≤ p) (he : p + bs.length ≤ e) :
    Views s a e (tail p bs) bs := by
  rw [tail]
  split
  · next hb => rw [hb]; exact .null
  · exact .here ha he h

/-- Something left has an address. -/
theorem tail_of_ne_nil (h : bs ≠ []) : tail p bs = ⟨some p, bs.length⟩ := if_neg h

/-- `chunk_skip` over the front leaves the rest, and the null chunk when nothing is left. -/
theorem chunk_skip_append (xs ys : List UInt8) :
    chunk_skip ⟨some p, (xs ++ ys).length⟩ xs.length = tail (p + xs.length) ys := by
  rw [chunk_skip, tail]
  cases ys with
  | nil => simp
  | cons y ys => simp

/-- The search for the closing dashes does what `closing` says. -/
theorem findDashes_tail (ended : Bool) (h : Reads (TextStore.read s) p bs)
    (hstop : TextStore.read s (p + bs.length) = if ended then .ok 0 else .error .outOfBounds)
    (hsize : bs.length ≤ TextStore.size s) : match closing bs ended with
    | .found => ∃ k, findDashes s (tail p bs) = .ok (some k)
    | .other rest => rest = bs ∧ findDashes s (tail p bs) = .ok none
    | .fault f => findDashes s (tail p bs) = .error f := by
  rw [closing]
  by_cases hne : bs = []
  · subst hne; rfl
  · rw [if_neg hne, findDashes, tail_of_ne_nil hne]
    -- the scan ends at the NUL, or leaves the buffer where there is none
    cases ended with
    | true =>
      have hnul : Reads (TextStore.read s) p (bs ++ [0]) := Reads.append.mpr ⟨h, hstop, trivial⟩
      simp only [deref, Run.ok_bind, CString.strstr_nul (s := DASHES) (by decide)
        (by decide) hsize hnul]
      cases CString.search DASHES bs with
      | found k => exact ⟨_, rfl⟩
      | stopped => exact ⟨rfl, rfl⟩
      | ranOut => exact ⟨rfl, rfl⟩
    | false =>
      simp only [deref, Run.ok_bind, CString.strstr_open (s := DASHES) (by decide)
        (by decide) hsize h hstop]
      cases CString.search DASHES bs with
      | found k => exact ⟨_, rfl⟩
      | stopped => exact ⟨rfl, rfl⟩
      | ranOut => rfl

/-- Either not a prefix, or one with a rest. -/
theorem isPrefixOf_cases (xs bs : List UInt8) :
    xs.isPrefixOf bs = false ∨ ∃ ys, bs = xs ++ ys ∧ xs.isPrefixOf bs = true := by
  cases h : xs.isPrefixOf bs with
  | false => exact .inl rfl
  | true =>
    obtain ⟨ys, rfl⟩ := List.isPrefixOf_iff_prefix.mp h
    exact .inr ⟨ys, rfl, rfl⟩

/-- **The test for a boundary, step by step.** -/
theorem findBoundary_at {tag : List UInt8} (htag : tag ≠ []) {ended : Bool}
    (h : Reads (TextStore.read s) p bs)
    (hstop : TextStore.read s (p + bs.length) = if ended then .ok 0 else .error .outOfBounds)
    (hsize : bs.length ≤ TextStore.size s) : match boundary tag bs ended with
    | .found => ∃ c, findBoundary s ⟨some p, bs.length⟩ tag = .ok (true, c)
    | .other rest => ∃ c, findBoundary s ⟨some p, bs.length⟩ tag = .ok (false, c) ∧
        Views s p (p + bs.length) c rest
    | .fault f => findBoundary s ⟨some p, bs.length⟩ tag = .error f := by
  have hv : Views s p (p + bs.length) ⟨some p, bs.length⟩ bs := .here (Nat.le_refl p)
    (Nat.le_refl _) h
  rw [findBoundary, startsWith_views hv (by decide), Run.ok_bind, boundary]
  rcases isPrefixOf_cases DASHES bs with hd | ⟨bs1, rfl, hd⟩
  · rw [hd]
    exact ⟨_, rfl, hv⟩
  -- behind the dashes
  have h1 := (Reads.append.mp h).2
  have hv1 : Views s p (p + (DASHES ++ bs1).length) (tail (p + DASHES.length) bs1) bs1 :=
    tail_views h1 (by omega) (by rw [List.length_append]; omega)
  simp only [hd, Bool.true_eq_false, if_false, chunk_skip_append, startsWith_views hv1 htag,
    Run.ok_bind,
    List.drop_left, ← List.drop_drop]
  rcases isPrefixOf_cases tag bs1 with ht | ⟨bs2, rfl, ht⟩
  · rw [ht]
    exact ⟨_, rfl, hv1⟩
  -- behind the tag
  have h2 := (Reads.append.mp h1).2
  have hne1 : tag ++ bs2 ≠ [] := List.append_ne_nil_of_left_ne_nil htag _
  have hv2 :
    Views s p (p + (DASHES ++ (tag ++ bs2)).length)
    (tail (p + DASHES.length + tag.length) bs2) bs2 :=
    tail_views h2 (by omega) (by simp only [List.length_append]; omega)
  simp only [ht, Bool.true_eq_false, if_false, tail_of_ne_nil hne1, chunk_skip_append,
    startsWith_views hv2 (List.cons_ne_nil SPACE []), Run.ok_bind, List.drop_left]
  rcases isPrefixOf_cases [SPACE] bs2 with hs | ⟨name, rfl, hs⟩
  · rw [hs]
    exact ⟨_, rfl, hv2⟩
  -- behind the blank: the name, and the search for the dashes in it
  have h3 := (Reads.append.mp h2).2
  have hv3 : Views s p (p + (DASHES ++ (tag ++ ([SPACE] ++ name))).length)
      (tail (p + DASHES.length + tag.length + [SPACE].length) name) name :=
    tail_views h3 (by omega) (by simp only [List.length_append]; omega)
  have hne2 : [SPACE] ++ name ≠ [] := List.cons_ne_nil SPACE name
  have hskip := chunk_skip_append (p := p + DASHES.length + tag.length) [SPACE] name
  simp only [List.length_append] at hsize
  have hdash := findDashes_tail ended h3 (by
    rw [← hstop]
    simp only [List.length_append]
    congr 1
    omega) (by omega)
  have hdrop : ([SPACE] ++ name).drop 1 = name := rfl
  simp only [List.length_singleton] at hskip hdash hv3
  simp only [hs, Bool.true_eq_false, if_false, tail_of_ne_nil hne2, hskip, hdrop]
  revert hdash
  cases closing name ended with
  | found =>
    rintro ⟨k, hk⟩
    have hne3 : name ≠ [] := by
      rintro rfl
      cases hk
    rw [hk, Run.ok_bind]
    simp only [tail_of_ne_nil hne3, deref, Run.ok_bind]
    exact ⟨_, rfl⟩
  | other rest =>
    rintro ⟨rfl, hk⟩
    simp only [hk, Run.ok_bind]
    exact ⟨_, rfl, hv3⟩
  | fault f =>
    intro hk
    simp only [hk]
    rfl

end Boundaries

/-! ## Headers

  What the header fields say is looked at and thrown away; that looking at them cannot fault is all
  that is needed. -/

section Headers

variable {σ : Type} [TextStore σ] {s : σ} {a e : Nat} {c : Cursor} {bs : List UInt8}

/-- Whether the value is four is found out inside the line. -/
theorem isFour_views (h : Views s a e c bs) : ∃ b, isFour s c = .ok b := by
  rw [isFour, h.len]
  cases bs with
  | nil => exact ⟨_, rfl⟩
  | cons b bs =>
    rw [if_neg (by simp), h.cons.1]
    exact ⟨_, rfl⟩

/-- The DEK-Info header is read inside the line. -/
theorem dekInfo_views {name : Cursor} {nb : List UInt8} (hn : Views s a e name nb)
    (hv : Views s a e c bs) :
    dekInfo s name c = .ok () := by
  rw [dekInfo, isName_views hn (by decide), Run.ok_bind]
  by_cases hdek : nb = ascii "DEK-Info"
  · -- the name is DEK-Info, so the comparison with DES-EDE3-CBC ends at the third byte
    have hcmp : strncmp s name.ptr (ascii "DES-EDE3-CBC") = .ok false := by
      obtain ⟨p, rfl, -, -, hr⟩ := hn.ptr_of_ne_nil (by rw [hdek]; decide)
      rw [hdek] at hr
      exact CString.strncmp_ne hr (by decide) (by decide)
    have htok : ∃ r, extractToken s c COMMA = .ok r := by
      have := extractToken_views hv COMMA
      split at this
      · obtain ⟨_, _, hr, -⟩ := this
        exact ⟨_, hr⟩
      · exact ⟨_, this⟩
    obtain ⟨⟨_, value, _⟩, hr⟩ := htok
    simp only [hdek, decide_true, if_true, hr, Run.ok_bind, hcmp]
    split <;> rfl
  · simp only [hdek, decide_false, Bool.false_eq_true, if_false]

/-- And so is every header. -/
theorem headerField_views {name : Cursor} {nb : List UInt8} (hn : Views s a e name nb)
    (hv : Views s a e c bs) :
    ∃ b, headerField s name c = .ok b := by
  obtain ⟨b, hb⟩ := isFour_views hv
  have henc : ∃ enc, isEncrypted s name c = .ok enc := by
    rw [isEncrypted, isName_views hn (by decide), Run.ok_bind]
    split
    · exact ⟨b, hb⟩
    · exact ⟨_, rfl⟩
  obtain ⟨enc, henc⟩ := henc
  rw [headerField, henc, Run.ok_bind]
  split
  · exact ⟨_, rfl⟩
  · rw [dekInfo_views hn hv]
    exact ⟨_, rfl⟩

/-- `extractKeyValue` succeeds on lines with a key and a value, and what it gives out lies in the
    line. -/
theorem extractKeyValue_views (h : Views s a e c bs) : ∃ ret src name value nb vb,
    extractKeyValue s c .null = .ok (ret, src, name, value) ∧ Views s a e name nb ∧
    Views s a e value vb ∧
      (ret = .STATUS_FAILED ↔ isKeyValue bs = false) := by
  rw [extractKeyValue, isKeyValue, ← stops_of_ne (by decide)]
  cases hcut : cut (stops COLON) bs with
  | none =>
    simp only [extractToken_none h hcut, Run.ok_bind, if_true]
    exact ⟨_, _, _, _, [], [], rfl, .null, .null, by simp⟩
  | some v =>
    obtain ⟨c1, name, hname, hv1, hn⟩ := extractToken_some h hcut
    obtain ⟨c2, h2, hv2⟩ := eatWhitespace_views hv1
    simp only [hname, Run.ok_bind, reduceCtorEq, if_false, h2]
    generalize v.2.dropWhile blank = rest at hv2
    cases hb : begins rest with
    | false => exact ⟨_, _, _, _, v.1, [], rfl, hn, .null, by simp⟩
    | true =>
      obtain ⟨c3, h3, hv3, ht⟩ := extractValue_views hv2 hb
      simp only [Bool.true_eq_false, if_false, h3, Run.ok_bind, Bool.not_true, Bool.false_or]
      rw [valueOf]
      split at ht
      · next value rest' hval =>
        obtain ⟨src, val, hr, -, hvv⟩ := ht
        simp only [hr, Run.ok_bind, reduceCtorEq, if_false]
        exact ⟨_, _, _, _, v.1, value, rfl, hn, hvv, by simp [hval]⟩
      · next hval =>
        simp only [ht, Run.ok_bind, if_true]
        split
        · exact ⟨_, _, _, _, v.1, _, rfl, hn, hv3, by simp [hval]⟩
        · exact ⟨_, _, _, _, v.1, [], rfl, hn, .null, by simp [hval]⟩

end Headers

/-! ## Decoding

  The length first, with its wrap, and then the loops, in a store that is lawful and nothing else.
  -/

/-- Where the product fits into an `int`, `BASE64_LEN` is three bytes for four digits. -/
theorem base64Len_eq {n : Nat} (h : n / 4 * 3 < 2147483648) : base64Len n = (n / 4 * 3 : Nat) :=
  Int.bmod_eq_of_le (by omega) (by omega)

/-- Beyond it, it is negative. -/
theorem base64Len_wraps {n : Nat} (h : 2147483648 ≤ n / 4 * 3) (hn : n < 2 ^ 32) :
    base64Len n = (n / 4 * 3 : Nat) - 4294967296 := by
  have hsub : (((n / 4 * 3 : Nat) : Int) - (2 ^ 32 : Nat)).bmod (2 ^ 32) = base64Len n :=
    Int.sub_bmod_right ..
  rw [← hsub, Int.bmod_eq_of_le] <;> omega

/-- Where it fits the decoder takes a turn for every four digits. -/
theorem base64Turns_eq {n : Nat} (h : n / 4 * 3 < 2147483648) : base64Turns n = n / 4 := by
  rw [base64Turns, base64Len_eq h]
  omega

/-- It takes none on the empty text. -/
theorem base64Turns_zero : base64Turns 0 = 0 := base64Turns_eq (by decide)

/-- From 2147483648 bytes on the length is negative. -/
theorem base64Turns_wraps {n : Nat} (h : 2147483648 ≤ n / 4 * 3) (hn : n < 2 ^ 32) :
    base64Turns n = 0 := by
  rw [base64Turns, base64Len_wraps h hn]
  omega

/-- It never takes more. -/
theorem base64Turns_le (n : Nat) : base64Turns n ≤ n / 4 := by
  rcases Nat.lt_or_ge (n / 4 * 3) 2147483648 with h | h
  · exact Nat.le_of_eq (base64Turns_eq h)
  · have hlt : base64Len n < (2 ^ 32 + 1) / 2 := Int.bmod_lt (by decide)
    rw [base64Turns]
    omega

/-- Padding makes the result no longer. -/
theorem lessPad_le (b : UInt8) (outlen : Nat) : lessPad b outlen ≤ outlen := by
  rw [lessPad]
  split <;> omega

/-- A turn gives three bytes at most. -/
theorem outLen_le :
    ∀ (turns : Nat) (data : List UInt8) (outlen : Nat), outLen turns data outlen ≤ outlen + 3 *
      turns := by
  intro turns
  induction turns with
  | zero => intro data outlen; exact Nat.le_refl _
  | succ turns ih =>
    intro data outlen
    -- four digits give three bytes, less the padding
    match data with
    | a :: b :: c :: d :: rest =>
      have hout := ih rest (lessPad d (lessPad c (lessPad b (lessPad a (outlen + 3)))))
      have ha := lessPad_le a (outlen + 3)
      have hb := lessPad_le b (lessPad a (outlen + 3))
      have hc := lessPad_le c (lessPad b (lessPad a (outlen + 3)))
      have hd := lessPad_le d (lessPad c (lessPad b (lessPad a (outlen + 3))))
      rw [outLen]
      omega
    | [] | [_] | [_, _] | [_, _, _] => exact Nat.le_add_right _ _

/-- Before the padding is taken off it gives exactly three. -/
theorem decodeBytes_length : ∀ (turns : Nat) (data : List UInt8), 4 * turns ≤ data.length →
    (decodeBytes turns data).length = 3 * turns := by
  intro turns
  induction turns with
  | zero => intro data _; rfl
  | succ turns ih =>
    intro data h
    match data with
    | a :: b :: c :: d :: rest =>
      simp only [List.length_cons] at h
      simp only [decodeBytes, List.length_cons, ih rest (by omega)]
      omega
    | [] | [_] | [_, _] | [_, _, _] => simp only [List.length_cons, List.length_nil] at h; omega

/-- How long a decoded text is. -/
theorem fromBase64_length (data : List UInt8) :
    (fromBase64 data).length = outLen (base64Turns data.length) data 0 := by
  have hturns := base64Turns_le data.length
  have hout := outLen_le (base64Turns data.length) data 0
  rw [fromBase64, List.length_take, decodeBytes_length _ _ (by omega)]
  omega

section Decoding

open TextStore

variable {σ : Type} [TextStore σ] {s : σ}

/-- What writing decoded bytes from `buf` up to `stop` changes. -/
structure Decoded (s : σ) (buf stop : Nat) (out : List UInt8) (s' : σ) : Prop where
  /-- the buffer has the size it had -/
  size_eq : size s' = size s
  /-- behind the place that was written all reads as before -/
  later : ∀ p, stop ≤ p → read s' p = read s p
  /-- the new bytes follow those decoded before -/
  decoded_eq : decoded s' (buf + out.length) = decoded s buf ++ out
  /-- nothing is written at `stop` or behind it -/
  written_le : written s' ≤ max (written s) stop

/-- Nothing decoded changes nothing. -/
theorem Decoded.refl (s : σ) (buf stop : Nat) : Decoded s buf stop [] s where
  size_eq := rfl
  later _ _ := rfl
  decoded_eq := (List.append_nil _).symm
  written_le := Nat.le_max_left _ _

/-- More bytes behind them. -/
theorem Decoded.trans {s1 s2 : σ} {buf mid stop : Nat} {out out' : List UInt8}
    (h : Decoded s buf mid out s1)
    (h' : Decoded s1 (buf + out.length) stop out' s2) (hle : mid ≤ stop) :
    Decoded s buf stop (out ++ out') s2 where
  size_eq := h'.size_eq.trans h.size_eq
  later p hp := (h'.later p hp).trans (h.later p (Nat.le_trans hle hp))
  decoded_eq := by
    rw [List.length_append, ← Nat.add_assoc, h'.decoded_eq, h.decoded_eq, List.append_assoc]
  written_le := by
    have := h.written_le
    have := h'.written_le
    omega

variable [LawfulTextStore σ]

/-- A byte more. -/
theorem Decoded.emit {s1 : σ} {buf stop : Nat} {out : List UInt8} (h : Decoded s buf stop out s1)
    (b : UInt8)
    (hq : buf + out.length < size s) (hstop : buf + out.length < stop) :
    ∃ s2, TextStore.emit s1 (buf + out.length) b = .ok s2 ∧ Decoded s buf stop (out ++ [b]) s2 := by
  obtain ⟨s2, h2, he⟩ := LawfulTextStore.emit_lt s1 _ b (h.size_eq ▸ hq)
  refine ⟨s2, h2, he.size_eq.trans h.size_eq, fun p hp => ?_, ?_, ?_⟩
  · exact (he.later p (by omega)).trans (h.later p hp)
  · rw [List.length_append, List.length_singleton, ← Nat.add_assoc, he.decoded_succ, h.decoded_eq,
      List.append_assoc]
  · have := h.written_le
    rw [he.written_eq]
    omega

/-- The bytes up to a place in the middle. -/
theorem Decoded.take {s' : σ} {buf stop : Nat} {out : List UInt8} (h : Decoded s buf stop out s')
    {n : Nat}
    (hn : n ≤ out.length) (hsize : buf ≤ size s) : Decoded s buf stop (out.take n) s' where
  size_eq := h.size_eq
  later := h.later
  decoded_eq := by
    have hlen := LawfulTextStore.decoded_length s buf hsize
    rw [List.length_take_of_le hn, ← LawfulTextStore.decoded_take s' (buf + n) (buf + out.length)
      (by omega),
      h.decoded_eq, List.take_append, hlen, Nat.add_sub_cancel_left, List.take_of_length_le
        (by omega)]
  written_le := h.written_le

/-- The three writes of a group. -/
theorem emit_group (s : σ) (buf : Nat) (x y z : UInt8) (hsize : buf + 3 ≤ size s) : ∃ s1 s2 s3,
    TextStore.emit s buf x = .ok s1 ∧ TextStore.emit s1 (buf + 1) y = .ok s2 ∧ TextStore.emit s2
      (buf + 2) z = .ok s3 ∧
      Decoded s buf (buf + 3) [x, y, z] s3 := by
  have hx := Decoded.emit (.refl s buf (buf + 3)) x (by simp only [List.length_nil]; omega)
    (by simp)
  obtain ⟨s1, h1, hd1⟩ := hx
  obtain ⟨s2, h2, hd2⟩ := hd1.emit y (by simp only [List.nil_append, List.length_singleton]; omega)
    (by simp)
  obtain ⟨s3, h3, hd3⟩ :=
    hd2.emit z (by simp only [List.nil_append, List.length_append, List.length_singleton]; omega)
    (by simp)
  exact ⟨s1, s2, s3, h1, h2, h3, hd3⟩

/-- **Decoding in front of what is being read.** A group is written when its digits have been read,
    and ends in front of the next one's.  By induction on the turns: the digits of the later groups
    stand behind the place that was written, so they are still read as they were. -/
theorem decodeGroups_at :
    ∀ (turns : Nat) {s : σ} {pos : Nat} (buf : Nat) {data : List UInt8} (outlen : Nat),
    Reads (read s) pos data → 4 * turns ≤ data.length → buf ≤ pos → pos + 4 * turns ≤ size s →
    ∃ s', decodeGroups turns s pos buf outlen = .ok (s', outLen turns data outlen) ∧
      Decoded s buf (buf + 3 * turns) (decodeBytes turns data) s' := by
  intro turns
  induction turns with
  | zero =>
    intro s pos buf data outlen _ _ _ _
    exact ⟨s, rfl, .refl s buf _⟩
  | succ turns ih =>
    intro s pos buf data outlen hr hlen hbuf hsize
    match data with
    | a :: b :: c :: d :: rest =>
      obtain ⟨ha, hb, hc, hd, hrest⟩ := hr
      simp only [List.length_cons] at hlen
      -- the three bytes end at `buf + 3`, in front of the next digit
      obtain ⟨s1, s2, s3, h1, h2, h3, hdec⟩ := emit_group s buf
        (b642bin a <<< 2 ||| b642bin b >>> 4)
        (b642bin b <<< 4 ||| b642bin c >>> 2) (b642bin c <<< 6 ||| b642bin d) (by omega)
      have hrest' : Reads (read s3) (pos + 4) rest := hrest.congr fun p hp _ => hdec.later p
        (by omega)
      -- so the other groups are decoded as from the store there was
      obtain ⟨s', hs', hdec'⟩ :=
        ih (buf + 3) (lessPad d (lessPad c (lessPad b (lessPad a (outlen + 3)))))
        hrest' (by omega) (by omega) (by rw [hdec.size_eq]; omega)
      refine ⟨s', ?_, ?_⟩
      · simp only [decodeGroups, nextDigit, ha, hb, hc, hd, Run.ok_bind, h1, h2, h3, hs', outLen]
      · have := hdec.trans hdec' (by omega)
        rwa [show buf + 3 + 3 * turns = buf + 3 * (turns + 1) from by omega] at this
    | [] | [_] | [_, _] | [_, _, _] => simp only [List.length_cons, List.length_nil] at hlen; omega

/-- The decoder over a line of the store: the bytes go to the front of what is already read. -/
theorem chunk_from_base64_views {a e buf : Nat} {c : Cursor} {data : List UInt8}
    (h : Views s a e c data) (hbuf : buf ≤ a)
    (hae : a ≤ e) (hsize : e ≤ size s) :
    ∃ s', chunk_from_base64 s c buf = .ok (s', (fromBase64 data).length) ∧
      Decoded s buf e (fromBase64 data) s' ∧ buf + (fromBase64 data).length ≤ e := by
  cases h with
  -- nothing of the line is left: the length is zero and no turn is taken
  | null =>
    have hnil : fromBase64 [] = [] := by
      rw [fromBase64, List.length_nil, base64Turns_zero]
      rfl
    have hrun : chunk_from_base64 s .null buf = .ok (s, 0) := by
      simp only [chunk_from_base64, Cursor.null, base64Turns_zero, if_true]
    rw [hnil, hrun]
    exact ⟨s, rfl, .refl s buf e, Nat.le_trans hbuf hae⟩
  | @here p bs ha he hr =>
    have hlen := fromBase64_length data
    have hbytes :
      fromBase64 data = (decodeBytes (base64Turns data.length) data).take
      (fromBase64 data).length := by
      rw [hlen]
      exact fromBase64.eq_1 data
    have hturns := base64Turns_le data.length
    have hout := outLen_le (base64Turns data.length) data 0
    rw [chunk_from_base64]
    generalize base64Turns data.length = turns at hlen hbytes hturns hout
    have hdlen : (decodeBytes turns data).length = 3 * turns := decodeBytes_length _ _ (by omega)
    obtain ⟨s', hs', hdec⟩ := decodeGroups_at turns buf 0 hr (by omega) (by omega) (by omega)
    have htake := hdec.take (n := (fromBase64 data).length) (by omega) (by omega)
    rw [← hbytes] at htake
    refine ⟨s', by rw [hlen]; exact hs', ?_, by omega⟩
    exact {
      size_eq := htake.size_eq
      later := fun q hq => htake.later q (by omega)
      decoded_eq := htake.decoded_eq
      written_le := Nat.le_trans htake.written_le (by omega) }

end Decoding

/-! ## A line

  One lemma for each state.  `LineAt` is the line as `fetchLine` leaves it. -/

section Line

variable {σ : Type} [TextStore σ] {s : σ} {p result : Nat} {bs : List UInt8}

/-- The line at `p`, as `fetchLine` leaves it, with the decoded bytes in front of it. -/
structure LineAt (s : σ) (p : Nat) (bs : List UInt8) (ended : Bool) (result : Nat) : Prop where
  /-- the bytes of the line are there -/
  reads : Reads (TextStore.read s) p bs
  /-- behind them is the NUL of `fetchLine`, or the end of the buffer -/
  stop : TextStore.read s (p + bs.length) = if ended then .ok 0 else .error .outOfBounds
  in_text : p + bs.length ≤ TextStore.size s
  /-- what is decoded ends in front of the line -/
  result_le : result ≤ p

/-- The run does what `step` says, for a line that ends at `e`. -/
def Does (s : σ) (result e : Nat) (r : Run (LexStatus × σ × PemState × Nat)) : Step → Prop
  | .fault f => r = .error f
  | .failed => ∃ state, r = .ok (.STATUS_FAILED, s, state, result)
  | .next state data => ∃ s', r = .ok (.STATUS_SUCCESS, s', state, result + data.length) ∧
      Decoded s result e data s' ∧ result + data.length ≤ e

/-- A line that only changes the state. -/
theorem Does.next_nil {e : Nat} {r : Run (LexStatus × σ × PemState × Nat)} {state : PemState}
    (hle : result ≤ e)
    (h : r = .ok (.STATUS_SUCCESS, s, state, result)) : Does s result e r (.next state []) :=
  ⟨s, h, .refl s result e, hle⟩

/-- A look that does not ask for another is the last one. -/
theorem Does.analyseLine {s0 : σ} {e : Nat} {line : Cursor} {state : PemState} {st : Step}
    {fuel : Nat}
    (hd : Does s result e (analyseDataOfPEM s0 line state result) st) :
    Does s result e (analyseLine (fuel + 1) s0 line state result) st := by
  rw [Pem.analyseLine]
  cases st with
  | fault f => rw [show analyseDataOfPEM s0 line state result = .error f from hd]; rfl
  | failed =>
    obtain ⟨state', h⟩ := hd
    rw [h]
    exact ⟨state', rfl⟩
  | next state' data =>
    obtain ⟨s', h, hdec⟩ := hd
    rw [h]
    exact ⟨s', rfl, hdec⟩

variable {ended : Bool} (h : LineAt s p bs ended result)
include h

/-- A fetched line is viewed. -/
theorem LineAt.views : Views s p (p + bs.length) ⟨some p, bs.length⟩ bs :=
  .here (Nat.le_refl p) (Nat.le_refl _) h.reads

/-- What is decoded so far ends before the line does. -/
theorem LineAt.le : result ≤ p + bs.length := Nat.le_trans h.result_le (Nat.le_add_right _ _)

/-- The line is compared with a boundary. -/
theorem LineAt.boundary (tag : List UInt8) (htag : tag ≠ []) : match boundary tag bs ended with
    | .found => ∃ c, findBoundary s ⟨some p, bs.length⟩ tag = .ok (true, c)
    | .other rest => ∃ c, findBoundary s ⟨some p, bs.length⟩ tag = .ok (false, c) ∧
        Views s p (p + bs.length) c rest
    | .fault f => findBoundary s ⟨some p, bs.length⟩ tag = .error f :=
  findBoundary_at htag h.reads h.stop (Nat.le_trans (Nat.le_add_left _ _) h.in_text)

/-- A line before the BEGIN. -/
theorem pre_does :
    Does s result (p + bs.length) (analyseDataOfPEM s ⟨some p, bs.length⟩ .PEM_PRE result)
    (match boundary BEGIN bs ended with
      | .found => .next .PEM_MSG []
      | .other _ => .next .PEM_PRE []
      | .fault f => .fault f) := by
  have hb := h.boundary BEGIN (by decide)
  rw [analyseDataOfPEM]
  split at hb
  · obtain ⟨c, hc⟩ := hb
    rw [hc]
    exact .next_nil h.le rfl
  · obtain ⟨c, hc, -⟩ := hb
    rw [hc]
    exact .next_nil h.le rfl
  · rw [hb]
    rfl

/-- A header line. -/
theorem header_does :
    Does s result (p + bs.length) (analyseDataOfPEM s ⟨some p, bs.length⟩ .PEM_HEADER result)
    (headerStep bs) := by
  rw [analyseDataOfPEM, headerStep]
  by_cases hne : bs = []
  · subst hne
    exact .next_nil h.le rfl
  · obtain ⟨ret, src, name, value, nb, vb, hkv, hn, hv, hret⟩ := extractKeyValue_views h.views
    rw [if_neg (fun hlen => hne (List.eq_nil_of_length_eq_zero hlen)), if_neg hne, hkv, Run.ok_bind]
    -- without a key the look fails; with one, what the field says cannot make it fail
    by_cases hf : ret = .STATUS_FAILED
    · rw [hret.mp hf]
      simp only [hf, if_true]
      exact ⟨_, rfl⟩
    · obtain ⟨b, hb⟩ := headerField_views hn hv
      have hk : isKeyValue bs = true := by
        rw [← Bool.not_eq_false]
        exact fun hk => hf (hret.mpr hk)
      rw [hk]
      simp only [hf, if_false, hb]
      exact .next_nil h.le rfl

/-- The line behind the BEGIN decides between header and body by a colon. -/
theorem msg_looks : analyseDataOfPEM s ⟨some p, bs.length⟩ .PEM_MSG result =
    .ok (.STATUS_CONTINUE, s, if COLON ∈ bs then .PEM_HEADER else .PEM_BODY, result) := by
  rw [analyseDataOfPEM, memchr_at COLON h.reads, Run.ok_bind]
  cases hcut : cut (· == COLON) bs with
  | none =>
    have hnot : COLON ∉ bs := fun hm => by simpa using CString.cut_none.mp hcut COLON hm
    rw [if_neg hnot]
    rfl
  | some v =>
    obtain ⟨b, hb, rfl, -⟩ := CString.cut_some hcut
    obtain rfl : b = COLON := by simpa using hb
    have hin : COLON ∈ v.1 ++ COLON :: v.2 := List.mem_append_right _ (List.mem_cons_self ..)
    rw [if_pos hin]
    rfl

/-- The data is the token, or the rest of the line when no blank follows. -/
theorem bodyData_views : match boundary END bs ended with
    | .found => bodyData s ⟨some p, bs.length⟩ = .ok none
    | .other rest => ∃ data, bodyData s ⟨some p, bs.length⟩ = .ok (some data) ∧
        Views s p (p + bs.length) data (trimmed rest)
    | .fault f => bodyData s ⟨some p, bs.length⟩ = .error f := by
  have hb := h.boundary END (by decide)
  rw [bodyData]
  cases hend : Pem.boundary END bs ended with
  | found =>
    rw [hend] at hb
    obtain ⟨c, hc⟩ := hb
    rw [hc]
    rfl
  | other rest =>
    rw [hend] at hb
    obtain ⟨c, hc, hv⟩ := hb
    simp only [hc, Run.ok_bind, Bool.false_eq_true, if_false, trimmed]
    cases hcut : cut blank rest with
    | none =>
      rw [extractToken_none hv hcut]
      exact ⟨c, rfl, hv⟩
    | some v =>
      obtain ⟨src, tok, htok, -, hvt⟩ := extractToken_some hv hcut
      rw [htok]
      exact ⟨tok, rfl, hvt⟩
  | fault f =>
    rw [hend] at hb
    simp only [show findBoundary s _ END = _ from hb]
    rfl

/-- **A line of the body.** -/
theorem body_does [LawfulTextStore σ] :
    Does s result (p + bs.length) (analyseDataOfPEM s ⟨some p, bs.length⟩ .PEM_BODY result)
    (bodyStep bs ended) := by
  have hb := bodyData_views h
  rw [analyseDataOfPEM, bodyStep]
  split at hb
  · rw [hb]
    exact .next_nil h.le rfl
  · obtain ⟨data, hdata, hview⟩ := hb
    obtain ⟨s', hs', hdec, hle⟩ := chunk_from_base64_views hview h.result_le
      (Nat.le_add_right _ _) h.in_text
    refine ⟨s', ?_, hdec, hle⟩
    simp only [hdata, Run.ok_bind, hs']
  · rw [hb]
    rfl

end Line

/-- **A line does what `step` says.** -/
theorem analyseLine_step {σ : Type} [TextStore σ] [LawfulTextStore σ] {s : σ} {p result : Nat}
    {l : Line}
    (h : LineAt s p l.content l.ended result) (state : PemState) :
    Does s result (p + l.content.length) (analyseLine 2 s ⟨some p, l.content.length⟩ state result)
    (step state l) := by
  cases state with
  | PEM_PRE => exact (pre_does h).analyseLine
  -- the first look only changes the state, the second takes the line
  | PEM_MSG =>
    rw [analyseLine, msg_looks h, step]
    show Does s result _ (analyseLine 1 s _ _ result) _
    split
    · exact (header_does h).analyseLine
    · exact (body_does h).analyseLine
  | PEM_HEADER => exact (header_does h).analyseLine
  | PEM_BODY => exact (body_does h).analyseLine
  -- behind the END every line fails the run
  | PEM_POST => exact ⟨_, rfl⟩
  | PEM_ABORT => exact ⟨_, rfl⟩

/-! ## A text

  A turn of the loop is a line: `fetchLine` takes it off, and the machine looks at it.  What is so
  between two lines is `Stands`, whatever the store. -/

section Text

variable {σ : Type} [TextStore σ]

/-- The configuration stands in front of the text `bs` at `p`, and has decoded `acc`; `n` is the
    size of the buffer, and nothing has been written at `p` or behind it. -/
structure Stands (n : Nat) (c : PemConfig σ) (p : Nat) (bs acc : List UInt8) : Prop where
  blob : c.blob = ⟨some p, bs.length⟩
  /-- the rest of the text is untouched -/
  reads : Reads (TextStore.read c.text) p bs
  size_eq : TextStore.size c.text = n
  /-- it reaches to the end of the buffer -/
  rest_end : p + bs.length = n
  result_eq : c.result = acc.length
  /-- the place to decode to has been read -/
  result_le : c.result ≤ p
  decoded_eq : TextStore.decoded c.text c.result = acc
  written_le : TextStore.written c.text ≤ p

variable [LawfulTextStore σ] {n : Nat} {c : PemConfig σ} {p : Nat} {bs acc : List UInt8}

omit [LawfulTextStore σ] in
/-- Behind a line that was taken, and the bytes that were decoded from it. -/
theorem Stands.advance {s s' : σ} {l : Line} {q : Nat} {data : List UInt8} (h : Stands n c p bs acc)
    (hf : Fetched c.text p bs s l q) (hd : Decoded s c.result (p + l.content.length) data s')
    (hout : c.result + data.length ≤ p + l.content.length) (line : Cursor) (state : PemState) :
    Stands n ⟨s', ⟨some q, (afterLine bs).length⟩, line, state, c.result + data.length⟩ q
      (afterLine bs) (acc ++ data) := by
  have hle := hf.line_le
  have hdec : TextStore.decoded s c.result = acc := (hf.decoded_eq _ h.result_le).trans h.decoded_eq
  exact {
    blob := rfl
    reads := hf.reads_rest.congr fun r hr _ => hd.later r (by omega)
    size_eq := hd.size_eq.trans (hf.size_eq.trans h.size_eq)
    rest_end := hf.rest_end.trans h.rest_end
    result_eq := by
      show c.result + data.length = _
      rw [List.length_append, h.result_eq]
    result_le := by
      show c.result + data.length ≤ q
      omega
    decoded_eq := by
      show TextStore.decoded s' (c.result + data.length) = _
      rw [hd.decoded_eq, hdec]
    written_le := by
      have hw := hd.written_le
      have hbefore := h.written_le
      rw [hf.written_eq] at hw
      show TextStore.written s' ≤ q
      omega }

/-- **A turn takes a line and does what `step` says.** `fetchLine` leaves the line and the rest
    apart (`Fetched`), and the look at the line decodes to where nothing is read any more, so behind
    the turn the configuration stands in front of the rest. -/
theorem pemTurn_step (h : Stands n c p bs acc) : match lines bs with
    | [] => pemTurn c = .ok (.done c)
    | l :: ls => lines (afterLine bs) = ls ∧ (afterLine bs).length < bs.length ∧
        match step c.state l with
      | .fault f => pemTurn c = .error f
      | .failed => ∃ c', pemTurn c = .ok (.failed c') ∧ c'.result = acc.length ∧
          TextStore.decoded c'.text c'.result = acc
      | .next state data => ∃ c' q, pemTurn c = .ok (.next c') ∧ c'.state = state ∧
          Stands n c' q (afterLine bs) (acc ++ data) := by
  rw [pemTurn, h.blob]
  by_cases hne : bs = []
  · subst hne
    rw [fetchLine_none c.text c.line rfl]
    rfl
  · -- a line is taken off, and the machine looks at it
    obtain ⟨s', l, q, hf, he⟩ := fetchLine_some c.line h.reads hne (h.rest_end.trans h.size_eq.symm)
    have hle := hf.line_le
    have hend := hf.rest_end
    have hsize := h.rest_end
    have hline : LineAt s' p l.content l.ended c.result :=
      ⟨hf.line, hf.stop, by rw [hf.size_eq, h.size_eq]; omega, h.result_le⟩
    have hdec :
      TextStore.decoded s' c.result = acc := (hf.decoded_eq _ h.result_le).trans h.decoded_eq
    have hdo := analyseLine_step hline c.state
    rw [hf.lines_eq, he, Run.ok_bind]
    refine ⟨rfl, hf.rest_lt, ?_⟩
    cases hs : step c.state l with
    | fault f =>
      rw [hs] at hdo
      simp only [if_true, show analyseLine 2 s' _ c.state c.result = .error f from hdo]
      rfl
    | failed =>
      rw [hs] at hdo
      obtain ⟨state, hr⟩ := hdo
      simp only [if_true, hr, Run.ok_bind]
      exact ⟨_, rfl, h.result_eq, hdec⟩
    | next state data =>
      rw [hs] at hdo
      obtain ⟨s2, hr, hd, hout⟩ := hdo
      simp only [if_true, hr, Run.ok_bind, reduceCtorEq, if_false]
      exact ⟨_, q, rfl, rfl, h.advance hf hd hout _ state⟩

/-- The outcome is the machine's, for a `src` of `srcLen` bytes. -/
structure Outcome (srcLen : Nat) (o : PemOutcome σ) (v : Verdict) : Prop where
  status : o.status = v.status
  result : o.result = v.decoded.length
  decoded : TextStore.decoded o.text o.result = v.decoded
  /-- a run that came to its end gives its length back in `src` -/
  srcLen_eq : o.srcLen = if v.finished then v.decoded.length else srcLen

/-- **The loop runs the machine on the lines.** By induction on the fuel, of which there is more
    than there are bytes left: every turn takes a line, and a line has at least one byte. -/
theorem pemLoop_lines (srcLen : Nat) :
    ∀ {fuel : Nat} {c : PemConfig σ} {p : Nat} {bs acc : List UInt8},
    bs.length < fuel → Stands n c p bs acc → match runLines c.state acc (lines bs) with
    | .error f => pemLoop srcLen fuel c = .error f
    | .ok v => ∃ o, pemLoop srcLen fuel c = .ok o ∧ Outcome srcLen o v := by
  intro fuel
  induction fuel with
  | zero => intro _ _ _ _ h; cases h
  | succ fuel ih =>
    intro c p bs acc hfuel h
    have hturn := pemTurn_step h
    rw [pemLoop]
    cases hl : lines bs with
    -- no line is left: the status is that of the state
    | nil =>
      rw [hl] at hturn
      simp only [show pemTurn c = _ from hturn, Run.ok_bind]
      exact ⟨_, rfl, rfl, h.result_eq, h.decoded_eq, h.result_eq⟩
    | cons l ls =>
      rw [hl] at hturn
      obtain ⟨rfl, hlt, hturn⟩ := hturn
      rw [runLines]
      cases hs : step c.state l with
      | fault f =>
        rw [hs] at hturn
        simp only [show pemTurn c = _ from hturn]
        rfl
      | failed =>
        rw [hs] at hturn
        obtain ⟨c', hc', hres, hdec⟩ := hturn
        simp only [hc', Run.ok_bind]
        exact ⟨_, rfl, rfl, hres, hdec, rfl⟩
      | next state data =>
        rw [hs] at hturn
        obtain ⟨c', q, hc', rfl, hstands⟩ := hturn
        simp only [hc', Run.ok_bind]
        -- the rest is shorter by the line, so the fuel that is left is enough
        exact ih (Nat.lt_of_lt_of_le hlt (Nat.le_of_lt_succ hfuel)) hstands

/-- The store holds the text and nothing is written yet. -/
structure Holds (s : σ) (bs : List UInt8) : Prop where
  reads : Reads (TextStore.read s) 0 bs
  size_eq : TextStore.size s = bs.length
  written_eq : TextStore.written s = 0

/-- The loop begins with the whole text and nothing decoded. -/
theorem Holds.stands {s : σ} (h : Holds s bs) :
    Stands bs.length (pemStart s bs.length) 0 bs [] where
  blob := rfl
  reads := h.reads
  size_eq := h.size_eq
  rest_end := Nat.zero_add _
  result_eq := rfl
  result_le := Nat.le_refl 0
  decoded_eq := List.eq_nil_of_length_eq_zero (LawfulTextStore.decoded_length s 0 (Nat.zero_le _))
  written_le := Nat.le_of_eq h.written_eq

/-- **`convertPEM2BIN` runs the machine on the lines of the text**, whatever store the text is
    in. -/
theorem convertPEM2BIN_lines {s : σ} (h : Holds s bs) : match pemRun bs with
    | .error f => convertPEM2BIN s bs.length = .error f
    | .ok v => ∃ o, convertPEM2BIN s bs.length = .ok o ∧ Outcome bs.length o v :=
  pemLoop_lines bs.length (Nat.lt_succ_self _) h.stands

end Text

/-- The store that is written in place holds its text at first. -/
theorem inPlace_holds (bs : List UInt8) : Holds (InPlace.of bs) bs where
  reads := readAt_reads [] bs
  size_eq := rfl
  written_eq := rfl

/-- And so does the one with a second buffer. -/
theorem apart_holds (bs : List UInt8) : Holds (Apart.of bs) bs where
  reads := (readAt_reads [] bs).congr fun p _ _ => by
    show Apart.read _ p = _
    rw [Apart.read, if_neg fun h => absurd h.1 List.not_mem_nil]
    rfl
  size_eq := rfl
  written_eq := rfl

end Pem

end StevenProgram
