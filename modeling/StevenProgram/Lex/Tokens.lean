/-
  What the lexer's functions do to the bytes in front of them.

  `Views s a e c bs` says that the cursor `c` denotes the bytes `bs` of the text in `s`, somewhere
  between `a` and `e`; where exactly does not matter to anything that follows.  Each function has
  one lemma: on a cursor that views `bs` it does not fault, and its results view what the function
  of lists on the right-hand side makes of `bs`.  So the callers reason about lists of bytes alone,
  and the range comes along to say that nothing outside it is touched.

  1.  **Views** — a view of nothing may be the null chunk; how `memchr`, `strncmp` and copying see a
     view.

  2.  **Tokens** (`extractToken_views`) — a token is what stands before the first stop,
     `CString.cut` with the predicate `stops`.  Blanks are `dropWhile blank`
     (`eatWhitespace_views`), and a value is read up to its closing quote or the next blank
     (`valueOf`, `extractValue_views`).

  3.  **Lines** (`fetchLine_some`, `fetchLine_none`) — `fetchLine` takes one of `TextLines.lines`.
     `Fetched` lists what that leaves: the content of the line, a NUL behind it if a newline was
     there, and the rest of the text as it was.
-/
import StevenProgram.Lex.Lexparser

namespace StevenProgram

open Asn1 (Cursor)
open CString (Reads cut)
open TextLines (LF CR Line lines afterLine)

namespace Lexparser

variable {σ : Type} [TextStore σ] {s s' : σ} {a e : Nat}

/-! ## Views

  The two constructors are the two ways a `chunk_t` can be empty or not: `{NULL, 0}`, and an address
  with a length. -/

/-- The bytes `c` denotes, between `a` and `e`. -/
inductive Views (s : σ) (a e : Nat) : Cursor → List UInt8 → Prop
  | null : Views s a e .null []
  | here {p : Nat} {bs : List UInt8} : a ≤ p → p + bs.length ≤ e → Reads (TextStore.read s) p bs →
      Views s a e ⟨some p, bs.length⟩ bs

/-- A cursor is as long as what it views. -/
theorem Views.len {c : Cursor} {bs : List UInt8} (h : Views s a e c bs) : c.len = bs.length := by
  cases h <;> rfl

/-- A view of something has an address in its range. -/
theorem Views.ptr_of_ne_nil {c : Cursor} {bs : List UInt8} (h : Views s a e c bs) (hne : bs ≠ []) :
    ∃ p, c = ⟨some p, bs.length⟩ ∧ a ≤ p ∧ p + bs.length ≤ e ∧ Reads (TextStore.read s) p bs := by
  cases h with
  | null => exact absurd rfl hne
  | here ha he hr => exact ⟨_, rfl, ha, he, hr⟩

/-- A view stays while its range is not written. -/
theorem Views.congr {c : Cursor} {bs : List UInt8} (h : Views s a e c bs) {a' e' : Nat}
    (ha : a' ≤ a) (he : e ≤ e')
    (hread : ∀ p, a ≤ p → p < e → TextStore.read s' p = TextStore.read s p) :
    Views s' a' e' c bs := by
  cases h with
  | null => exact .null
  | here hp hlen hr =>
    exact .here (by omega) (by omega) (hr.congr fun q hq hlt => hread q (by omega) (by omega))

/-- The first byte of a view, and the view behind it. -/
theorem Views.cons {c : Cursor} {b : UInt8} {bs : List UInt8} (h : Views s a e c (b :: bs)) :
    load s c.ptr = .ok b ∧ Views s a e (skip1 c) bs := by
  obtain ⟨p, rfl, ha, he, hb, hbs⟩ := h.ptr_of_ne_nil (List.cons_ne_nil b bs)
  rw [List.length_cons] at he
  exact ⟨hb, .here (Nat.le_succ_of_le ha) (by show p + 1 + _ ≤ e; omega) hbs⟩

/-- `memchr` cuts at the first such byte. -/
theorem memchr_at (ch : UInt8) {p : Nat} {bs : List UInt8} (h : Reads (TextStore.read s) p bs) :
    memchr s ch ⟨some p, bs.length⟩ = .ok ((cut (· == ch) bs).map fun t => p + t.1.length) :=
  CString.memchr_eq ch h

/-- `strncmp` over the length of the literal compares with the front. -/
theorem strncmp_views {c : Cursor} {bs lit : List UInt8} (h : Views s a e c bs) (hne : bs ≠ [])
    (hlen : lit.length ≤ bs.length) : strncmp s c.ptr lit = .ok (lit.isPrefixOf bs) := by
  obtain ⟨p, rfl, -, -, hr⟩ := h.ptr_of_ne_nil hne
  exact CString.strncmp_eq hr hlen

/-- A name is compared byte by byte and by its length, so a longer token that begins with the name
    is another one. -/
theorem isName_views {c : Cursor} {bs : List UInt8} (h : Views s a e c bs) {name : List UInt8}
    (hname : name ≠ []) :
    isName s c name = .ok (decide (bs = name)) := by
  rw [isName, h.len]
  split
  · next hlen =>
    have hne : bs ≠ [] := fun hb => by
      rw [hb] at hlen
      exact hname (List.eq_nil_of_length_eq_zero hlen.symm)
    rw [strncmp_views h hne (Nat.le_of_eq hlen.symm)]
    congr 1
    rw [Bool.eq_iff_iff, List.isPrefixOf_iff_prefix, decide_eq_true_iff]
    constructor
    · intro hp
      exact (hp.eq_of_length hlen.symm).symm
    · rintro rfl
      exact List.prefix_refl _
  · next hlen =>
    congr 1
    exact (decide_eq_false fun hb => hlen (congrArg List.length hb)).symm

/-- A buffer delivers its bytes. -/
theorem readAt_reads (pre bs : List UInt8) : Reads (readAt (pre ++ bs)) pre.length bs := by
  induction bs generalizing pre with
  | nil => trivial
  | cons b bs ih =>
    constructor
    · rw [readAt, List.getElem?_append_right (Nat.le_refl _), Nat.sub_self]
      rfl
    · have := ih (pre ++ [b])
      rwa [List.append_assoc, List.singleton_append, List.length_append] at this

/-- A copy gives the bytes that are read. -/
theorem copy_at : ∀ {p : Nat} {bs : List UInt8}, Reads (TextStore.read s) p bs →
    copy s p bs.length = .ok bs := by
  intro p bs
  induction bs generalizing p with
  | nil => intro _; rfl
  | cons b bs ih =>
    rintro ⟨hb, hbs⟩
    rw [List.length_cons, copy, hb, Run.ok_bind, ih hbs]
    rfl

/-- A clone gives the bytes that are viewed. -/
theorem chunk_clone_views {c : Cursor} {bs : List UInt8} (h : Views s a e c bs) :
    chunk_clone s c = .ok bs := by
  cases h with
  | null => rfl
  | here _ _ hr => exact copy_at hr

/-! ## Tokens

  The lemmas with `_at` know the address, those with `_views` do not. -/

/-- A byte that ends a token: a blank counts as a space. -/
def stops (termination b : UInt8) : Bool := b == termination || (termination == SPACE && b == TAB)

/-- A space or a tab. -/
abbrev blank (b : UInt8) : Bool := stops SPACE b

/-- A termination other than the blank stops at itself only. -/
theorem stops_of_ne {termination : UInt8} (h : termination ≠ SPACE) :
    stops termination = (· == termination) := by
  funext b
  simp [stops, h]

/-- `endOfToken` cuts at the termination. -/
theorem endOfToken_at (termination : UInt8) {p : Nat} {bs : List UInt8}
    (h : Reads (TextStore.read s) p bs) :
    endOfToken s ⟨some p, bs.length⟩ termination = .ok ((cut (stops termination) bs).map fun t =>
      p + t.1.length) := by
  rw [endOfToken, memchr_at _ h, Run.ok_bind]
  by_cases ht : termination = SPACE
  · subst ht
    rw [if_pos rfl, memchr_at _ h, Run.ok_bind,
      show stops SPACE = fun b => b == SPACE || b == TAB
        from by funext b; simp [stops], CString.cut_or]
    cases cut (· == SPACE) bs <;> cases cut (· == TAB) bs <;> simp
    split <;> simp
  · rw [if_neg ht, stops_of_ne ht]

/-- `extractToken` by the cut. -/
theorem extractToken_at (termination : UInt8) {p : Nat} {bs : List UInt8}
    (h : Reads (TextStore.read s) p bs) :
    extractToken s ⟨some p, bs.length⟩ termination = .ok (match cut (stops termination) bs with
      | some (token, rest) => (.STATUS_SUCCESS, ⟨some (p + token.length + 1), rest.length⟩,
        ⟨some p, token.length⟩)
      | none => (.STATUS_FAILED, ⟨some p, bs.length⟩, .null)) := by
  rw [extractToken, endOfToken_at _ h, Run.ok_bind]
  cases hcut : cut (stops termination) bs with
  | none => rfl
  | some t =>
    have hl := CString.cut_length hcut
    simp only [Option.map_some, deref, Run.ok_bind]
    rw [show p + t.1.length - p = t.1.length from by omega,
      show bs.length - (t.1.length + 1) = t.2.length from by omega]

/-- It fails on the null chunk. -/
theorem extractToken_null (termination : UInt8) :
    extractToken s .null termination = .ok (.STATUS_FAILED, .null, .null) := by
  have hnull : endOfToken s .null termination = .ok none := by
    rw [endOfToken]
    show (if termination = SPACE then _ else _) = _
    split <;> rfl
  rw [extractToken, hnull]
  rfl

/-- **A token is what stands before the first stop.** With a stop the token and the rest are views
    in the same range; without one it fails and leaves the source. -/
theorem extractToken_views {c : Cursor} {bs : List UInt8} (h : Views s a e c bs)
    (termination : UInt8) :
    match cut (stops termination) bs with
    | some (token, rest) => ∃ src tok, extractToken s c termination = .ok
      (.STATUS_SUCCESS, src, tok) ∧
        Views s a e src rest ∧ Views s a e tok token
    | none => extractToken s c termination = .ok (.STATUS_FAILED, c, .null) := by
  cases h with
  | null => exact extractToken_null termination
  | @here p bs ha he hr =>
    rw [extractToken_at termination hr]
    cases hcut : cut (stops termination) bs with
    | none => rfl
    | some t =>
      obtain ⟨token, rest⟩ := t
      obtain ⟨b, -, rfl, -⟩ := CString.cut_some hcut
      obtain ⟨htok, -, hrest⟩ := Reads.append.mp hr
      rw [List.length_append, List.length_cons] at he
      exact ⟨_, _, rfl, .here (by omega) (by omega) hrest, .here ha (by omega) htok⟩

/-- Where there is a cut, the token and the rest are the two sides of it. -/
theorem extractToken_some {c : Cursor} {bs token rest : List UInt8} (h : Views s a e c bs)
    {termination : UInt8}
    (hcut : cut (stops termination) bs = some (token, rest)) :
    ∃ src tok, extractToken s c termination = .ok (.STATUS_SUCCESS, src, tok) ∧
    Views s a e src rest ∧ Views s a e tok token := by
  have := extractToken_views h termination
  rwa [hcut] at this

/-- Where there is none, it fails and leaves the source. -/
theorem extractToken_none {c : Cursor} {bs : List UInt8} (h : Views s a e c bs)
    {termination : UInt8}
    (hcut : cut (stops termination) bs = none) :
    extractToken s c termination = .ok (.STATUS_FAILED, c, .null) := by
  have := extractToken_views h termination
  rwa [hcut] at this

/-- Blanks in front are skipped, by induction on the bytes in view. -/
theorem skipBlanks_views : ∀ {c : Cursor} {bs : List UInt8}, Views s a e c bs →
    ∃ c', skipBlanks s c.ptr c.len = .ok c' ∧ Views s a e c' (bs.dropWhile blank) := by
  intro c bs
  induction bs generalizing c with
  | nil =>
    intro h
    refine ⟨c, ?_, h⟩
    obtain ⟨ptr, len⟩ := c
    obtain rfl : len = 0 := h.len
    rfl
  | cons b bs ih =>
    intro h
    obtain ⟨hb, htail⟩ := h.cons
    have hlen : c.len = bs.length + 1 := h.len
    rw [hlen, skipBlanks, hb, Run.ok_bind, List.dropWhile_cons]
    by_cases hblank : b = SPACE ∨ b = TAB
    · rw [if_pos hblank, if_pos (by simpa [blank, stops] using hblank)]
      obtain ⟨c', hc', hv⟩ := ih htail
      refine ⟨c', ?_, hv⟩
      rw [show (skip1 c).len = bs.length from htail.len] at hc'
      exact hc'
    · rw [if_neg hblank, if_neg (by simpa [blank, stops] using hblank)]
      refine ⟨⟨c.ptr, bs.length + 1⟩, rfl, ?_⟩
      rw [← hlen]
      exact h

/-- Whether the bytes begin with something that is no comment. -/
def begins : List UInt8 → Bool
  | [] => false
  | b :: _ => b != HASH

/-- **Leading blanks go.** -/
theorem eatWhitespace_views {c : Cursor} {bs : List UInt8} (h : Views s a e c bs) :
    ∃ c', eatWhitespace s c = .ok (begins (bs.dropWhile blank), c') ∧
    Views s a e c' (bs.dropWhile blank) := by
  obtain ⟨c', hc', hv⟩ := skipBlanks_views h
  refine ⟨c', ?_, hv⟩
  rw [eatWhitespace, hc', Run.ok_bind]
  generalize bs.dropWhile blank = rest at hv
  cases rest with
  | nil => rw [if_neg (by rw [hv.len]; exact Nat.lt_irrefl 0)]; rfl
  | cons b rest => rw [if_pos (by rw [hv.len]; exact Nat.succ_pos _), hv.cons.1]; rfl

/-- The delimiter of a value, and the bytes behind an opening quote. -/
def quoted : List UInt8 → UInt8 × List UInt8
  | [] => (SPACE, [])
  | b :: bs => if b = QUOTE ∨ b = DQUOTE then (b, bs) else (SPACE, b :: bs)

/-- An opening quote is skipped and remembered. -/
theorem openQuote_views {c : Cursor} {bs : List UInt8} (h : Views s a e c bs)
    (hne : begins bs = true) :
    ∃ c', openQuote s c = .ok ((quoted bs).1, c') ∧ Views s a e c' (quoted bs).2 := by
  cases bs with
  | nil => cases hne
  | cons b bs =>
    obtain ⟨hb, htail⟩ := h.cons
    rw [openQuote, hb, Run.ok_bind, quoted]
    split
    · exact ⟨_, rfl, htail⟩
    · exact ⟨_, rfl, h⟩

/-- The value at the front, between quotes or up to the next blank, and what stands behind it; none
    when a quote is not closed. -/
def valueOf (bs : List UInt8) : Option (List UInt8 × List UInt8) :=
  match cut (stops (quoted bs).1) (quoted bs).2 with
  | some v => some v
  | none => if (quoted bs).1 = SPACE then some ((quoted bs).2, []) else none

/-- Behind an opening quote, or in front of a value without one. -/
theorem extractValue_views {c : Cursor} {bs : List UInt8} (h : Views s a e c bs)
    (hb : begins bs = true) :
    ∃ c' : Cursor, openQuote s c = .ok ((quoted bs).1, c') ∧ Views s a e c' (quoted bs).2 ∧
      match cut (stops (quoted bs).1) (quoted bs).2 with
      | some (value, rest) => ∃ src v, extractToken s c' (quoted bs).1 = .ok
        (.STATUS_SUCCESS, src, v) ∧
          Views s a e src rest ∧ Views s a e v value
      | none => extractToken s c' (quoted bs).1 = .ok (.STATUS_FAILED, c', .null) := by
  obtain ⟨c', hc', hv⟩ := openQuote_views h hb
  exact ⟨c', hc', hv, extractToken_views hv _⟩

/-! ## Lines

  A line is what is in front of the next newline, or the whole rest where there is none.  `Line`
  remembers which of the two it was, since only in the first case a NUL is put behind it. -/

/-- The carriage return at the end of a line is taken off. -/
theorem removeCR_at {p : Nat} {bs : List UInt8} (h : Reads (TextStore.read s) p bs) :
    removeCR s ⟨some p, bs.length⟩ = .ok ⟨some p, (Line.content ⟨bs, true⟩).length⟩ := by
  rw [removeCR, Line.content]
  rcases List.eq_nil_or_concat bs with rfl | ⟨init, b, rfl⟩
  · rfl
  · rw [List.concat_eq_append] at h ⊢
    have hr : Reads (TextStore.read s) (p + init.length) [b] := (Reads.append.mp h).2
    have hb : TextStore.read s (p + init.length) = .ok b := hr.1
    rw [if_pos (by simp)]
    simp only [load, Option.map_some, deref, Run.ok_bind, List.length_append, List.length_singleton,
      Nat.add_sub_cancel, hb, List.getLast?_concat, List.dropLast_concat, true_and,
        Option.some.injEq]
    split <;> simp

/-- No line is fetched from nothing. -/
theorem fetchLine_none (s : σ) {src : Cursor} (line : Cursor) (h : src.len = 0) :
    fetchLine s src line = .ok (.STATUS_FAILED, s, src, line) := if_pos h

/-- What taking the line `l` off the text `bs` at `p` leaves: the rest of the text at `q`, and a NUL
    behind the line if a newline was there. -/
structure Fetched (s : σ) (p : Nat) (bs : List UInt8) (s' : σ) (l : Line) (q : Nat) : Prop where
  lines_eq : lines bs = l :: lines (afterLine bs)
  size_eq : TextStore.size s' = TextStore.size s
  line : Reads (TextStore.read s') p l.content
  stop : TextStore.read s' (p + l.content.length) = if l.ended then .ok 0 else .error .outOfBounds
  reads_rest : Reads (TextStore.read s') q (afterLine bs)
  line_le : p + l.content.length + (if l.ended then 1 else 0) ≤ q
  rest_end : q + (afterLine bs).length = p + bs.length
  rest_lt : (afterLine bs).length < bs.length
  before : ∀ r, r < p → TextStore.read s' r = TextStore.read s r
  decoded_eq : ∀ n, n ≤ p → TextStore.decoded s' n = TextStore.decoded s n
  written_eq : TextStore.written s' = TextStore.written s

/-- The content is the front of its line. -/
theorem content_front (l : Line) : l.content <+: l.bytes := by
  rw [Line.content]
  split
  · exact List.dropLast_prefix _
  · exact List.prefix_refl _

/-- A line with a newline, and the NUL that stands behind it then. -/
theorem Fetched.newline {p : Nat} {token rest : List UInt8} {b : UInt8} {s' : σ}
    (h : Reads (TextStore.read s) p (token ++ b :: rest))
    (hcut : cut (· == LF) (token ++ b :: rest) = some (token, rest))
    (ht : Terminated s (p + (Line.content ⟨token, true⟩).length) s') :
    Fetched s p (token ++ b :: rest) s' ⟨token, true⟩ (p + token.length + 1) := by
  have hafter : afterLine (token ++ b :: rest) = rest := by rw [afterLine, hcut]
  obtain ⟨htok, -, hrest⟩ := Reads.append.mp h
  have hpre := content_front ⟨token, true⟩
  have hcl : (Line.content ⟨token, true⟩).length ≤ token.length := hpre.length_le
  have hlen : (token ++ b :: rest).length = token.length + (rest.length + 1) := List.length_append
  exact {
    lines_eq := by rw [hafter]; exact TextLines.lines_of_cut hcut
    size_eq := ht.size_eq
    line := by
      -- the NUL stands behind the line
      obtain ⟨tail, htail⟩ := hpre
      simp only at htail
      rw [← htail] at htok
      exact (Reads.append.mp htok).1.congr fun q hq hlt => ht.other q (by omega)
    stop := ht.nul
    reads_rest := by
      rw [hafter]
      exact hrest.congr fun q hq _ => ht.other q (by omega)
    line_le := by simp only [if_true]; omega
    rest_end := by rw [hafter]; omega
    rest_lt := by rw [hafter]; omega
    before := fun r hr => ht.other r (by omega)
    decoded_eq := fun n hn => ht.decoded_eq n (by omega)
    written_eq := ht.written_eq }

variable [LawfulTextStore σ] {p : Nat} {bs : List UInt8}

/-- The last line, which ends without newline. -/
theorem Fetched.last (h : Reads (TextStore.read s) p bs) (hne : bs ≠ [])
    (hend : p + bs.length = TextStore.size s)
    (hcut : cut (· == LF) bs = none) (hafter : afterLine bs = []) :
    Fetched s p bs s ⟨bs, false⟩ (p + bs.length) where
  lines_eq := by rw [hafter]; exact TextLines.lines_of_cut_none hcut hne
  size_eq := rfl
  line := h
  stop := LawfulTextStore.read_ge s _ (Nat.le_of_eq hend.symm)
  reads_rest := by rw [hafter]; trivial
  line_le := Nat.le_refl _
  rest_end := by rw [hafter]; rfl
  rest_lt := by rw [hafter]; exact List.length_pos_iff.mpr hne
  before _ _ := rfl
  decoded_eq _ _ := rfl
  written_eq := rfl

/-- **`fetchLine` takes one line off the text.** The two cases are those of the cut at the newline;
    in the first the NUL goes to where the carriage return was, if there is one, and both places are
    behind the content and in front of the rest. -/
theorem fetchLine_some (line : Cursor) (h : Reads (TextStore.read s) p bs) (hne : bs ≠ [])
    (hend : p + bs.length = TextStore.size s) : ∃ s' l q, Fetched s p bs s' l q ∧
      fetchLine s ⟨some p, bs.length⟩ line =
        .ok (.STATUS_SUCCESS, s', ⟨some q, (afterLine bs).length⟩, ⟨some p, l.content.length⟩) := by
  have hlen : bs.length ≠ 0 := fun h0 => hne (List.eq_nil_of_length_eq_zero h0)
  rw [fetchLine, if_neg hlen, extractToken_at LF h, Run.ok_bind, stops_of_ne (by decide)]
  cases hcut : cut (· == LF) bs with
  | none =>
    have hafter : afterLine bs = [] := by rw [afterLine, hcut]
    exact ⟨s, ⟨bs, false⟩, p + bs.length, .last h hne hend hcut hafter, by rw [hafter]; rfl⟩
  | some t =>
    obtain ⟨token, rest⟩ := t
    have hafter : afterLine bs = rest := by rw [afterLine, hcut]
    obtain ⟨b, -, rfl, -⟩ := CString.cut_some hcut
    have hcl : (Line.content ⟨token, true⟩).length ≤ token.length :=
      (content_front ⟨token, true⟩).length_le
    simp only [List.length_append, List.length_cons] at hend
    obtain ⟨s', hs', ht⟩ := LawfulTextStore.terminate_lt s (p + (Line.content ⟨token, true⟩).length)
      (by omega)
    refine ⟨s', ⟨token, true⟩, p + token.length + 1, .newline h hcut ht, ?_⟩
    rw [hafter]
    simp only [removeCR_at (Reads.append.mp h).1, Run.ok_bind, deref, hs']

end Lexparser

end StevenProgram
