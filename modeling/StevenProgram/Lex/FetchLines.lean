/-
  `fetchLine` called until it fails.

  Every call takes a line off the front of what is left, and writes a NUL into the buffer it is
  splitting: where the carriage return or the newline of the line was.  Those bytes are behind the
  line and in front of what is left, so later calls split the text as it was.

  1.  **The calls** — `fetchLines`, with the cursors and the buffer each call leaves.

  2.  **Marks** — `Marked text mem q` is the invariant: the buffer `mem` differs from `text` in
     front of `q` only, and only by NULs in place of terminators.  `marked_fetch` is one call,
     `fetchLines_from` the run lemma: by induction on the fuel, with the place and the buffer
     generalised, of which there is more than there are bytes left.

  3.  **Headline** (`fetchLines_pieces`) — for every text: the calls end, the lines have been the
     contents of its pieces in order, and after each of them the buffer is marked up to what is
     left.
-/
import StevenProgram.Lex.Tokens

namespace StevenProgram

open Asn1 (Cursor)
open CString (Reads cut)
open TextLines (LF CR Line lines afterLine Pieces)

namespace Lexparser

/-! ## The calls -/

/-- What a call leaves: the line it took, what is left of the text, and the buffer. -/
structure Fetch where
  line : Cursor
  src : Cursor
  store : InPlace

/-- `while (fetchLine(&src, &line) == STATUS_SUCCESS)`, up to `fuel` calls. -/
def fetchLines : Nat → InPlace → Cursor → Cursor → Run (List Fetch)
  | 0, _, _, _ => .error .diverged
  | fuel + 1, s, src, line => do
      let (ret, s, src, line) ← fetchLine s src line
      if ret = .STATUS_SUCCESS then do
        let fs ← fetchLines fuel s src line
        .ok (⟨line, src, s⟩ :: fs)
      else .ok []

/-! ## Marks

  Compared with the text byte by byte, so that nothing has to be said about the order in which the
  NULs were written. -/

/-- A newline, or the carriage return in front of one. -/
def Terminator (text : List UInt8) (p : Nat) : Prop :=
  text[p]? = some LF ∨ text[p]? = some CR ∧ text[p + 1]? = some LF

/-- The buffer behind the lines up to `q`: the rest is untouched, and a byte that is not the text's
    is a NUL in place of a terminator. -/
structure Marked (text mem : List UInt8) (q : Nat) : Prop where
  size : mem.length = text.length
  rest : mem.drop q = text.drop q
  changed : ∀ p, mem[p]? ≠ text[p]? → mem[p]? = some 0 ∧ Terminator text p

/-- Nothing is marked before the first line. -/
theorem marked_start (text : List UInt8) : Marked text text 0 := ⟨rfl, rfl, fun _ h => absurd rfl h⟩

/-- What `fetchLine` does to the buffer. -/
theorem fetchLine_store {s s' : InPlace} {src line src' line' : Cursor}
    (h : fetchLine s src line = .ok (.STATUS_SUCCESS, s', src', line')) :
    s' = s ∨ ∃ p, line'.ptr = some p ∧ TextStore.terminate s (p + line'.len) = .ok s' := by
  rw [fetchLine] at h
  split at h
  · cases h
  · obtain ⟨⟨ret, src1, token⟩, -, h⟩ := Run.bind_ok.mp h
    simp only [] at h
    split at h
    · obtain ⟨line1, -, h⟩ := Run.bind_ok.mp h
      obtain ⟨p, hp, h⟩ := Run.bind_ok.mp h
      obtain ⟨s1, hs1, h⟩ := Run.bind_ok.mp h
      cases h
      right
      refine ⟨p, ?_, hs1⟩
      cases hptr : line'.ptr with
      | none =>
        rw [hptr] at hp
        cases hp
      | some p' =>
        rw [hptr] at hp
        cases hp
        rfl
    · cases h
      exact .inl rfl

/-- Behind the content of a finished line its terminator begins. -/
theorem terminator_of_line {bs : List UInt8} {l : Line}
    (hlines : lines bs = l :: lines (afterLine bs)) (hended : l.ended = true) :
    Terminator bs l.content.length := by
  cases hcut : cut (· == LF) bs with
  | none =>
    by_cases hbs : bs = []
    · rw [hbs] at hlines
      cases hlines
    · rw [TextLines.lines_of_cut_none hcut hbs] at hlines
      obtain rfl := (List.cons.inj hlines).1
      cases hended
  | some t =>
    obtain ⟨token, rest⟩ := t
    rw [TextLines.lines_of_cut hcut] at hlines
    obtain rfl := (List.cons.inj hlines).1
    obtain ⟨b, hb, rfl, -⟩ := CString.cut_some hcut
    obtain rfl : b = LF := by simpa using hb
    rw [Line.content]
    split
    · next hcr =>
      -- the carriage return of the newline
      obtain ⟨init, hinit⟩ := List.getLast?_eq_some_iff.mp hcr.2
      simp only at hinit
      right
      rw [hinit, List.dropLast_concat, List.append_assoc]
      constructor
      · rw [List.getElem?_append_right (Nat.le_refl _), Nat.sub_self]
        rfl
      · rw [List.getElem?_append_right (Nat.le_succ _), Nat.succ_sub (Nat.le_refl _), Nat.sub_self]
        rfl
    · left
      rw [List.getElem?_append_right (Nat.le_refl _), Nat.sub_self]
      rfl

/-- A terminator of the rest is one of the whole text. -/
theorem terminator_drop {text : List UInt8} {q p : Nat} (h : Terminator (text.drop q) p) :
    Terminator text (q + p) := by
  rw [Terminator, List.getElem?_drop, List.getElem?_drop] at h
  exact h

/-- Bytes that are read one by one. -/
theorem take_of_reads {mem : List UInt8} : ∀ {p : Nat} {bs : List UInt8}, Reads (readAt mem) p bs →
    (mem.drop p).take bs.length = bs := by
  intro p bs
  induction bs generalizing p with
  | nil =>
    intro _
    rfl
  | cons b bs ih =>
    intro h
    obtain ⟨hb, hbs⟩ := h
    have hp : p < mem.length := by
      rcases Nat.lt_or_ge p mem.length with hlt | hge
      · exact hlt
      · rw [readAt_ge hge] at hb
        cases hb
    rw [readAt_lt hp] at hb
    rw [List.drop_eq_getElem_cons hp, List.length_cons, List.take_succ_cons, ih hbs,
      Except.ok.inj hb]

/-- The rest of a text is read at its place. -/
theorem reads_drop {mem : List UInt8} {q : Nat} (h : q ≤ mem.length) :
    Reads (readAt mem) q (mem.drop q) := by
  have hreads := readAt_reads (mem.take q) (mem.drop q)
  rw [List.take_append_drop, List.length_take_of_le h] at hreads
  exact hreads

/-- What `terminate` does to a buffer. -/
theorem terminate_inPlace {s s' : InPlace} {p : Nat} (h : TextStore.terminate s p = .ok s') :
    p < s.mem.length ∧ s'.mem = s.mem.set p 0 := by
  change (writeAt s.mem p 0).map _ = _ at h
  rcases Nat.lt_or_ge p s.mem.length with hlt | hge
  · rw [writeAt_lt hlt] at h
    cases h
    exact ⟨hlt, rfl⟩
  · have hout : writeAt s.mem p 0 = .error .outOfBounds := if_neg (Nat.not_lt.mpr hge)
    rw [hout] at h
    cases h

/-- What is left of a text is found from its length. -/
theorem drop_of_suffix {text rest : List UInt8} {q q' : Nat} (h : rest <:+ text.drop q)
    (hsum : q' + rest.length = q + (text.drop q).length) : rest = text.drop q' := by
  obtain ⟨front, hfront⟩ := h
  have hlen := congrArg List.length hfront
  rw [List.length_append] at hlen
  have hq' : q' = q + front.length := by omega
  rw [hq', ← List.drop_drop, ← hfront, List.drop_left]

/-- A line further on, nothing new is marked. -/
theorem Marked.forward {text mem : List UInt8} {q q' : Nat} (h : Marked text mem q) (hle : q ≤ q') :
    Marked text mem q' where
  size := h.size
  rest := by
    have hq' : q' = q + (q' - q) := by omega
    rw [hq', ← List.drop_drop, ← List.drop_drop, h.rest]
  changed := h.changed

/-- The NUL of one more line. -/
theorem Marked.terminate {text mem : List UInt8} {p q : Nat} (h : Marked text mem q) (hp : p < q)
    (hin : p < mem.length)
    (hterm : Terminator text p) : Marked text (mem.set p 0) q where
  size := List.length_set.trans h.size
  rest := by rw [List.drop_set_of_lt hp, h.rest]
  changed := by
    intro r hr
    by_cases heq : p = r
    · rw [← heq, List.getElem?_set_self hin]
      exact ⟨rfl, hterm⟩
    · rw [List.getElem?_set_ne heq] at hr ⊢
      exact h.changed r hr

/-- A call that takes a line off leaves the buffer marked, up to what is left. -/
theorem marked_fetched {text : List UInt8} {s s' : InPlace} {q q' : Nat} {l : Line}
    {src line : Cursor}
    (h : Marked text s.mem q) (hfetched : Fetched s q (text.drop q) s' l q')
    (hrun : fetchLine s src line = .ok (.STATUS_SUCCESS, s', ⟨some q', (text.drop q').length⟩,
      ⟨some q, l.content.length⟩)) :
    Marked text s'.mem q' := by
  have hstop := hfetched.line_le
  rcases fetchLine_store hrun with rfl | ⟨p, hp, hterminate⟩
  · exact h.forward (by omega)
  · obtain rfl : q = p := Option.some.inj hp
    obtain ⟨hin, hmem⟩ :
      q + l.content.length < s.mem.length ∧ s'.mem = s.mem.set (q + l.content.length) 0 :=
      terminate_inPlace hterminate
    -- the NUL stands where the terminator of the line began
    have hended : l.ended = true := by
      have hread : readAt s'.mem (q + l.content.length) = _ := hfetched.stop
      rw [hmem, readAt_lt (by rw [List.length_set]; exact hin)] at hread
      split at hread
      · assumption
      · cases hread
    rw [hended, if_pos rfl] at hstop
    rw [hmem]
    apply Marked.terminate (h.forward (by omega)) (by omega) hin
    exact terminator_drop (terminator_of_line hfetched.lines_eq hended)

/-- **One call**, on a buffer that earlier calls have marked. -/
theorem marked_fetch {text : List UInt8} {s : InPlace} {q : Nat} (line : Cursor)
    (h : Marked text s.mem q) (hq : q < text.length) :
    ∃ s' l q', fetchLine s ⟨some q, (text.drop q).length⟩ line =
        .ok (.STATUS_SUCCESS, s', ⟨some q', (text.drop q').length⟩, ⟨some q, l.content.length⟩) ∧
      Marked text s'.mem q' ∧ lines (text.drop q) = l :: lines (text.drop q') ∧ q < q' ∧
      q' ≤ text.length ∧
      (Cursor.bytes s'.mem ⟨some q, l.content.length⟩) = l.content := by
  have hlen : (text.drop q).length = text.length - q := List.length_drop
  have hreads : Reads (TextStore.read s) q (text.drop q) := by
    rw [← h.rest]
    exact reads_drop (by rw [h.size]; omega)
  have hne : text.drop q ≠ [] := List.ne_nil_of_length_pos (by omega)
  have hend : q + (text.drop q).length = TextStore.size s := by
    show _ = s.mem.length
    rw [h.size]
    omega
  obtain ⟨s', l, q', hfetched, hrun⟩ := fetchLine_some line hreads hne hend
  have hsum := hfetched.rest_end
  have hless := hfetched.rest_lt
  -- what is left is the text behind the line
  have hafter : afterLine (text.drop q) = text.drop q' :=
    drop_of_suffix (TextLines.afterLine_suffix _) hsum
  rw [hafter] at hrun
  refine ⟨s', l, q', hrun, ?_, ?_, by omega, by omega, take_of_reads hfetched.line⟩
  · exact marked_fetched h hfetched hrun
  · exact hafter ▸ hfetched.lines_eq

/-- **Run lemma.** -/
theorem fetchLines_from (text : List UInt8) :
    ∀ (fuel : Nat) (s : InPlace) (q : Nat) (line : Cursor),
    Marked text s.mem q → q ≤ text.length → text.length - q < fuel →
    ∃ fs, fetchLines fuel s ⟨some q, (text.drop q).length⟩ line = .ok fs ∧
      fs.map (fun f => f.line.bytes f.store.mem) = (lines (text.drop q)).map Line.content ∧
      ∀ f ∈ fs, ∃ q', f.src = ⟨some q', (text.drop q').length⟩ ∧ Marked text f.store.mem q' := by
  intro fuel
  induction fuel with
  | zero =>
    intro s q line _ _ hfuel
    exact absurd hfuel (Nat.not_lt_zero _)
  | succ fuel ih =>
    intro s q line h hq hfuel
    rw [fetchLines]
    rcases Nat.lt_or_ge q text.length with hlt | hge
    · obtain ⟨s', l, q', hrun, hmarked, hlines, hforward, hle, hbytes⟩ := marked_fetch line h hlt
      obtain ⟨fs, hfs, hcontents, hall⟩ := ih s' q' ⟨some q, l.content.length⟩ hmarked hle
        (by omega)
      simp only [hrun, Run.ok_bind, if_true, hfs]
      refine ⟨_, rfl, ?_, ?_⟩
      · rw [List.map_cons, hcontents, hbytes, hlines, List.map_cons]
      · rw [List.forall_mem_cons]
        exact ⟨⟨q', rfl, hmarked⟩, hall⟩
    · have hnil : text.drop q = [] := List.drop_eq_nil_of_le hge
      rw [fetchLine_none s line (by rw [hnil]; rfl), hnil]
      exact ⟨[], rfl, rfl, fun _ h => absurd h List.not_mem_nil⟩

/-! ## Headline -/

/-- **`fetchLine` splits every text at its newlines**: after at most one call for each byte it
    fails, the lines have been the contents of the pieces in order, and after each call the buffer
    in front of what is left differs from the text only by NULs in place of terminators, and what is
    left not at all. -/
theorem fetchLines_pieces (text : Chunk) (line : Cursor) :
    Pieces text.bytes (lines text.bytes) ∧
    ∃ fs, fetchLines (text.len + 1) (.of text.bytes) ⟨some 0, text.len⟩ line = .ok fs ∧
      fs.map (fun f => f.line.bytes f.store.mem) = (lines text.bytes).map Line.content ∧
      ∀ f ∈ fs, ∃ q, f.src = ⟨some q, text.len - q⟩ ∧ Marked text.bytes f.store.mem q := by
  refine ⟨TextLines.lines_pieces text.bytes, ?_⟩
  obtain ⟨fs, hfs, hcontents, hall⟩ :=
    fetchLines_from text.bytes (text.len + 1) (.of text.bytes) 0 line (marked_start _)
      (Nat.zero_le _) (Nat.lt_succ_self _)
  refine ⟨fs, hfs, hcontents, ?_⟩
  intro f hf
  obtain ⟨q, hq, hmarked⟩ := hall f hf
  rw [List.length_drop] at hq
  exact ⟨q, hq, hmarked⟩

end Lexparser

end StevenProgram
