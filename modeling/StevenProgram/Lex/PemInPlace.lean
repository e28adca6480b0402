/-
  Decoding into the buffer that is being read.

  `convertPEM2BIN` writes what a line decodes to at the front of the text it still reads from.
  Compared with a run that decodes into a second buffer nothing changes (`convertPEM2BIN_inPlace`),
  because the decoded bytes never reach what has not been read (`Moment.written_le`), be it between
  two lines, while a line is looked at, or between the writes of a group.  The NULs behind the lines
  are another matter: a boundary is searched with `strstr`, which without them runs on into the next
  line (`convertPEM2BIN_terminators`).

  1.  **Runs** — `Reached`, `Looking`, `Decoding`: the configurations between lines, the looks at a
     line, and the groups of a decoding.  `Moment` puts them together: the stores of a run, each
     with the place from which the input has not been read.

  2.  **Cursors** — `Reached.stands` is the invariant between lines; `Looking.at_line` carries it
     into a line and `Decoding.written_le` into a group.

  3.  **The stores compared** — `convertPEM2BIN_inPlace`, on the two stores whose line ends read as
     NUL; `convertPEM2BIN_terminators`, against the store whose text is not touched at all.

  Both comparisons go through the machine on lines: two lawful stores that hold one text run alike
  because each runs like it, and nothing has to be said about the two runs step by step.
-/
import StevenProgram.Lex.PemLines

namespace StevenProgram

open Asn1 (Cursor)
open CString (Reads)
open TextLines (Line lines afterLine)

namespace Pem

open Lexparser

/-! ## Runs

  Inductive relations rather than functions: a moment of a run is one of many, and the statement is
  about all of them. -/

section Runs

variable {σ : Type} [TextStore σ]

/-- The configurations between the lines, on a text of `n` bytes in `s0`. -/
inductive Reached (s0 : σ) (n : Nat) : PemConfig σ → Prop
  | start : Reached s0 n (pemStart s0 n)
  | turn {c c' : PemConfig σ} : Reached s0 n c → pemTurn c = .ok (.next c') → Reached s0 n c'

/-- A line that is looked at, in which state and with how many bytes decoded. -/
inductive Looking (s0 : σ) (n : Nat) : σ → Cursor → PemState → Nat → Prop
  | fetched {c : PemConfig σ} {s : σ} {blob line : Cursor} : Reached s0 n c →
      fetchLine c.text c.blob c.line = .ok (.STATUS_SUCCESS, s, blob, line) →
        Looking s0 n s line c.state c.result
  | again {s s' : σ} {line : Cursor} {state state' : PemState} {result result' : Nat} :
      Looking s0 n s line state result → analyseDataOfPEM s line state result = .ok
        (.STATUS_CONTINUE, s', state', result') →
      Looking s0 n s' line state' result'

/-- The bytes one behind the other from `q` on. -/
def emitAll : σ → Nat → List UInt8 → Run σ
  | s, _, [] => .ok s
  | s, q, b :: bs => do
      let s ← TextStore.emit s q b
      emitAll s (q + 1) bs

/-- The stores while `turns` groups at `pos` are decoded to `buf`, with the place of the next digit:
    behind so many groups, and between the writes of one. -/
inductive Decoding (s : σ) (pos buf turns : Nat) : σ → Nat → Prop
  | groups {k : Nat} {s' : σ} {outlen : Nat} : k ≤ turns →
      decodeGroups k s pos buf 0 = .ok (s', outlen) →
      Decoding s pos buf turns s' (pos + 4 * k)
  | writes {k : Nat} {s1 s' : σ} {outlen : Nat} {bs : List UInt8} : k < turns →
      decodeGroups k s pos buf 0 = .ok (s1, outlen) → bs.length ≤ 3 → emitAll s1 (buf + 3 * k) bs =
        .ok s' →
      Decoding s pos buf turns s' (pos + 4 * (k + 1))

/-- The stores of a run, each with the start of the input that has not been read. -/
inductive Moment (s0 : σ) (n : Nat) : σ → Nat → Prop
  | between {c : PemConfig σ} {p : Nat} : Reached s0 n c → c.blob.ptr = some p →
    Moment s0 n c.text p
  | looking {s : σ} {line : Cursor} {state : PemState} {result p : Nat} :
      Looking s0 n s line state result → line.ptr = some p → Moment s0 n s p
  | decoding {s s' : σ} {line data : Cursor} {result pos p : Nat} :
    Looking s0 n s line .PEM_BODY result →
      bodyData s line = .ok (some data) → data.ptr = some pos →
      Decoding s pos result (base64Turns data.len) s' p → Moment s0 n s' p

end Runs

/-! ## Cursors

  How far has been written, against how far has been read. -/

section Cursors

variable {σ : Type} [TextStore σ] {s0 s s' : σ} {src : List UInt8}

/-- What `step` says of a line is said at its last look. -/
theorem Does.not_again {result e result' : Nat} {r : Run (LexStatus × σ × PemState × Nat)}
    {st : Step} {state' : PemState}
    (h : Does s result e r st) : r ≠ .ok (.STATUS_CONTINUE, s', state', result') := by
  rintro rfl
  cases st with
  | fault f => cases h
  | failed => obtain ⟨_, h⟩ := h; cases h
  | next state data => obtain ⟨_, h, -⟩ := h; cases h

variable [LawfulTextStore σ]

/-- A turn that goes on takes a line off. -/
theorem Stands.next {n p : Nat} {c c' : PemConfig σ} {bs acc : List UInt8} (h : Stands n c p bs acc)
    (hturn : pemTurn c = .ok (.next c')) : ∃ l q data, lines bs = l :: lines (afterLine bs) ∧
      step c.state l = .next c'.state data ∧ Stands n c' q (afterLine bs) (acc ++ data) := by
  have hstep := pemTurn_step h
  cases hl : lines bs with
  | nil =>
    rw [hl] at hstep
    cases hturn.symm.trans hstep
  | cons l ls =>
    rw [hl] at hstep
    obtain ⟨rfl, -, hstep⟩ := hstep
    cases hs : step c.state l with
    | fault f =>
      rw [hs] at hstep
      cases hturn.symm.trans hstep
    | failed =>
      rw [hs] at hstep
      obtain ⟨c1, hc1, -⟩ := hstep
      cases hturn.symm.trans hc1
    | next state data =>
      rw [hs] at hstep
      obtain ⟨c1, q, hc1, rfl, hstands⟩ := hstep
      cases hturn.symm.trans hc1
      exact ⟨l, q, data, rfl, hs, hstands⟩

/-- The configuration stands in front of the rest of the text, and the machine is where it is. -/
theorem Reached.stands (h0 : Holds s0 src) {c : PemConfig σ} (h : Reached s0 src.length c) :
    ∃ p bs acc ls,
    Stands src.length c p bs acc ∧ bs <:+ src ∧ lines src = ls ++ lines bs ∧
    after .PEM_PRE [] ls = some (c.state, acc) := by
  induction h with
  | start => exact ⟨0, src, [], [], h0.stands, List.suffix_refl src, rfl, rfl⟩
  | turn _ hturn ih =>
    obtain ⟨p, bs, acc, ls, hs, hbs, hls, hafter⟩ := ih
    obtain ⟨l, q, data, hl, hstep, hs'⟩ := hs.next hturn
    refine ⟨q, afterLine bs, _, ls ++ [l], hs', (TextLines.afterLine_suffix bs).trans hbs, ?_, ?_⟩
    · rw [hls, hl, List.append_assoc]
      rfl
    · rw [after_append, hafter]
      show after _ acc [l] = _
      rw [after, hstep]
      rfl

/-- Where the machine gets, the run gets. -/
theorem Reached.of_after {ls : List Line} :
    ∀ {c : PemConfig σ} {p : Nat} {bs acc acc' : List UInt8} {rest : List Line}
    {state : PemState}, Reached s0 src.length c → Stands src.length c p bs acc →
      lines bs = ls ++ rest →
    after c.state acc ls = some (state, acc') → ∃ c', Reached s0 src.length c' ∧
    c'.state = state := by
  induction ls with
  | nil =>
    intro c p bs acc acc' rest state hr _ _ h
    cases h
    exact ⟨c, hr, rfl⟩
  | cons l ls ih =>
    intro c p bs acc acc' rest state hr hs hl h
    have hturn := pemTurn_step hs
    rw [hl] at hturn
    obtain ⟨hrest, -, hturn⟩ := hturn
    rw [after] at h
    cases hstep : step c.state l with
    | fault f =>
      rw [hstep] at h
      cases h
    | failed =>
      rw [hstep] at h
      cases h
    | next state' data =>
      rw [hstep] at h hturn
      obtain ⟨c', q, hc', rfl, hs'⟩ := hturn
      exact ih (.turn hr hc') hs' hrest h

/-- The conversion in the buffer reaches every state that the lines reach. -/
theorem reached_of_after (h0 : Holds s0 src) {ls rest : List Line} {state : PemState}
    {acc : List UInt8}
    (hl : lines src = ls ++ rest) (h : after .PEM_PRE [] ls = some (state, acc)) :
    ∃ c, Reached s0 src.length c ∧ c.state = state :=
  Reached.of_after .start h0.stands hl h

/-- **Nothing is written over input that has not been read**, so the rest of the text is still
    there. -/
theorem Reached.reads_src (h0 : Holds s0 src) {c : PemConfig σ} (h : Reached s0 src.length c) :
    ∃ p, c.blob = ⟨some p, src.length - p⟩ ∧ TextStore.written c.text ≤ p ∧
      Reads (TextStore.read c.text) p (src.drop p) := by
  obtain ⟨p, bs, acc, ls, hs, hbs, -⟩ := h.stands h0
  have hend := hs.rest_end
  -- of all ends of the text the length tells which one it is
  have hdrop : bs = src.drop p := by
    rw [List.suffix_iff_eq_drop.mp hbs]
    congr 1
    omega
  subst hdrop
  refine ⟨p, ?_, hs.written_le, hs.reads⟩
  rw [hs.blob, List.length_drop]

/-- The line that is looked at, in front of which everything decoded stands. -/
theorem Looking.at_line (h0 : Holds s0 src) {line : Cursor} {state : PemState} {result : Nat}
    (h : Looking s0 src.length s line state result) :
    ∃ p, ∃ l : Line, line = ⟨some p, l.content.length⟩ ∧
      LineAt s p l.content l.ended result ∧ TextStore.written s ≤ p := by
  induction h with
  | fetched hr hf =>
    next c s blob line =>
    obtain ⟨p, bs, acc, ls, hs, -⟩ := hr.stands h0
    rw [hs.blob] at hf
    by_cases hne : bs = []
    · subst hne
      cases (fetchLine_none c.text c.line rfl).symm.trans hf
    · obtain ⟨s', l, q, hfetched, he⟩ := fetchLine_some c.line hs.reads hne
        (hs.rest_end.trans hs.size_eq.symm)
      cases he.symm.trans hf
      have hle := hfetched.line_le
      have hend := hfetched.rest_end
      have hsize := hs.rest_end
      refine ⟨p, l, rfl, ?_, hfetched.written_eq ▸ hs.written_le⟩
      exact ⟨hfetched.line, hfetched.stop,
        by rw [hfetched.size_eq, hs.size_eq]; omega, hs.result_le⟩
  | again _ hagain ih =>
    next state _ _ _ _ =>
    obtain ⟨p, l, rfl, hline, hw⟩ := ih
    -- only the first look at a message asks for another
    cases state with
    | PEM_MSG =>
      cases (msg_looks hline).symm.trans hagain
      exact ⟨p, l, rfl, hline, hw⟩
    | PEM_PRE => exact absurd hagain (pre_does hline).not_again
    | PEM_HEADER => exact absurd hagain (header_does hline).not_again
    | PEM_BODY => exact absurd hagain (body_does hline).not_again
    | PEM_POST => cases hagain
    | PEM_ABORT => cases hagain

/-- Bytes emitted one after the other are written up to the end of the last. -/
theorem emitAll_written :
    ∀ {bs : List UInt8} {s s' : σ} {q : Nat}, q + bs.length ≤ TextStore.size s →
    emitAll s q bs = .ok s' → TextStore.written s' ≤ max (TextStore.written s) (q + bs.length) := by
  intro bs
  induction bs with
  | nil =>
    intro s s' q _ h
    cases h
    exact Nat.le_max_left _ _
  | cons b bs ih =>
    intro s s' q hsize h
    rw [List.length_cons] at hsize ⊢
    obtain ⟨s1, h1, he⟩ := LawfulTextStore.emit_lt s q b (by omega)
    rw [emitAll, h1, Run.ok_bind] at h
    have := ih (by rw [he.size_eq]; omega) h
    rw [he.written_eq] at this
    omega

/-- **While a line is decoded the writes stay behind the reads.** -/
theorem Decoding.written_le {pos buf turns p : Nat} {data : List UInt8}
    (h : Decoding s pos buf turns s' p)
    (hr : Reads (TextStore.read s) pos data) (hturns : 4 * turns ≤ data.length) (hbuf : buf ≤ pos)
    (hsize : pos + 4 * turns ≤ TextStore.size s) (hw : TextStore.written s ≤ pos) :
    TextStore.written s' ≤ p := by
  cases h with
  | @groups k _ _ hk hrun =>
    obtain ⟨s2, hs2, hdec⟩ := decodeGroups_at k _ 0 hr (show 4 * k ≤ data.length by omega) hbuf
      (by omega)
    cases hs2.symm.trans hrun
    have := hdec.written_le
    omega
  | @writes k _ _ _ bs hk hrun hlen hemit =>
    obtain ⟨s2, hs2, hdec⟩ := decodeGroups_at k _ 0 hr (show 4 * k ≤ data.length by omega) hbuf
      (by omega)
    cases hs2.symm.trans hrun
    have := hdec.written_le
    have := emitAll_written (by rw [hdec.size_eq]; omega) hemit
    omega

/-- **At every moment of a run**, what has been written ends where the input not yet read begins, or
    before: between two lines by `Stands`, at a line by `LineAt`, and inside a group because its
    digits are read before its bytes are written. -/
theorem Moment.written_le (h0 : Holds s0 src) {p : Nat} (h : Moment s0 src.length s p) :
    TextStore.written s ≤ p := by
  cases h with
  | between hr hp =>
    obtain ⟨q, hblob, hw, -⟩ := hr.reads_src h0
    rw [hblob] at hp
    cases hp
    exact hw
  | looking hl hp =>
    obtain ⟨q, l, rfl, -, hw⟩ := hl.at_line h0
    cases hp
    exact hw
  | decoding hl hdata hpos hd =>
    obtain ⟨q, l, rfl, hline, hw⟩ := hl.at_line h0
    have hbody := bodyData_views hline
    split at hbody
    · cases hbody.symm.trans hdata
    · obtain ⟨data, he, hviews⟩ := hbody
      cases he.symm.trans hdata
      generalize trimmed _ = bs at hviews
      cases hviews with
      | null => cases hpos
      | here hle hend hreads =>
        cases hpos
        have hd : Decoding _ _ _ (base64Turns bs.length) _ _ := hd
        have := base64Turns_le bs.length
        have := hline.in_text
        have := hline.result_le
        exact hd.written_le hreads (by omega) (by omega) (by omega) (Nat.le_trans hw hle)
    · cases hbody.symm.trans hdata

end Cursors

/-! ## The stores compared -/

/-- What a caller sees of a run: the status, the decoded bytes and `src.len`. -/
def seen {σ : Type} [TextStore σ] (r : Run (PemOutcome σ)) : Run (LexStatus × List UInt8 × Nat) :=
  r.map fun o => (o.status, TextStore.decoded o.text o.result, o.srcLen)

/-- What a caller sees is told by the lines, whatever the store. -/
theorem seen_eq {σ : Type} [TextStore σ] [LawfulTextStore σ] {s : σ} {src : List UInt8}
    (h : Holds s src) :
    seen (convertPEM2BIN s src.length) =
      (pemRun src).map fun v =>
        (v.status, v.decoded, if v.finished then v.decoded.length else src.length) := by
  have hrun := convertPEM2BIN_lines h
  cases hv : pemRun src with
  | error f =>
    rw [hv] at hrun
    rw [show convertPEM2BIN s src.length = .error f from hrun]
    rfl
  | ok v =>
    rw [hv] at hrun
    obtain ⟨o, ho, hout⟩ := hrun
    rw [ho]
    show Except.ok (_, _, _) = Except.ok (_, _, _)
    rw [hout.status, hout.decoded, hout.srcLen_eq]

/-- **Decoding in place is safe.**  The run in the buffer of the text ends like the one that decodes
    into a second buffer and changes the text only by the NULs behind the lines, and at no moment is
    there anything written over input that has not been read. -/
theorem convertPEM2BIN_inPlace (src : Chunk) :
    seen (convertPEM2BIN (InPlace.of src.bytes) src.len) = seen
      (convertPEM2BIN (Apart.of src.bytes) src.len) ∧
      ∀ s p, Moment (InPlace.of src.bytes) src.len s p → TextStore.written s ≤ p := by
  constructor
  · exact (seen_eq (inPlace_holds src.bytes)).trans (seen_eq (apart_holds src.bytes)).symm
  · intro s p h
    exact h.written_le (inPlace_holds src.bytes)

/-- The status and the decoded bytes of a run, if it comes to an end. -/
def ending {σ : Type} [TextStore σ] (r : Run (PemOutcome σ)) : Option (LexStatus × List UInt8) :=
  r.toOption.map fun o => (o.status, TextStore.decoded o.text o.result)

/-- **Without the NULs the run is another one**: the boundary of the first line is not closed on it,
    and the dashes of the next line close it where no NUL stands between. -/
theorem convertPEM2BIN_terminators :
    let src : Chunk := ⟨ascii "-----BEGIN A\n-----\nAAAA\n-----END A-----\n", by decide⟩
    ending (convertPEM2BIN (InPlace.of src.bytes) src.len) = some (.STATUS_FAILED, []) ∧
      ending (convertPEM2BIN (Untouched.of src.bytes) src.len) = some (.STATUS_SUCCESS,
        [0, 0, 0]) := by
  decide +kernel

end Pem

end StevenProgram
