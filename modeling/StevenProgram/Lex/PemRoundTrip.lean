/-
  From bytes to a PEM file and back.

  A `PemMessage` is what a writer puts into the file: some lines in front, the BEGIN line with its
  label, the base 64 of the data cut into lines, and the END line.  Its fields carry what makes it
  well formed, that no line in front begins with dashes, that the label has no dashes of its own and
  no colon, that the lines of the body are cut between groups.  The machine walks through it in the
  order of its parts (`after_preamble`, `after_body`), and each line of the body gives back its
  share of the data (`fromBase64_encode`) unless it is so long that its decoded length, an `s32_t`,
  is negative; such a line decodes to nothing (`fromBase64_wraps`).

  1.  **Messages** — `PemMessage`, `PemMessage.text`.

  2.  **Lines** — base 64 lines decode to what they encode, by the induction over groups of three;
     the lines of a text.

  3.  **The walk** — `pemRun_text`: the states the machine goes through, part by part.

  4.  **The round trip** — `convert_message_iff`: the data comes back exactly if no line of the body
     is too long.  `body_split` gives every line its share of the data; each share comes back or is
     lost (`shares_eq_iff`), and a lost one cannot be made up for by the others, as the lengths
     would not fit.
-/
import StevenProgram.Lex.PemFaults
import StevenProgram.Lib.Base64

namespace StevenProgram

open TextLines (Line lines LF CR)

namespace Pem

open Lexparser

/-! ## Messages

  The line ends are LF or CRLF, throughout the file. -/

/-- The line of the form `-----tag label-----`. -/
def boundaryLine (tag label : List UInt8) : List UInt8 :=
  DASHES ++ tag ++ SPACE :: (label ++ DASHES)

/-- Printable bytes without a colon, as one test. -/
theorem printable_of_all {label : List UInt8}
    (h : label.all (fun b => decide (32 ≤ b ∧ b ≤ 126 ∧ b ≠ COLON)) = true) :
    ∀ b ∈ label, 32 ≤ b ∧ b ≤ 126 ∧ b ≠ COLON :=
  fun b hb => of_decide_eq_true (List.all_eq_true.mp h b hb)

/-- A well-formed PEM file. -/
structure PemMessage where
  data : List UInt8
  label : List UInt8
  /-- printable, and not a colon -/
  label_printable : ∀ b ∈ label, 32 ≤ b ∧ b ≤ 126 ∧ b ≠ COLON
  label_dashes : ¬ DASHES <:+: label
  preamble : List (List UInt8)
  preamble_lines : ∀ l ∈ preamble, LF ∉ l ∧ ¬ DASHES <+: l
  /-- the base 64 of the data, in lines -/
  body : List (List UInt8)
  body_wraps : body.flatten = Base64.encode data
  body_groups : ∀ l ∈ body, 4 ∣ l.length
  /-- CR LF at the end of every line, or LF -/
  crlf : Bool

namespace PemMessage

variable (m : PemMessage)

/-- What stands between a line and its LF. -/
def cr : List UInt8 := if m.crlf then [CR] else []

/-- Its lines, without their ends. -/
def allLines : List (List UInt8) :=
  m.preamble ++ (boundaryLine BEGIN m.label :: (m.body ++ [boundaryLine END m.label]))

/-- The file. -/
def text : List UInt8 := (m.allLines.map (· ++ m.cr)).flatMap fun l => l ++ [LF]

end PemMessage

/-! ## Lines

  The encoding is that of the library; the decoding is the source's. -/

section Base64Lines

open Base64 (encode digit PAD IsDigit)

/-- A digit decodes to the value it stands for. -/
theorem b642bin_digit : ∀ v : UInt8, v < 64 → b642bin (digit v) = v := Base64.forall_byte
    (by decide +kernel)

/-- No digit is padding. -/
theorem digit_ne_pad : ∀ v : UInt8, v < 64 → digit v ≠ EQUALS := Base64.forall_byte
    (by decide +kernel)

/-- A digit takes nothing off the length. -/
theorem lessPad_digit {v : UInt8} (h : v < 64) (n : Nat) : lessPad (digit v) n = n :=
  if_neg fun hc => digit_ne_pad v h hc.1

/-- A padding byte takes one off. -/
theorem lessPad_pad (n : Nat) : lessPad PAD (n + 1) = n := if_pos ⟨rfl, Nat.succ_pos n⟩

/-- One turn for the last group. -/
theorem turns_last {n : Nat} (h : n ≤ 3) (h0 : 0 < n) : (n + 2) / 3 = 1 := by omega

/-- The length decoded from an encoding is the length that was encoded. -/
theorem outLen_encode : ∀ (d : List UInt8) (n : Nat), outLen ((d.length + 2) / 3)
    (encode d) n = n + d.length := by
  intro d
  induction d using Base64.group_induction with
  | group x y z rest ih =>
    intro n
    have hturns : ((x :: y :: z :: rest).length + 2) / 3 = (rest.length + 2) / 3 + 1 := by
      simp only [List.length_cons]
      omega
    rw [hturns, encode, outLen, lessPad_digit (Base64.v0_lt x), lessPad_digit (Base64.v1_lt x y),
      lessPad_digit (Base64.v2_lt y z), lessPad_digit (Base64.v3_lt z), ih]
    simp only [List.length_cons]
    omega
  | two x y =>
    intro n
    rw [turns_last (show [x, y].length ≤ 3 from by simp) (by simp), encode, outLen,
      lessPad_digit (Base64.v0_lt x), lessPad_digit (Base64.v1_lt x y),
      lessPad_digit (Base64.v2_lt y 0), lessPad_pad]
    rfl
  | one x =>
    intro n
    rw [turns_last (show [x].length ≤ 3 from by simp) (by simp), encode, outLen,
      lessPad_digit (Base64.v0_lt x), lessPad_digit (Base64.v1_lt x 0), lessPad_pad, lessPad_pad]
    rfl
  | nil => intro n; rfl

/-- The decoded bytes are the data, and what the padding stands for. -/
theorem decodeBytes_encode :
    ∀ d : List UInt8, (decodeBytes ((d.length + 2) / 3) (encode d)).take d.length = d := by
  intro d
  induction d using Base64.group_induction with
  | group x y z rest ih =>
    have hturns : ((x :: y :: z :: rest).length + 2) / 3 = (rest.length + 2) / 3 + 1 := by
      simp only [List.length_cons]
      omega
    rw [hturns, encode, decodeBytes, b642bin_digit _ (Base64.v0_lt x),
      b642bin_digit _ (Base64.v1_lt x y),
      b642bin_digit _ (Base64.v2_lt y z), b642bin_digit _ (Base64.v3_lt z), Base64.join_first,
        Base64.join_second,
      Base64.join_third]
    simp only [List.length_cons, List.take_succ_cons, ih]
  | two x y =>
    rw [turns_last (show [x, y].length ≤ 3 from by simp) (by simp), encode, decodeBytes,
      b642bin_digit _ (Base64.v0_lt x), b642bin_digit _ (Base64.v1_lt x y),
      b642bin_digit _ (Base64.v2_lt y 0), Base64.join_first, Base64.join_second]
    rfl
  | one x =>
    rw [turns_last (show [x].length ≤ 3 from by simp) (by simp), encode, decodeBytes,
      b642bin_digit _ (Base64.v0_lt x), b642bin_digit _ (Base64.v1_lt x 0), Base64.join_first]
    rfl
  | nil => rfl

/-- **A line decodes to what it encodes**, as long as the decoded length is not negative. -/
theorem fromBase64_encode {d : List UInt8} (h : (encode d).length / 4 * 3 < 2147483648) :
    fromBase64 (encode d) = d := by
  have hturns : base64Turns (encode d).length = (d.length + 2) / 3 := by
    rw [base64Turns_eq h, Base64.encode_length, Nat.mul_div_cancel_left _ (by decide)]
  rw [fromBase64, hturns, outLen_encode, Nat.zero_add, decodeBytes_encode]

/-- A line whose decoded length is negative is lost. -/
theorem fromBase64_wraps {l : List UInt8} (h : 2147483648 ≤ l.length / 4 * 3)
    (hl : l.length < 2 ^ 32) :
    fromBase64 l = [] := by
  rw [fromBase64, base64Turns_wraps h hl]
  rfl

end Base64Lines

/-! ## The walk

  Each part of the message keeps the machine in a known state. -/

section Walk

open Base64 (IsDigit)

/-- A line of digits holds nothing but digits. -/
theorem digits_not_mem {l : List UInt8} (hl : ∀ b ∈ l, IsDigit b) {b : UInt8} (hb : ¬ IsDigit b) :
    b ∉ l :=
  fun hm => hb (hl b hm)

/-- Neither the newline, nor the dash, nor the colon is a digit. -/
theorem not_isDigit {b : UInt8} (h : b < 43 ∨ b = 45 ∨ b = 58) : ¬ IsDigit b := by
  intro hd
  have hr := hd.range
  rcases h with h | h | h
  · exact absurd hr.1 (UInt8.not_le.mpr h)
  · exact hr.2.2.1 h
  · exact hr.2.2.2.2 h

/-- Lines that do not begin with dashes are passed over. -/
theorem after_preamble : ∀ (ls : List Line) (acc : List UInt8), (∀ l ∈ ls, ¬ DASHES <+: l.content) →
    after .PEM_PRE acc ls = some (.PEM_PRE, acc) := by
  intro ls
  induction ls with
  | nil =>
    intro acc _
    rfl
  | cons l ls ih =>
    intro acc h
    have hd : DASHES.isPrefixOf l.content = false := by
      rw [← Bool.not_eq_true, List.isPrefixOf_iff_prefix]
      exact h l (List.mem_cons_self ..)
    have hstep : step .PEM_PRE l = .next .PEM_PRE [] := by
      rw [step, boundary, if_pos hd]
    rw [after, hstep]
    show after .PEM_PRE (acc ++ []) ls = _
    rw [List.append_nil]
    exact ih acc fun l' hl' => h l' (List.mem_cons_of_mem l hl')

/-- Behind the BEGIN line, and no header has been seen. -/
def InBody (state : PemState) : Prop := state = .PEM_MSG ∨ state = .PEM_BODY

/-- In the body a line without a colon is a body line. -/
theorem InBody.step {state : PemState} (h : InBody state) {l : Line} (hl : COLON ∉ l.content) :
    Pem.step state l = bodyStep l.content l.ended := by
  rcases h with rfl | rfl
  · exact if_neg hl
  · rfl

/-- A line of digits is decoded and the body goes on. -/
theorem bodyStep_digits {l : List UInt8} (hl : ∀ b ∈ l, IsDigit b) (ended : Bool) :
    bodyStep l ended = .next .PEM_BODY (fromBase64 l) := by
  have hdash : DASHES.isPrefixOf l = false := by
    rw [← Bool.not_eq_true, List.isPrefixOf_iff_prefix]
    exact fun hp => digits_not_mem hl (not_isDigit (.inr (.inl rfl)))
      (hp.subset (List.mem_cons_self ..))
  have hblank : CString.cut blank l = none := by
    refine CString.cut_none.mpr fun b hb => ?_
    rw [← Bool.not_eq_true]
    intro hblank
    refine not_isDigit (.inl ?_) (hl b hb)
    have hcases : b = SPACE ∨ b = TAB := by simpa [blank, stops] using hblank
    rcases hcases with rfl | rfl <;> decide
  rw [bodyStep, boundary, if_pos hdash]
  show Step.next _ (fromBase64 (trimmed l)) = _
  rw [trimmed, hblank]

/-- The lines of the body decode one after the other. -/
theorem after_body : ∀ (ls : List Line) {state : PemState} (acc : List UInt8), InBody state →
    (∀ l ∈ ls, ∀ b ∈ l.content, IsDigit b) →
    ∃ state', InBody state' ∧
    after state acc ls = some (state', acc ++ (ls.map fun l => fromBase64 l.content).flatten) := by
  intro ls
  induction ls with
  | nil =>
    intro state acc hs _
    exact ⟨state, hs, by rw [List.map_nil, List.flatten_nil, List.append_nil]; rfl⟩
  | cons l ls ih =>
    intro state acc hs h
    have hl := h l (List.mem_cons_self ..)
    obtain ⟨state', hs', hrun⟩ := ih (acc ++ fromBase64 l.content) (.inr rfl) fun l' hl' => h l'
      (List.mem_cons_of_mem l hl')
    refine ⟨state', hs', ?_⟩
    rw [after, hs.step (digits_not_mem hl (not_isDigit (.inr (.inr rfl)))), bodyStep_digits hl]
    show after .PEM_BODY _ ls = _
    rw [hrun, List.map_cons, List.flatten_cons, List.append_assoc]

end Walk

namespace PemMessage

variable (m : PemMessage)

/-- The label holds no control byte and no colon. -/
theorem label_not_mem {b : UInt8} (hb : b < 32 ∨ b = COLON) : b ∉ m.label := by
  intro hm
  obtain ⟨h1, -, h3⟩ := m.label_printable b hm
  rcases hb with hb | hb
  · exact absurd h1 (UInt8.not_le.mpr hb)
  · exact h3 hb

/-- A boundary line is found, terminated or not. -/
theorem boundaryLine_found (tag : List UInt8) (ended : Bool) :
    boundary tag (boundaryLine tag m.label) ended = .found := by
  rw [boundaryLine, boundary_head, closing_found_iff, ← List.append_nil (m.label ++ DASHES),
    List.append_assoc]
  exact CString.search_found (by decide) [] (m.label_not_mem (.inl (by decide)))

/-- It holds neither of them itself. -/
theorem not_mem_boundaryLine {tag : List UInt8} {b : UInt8} (hb : b < 32 ∨ b = COLON)
    (htag : b ∉ DASHES ++ tag ++ [SPACE]) :
    b ∉ boundaryLine tag m.label := by
  have hl := m.label_not_mem hb
  simp only [boundaryLine, List.mem_append, List.mem_cons, not_or, List.not_mem_nil,
    not_false_eq_true, and_true] at htag ⊢
  exact ⟨htag.1, htag.2, hl, htag.1.1⟩

/-- The body lines are digits. -/
theorem body_digits : ∀ l ∈ m.body, ∀ b ∈ l, Base64.IsDigit b := by
  intro l hl b hb
  refine Base64.isDigit_of_mem b (d := m.data) ?_
  rw [← m.body_wraps]
  exact List.mem_flatten.mpr ⟨l, hl, hb⟩

/-- The line as the loop sees it. -/
theorem content_cr {l : List UInt8} (h : CR ∉ l) : Line.content ⟨l ++ m.cr, true⟩ = l := by
  rw [cr]
  split
  · exact TextLines.content_concat l
  · rw [List.append_nil]
    exact TextLines.content_eq h

/-- A line of the preamble does not begin like a boundary. -/
theorem content_preamble {l : List UInt8} (hl : l ∈ m.preamble) :
    ¬ DASHES <+: Line.content ⟨l ++ m.cr, true⟩ := by
  have hd := (m.preamble_lines l hl).2
  rw [cr]
  split
  · rw [TextLines.content_concat]
    exact hd
  · rw [List.append_nil]
    exact fun hp => hd (hp.trans (content_front ⟨l, true⟩))

/-- No line holds a newline. -/
theorem lf_not_mem : ∀ l ∈ m.allLines, LF ∉ l ++ m.cr := by
  have hcr : LF ∉ m.cr := by
    rw [cr]
    split <;> decide
  intro l hl hm
  rcases List.mem_append.mp hm with hm | hm
  · simp only [allLines, List.mem_append, List.mem_cons, List.not_mem_nil, or_false] at hl
    rcases hl with hl | rfl | hl | rfl
    · exact (m.preamble_lines l hl).1 hm
    · exact m.not_mem_boundaryLine (.inl (by decide)) (by decide) hm
    · exact not_isDigit (.inl (by decide)) (m.body_digits l hl LF hm)
    · exact m.not_mem_boundaryLine (.inl (by decide)) (by decide) hm
  · exact hcr hm

/-- **The lines of the text are the lines it was written with.** -/
theorem lines_text : lines m.text = m.allLines.map fun l => ⟨l ++ m.cr, true⟩ := by
  rw [text, TextLines.lines_flatMap, List.map_map]
  · rfl
  · intro l hl
    obtain ⟨l', hl', rfl⟩ := List.mem_map.mp hl
    exact m.lf_not_mem l' hl'

/-- **The walk through a message.** The preamble leaves the machine where it is, the BEGIN line
    moves it on, every line of the body is decoded, and the END line brings it to the last state,
    where the text ends. -/
theorem pemRun_text :
    pemRun m.text = .ok ⟨.STATUS_SUCCESS, (m.body.map fromBase64).flatten, true⟩ := by
  have hcr :
    ∀ tag, CR ∉ DASHES ++ tag ++ [SPACE] → Line.content ⟨boundaryLine tag m.label ++ m.cr, true⟩ =
    boundaryLine tag m.label :=
    fun tag htag => m.content_cr (m.not_mem_boundaryLine (.inl (by decide)) htag)
  have hpre := after_preamble (m.preamble.map fun l => ⟨l ++ m.cr, true⟩) [] fun l hl => by
    obtain ⟨l', hl', rfl⟩ := List.mem_map.mp hl
    exact m.content_preamble hl'
  have hbegin : step .PEM_PRE ⟨boundaryLine BEGIN m.label ++ m.cr, true⟩ = .next .PEM_MSG [] := by
    rw [step, hcr BEGIN (by decide), m.boundaryLine_found]
  have hbody : ∀ l ∈ m.body, Line.content ⟨l ++ m.cr, true⟩ = l := fun l hl =>
    m.content_cr (digits_not_mem (m.body_digits l hl) (not_isDigit (.inl (by decide))))
  obtain ⟨state, hstate, hwalk⟩ := after_body (m.body.map fun l => ⟨l ++ m.cr, true⟩) []
    (.inl rfl) fun l hl => by
    obtain ⟨l', hl', rfl⟩ := List.mem_map.mp hl
    rw [hbody l' hl']
    exact m.body_digits l' hl'
  have hdecoded :
    (m.body.map fun l => (⟨l ++ m.cr, true⟩ : Line)).map (fun l => fromBase64 l.content) =
    m.body.map fromBase64 := by
    rw [List.map_map]
    refine List.map_congr_left fun l hl => ?_
    rw [Function.comp_apply, hbody l hl]
  have hend : step state ⟨boundaryLine END m.label ++ m.cr, true⟩ = .next .PEM_POST [] := by
    have hcolon : COLON ∉ boundaryLine END m.label := m.not_mem_boundaryLine (.inr rfl) (by decide)
    rw [hstate.step (by rw [hcr END (by decide)]; exact hcolon), hcr END (by decide), bodyStep,
      m.boundaryLine_found]
  rw [hdecoded] at hwalk
  rw [pemRun, lines_text, allLines, List.map_append, List.map_cons, List.map_append,
    runLines_after _ hpre, runLines, hbegin]
  show runLines .PEM_MSG [] _ = _
  rw [runLines_after _ hwalk, List.map_cons, runLines, hend]
  show runLines .PEM_POST (_ ++ []) [] = _
  rw [List.append_nil]
  rfl

end PemMessage

/-! ## The round trip -/

/-- **A message decodes to its body**: success, and the bytes of its lines one after the other. -/
theorem convert_message (m : PemMessage) {src : Chunk} (h : src.bytes = m.text) :
    convert src = .ok (.STATUS_SUCCESS, (m.body.map fromBase64).flatten) := by
  have hc := convert_eq src
  rw [h, m.pemRun_text] at hc
  obtain ⟨out, hout, hfin⟩ := hc
  rw [hout, hfin rfl]

/-- The lines of the body share out the data. -/
theorem body_split : ∀ {body : List (List UInt8)} {d : List UInt8}, body.flatten = Base64.encode d →
    (∀ l ∈ body, 4 ∣ l.length) →
    ∃ ds : List (List UInt8), body = ds.map Base64.encode ∧ d = ds.flatten := by
  intro body
  induction body with
  | nil =>
    intro d h _
    cases d with
    | nil => exact ⟨[], rfl, rfl⟩
    | cons b bs =>
      have hlen := congrArg List.length h
      rw [Base64.encode_length] at hlen
      simp only [List.flatten_nil, List.length_nil, List.length_cons] at hlen
      omega
  | cons l ls ih =>
    intro d h hl
    rw [List.flatten_cons] at h
    obtain ⟨d1, d2, rfl, rfl, hrest⟩ := Base64.encode_split h (hl l (List.mem_cons_self ..))
    obtain ⟨ds, rfl, rfl⟩ := ih hrest fun l' hl' => hl l' (List.mem_cons_of_mem _ hl')
    exact ⟨d1 :: ds, rfl, rfl⟩

/-- Each share comes back, or is lost. -/
theorem shares_eq_iff : ∀ {ds : List (List UInt8)}, (∀ d ∈ ds, (Base64.encode d).length < 2 ^ 32) →
    (((ds.map Base64.encode).map fromBase64).flatten = ds.flatten ↔
      ∀ l ∈ ds.map Base64.encode, l.length / 4 * 3 < 2147483648) ∧
    ((ds.map Base64.encode).map fromBase64).flatten.length ≤ ds.flatten.length := by
  intro ds
  induction ds with
  | nil =>
    intro _
    exact ⟨iff_of_true rfl (List.forall_mem_nil _), Nat.le_refl _⟩
  | cons d ds ih =>
    intro h
    obtain ⟨hiff, hle⟩ := ih fun d' hd' => h d' (List.mem_cons_of_mem d hd')
    simp only [List.map_cons, List.flatten_cons, List.forall_mem_cons, List.length_append]
    rcases Nat.lt_or_ge ((Base64.encode d).length / 4 * 3) 2147483648 with hshort | hlong
    · rw [fromBase64_encode hshort, List.append_cancel_left_eq, hiff]
      exact ⟨(and_iff_right hshort).symm, Nat.add_le_add_left hle _⟩
    · rw [fromBase64_wraps hlong (h d (List.mem_cons_self ..)), List.nil_append]
      have hlen := Base64.encode_length d
      refine ⟨iff_of_false (fun heq => ?_) fun hs => absurd hs.1 (Nat.not_lt.mpr hlong),
        by simp only [List.length_nil]; omega⟩
      -- what is lost was not empty
      have hl := congrArg List.length heq
      rw [List.length_append] at hl
      omega

/-- The data comes back if no line of the body is too long. -/
theorem decoded_eq_iff (m : PemMessage) (h : ∀ l ∈ m.body, l.length < 2 ^ 32) :
    (m.body.map fromBase64).flatten = m.data ↔ ∀ l ∈ m.body, l.length / 4 * 3 < 2147483648 := by
  obtain ⟨ds, hbody, hdata⟩ := body_split m.body_wraps m.body_groups
  rw [hbody, hdata]
  refine (shares_eq_iff fun d hd => h _ ?_).1
  rw [hbody]
  exact List.mem_map_of_mem hd

/-- A line of a text that fits has a length that fits. -/
theorem PemMessage.body_length_lt (m : PemMessage) {src : Chunk} (h : src.bytes = m.text) :
    ∀ l ∈ m.body, l.length < 2 ^ 32 := by
  intro l hl
  refine Nat.lt_of_le_of_lt ?_ (h ▸ src.len_lt)
  have hmem : l ++ m.cr ∈ m.allLines.map (· ++ m.cr) := by
    refine List.mem_map_of_mem ?_
    simp [PemMessage.allLines, hl]
  have hsub := List.sublist_flatten_of_mem (List.mem_map_of_mem hmem (f := fun l => l ++ [LF]))
  have hle := hsub.length_le
  rw [List.append_assoc, List.length_append] at hle
  rw [PemMessage.text, List.flatMap]
  omega

/-- **A message is decoded to its data exactly when no line of the body is too long.** -/
theorem convert_message_iff (m : PemMessage) {src : Chunk} (h : src.bytes = m.text) :
    convert src = .ok (.STATUS_SUCCESS, m.data) ↔ ∀ l ∈ m.body, l.length / 4 * 3 < 2147483648 := by
  rw [convert_message m h, Except.ok.injEq, Prod.mk.injEq, and_iff_right rfl,
    decoded_eq_iff m (m.body_length_lt h)]

/-- A message with a preamble, carriage returns and two body lines. -/
theorem convert_message_iff_deadbeef :
    convert
      ⟨ascii "note\r\n-----BEGIN KEY-----\r\n3q2+\r\n7w==\r\n-----END KEY-----\r\n", by decide⟩ =
      .ok (.STATUS_SUCCESS, [0xDE, 0xAD, 0xBE, 0xEF]) := by
  let m : PemMessage := {
    data := [0xDE, 0xAD, 0xBE, 0xEF]
    label := ascii "KEY"
    label_printable := printable_of_all (by decide)
    label_dashes := by decide
    preamble := [ascii "note"]
    preamble_lines := by decide
    body := [ascii "3q2+", ascii "7w=="]
    body_wraps := by decide
    body_groups := by decide
    crlf := true }
  exact (convert_message_iff m (by decide)).mpr (by decide)

/-- Zeros, all on one line. -/
def zeros (n : Nat) : PemMessage where
  data := List.replicate (3 * n) 0
  label := ascii "A"
  label_printable := printable_of_all (by decide)
  label_dashes := by decide
  preamble := []
  preamble_lines := by decide
  body := [List.replicate (4 * n) 65]
  body_wraps := by rw [Base64.encode_zeros, List.flatten_singleton]
  body_groups := by
    intro l hl
    rw [List.mem_singleton.mp hl, List.length_replicate]
    exact Nat.dvd_mul_right 4 n
  crlf := false

/-- The length of a message of zero bytes. -/
theorem zeros_text_length (n : Nat) : (zeros n).text.length = 4 * n + 35 := by
  have hlines :
    (zeros n).allLines = [boundaryLine BEGIN (ascii "A"), List.replicate (4 * n) 65,
    boundaryLine END (ascii "A")] := rfl
  have hcr : (zeros n).cr = [] := rfl
  have hbegin : (boundaryLine BEGIN (ascii "A")).length = 17 := by decide
  have hend : (boundaryLine END (ascii "A")).length = 15 := by decide
  rw [PemMessage.text, hlines, hcr]
  simp only [List.map_cons, List.map_nil, List.append_nil, List.flatMap_cons, List.flatMap_nil,
    List.length_append,
    List.length_cons, List.length_nil, List.length_replicate, hbegin, hend]
  omega

/-- The shortest one whose `BASE64_LEN` is negative still fits into memory. -/
theorem zeros_fits : (zeros 715827883).text.length < 2 ^ 32 := by
  rw [zeros_text_length]
  decide

/-- It succeeds and gives nothing. -/
theorem convert_zeros {n : Nat} (hn : 715827883 ≤ n) (hfit : (zeros n).text.length < 2 ^ 32) :
    convert ⟨(zeros n).text, hfit⟩ = .ok (.STATUS_SUCCESS, []) := by
  have hlen : (List.replicate (4 * n) (65 : UInt8)).length = 4 * n := List.length_replicate
  have hlost : fromBase64 (List.replicate (4 * n) 65) = [] := by
    rw [zeros_text_length] at hfit
    exact fromBase64_wraps (by rw [hlen]; omega) (by rw [hlen]; omega)
  have hbody : (zeros n).body = [List.replicate (4 * n) 65] := rfl
  rw [convert_message (zeros n) rfl, hbody, List.map_cons, List.map_nil, hlost]
  rfl

/-- 2147483649 zeros on a line of 2863311532 digits are lost. -/
theorem convert_zeros_lost :
    convert ⟨(zeros 715827883).text, zeros_fits⟩ = .ok (.STATUS_SUCCESS, []) ∧
    (zeros 715827883).data ≠ [] := by
  refine ⟨convert_zeros (Nat.le_refl _) zeros_fits, fun h => ?_⟩
  have hlen : (zeros 715827883).data.length = 3 * 715827883 := List.length_replicate
  rw [h] at hlen
  cases hlen

end Pem

end StevenProgram
