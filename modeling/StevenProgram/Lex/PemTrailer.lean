/-
  Text behind the END boundary.

  `PEM_POST` is the last state, and the only one that ends in `STATUS_SUCCESS`; but the machine has
  no line for it, so whatever follows the END line, be it empty, ends the loop with `STATUS_FAILED`
  (`runLines_post`).  Appending lines therefore changes the outcome unless the run had failed in
  this way before (`outcome_addLines_iff`).

  1.  **The END line** — a text may end on it without a newline, and appending lines adds that
     newline first.  It does not matter: the boundary is found with it as it was without
     (`step_post_ended`).  The carriage return that a newline takes off the line is behind the
     closing dashes.

  2.  **Outcomes** — `outcome`, `outcome_addLines_iff`.  The condition is about the lines of the
     file: that some stand behind the END line already.
-/
import StevenProgram.Lex.PemFaults
import StevenProgram.Lex.PemInPlace

namespace StevenProgram

open TextLines (Line lines addLines CR)

namespace Pem

open Lexparser

/-! ## The END line -/

/-- The carriage return that a newline takes from the line is not part of the boundary. -/
theorem boundary_found_ended {tag : List UInt8} {l : List UInt8}
    (h : boundary tag l false = .found) :
    boundary tag (Line.content ⟨l, true⟩) true = .found := by
  rcases boundary_cases tag l with ⟨-, rest, hb⟩ | ⟨name, rfl, hb⟩
  · cases (hb false).symm.trans h
  · obtain ⟨n, hn⟩ := closing_found_iff.mp ((hb false).symm.trans h)
    rw [Line.content]
    split
    · next hcr =>
      -- the carriage return ends the name, which is not empty
      have hne : name ≠ [] := by
        rintro rfl
        cases hn
      obtain ⟨name, c, rfl⟩ := List.eq_nil_or_concat name |>.resolve_left hne
      rw [List.concat_eq_append] at hn hcr ⊢
      rw [← List.cons_append, ← List.append_assoc, List.getLast?_concat] at hcr
      obtain rfl : c = CR := Option.some.inj hcr.2
      have hdrop :
        (DASHES ++ tag ++ SPACE :: (name ++ [CR])).dropLast = DASHES ++ tag ++ SPACE :: name := by
        rw [← List.cons_append, ← List.append_assoc, List.dropLast_concat]
      rw [hdrop, boundary_head]
      exact closing_found_iff.mpr ⟨n, CString.search_concat (by decide) (by decide) hn⟩
    · exact (hb true).trans (closing_found_iff.mpr ⟨n, hn⟩)

/-- A body line ends the body exactly when it is an END. -/
theorem bodyStep_post_iff {bs data : List UInt8} {ended : Bool} :
    bodyStep bs ended = .next .PEM_POST data ↔ boundary END bs ended = .found ∧ data = [] := by
  rw [bodyStep]
  cases boundary END bs ended <;> simp [eq_comm]

/-- A header line never does. -/
theorem headerStep_ne_post {bs data : List UInt8} : headerStep bs ≠ .next .PEM_POST data := by
  rw [headerStep]
  split
  · simp
  · split <;> simp

/-- A content has no other bytes than its line. -/
theorem content_subset (l : List UInt8) : Line.content ⟨l, true⟩ ⊆ l :=
  (content_front ⟨l, true⟩).subset

/-- **A newline behind the END line makes no difference.** -/
theorem step_post_ended {state : PemState} {l data : List UInt8}
    (h : step state ⟨l, false⟩ = .next .PEM_POST data) :
    step state ⟨l, true⟩ = .next .PEM_POST data := by
  have hcontent : Line.content ⟨l, false⟩ = l := if_neg fun hc => Bool.noConfusion hc.1
  have hbody :
    bodyStep l false = .next .PEM_POST data → bodyStep (Line.content ⟨l, true⟩) true =
    .next .PEM_POST data :=
    fun hb => bodyStep_post_iff.mpr ⟨boundary_found_ended (bodyStep_post_iff.mp hb).1,
      (bodyStep_post_iff.mp hb).2⟩
  cases state with
  | PEM_PRE =>
    rw [step] at h
    split at h <;> cases h
  | PEM_MSG =>
    rw [step, hcontent] at h
    rw [step]
    by_cases hc : COLON ∈ l
    · exact absurd ((if_pos hc).symm.trans h) headerStep_ne_post
    · have hc' : COLON ∉ Line.content ⟨l, true⟩ := fun hm => hc (content_subset l hm)
      exact (if_neg hc').trans (hbody ((if_neg hc).symm.trans h))
  | PEM_HEADER => exact absurd h headerStep_ne_post
  | PEM_BODY =>
    rw [step, hcontent] at h
    exact hbody h
  | PEM_POST => cases h
  | PEM_ABORT => cases h

/-! ## Outcomes -/

/-- **Nothing may follow the END line.** -/
theorem runLines_post (acc : List UInt8) (ls : List Line) :
    runLines .PEM_POST acc ls =
      .ok ⟨if ls = [] then .STATUS_SUCCESS else .STATUS_FAILED, acc,
        if ls = [] then true else false⟩ := by
  cases ls <;> rfl

/-- The status and the decoded bytes. -/
def outcome (src : Chunk) : Run (LexStatus × List UInt8) :=
  (convertPEM2BIN (InPlace.of src.bytes) src.len).map fun o =>
    (o.status, TextStore.decoded o.text o.result)

/-- The outcome is read off the lines. -/
theorem outcome_eq (src : Chunk) :
    outcome src = (pemRun src.bytes).map fun v => (v.status, v.decoded) := by
  have h : outcome src = (seen (convertPEM2BIN (InPlace.of src.bytes) src.bytes.length)).map
    fun r => (r.1, r.2.1) := by
    rw [outcome, seen, Chunk.len]
    cases convertPEM2BIN (InPlace.of src.bytes) src.bytes.length <;> rfl
  rw [h, seen_eq (inPlace_holds src.bytes)]
  cases pemRun src.bytes <;> rfl

/-- The outcome of a text whose lines reach `PEM_POST` before `ls`. -/
theorem outcome_post {src : Chunk} {xs ls : List Line} {acc : List UInt8}
    (hlines : lines src.bytes = xs ++ ls)
    (h : after .PEM_PRE [] xs = some (.PEM_POST, acc)) :
    outcome src = .ok (if ls = [] then .STATUS_SUCCESS else .STATUS_FAILED, acc) := by
  rw [outcome_eq, pemRun, hlines, runLines_after ls h, runLines_post]
  rfl

/-- The lines that reach `PEM_POST` do so with a newline behind the last one, too. -/
theorem after_post_ended {ls : List Line} {l : List UInt8} {state : PemState}
    {acc acc' : List UInt8}
    (h : after state acc (ls ++ [⟨l, false⟩]) = some (.PEM_POST, acc')) :
    after state acc (ls ++ [⟨l, true⟩]) = some (.PEM_POST, acc') := by
  rw [after_append] at h ⊢
  obtain ⟨⟨state1, acc1⟩, h1, h2⟩ := Option.bind_eq_some_iff.mp h
  rw [h1]
  show after state1 acc1 [⟨l, true⟩] = _
  have h2 : after state1 acc1 [⟨l, false⟩] = some (.PEM_POST, acc') := h2
  rw [after] at h2 ⊢
  cases hs : step state1 ⟨l, false⟩ with
  | fault f =>
    rw [hs] at h2
    cases h2
  | failed =>
    rw [hs] at h2
    cases h2
  | next state2 data =>
    rw [hs] at h2
    cases h2
    rw [step_post_ended hs]
    rfl

/-- **Lines behind the END line change the outcome, unless some stand there already.** -/
theorem outcome_addLines_iff {src src' : Chunk} {c : PemConfig InPlace} {more : List UInt8}
    (hreach : Reached (InPlace.of src.bytes) src.len c) (hpost : c.state = .PEM_POST)
    (hmore : src'.bytes = addLines src.bytes more) :
    outcome src' = outcome src ↔ more = [] ∨ c.blob.len ≠ 0 := by
  obtain ⟨p, bs, acc, ls, hs, -, hlines, hafter⟩ := hreach.stands (inPlace_holds src.bytes)
  rw [hpost] at hafter
  have hlen : c.blob.len ≠ 0 ↔ lines bs ≠ [] := by
    rw [hs.blob, ne_eq, List.length_eq_zero_iff, ne_eq, TextLines.lines_eq_nil]
  -- the lines of the longer text: those up to the END line, and what follows it
  obtain ⟨xs, ys, hlines', hafter', hys⟩ : ∃ xs ys, lines src'.bytes = xs ++ ys ∧
      after .PEM_PRE [] xs = some (.PEM_POST, acc) ∧ (ys = [] ↔ lines bs = [] ∧ more = []) := by
    rw [hmore, addLines]
    split
    · next hfin =>
      refine ⟨ls, lines bs ++ lines more, ?_, hafter, ?_⟩
      · rw [TextLines.lines_append more hfin, hlines, List.append_assoc]
      · rw [List.append_eq_nil_iff, (TextLines.lines_eq_nil : lines more = [] ↔ _)]
    · next hfin =>
      obtain ⟨init, l, hl, hrest⟩ := TextLines.lines_unfinished hfin
      rw [hl] at hlines
      rw [hrest]
      rcases List.eq_nil_or_concat (lines bs) with hbs | ⟨zs, z, hz⟩
      · -- the END line is the last one
        rw [hbs, List.append_nil] at hlines
        refine ⟨init ++ [⟨l, true⟩], lines more, by rw [List.append_assoc]; rfl, ?_, ?_⟩
        · exact after_post_ended (hlines ▸ hafter)
        · rw [hbs, TextLines.lines_eq_nil, and_iff_right rfl]
      · rw [hz, List.concat_eq_append, ← List.append_assoc] at hlines
        obtain ⟨rfl, hz'⟩ := List.append_inj' hlines rfl
        refine ⟨ls, zs ++ ⟨l, true⟩ :: lines more, by rw [List.append_assoc], hafter, ?_⟩
        rw [hz]
        simp
  rw [outcome_post hlines' hafter', outcome_post hlines hafter, Except.ok.injEq, Prod.mk.injEq,
    and_iff_left rfl, hlen]
  by_cases hbs : lines bs = [] <;> by_cases hm : more = [] <;> simp [hys, hbs, hm]

/-- A blank line behind the END line, and the same PEM message is refused. -/
theorem outcome_addLines_blank :
    let src : Chunk := ⟨ascii "-----BEGIN A-----\nAAAA\n-----END A-----\n", by decide⟩
    let src' : Chunk := ⟨addLines src.bytes (ascii "\n"), by decide⟩
    (∃ c, Reached (InPlace.of src.bytes) src.len c ∧ c.state = .PEM_POST) ∧
      outcome src = .ok (.STATUS_SUCCESS, [0, 0, 0]) ∧ outcome src' = .ok
        (.STATUS_FAILED, [0, 0, 0]) := by
  intro src src'
  refine ⟨?_, ?_, ?_⟩
  · exact reached_of_after (inPlace_holds src.bytes) (List.append_nil (lines src.bytes)).symm
      (show after _ _ _ = some (.PEM_POST, [0, 0, 0]) from rfl)
  · rw [outcome_eq]
    rfl
  · rw [outcome_eq]
    rfl

/-- A line stands behind the END line already, and another one behind it changes nothing. -/
theorem outcome_addLines_trailed :
    let src : Chunk := ⟨ascii "-----BEGIN A-----\nAAAA\n-----END A-----\nx\n", by decide⟩
    let src' : Chunk := ⟨addLines src.bytes (ascii "y\n"), by decide⟩
    ∃ c, Reached (InPlace.of src.bytes) src.len c ∧ c.state = .PEM_POST ∧ c.blob.len ≠ 0 ∧
      outcome src' = outcome src := by
  intro src src'
  have hsplit : lines src.bytes = (lines src.bytes).take 3 ++ (lines src.bytes).drop 3 :=
    (List.take_append_drop 3 (lines src.bytes)).symm
  obtain ⟨c, hreach, hpost⟩ := reached_of_after (inPlace_holds src.bytes) hsplit
    (show after _ _ _ = some (.PEM_POST, [0, 0, 0]) from rfl)
  -- with nothing left the machine would have taken the last line in `PEM_POST`
  have hblob : c.blob.len ≠ 0 := by
    obtain ⟨p, bs, acc, ls, hs, -, hlines, hafter⟩ := hreach.stands (inPlace_holds src.bytes)
    rw [hs.blob]
    intro hzero
    obtain rfl := List.length_eq_zero_iff.mp hzero
    rw [show lines [] = [] from rfl, List.append_nil] at hlines
    rw [← hlines] at hafter
    nomatch hafter
  exact ⟨c, hreach, hpost, hblob, (outcome_addLines_iff hreach hpost rfl).mpr (.inr hblob)⟩

end Pem

end StevenProgram
