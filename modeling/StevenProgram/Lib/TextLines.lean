/-
  A text as its lines.

  A line is what stands before a newline, or behind the last one; `ended` says which.  A carriage
  return in front of the newline does not belong to its `content`.

  1. **Lines** — `lines`, by recursion on the text; `lines_newline` and `lines_last` take one line
     off, and `lines_pieces` says what the lines are, taken together.
  2. **Texts** — `lines_append`: text behind a finished line starts new lines; `addLines` finishes
     the last line first.
-/
import StevenProgram.Lib.CString

namespace TextLines

open CString

abbrev LF : UInt8 := 10
abbrev CR : UInt8 := 13

/-- The bytes of a line, and whether a newline ended it. -/
structure Line where
  bytes : List UInt8
  /-- a newline follows -/
  ended : Bool
  deriving DecidableEq

/-- The line without the carriage return of its newline. -/
def Line.content (l : Line) : List UInt8 :=
  if l.ended = true ∧ l.bytes.getLast? = some CR then l.bytes.dropLast else l.bytes

/-- A carriage return in front of the newline belongs to the line end. -/
theorem content_concat (l : List UInt8) : Line.content ⟨l ++ [CR], true⟩ = l := by
  rw [Line.content, if_pos ⟨rfl, List.getLast?_concat⟩, List.dropLast_concat]

/-- Without one, the content is the line. -/
theorem content_eq {l : List UInt8} (h : CR ∉ l) : Line.content ⟨l, true⟩ = l :=
  if_neg fun hc => h (List.mem_of_getLast? hc.2)

/-! ## Lines

  A text that ends with a newline has no empty line behind it, and the empty text has no line at
  all. -/

/-- The lines of a text, by recursion on it. -/
def lines : List UInt8 → List Line
  | [] => []
  | b :: bs =>
      if b = LF then ⟨[], true⟩ :: lines bs
      else match lines bs with
        | [] => [⟨[b], false⟩]
        | l :: ls => ⟨b :: l.bytes, l.ended⟩ :: ls

/-- A line that is ended is taken off the front. -/
theorem lines_newline (rest : List UInt8) :
    ∀ {l : List UInt8}, LF ∉ l → lines (l ++ LF :: rest) = ⟨l, true⟩ :: lines rest := by
  intro l
  induction l with
  | nil =>
    intro _
    rw [List.nil_append, lines, if_pos rfl]
  | cons b bs ih =>
    intro h
    have hb : b ≠ LF := fun hb => h (by rw [hb]; exact List.mem_cons_self ..)
    rw [List.cons_append, lines, if_neg hb, ih fun hm => h (List.mem_cons_of_mem b hm)]

/-- What is left without a newline is the last line. -/
theorem lines_last : ∀ {l : List UInt8}, LF ∉ l → l ≠ [] → lines l = [⟨l, false⟩] := by
  intro l
  induction l with
  | nil =>
    intro _ h
    exact absurd rfl h
  | cons b bs ih =>
    intro h _
    have hb : b ≠ LF := fun hb => h (by rw [hb]; exact List.mem_cons_self ..)
    rw [lines, if_neg hb]
    cases bs with
    | nil => rfl
    | cons c cs => rw [ih (fun hm => h (List.mem_cons_of_mem b hm)) (List.cons_ne_nil c cs)]

/-- The text behind its first line. -/
def afterLine (text : List UInt8) : List UInt8 :=
  match cut (· == LF) text with
  | some (_, rest) => rest
  | none => []

/-- What comes behind a line is an end of the text. -/
theorem afterLine_suffix (text : List UInt8) : afterLine text <:+ text := by
  rw [afterLine]
  split
  · next hcut =>
    obtain ⟨b, -, rfl, -⟩ := cut_some hcut
    exact ⟨_ ++ [b], by rw [List.append_assoc]; rfl⟩
  · exact List.nil_suffix ..

/-- One line off a text that holds a newline. -/
theorem lines_of_cut {text l rest : List UInt8} (h : cut (· == LF) text = some (l, rest)) :
    lines text = ⟨l, true⟩ :: lines rest := by
  obtain ⟨b, hb, rfl, hl⟩ := cut_some h
  obtain rfl : b = LF := by simpa using hb
  exact lines_newline rest fun hm => by simpa using hl LF hm

/-- A text without a newline is one line. -/
theorem lines_of_cut_none {text : List UInt8} (h : cut (· == LF) text = none) (hne : text ≠ []) :
    lines text = [⟨text, false⟩] :=
  lines_last (fun hm => by simpa using cut_none.mp h LF hm) hne

/-- Only the empty text has no lines. -/
theorem lines_eq_nil {text : List UInt8} : lines text = [] ↔ text = [] := by
  cases text with
  | nil => simp [lines]
  | cons b bs =>
    refine iff_of_false ?_ (List.cons_ne_nil b bs)
    rw [lines]
    split
    · exact List.cons_ne_nil _ _
    · split <;> exact List.cons_ne_nil _ _

/-- The line with its newline. -/
def Line.raw (l : Line) : List UInt8 := if l.ended then l.bytes ++ [LF] else l.bytes

/-- The text cut at its newlines: only the last line may have none, and then it is not empty. -/
structure Pieces (text : List UInt8) (ls : List Line) : Prop where
  join : ls.flatMap Line.raw = text
  newline : ∀ l ∈ ls, LF ∉ l.bytes
  ended : ∀ l ∈ ls.dropLast, l.ended = true
  nonempty : ∀ l ∈ ls, l.ended = false → l.bytes ≠ []

/-- The empty text in no pieces. -/
theorem Pieces.nil : Pieces [] [] where
  join := rfl
  newline _ h := absurd h List.not_mem_nil
  ended _ h := absurd h List.not_mem_nil
  nonempty _ h := absurd h List.not_mem_nil

/-- A newline in front is an empty line. -/
theorem Pieces.blank {text : List UInt8} {ls : List Line} (h : Pieces text ls) :
    Pieces (LF :: text) (⟨[], true⟩ :: ls) where
  join := by
    rw [List.flatMap_cons, h.join]
    rfl
  newline := List.forall_mem_cons.mpr ⟨List.not_mem_nil, h.newline⟩
  ended := by
    cases ls with
    | nil => exact fun _ h => absurd h List.not_mem_nil
    | cons l ls =>
      rw [List.dropLast_cons_cons, List.forall_mem_cons]
      exact ⟨rfl, h.ended⟩
  nonempty := by
    rw [List.forall_mem_cons]
    refine ⟨?_, h.nonempty⟩
    intro hended
    cases hended

/-- The last byte of a text with no newline at its end. -/
theorem Pieces.single {b : UInt8} (hb : b ≠ LF) : Pieces [b] [⟨[b], false⟩] where
  join := rfl
  newline := by
    intro l hl hmem
    rw [List.mem_singleton.mp hl] at hmem
    exact hb (List.mem_singleton.mp hmem).symm
  ended _ h := absurd h List.not_mem_nil
  nonempty := by
    intro l hl _
    rw [List.mem_singleton.mp hl]
    exact List.cons_ne_nil b []

/-- Another byte in front is one of the first line. -/
theorem Pieces.cons {b : UInt8} {text : List UInt8} {l : Line} {ls : List Line} (hb : b ≠ LF)
    (h : Pieces text (l :: ls)) :
    Pieces (b :: text) (⟨b :: l.bytes, l.ended⟩ :: ls) where
  join := by
    have hraw : Line.raw ⟨b :: l.bytes, l.ended⟩ = b :: l.raw := by
      rw [Line.raw, Line.raw]
      split <;> rfl
    rw [List.flatMap_cons, hraw, List.cons_append, ← List.flatMap_cons, h.join]
  newline := by
    obtain ⟨hfirst, hrest⟩ := List.forall_mem_cons.mp h.newline
    refine List.forall_mem_cons.mpr ⟨?_, hrest⟩
    intro hmem
    rcases List.mem_cons.mp hmem with heq | hmem
    · exact hb heq.symm
    · exact hfirst hmem
  ended := by
    have hended := h.ended
    cases ls with
    | nil => exact fun _ h => absurd h List.not_mem_nil
    | cons l' ls =>
      rw [List.dropLast_cons_cons, List.forall_mem_cons] at hended ⊢
      exact hended
  nonempty := by
    rw [List.forall_mem_cons]
    exact ⟨fun _ => List.cons_ne_nil _ _, (List.forall_mem_cons.mp h.nonempty).2⟩

/-- **The lines are pieces of the text**: put together, with their ends, they make it up. -/
theorem lines_pieces (text : List UInt8) : Pieces text (lines text) := by
  induction text with
  | nil => exact .nil
  | cons b bs ih =>
    rw [lines]
    split
    · next hb =>
      rw [hb]
      exact ih.blank
    · next hb =>
      cases hls : lines bs with
      | nil =>
        rw [lines_eq_nil.mp hls]
        exact .single hb
      | cons l ls =>
        rw [hls] at ih
        exact ih.cons hb

/-! ## Texts

  A last line that is not finished is the only place where text that is appended meets a line that
  is there. -/

/-- The text ends with a newline, or is empty. -/
def Finished (text : List UInt8) : Prop := text = [] ∨ ∃ t, text = t ++ [LF]

/-- Text behind finished lines starts new lines. -/
theorem lines_append (rest : List UInt8) : ∀ {text : List UInt8}, Finished text →
    lines (text ++ rest) = lines text ++ lines rest := by
  intro text
  induction text with
  | nil =>
    intro _
    rfl
  | cons b bs ih =>
    intro h
    have hbs : Finished bs ∧ (bs = [] → b = LF) := by
      rcases h with h | ⟨t, ht⟩
      · exact absurd h (List.cons_ne_nil b bs)
      · cases t with
        | nil =>
          obtain ⟨rfl, rfl⟩ := List.cons.inj ht
          exact ⟨.inl rfl, fun _ => rfl⟩
        | cons c cs =>
          obtain ⟨rfl, rfl⟩ := List.cons.inj ht
          exact ⟨.inr ⟨cs, rfl⟩, fun h => absurd h (by simp)⟩
    rw [List.cons_append, lines, lines]
    split
    · rw [ih hbs.1]; rfl
    · next hb =>
      rw [ih hbs.1]
      cases hl : lines bs with
      | nil => exact absurd (hbs.2 (lines_eq_nil.mp hl)) hb
      | cons l ls => rfl

/-- Lines put together. -/
theorem lines_flatMap : ∀ {ls : List (List UInt8)}, (∀ l ∈ ls, LF ∉ l) →
    lines (ls.flatMap fun l => l ++ [LF]) = ls.map fun l => ⟨l, true⟩ := by
  intro ls
  induction ls with
  | nil =>
    intro _
    rfl
  | cons l ls ih =>
    intro h
    rw [List.flatMap_cons, List.append_assoc, List.singleton_append,
      lines_newline _ (h l (List.mem_cons_self ..)),
      ih fun l' hl' => h l' (List.mem_cons_of_mem l hl')]
    rfl

/-- A last line without newline gets it from what follows. -/
theorem lines_unfinished :
    ∀ {text : List UInt8}, ¬ Finished text → ∃ ls l, lines text = ls ++ [⟨l, false⟩] ∧
    ∀ rest, lines (text ++ LF :: rest) = ls ++ ⟨l, true⟩ :: lines rest := by
  intro text
  induction text with
  | nil =>
    intro h
    exact absurd (.inl rfl) h
  | cons b bs ih =>
    intro h
    by_cases hbs : Finished bs
    · -- only a single byte behind the last newline can be unfinished by itself
      have hb : bs = [] ∧ b ≠ LF := by
        rcases hbs with rfl | ⟨t, rfl⟩
        · exact ⟨rfl, fun hb => h (.inr ⟨[], by rw [hb]; rfl⟩)⟩
        · exact absurd (.inr ⟨b :: t, rfl⟩) h
      obtain ⟨rfl, hb⟩ := hb
      have hmem : LF ∉ [b] := fun hm => hb (List.mem_singleton.mp hm).symm
      exact ⟨[], [b], lines_last hmem (List.cons_ne_nil b []), fun rest => lines_newline rest hmem⟩
    · obtain ⟨ls, l, hl, hrest⟩ := ih hbs
      by_cases hb : b = LF
      · refine ⟨⟨[], true⟩ :: ls, l, ?_, fun rest => ?_⟩
        · rw [lines, if_pos hb, hl]; rfl
        · rw [List.cons_append, lines, if_pos hb, hrest]; rfl
      · cases ls with
        | nil =>
          refine ⟨[], b :: l, ?_, fun rest => ?_⟩
          · rw [lines, if_neg hb, hl]; rfl
          · rw [List.cons_append, lines, if_neg hb, hrest]; rfl
        | cons x xs =>
          refine ⟨⟨b :: x.bytes, x.ended⟩ :: xs, l, ?_, fun rest => ?_⟩
          · rw [lines, if_neg hb, hl]; rfl
          · rw [List.cons_append, lines, if_neg hb, hrest]; rfl

instance (text : List UInt8) : Decidable (Finished text) :=
  decidable_of_iff (text = [] ∨ text.getLast? = some LF)
    (by rw [Finished, List.getLast?_eq_some_iff])

/-- More lines behind a text. -/
def addLines (text more : List UInt8) : List UInt8 :=
  if Finished text then text ++ more else text ++ LF :: more

end TextLines
