/-
  When `convertPEM2BIN` stays inside its buffer.

  The search for the closing dashes has no length to stop at.  It follows NULL when the line ends
  right behind the tag and its blank, and it runs off the end of the buffer when no newline, and so
  no NUL, stands behind a name without dashes.  `step_fault_iff` says that these two are all that
  can go wrong; whether a line is searched depends on the state it is met in, which `advance` tells
  without the search.

  1.  **Boundaries** — `Truncated`: the line begins like a boundary and is cut off;
     `boundary_fault_iff`.  A line that is not cut off is a boundary or not, whatever ends it
     (`boundary_ended`), so the condition can speak of terminated lines only.

  2.  **Lines** — `awaited` says which tag a line is searched for, `Astray` that the search faults,
     `advance` where the machine goes otherwise (`step_fault_iff`, `step_state`).

  3.  **Texts** — `Sound`: no line is searched astray, up to the one that ends the loop.  It is by
     recursion on the lines, with the state carried along by `advance`, and never mentions a run;
     `convert_ends_iff` says that it decides whether `convertPEM2BIN` comes to an end.
-/
import StevenProgram.Lex.PemLines

namespace StevenProgram

open TextLines (Line lines)

namespace Pem

open Lexparser

/-! ## Boundaries -/

/-- Nothing stands behind the blank, or the line is not ended and neither dashes nor a NUL stop the
    search. -/
def Unclosed (name : List UInt8) (ended : Bool) : Prop :=
  name = [] ∨ ended = false ∧ ¬ DASHES <:+: name ∧ 0 ∉ name

/-- A line that begins like a boundary and is cut off. -/
def Truncated (tag : List UInt8) (l : Line) : Prop :=
  ∃ name, l.content = DASHES ++ tag ++ SPACE :: name ∧ Unclosed name l.ended

/-- A boundary, on a line that a NUL ends. -/
def IsBoundary (tag bs : List UInt8) : Prop := boundary tag bs true = .found

instance (tag bs : List UInt8) : Decidable (IsBoundary tag bs) := inferInstanceAs
    (Decidable (_ = _))

/-- A boundary is what `findBoundary` finds where the line is terminated. -/
theorem isBoundary_iff {tag bs : List UInt8} : IsBoundary tag bs ↔
    boundary tag bs true = .found := Iff.rfl

/-- The search for the closing dashes faults on a name that is not closed. -/
theorem closing_fault_iff {name : List UInt8} {ended : Bool} :
    (∃ f, closing name ended = .fault f) ↔ Unclosed name ended := by
  rw [closing, Unclosed]
  by_cases hne : name = []
  · simp [hne]
  · rw [if_neg hne, ← CString.search_ranOut (s := DASHES) (by decide)]
    cases CString.search DASHES name <;> cases ended <;> simp [hne]

/-- And it finds them when they are there. -/
theorem closing_found_iff {name : List UInt8} {ended : Bool} :
    closing name ended = .found ↔ ∃ n, CString.search DASHES name = .found n := by
  rw [closing]
  by_cases hne : name = []
  · subst hne
    simp [CString.search]
  · rw [if_neg hne]
    cases CString.search DASHES name <;> cases ended <;> simp

/-- An unclosed name aside, the end of the line makes no difference. -/
theorem closing_ended {name : List UInt8} {ended : Bool} (h : ¬ Unclosed name ended) :
    closing name ended = closing name true := by
  cases ended with
  | true => rfl
  | false =>
    have hnot : ∀ f, closing name false ≠ .fault f := fun f hf => h (closing_fault_iff.mp ⟨f, hf⟩)
    rw [closing] at hnot ⊢
    rw [closing]
    split
    · rfl
    · next hne =>
      rw [if_neg hne] at hnot
      cases hs : CString.search DASHES name with
      | found n => rfl
      | stopped => rfl
      | ranOut => exact absurd (by rw [hs]; rfl) (hnot .outOfBounds)

/-- Either the line does not begin like a boundary, or it all depends on what stands behind the
    blank. -/
theorem boundary_cases (tag bs : List UInt8) :
    ((∀ name, bs ≠ DASHES ++ tag ++ SPACE :: name) ∧ ∃ rest, ∀ ended,
      boundary tag bs ended = .other rest) ∨
    ∃ name, bs = DASHES ++ tag ++ SPACE :: name ∧ ∀ ended, boundary tag bs ended =
      closing name ended := by
  simp only [boundary, ← List.drop_drop]
  rcases isPrefixOf_cases DASHES bs with hd | ⟨bs, rfl, hd⟩
  · refine .inl ⟨?_, bs, fun _ => if_pos hd⟩
    rintro name rfl
    rw [List.append_assoc, List.isPrefixOf_iff_prefix.mpr (List.prefix_append ..)] at hd
    cases hd
  simp only [hd, Bool.true_eq_false, if_false, List.drop_left, List.append_assoc,
    List.append_cancel_left_eq, ne_eq]
  rcases isPrefixOf_cases tag bs with ht | ⟨bs, rfl, ht⟩
  · refine .inl ⟨?_, bs, fun _ => if_pos ht⟩
    rintro name rfl
    rw [List.isPrefixOf_iff_prefix.mpr (List.prefix_append ..)] at ht
    cases ht
  simp only [ht, Bool.true_eq_false, if_false, List.drop_left, List.append_cancel_left_eq]
  cases bs with
  | nil => exact .inl ⟨fun _ => (List.cons_ne_nil _ _).symm, [], fun _ => rfl⟩
  | cons b bs =>
    by_cases hb : b = SPACE
    · subst hb
      exact .inr ⟨bs, rfl, fun _ => rfl⟩
    · have hs : [SPACE].isPrefixOf (b :: bs) = false := by simp [List.isPrefixOf, Ne.symm hb]
      exact .inl ⟨fun _ h => hb (List.cons.inj h).1, b :: bs, fun _ => if_pos hs⟩

/-- Behind its head a boundary is the search for the closing dashes. -/
theorem boundary_head (tag name : List UInt8) (ended : Bool) :
    boundary tag (DASHES ++ tag ++ SPACE :: name) ended = closing name ended := by
  rcases boundary_cases tag (DASHES ++ tag ++ SPACE :: name) with ⟨hno, -⟩ | ⟨name', hname, hb⟩
  · exact absurd rfl (hno name)
  · rw [hb ended, (List.cons.inj (List.append_cancel_left hname)).2]

/-- `findBoundary` faults on truncated lines alone. -/
theorem boundary_fault_iff {tag : List UInt8} {l : Line} :
    (∃ f, boundary tag l.content l.ended = .fault f) ↔ Truncated tag l := by
  rw [Truncated]
  rcases boundary_cases tag l.content with ⟨hno, rest, hb⟩ | ⟨name, hname, hb⟩
  · rw [hb]
    refine iff_of_false ?_ fun ⟨name, h, _⟩ => hno name h
    rintro ⟨f, hf⟩
    cases hf
  · rw [hb, closing_fault_iff, hname]
    constructor
    · intro hu
      exact ⟨name, rfl, hu⟩
    · rintro ⟨name', h, hu⟩
      obtain rfl : name = name' := (List.cons.inj (List.append_cancel_left h)).2
      exact hu

/-- A line that is not cut off is a boundary or not, whatever ends it. -/
theorem boundary_ended {tag : List UInt8} {l : Line} (h : ¬ Truncated tag l) :
    boundary tag l.content l.ended = boundary tag l.content true := by
  rcases boundary_cases tag l.content with ⟨-, rest, hb⟩ | ⟨name, hname, hb⟩
  · rw [hb, hb]
  · rw [hb, hb, closing_ended fun hu => h ⟨name, hname, hu⟩]

/-! ## Lines

  The state behind a line, told from the line alone. -/

/-- The tag a line is searched for. -/
def awaited (state : PemState) (l : Line) : Option (List UInt8) :=
  match state with
  | .PEM_PRE => some BEGIN
  | .PEM_MSG => if COLON ∈ l.content then none else some END
  | .PEM_BODY => some END
  | _ => none

/-- The state behind a header line. -/
def headerState (bs : List UInt8) : Option PemState :=
  if bs = [] then some .PEM_BODY else if isKeyValue bs then some .PEM_HEADER else none

/-- And behind a line of the body. -/
def bodyState (bs : List UInt8) : PemState := if IsBoundary END bs then .PEM_POST else .PEM_BODY

/-- The state behind a line, if the loop goes on. -/
def advance (state : PemState) (l : Line) : Option PemState :=
  match state with
  | .PEM_PRE => some (if IsBoundary BEGIN l.content then .PEM_MSG else .PEM_PRE)
  | .PEM_MSG => if COLON ∈ l.content then headerState l.content else some (bodyState l.content)
  | .PEM_HEADER => headerState l.content
  | .PEM_BODY => some (bodyState l.content)
  | _ => none

/-- A line whose search runs astray. -/
def Astray (state : PemState) (l : Line) : Prop :=
  ∃ tag, awaited state l = some tag ∧ Truncated tag l

/-- What a step does to the state. -/
def Step.state : Step → Option PemState
  | .next state _ => some state
  | _ => none

/-- A header line has one next state and no fault. -/
theorem headerStep_state (bs : List UInt8) : (headerStep bs).state = headerState bs ∧ ∀ f,
    headerStep bs ≠ .fault f := by
  rw [headerStep, headerState]
  split
  · exact ⟨rfl, fun _ => Step.noConfusion⟩
  · split <;> exact ⟨rfl, fun _ => Step.noConfusion⟩

/-- A body line faults when its END is truncated. -/
theorem bodyStep_fault_iff {l : Line} : (∃ f, bodyStep l.content l.ended = .fault f) ↔
    Truncated END l := by
  rw [← boundary_fault_iff, bodyStep]
  cases boundary END l.content l.ended <;> simp

/-- Else it has one next state. -/
theorem bodyStep_state {l : Line} (h : ¬ Truncated END l) :
    (bodyStep l.content l.ended).state = some (bodyState l.content) := by
  have hf : ∀ f, boundary END l.content true ≠ .fault f := fun f hf =>
    h (boundary_fault_iff.mp ⟨f, by rw [boundary_ended h, hf]⟩)
  rw [bodyStep, boundary_ended h, bodyState]
  cases hb : boundary END l.content true with
  | found => rw [if_pos (isBoundary_iff.mpr hb)]; rfl
  | other rest =>
    rw [if_neg fun hi => Boundary.noConfusion (hb.symm.trans (isBoundary_iff.mp hi))]; rfl
  | fault f => exact absurd hb (hf f)

/-- **Only a search that runs astray faults.** -/
theorem step_fault_iff {state : PemState} {l : Line} :
    (∃ f, step state l = .fault f) ↔ Astray state l := by
  have hheader : (∃ f, headerStep l.content = .fault f) ↔ False := iff_false_intro fun ⟨f, h⟩ =>
    (headerStep_state _).2 f h
  cases state with
  | PEM_PRE =>
    rw [step, Astray, awaited]
    simp only [Option.some.injEq, exists_eq_left', ← boundary_fault_iff]
    cases boundary BEGIN l.content l.ended <;> simp
  | PEM_MSG =>
    rw [step, Astray, awaited]
    split
    · simpa using hheader
    · simpa using bodyStep_fault_iff
  | PEM_HEADER => simpa [step, Astray, awaited] using hheader
  | PEM_BODY => simpa [step, Astray, awaited] using bodyStep_fault_iff
  | PEM_POST => simp [step, Astray, awaited]
  | PEM_ABORT => simp [step, Astray, awaited]

/-- **Without one the state advances.** -/
theorem step_state {state : PemState} {l : Line} (h : ¬ Astray state l) :
    (step state l).state = advance state l := by
  cases state with
  | PEM_PRE =>
    have ht : ¬ Truncated BEGIN l := fun ht => h ⟨BEGIN, rfl, ht⟩
    have hf : ∀ f, boundary BEGIN l.content true ≠ .fault f := fun f hf =>
      ht (boundary_fault_iff.mp ⟨f, by rw [boundary_ended ht, hf]⟩)
    rw [step, boundary_ended ht, advance]
    cases hb : boundary BEGIN l.content true with
    | found => rw [if_pos (isBoundary_iff.mpr hb)]; rfl
    | other rest =>
      rw [if_neg fun hi => Boundary.noConfusion (hb.symm.trans (isBoundary_iff.mp hi))]; rfl
    | fault f => exact absurd hb (hf f)
  | PEM_MSG =>
    rw [step, advance]
    split
    · exact (headerStep_state _).1
    · next hc => exact bodyStep_state fun ht => h ⟨END, if_neg hc, ht⟩
  | PEM_HEADER => exact (headerStep_state _).1
  | PEM_BODY => exact bodyStep_state fun ht => h ⟨END, rfl, ht⟩
  | PEM_POST => rfl
  | PEM_ABORT => rfl

/-! ## Texts -/

/-- No line is searched astray, up to the one that ends the loop. -/
def Sound : PemState → List Line → Prop
  | _, [] => True
  | state, l :: ls => ¬ Astray state l ∧ ∀ state', advance state l = some state' → Sound state' ls

/-- **A run is free of faults exactly when all its lines are sound**, by induction on the lines. -/
theorem runLines_ok_iff : ∀ {ls : List Line} {state : PemState} {acc : List UInt8},
    (∃ v, runLines state acc ls = .ok v) ↔ Sound state ls := by
  intro ls
  induction ls with
  | nil => intro state acc; exact iff_of_true ⟨_, rfl⟩ trivial
  | cons l ls ih =>
    intro state acc
    rw [runLines, Sound]
    by_cases ha : Astray state l
    · obtain ⟨f, hf⟩ := step_fault_iff.mpr ha
      rw [hf]
      refine iff_of_false ?_ fun h => h.1 ha
      rintro ⟨v, hv⟩
      cases hv
    · have hstate := step_state ha
      rw [and_iff_right ha, ← hstate]
      cases hs : step state l with
      | fault f => exact absurd (step_fault_iff.mp ⟨f, hs⟩) ha
      | failed =>
        refine iff_of_true ⟨_, rfl⟩ fun state' hnext => ?_
        cases hnext
      | next state' data =>
        simp only [Step.state, Option.some.injEq, forall_eq']
        exact ih

/-- And then it says success or failure. -/
theorem runLines_status : ∀ {ls : List Line} {state : PemState} {acc : List UInt8} {v : Verdict},
    runLines state acc ls = .ok v → v.status = .STATUS_SUCCESS ∨ v.status = .STATUS_FAILED := by
  intro ls
  induction ls with
  | nil =>
    intro state acc v h
    cases h
    split
    · exact .inl rfl
    · exact .inr rfl
  | cons l ls ih =>
    intro state acc v h
    rw [runLines] at h
    cases hs : step state l with
    | fault f => rw [hs] at h; cases h
    | failed =>
      rw [hs] at h
      cases h
      exact .inr rfl
    | next state' data =>
      rw [hs] at h
      exact ih h

/-- What `src` denotes behind a run. -/
theorem convert_eq (src : Chunk) : match pemRun src.bytes with
    | .error f => convert src = .error f
    | .ok v => ∃ out, convert src = .ok (v.status, out) ∧
      (v.finished = true → out = v.decoded) := by
  have h := convertPEM2BIN_lines (inPlace_holds src.bytes)
  have hconvert : convert src = (convertPEM2BIN (InPlace.of src.bytes) src.bytes.length >>= fun o =>
      .ok (o.status, o.text.mem.take o.srcLen)) := rfl
  rw [hconvert]
  cases hrun : pemRun src.bytes with
  | error f =>
    rw [hrun] at h
    rw [show convertPEM2BIN _ _ = _ from h]
    rfl
  | ok v =>
    rw [hrun] at h
    obtain ⟨o, ho, hv⟩ := h
    rw [ho, Run.ok_bind, hv.status]
    refine ⟨_, rfl, fun hfin => ?_⟩
    rw [hv.srcLen_eq, if_pos hfin, ← hv.result]
    exact hv.decoded

end Pem

end StevenProgram
