/-
  `certX509::getCertSubjectString` (`certX509.cpp`): the subject of a certificate as a line of text.

  The texts of the entries are put one behind the other into 128 bytes with `snprintf`, at an offset
  that grows by what `snprintf` returns: the length of the whole text, whether it fitted or not.
  Past the end of the buffer the remaining size is an unsigned difference that wraps, and the next
  text is written outside.

  1. **Code** — `appendEntry`, one turn of the loop, and `getCertSubjectString`.
  2. **The buffer** (`Holds`) — `appendEntry_holds`, `subjectLoop_holds`; the offset is the length
     of the texts (`appendAll_offset`).
  3. **The string** — `subject_string_iff`.

  `snprintf` writes at most `size` bytes with the NUL and returns the length of the text; OpenSSL
  puts a NUL behind the value of an entry.  The chunk is its bytes, and memory for it can be had.
-/
import Mathlib.Algebra.GroupWithZero.Nat
import Mathlib.Data.List.TakeWhile
import StevenProgram.Lex.Lexparser

namespace StevenProgram

namespace SubjectString

/-! ## Code

  A write of `snprintf` ends in its buffer; the offset that the code keeps does not, since the
  return value is the length of the whole text. -/

/-- `Nid` -/
inductive AttributeType where
  | NID_countryName
  | NID_stateOrProvinceName
  | NID_localityName
  | NID_organizationName
  | NID_organizationalUnitName
  | NID_commonName
  | NID_pkcs9_emailAddress
  | other (nid : Nat)
  deriving DecidableEq, Repr

/-- What stands before the value. -/
def AttributeType.label : AttributeType → Option (List UInt8)
  | .NID_countryName => some (ascii "C = ")
  | .NID_stateOrProvinceName => some (ascii "ST = ")
  | .NID_localityName => some (ascii "L = ")
  | .NID_organizationName => some (ascii "O = ")
  | .NID_organizationalUnitName => some (ascii "OU = ")
  | .NID_commonName => some (ascii "CN = ")
  | .NID_pkcs9_emailAddress => some (ascii "M = ")
  | .other _ => none

/-- `X509_NAME_ENTRY` -/
structure NameEntry where
  nid : AttributeType
  data : List UInt8

/-- `sizeof(str)` -/
abbrev STR_SIZE : Nat := 128

/-- `sizeof(str)-str_len`, a `size_t` -/
def remaining (str_len : Nat) : Nat := (STR_SIZE + 2 ^ 64 - str_len) % 2 ^ 64

/-- `snprintf(dst+off, size, ..)` for this text. -/
def snprintf {n : Nat} (dst : Mem n) (off size : Nat) (text : List UInt8) : Run (Mem n × Nat) :=
  if size = 0 then .ok (dst, text.length)
  else do
    let dst ← dst.memcpy off (text.take (size - 1) ++ [0])
    .ok (dst, text.length)

/-- What `%s` prints. -/
def cString (data : List UInt8) : List UInt8 := data.takeWhile (· != 0)

/-- What is printed of an entry. -/
def NameEntry.printed (entry : NameEntry) : Option (List UInt8) :=
  entry.nid.label.map fun label => label ++ cString entry.data ++ ascii ", "

/-- `str` and `str_len`, after the entry. -/
def appendEntry (st : Mem STR_SIZE × Nat) (entry : NameEntry) : Run (Mem STR_SIZE × Nat) :=
  match entry.printed with
  | none => .ok st
  | some text => do
      let (str, len) ← snprintf st.1 st.2 (remaining st.2) text
      -- `str_len` is an `s32_t`
      if st.2 + len < 2 ^ 31 then .ok (str, st.2 + len) else .error .wrapped

/-- The loop over the entries. -/
def subjectLoop (entries : List NameEntry) : Run (Mem STR_SIZE × Nat) :=
  entries.foldlM appendEntry (Mem.fill STR_SIZE 0, 0)

/-- `strncpy(dst, src, n)` -/
def strncpy (src : List UInt8) (n : Nat) : List UInt8 :=
  let text := cString (src.take n)
  text ++ List.replicate (n - text.length) 0

/-- The loop, and a chunk of what is in front of the last separator. -/
def getCertSubjectString (entries : List NameEntry) : Run (List UInt8) := do
  let (str, str_len) ← subjectLoop entries
  if str_len > 2 then do
    -- remove ", "
    let str_len := str_len - 2
    let str ← writeAt str.bytes str_len 0
    .ok (strncpy str str_len)
  else .ok []

/-! ## The buffer

  While everything fits, the buffer holds the texts and a NUL, and the offset is where it ends
  (`Holds`). -/

/-- What is printed of the entries. -/
def printedAll (entries : List NameEntry) : List UInt8 :=
  (entries.filterMap NameEntry.printed).flatten

/-- The buffer and the offset behind this text. -/
structure Holds (text : List UInt8) (st : Mem STR_SIZE × Nat) : Prop where
  offset : st.2 = text.length
  bytes : ∃ rest, st.1.bytes = text.take 127 ++ 0 :: rest

/-- The buffer begins empty. -/
theorem holds_init : Holds [] (Mem.fill STR_SIZE 0, 0) := by
  constructor
  · rfl
  · exact ⟨List.replicate 127 0, rfl⟩

/-- **Step lemma**: a text that does not go past the end is put behind the others, and the offset
    moves with it. -/
theorem appendEntry_holds {text : List UInt8} {st : Mem STR_SIZE × Nat} (h : Holds text st)
    {entry : NameEntry} {new : List UInt8}
    (hnew : entry.printed = some new) (hfits : (text ++ new).length ≤ STR_SIZE) :
    ∃ st', appendEntry st entry = .ok st' ∧ Holds (text ++ new) st' := by
  obtain ⟨str, off⟩ := st
  obtain rfl : off = text.length := h.offset
  obtain ⟨rest, hbytes⟩ := h.bytes
  have hbytes : str.bytes = text.take 127 ++ 0 :: rest := hbytes
  rw [List.length_append] at hfits
  have hs32 : text.length + new.length < 2 ^ 31 := Nat.lt_of_le_of_lt hfits (by decide)
  have hlen : (text ++ new).length = text.length + new.length := List.length_append
  have hsize : remaining text.length = 128 - text.length := by
    show (128 + 2 ^ 64 - text.length) % 2 ^ 64 = 128 - text.length
    have hle : text.length ≤ 128 := Nat.le_trans (Nat.le_add_right _ _) hfits
    omega
  rw [appendEntry, hnew]
  simp only [snprintf, hsize]
  by_cases hfull : 128 - text.length = 0
  · -- nothing is written any more
    rw [if_pos hfull, Run.ok_bind]
    simp only [if_pos hs32]
    refine ⟨_, rfl, hlen.symm, rest, ?_⟩
    rw [List.take_append_of_le_length (by omega)]
    exact hbytes
  · rw [if_neg hfull]
    have hfit : text.length + (new.take (128 - text.length - 1) ++ [0]).length ≤ 128 := by
      rw [List.length_append, List.length_take, List.length_singleton]
      omega
    obtain ⟨str', hcopy, hstr'⟩ := str.memcpy_ok text.length
      (new.take (128 - text.length - 1) ++ [0]) hfit
    rw [hcopy]
    simp only [Run.ok_bind, if_pos hs32]
    have hlt : text.length ≤ 127 := by omega
    have hfront : str.bytes.take text.length = text := by
      rw [hbytes, List.take_of_length_le hlt, List.take_left]
    refine ⟨_, rfl, hlen.symm,
      str.bytes.drop (text.length + (new.take (128 - text.length - 1) ++ [0]).length), ?_⟩
    show str'.bytes = _
    rw [hstr', hfront, List.take_append, List.take_of_length_le hlt,
      show 128 - text.length - 1 = 127 - text.length by omega]
    simp only [List.append_assoc, List.singleton_append]

/-- The loop, as long as the texts do not go past the end. -/
theorem appendAll_holds :
    ∀ (entries : List NameEntry) {text : List UInt8} {st : Mem STR_SIZE × Nat}, Holds text st →
    (text ++ printedAll entries).length ≤ STR_SIZE → ∃ st', entries.foldlM appendEntry st =
      .ok st' ∧ Holds (text ++ printedAll entries) st' := by
  intro entries
  induction entries with
  | nil =>
    intro text st h _
    rw [printedAll, List.filterMap_nil, List.flatten_nil, List.append_nil]
    exact ⟨st, rfl, h⟩
  | cons entry entries ih =>
    intro text st h hfits
    rw [List.foldlM_cons]
    cases hnew : entry.printed with
    | none =>
      have hall : printedAll (entry :: entries) = printedAll entries := by
        rw [printedAll, List.filterMap_cons, hnew]
        rfl
      rw [hall] at hfits ⊢
      rw [appendEntry, hnew]
      exact ih h hfits
    | some new =>
      have hall : text ++ printedAll (entry :: entries) = text ++ new ++ printedAll entries := by
        rw [printedAll, List.filterMap_cons, hnew]
        simp only [List.flatten_cons, List.append_assoc]
        rfl
      rw [hall] at hfits ⊢
      have hfirst : (text ++ new).length ≤ STR_SIZE := by
        rw [List.length_append] at hfits
        exact Nat.le_trans (Nat.le_add_right _ _) hfits
      obtain ⟨st1, hrun, h1⟩ := appendEntry_holds h hnew hfirst
      rw [hrun, Run.ok_bind]
      exact ih h1 hfits

/-- Texts that fit are appended one after the other. -/
theorem subjectLoop_holds {entries : List NameEntry}
    (hfits : (printedAll entries).length ≤ STR_SIZE) :
    ∃ st, subjectLoop entries = .ok st ∧ Holds (printedAll entries) st :=
  appendAll_holds entries holds_init hfits

/-- **The offset** is the length of the texts, whether they fitted or not; by induction on the
    entries. -/
theorem appendAll_offset : ∀ (entries : List NameEntry) {st st' : Mem STR_SIZE × Nat},
    entries.foldlM appendEntry st = .ok st' →
    st'.2 = st.2 + (printedAll entries).length := by
  intro entries
  induction entries with
  | nil =>
    intro st st' h
    cases h
    rfl
  | cons entry entries ih =>
    intro st st' h
    rw [List.foldlM_cons] at h
    obtain ⟨st1, hentry, hrest⟩ := Run.bind_ok.mp h
    have hoff := ih hrest
    rw [appendEntry] at hentry
    cases hnew : entry.printed with
    | none =>
      rw [hnew] at hentry
      cases hentry
      rw [hoff, printedAll, printedAll, List.filterMap_cons, hnew]
    | some new =>
      rw [hnew] at hentry
      obtain ⟨⟨str, len⟩, hprint, hentry⟩ := Run.bind_ok.mp hentry
      have hlen : len = new.length := by
        rw [snprintf] at hprint
        split at hprint
        · cases hprint
          rfl
        · obtain ⟨str', -, hprint⟩ := Run.bind_ok.mp hprint
          cases hprint
          rfl
      have hst1 : st1.2 = st.2 + new.length := by
        dsimp only at hentry
        split at hentry
        · cases hentry
          rw [hlen]
        · cases hentry
      rw [hoff, hst1, printedAll, printedAll, List.filterMap_cons, hnew]
      simp only [List.flatten_cons, List.length_append]
      omega

/-! ## The string

  The last separator is cut off by its length, and the copy into the chunk takes what is in front of
  the NUL. -/

/-- 'TYPE = value' -/
def NameEntry.text (entry : NameEntry) : Option (List UInt8) := entry.nid.label.map fun label =>
    label ++ entry.data

/-- The texts of the entries, joined. -/
def subjectText (entries : List NameEntry) : List UInt8 :=
  (ascii ", ").intercalate (entries.filterMap NameEntry.text)

/-- The loop stays in the buffer at every entry, and the chunk is the text as far as the buffer
    holds it. -/
structure SubjectMeets (entries : List NameEntry) : Prop where
  inside : ∀ i, ∃ str len, subjectLoop (entries.take i) = .ok (str, len) ∧ len ≤ STR_SIZE
  chunk : getCertSubjectString entries = .ok ((subjectText entries).take 127)

/-- The texts with a separator behind each have 128 bytes at most, and no value has a NUL. -/
structure SubjectFits (entries : List NameEntry) : Prop where
  total : ((entries.filterMap NameEntry.text).map fun text => text.length + 2).sum ≤ STR_SIZE
  noNul : ∀ entry ∈ entries, entry.nid.label.isSome → 0 ∉ entry.data

section Text

variable {entries : List NameEntry}

/-- A text without a NUL is printed whole. -/
theorem cString_eq_iff {data : List UInt8} : cString data = data ↔ 0 ∉ data := by
  rw [cString, List.takeWhile_eq_self_iff]
  constructor
  · intro h hmem
    exact absurd (h 0 hmem) (by decide)
  · intro h x hx
    rw [bne_iff_ne]
    rintro rfl
    exact h hx

/-- No printed text holds a NUL. -/
theorem not_mem_cString (data : List UInt8) : 0 ∉ cString data := by
  intro hmem
  exact absurd (List.mem_takeWhile_imp hmem) (by decide)

/-- What is printed is no longer than the texts, and shorter where a value has a NUL. -/
theorem printedAll_length (entries : List NameEntry) :
    (printedAll entries).length ≤ ((entries.filterMap NameEntry.text).map fun text =>
      text.length + 2).sum ∧
    ((printedAll entries).length = ((entries.filterMap NameEntry.text).map fun text =>
      text.length + 2).sum ↔
      ∀ entry ∈ entries, entry.nid.label.isSome → 0 ∉ entry.data) := by
  induction entries with
  | nil => exact ⟨Nat.le_refl 0, fun _ => by simp, fun _ => rfl⟩
  | cons entry entries ih =>
    obtain ⟨hle, heq⟩ := ih
    have hsep : (ascii ", ").length = 2 := rfl
    have hcut : (cString entry.data).length ≤ entry.data.length :=
      (List.takeWhile_prefix _).length_le
    have hcut_eq : (cString entry.data).length = entry.data.length ↔ 0 ∉ entry.data := by
      rw [← cString_eq_iff]
      constructor
      · exact (List.takeWhile_prefix _).eq_of_length
      · exact congrArg _
    rw [printedAll, List.filterMap_cons, List.filterMap_cons, NameEntry.printed, NameEntry.text,
      List.forall_mem_cons]
    rw [printedAll] at hle heq
    cases hlabel : entry.nid.label with
    | none =>
      simp only [Option.map_none, Option.isSome_none, Bool.false_eq_true, false_implies, true_and]
      exact ⟨hle, heq⟩
    | some label =>
      simp only [Option.map_some, Option.isSome_some, forall_const, List.flatten_cons,
        List.map_cons, List.sum_cons,
        List.length_append, hsep]
      rw [← heq, ← hcut_eq]
      omega

/-- Every text is printed with its separator. -/
theorem two_le_printedAll {x : List UInt8} (h : x ∈ entries.filterMap NameEntry.text) :
    2 ≤ (printedAll entries).length := by
  obtain ⟨entry, hentry, htext⟩ := List.mem_filterMap.mp h
  obtain ⟨label, hlabel, -⟩ := Option.map_eq_some_iff.mp htext
  have hmem : label ++ cString entry.data ++ ascii ", " ∈ entries.filterMap NameEntry.printed :=
    List.mem_filterMap.mpr ⟨entry, hentry, by rw [NameEntry.printed, hlabel]; rfl⟩
  have hlen := (List.sublist_flatten_of_mem hmem).length_le
  rw [List.length_append] at hlen
  exact Nat.le_trans (Nat.le_add_left 2 _) hlen

/-- The texts with a separator behind each. -/
theorem flatten_map_sep (sep : List UInt8) : ∀ (x : List UInt8) (xs : List (List UInt8)),
    ((x :: xs).map (· ++ sep)).flatten = sep.intercalate (x :: xs) ++ sep := by
  intro x xs
  induction xs generalizing x with
  | nil => simp [List.intercalate_singleton]
  | cons y ys ih =>
    rw [List.map_cons, List.flatten_cons, ih]
    simp [List.intercalate_cons_cons]

/-- The length with a separator behind every text. -/
theorem subjectText_length (x : List UInt8) (xs : List (List UInt8)) :
    ((ascii ", ").intercalate (x :: xs)).length + 2 =
      ((x :: xs).map fun text => text.length + 2).sum := by
  have h := congrArg List.length (flatten_map_sep (ascii ", ") x xs)
  rw [List.length_append, List.length_flatten, List.map_map] at h
  rw [← show (ascii ", ").length = 2 from rfl, ← h]
  congr 1
  apply List.map_congr_left
  intro text _
  exact List.length_append

/-- Without a NUL everything is printed. -/
theorem printedAll_eq :
    ∀ {entries : List NameEntry}, (∀ entry ∈ entries, entry.nid.label.isSome → 0 ∉ entry.data) →
    printedAll entries = ((entries.filterMap NameEntry.text).map (· ++ ascii ", ")).flatten := by
  intro entries
  induction entries with
  | nil => exact fun _ => rfl
  | cons entry entries ih =>
    intro h
    rw [List.forall_mem_cons] at h
    have hrest := ih h.2
    rw [printedAll] at hrest
    rw [printedAll, List.filterMap_cons, List.filterMap_cons, NameEntry.printed, NameEntry.text]
    cases hlabel : entry.nid.label with
    | none => exact hrest
    | some label =>
      have hdata := cString_eq_iff.mpr (h.1 (hlabel ▸ rfl))
      simp only [Option.map_some, hdata, List.flatten_cons, List.map_cons, hrest]

/-- All of them together hold none. -/
theorem not_mem_printedAll (entries : List NameEntry) : 0 ∉ printedAll entries := by
  intro hmem
  obtain ⟨text, htext, hmem⟩ := List.mem_flatten.mp hmem
  obtain ⟨entry, -, hprinted⟩ := List.mem_filterMap.mp htext
  obtain ⟨label, hlabel, rfl⟩ := Option.map_eq_some_iff.mp hprinted
  have hnul : 0 ∉ label := by
    revert hlabel
    cases entry.nid <;> rintro ⟨⟩ <;> decide
  rcases List.mem_append.mp hmem with hmem | hmem
  · rcases List.mem_append.mp hmem with hmem | hmem
    · exact hnul hmem
    · exact not_mem_cString _ hmem
  · exact absurd hmem (by decide)

/-- **The chunk** when the texts do not go past the end: the texts without the last separator. -/
theorem getCertSubjectString_eq (hfits : (printedAll entries).length ≤ STR_SIZE) :
    getCertSubjectString entries = .ok
      ((printedAll entries).take ((printedAll entries).length - 2)) := by
  obtain ⟨⟨str, len⟩, hloop, hholds⟩ := subjectLoop_holds hfits
  obtain rfl : len = (printedAll entries).length := hholds.offset
  obtain ⟨rest, hbytes⟩ := hholds.bytes
  have hbytes : str.bytes = (printedAll entries).take 127 ++ 0 :: rest := hbytes
  rw [getCertSubjectString, hloop, Run.ok_bind]
  dsimp only
  split
  · have hfits : (printedAll entries).length ≤ 128 := hfits
    have hlt : (printedAll entries).length - 2 < str.bytes.length := by
      rw [str.size]
      show _ < 128
      omega
    rw [writeAt, if_pos hlt, Run.ok_bind, strncpy, List.take_set_of_le (Nat.le_refl _), hbytes]
    have hfront :
      ((printedAll entries).take 127 ++ 0 :: rest).take ((printedAll entries).length - 2) =
        (printedAll entries).take ((printedAll entries).length - 2) := by
      rw [List.take_append_of_le_length (by rw [List.length_take]; omega), List.take_take]
      congr 1
      omega
    have hnul : cString ((printedAll entries).take ((printedAll entries).length - 2)) =
        (printedAll entries).take ((printedAll entries).length - 2) :=
      cString_eq_iff.mpr fun hmem => not_mem_printedAll entries (List.mem_of_mem_take hmem)
    have hlen :
      ((printedAll entries).take ((printedAll entries).length - 2)).length =
      (printedAll entries).length - 2 := by
      rw [List.length_take]
      omega
    rw [hfront, hnul, hlen, Nat.sub_self, List.replicate_zero, List.append_nil]
  · next hshort =>
    rw [show (printedAll entries).length - 2 = 0 by omega, List.take_zero]

/-- The chunk is the text: a value with a NUL would make the text longer than what is printed. -/
theorem total_of_chunk (hfits : (printedAll entries).length ≤ STR_SIZE)
    (hchunk : getCertSubjectString entries = .ok ((subjectText entries).take 127)) :
    (printedAll entries).length = ((entries.filterMap NameEntry.text).map fun text =>
      text.length + 2).sum := by
  have hle := (printedAll_length entries).1
  rw [getCertSubjectString_eq hfits] at hchunk
  have hlen := congrArg List.length (Except.ok.inj hchunk)
  rw [List.length_take, List.length_take, subjectText] at hlen
  cases htexts : entries.filterMap NameEntry.text with
  | nil =>
    rw [htexts] at hle
    exact Nat.le_antisymm hle (Nat.zero_le _)
  | cons x xs =>
    have hfits : (printedAll entries).length ≤ 128 := hfits
    have hsum := subjectText_length x xs
    have htwo := two_le_printedAll
      (htexts ▸ List.mem_cons_self .. : x ∈ entries.filterMap NameEntry.text)
    rw [htexts] at hlen hle
    omega

/-- What is printed is the text and one separator more. -/
theorem chunk_of_noNul (hfits : (printedAll entries).length ≤ STR_SIZE)
    (hnul : ∀ entry ∈ entries, entry.nid.label.isSome → 0 ∉ entry.data) :
    getCertSubjectString entries = .ok ((subjectText entries).take 127) := by
  rw [getCertSubjectString_eq hfits, printedAll_eq hnul]
  have hfits : (printedAll entries).length ≤ 128 := hfits
  rw [printedAll_eq hnul] at hfits
  congr 1
  rw [subjectText]
  cases htexts : entries.filterMap NameEntry.text with
  | nil => rfl
  | cons x xs =>
    rw [htexts] at hfits
    have hsep : (ascii ", ").length = 2 := rfl
    rw [flatten_map_sep] at hfits ⊢
    rw [List.length_append, hsep] at hfits ⊢
    rw [Nat.add_sub_cancel, List.take_left, List.take_of_length_le (by omega)]

end Text

end SubjectString

end StevenProgram
