/-
  The extensions of a PF_KEY reply: the loop of `getSpi` in `xfrmKernelPfkey.cpp`.

  An extension says its length in 64-bit words, and the macros of the loop compare and subtract
  words.  The loop hands them the length of the reply in bytes.  So what is left is always counted
  too high: the test of an extension lets through one that is up to eight times as long as what is
  there, and behind the last extension of a reply there is always something left to look at.

  Next to the SPI the loop has here the ranges of the reply that it examined, an offset and a size
  each: the header of every extension that is tested, and the extension an SPI is taken from.

  1. **The program** — the macros and the loop, with a fault for a field that is not in the reply.
  2. **Extensions** — what the loop should see: the records of a reply in words (`extensions`), and
     the SPI of the first SA in front of which all are valid (`firstSa`).
  3. **The loop over the records** (`ends_records`) — right as long as the records last; what
     happens behind them is `ends_leftover`.
  4. **Headline** (`extension_walk_iff`) — the exact condition for a reply.  One with
     `sadb_msg_errno` is not walked at all.
-/
import Mathlib.Algebra.GroupWithZero.Nat
import StevenProgram.Lib.Records
import StevenProgram.Xfrm.Pfkey

namespace StevenProgram

open Bytes Records

namespace Pfkey

/-! ## The program

  `len` is in bytes where the macros want words.  Neither is corrected here: `PFKEY_EXT_OK` gets
  what the loop hands it. -/

abbrev SADB_EXT_SA : Nat := 1
abbrev SADB_EXT_MAX : Nat := 26
abbrev SADB_EXT_SIZE : Nat := 4

/-- In bytes. -/
def PFKEY_USER_LEN (len : Nat) : Nat := len * PFKEY_ALIGNMENT

/-- An offset and a size. -/
abbrev Range : Type := Nat × Nat

/-- `PFKEY_EXT_OK(ext, len)`, with the header it examines. -/
def PFKEY_EXT_OK (out : List UInt8) (ext len : Nat) : Run (Bool × List Range) :=
  if PFKEY_LEN SADB_EXT_SIZE ≤ len then do
    let sadb_ext_len ← readLe out ext 2
    .ok (decide (PFKEY_LEN SADB_EXT_SIZE ≤ sadb_ext_len ∧ sadb_ext_len ≤ len),
      [(ext, SADB_EXT_SIZE)])
  else .ok (false, [])

/-- `while (PFKEY_EXT_OK(ext, len)) { ... }`: `received_spi`, and what was examined. -/
def extLoop (out : List UInt8) : Nat → Nat → Nat → Run (Nat × List Range)
  | 0, _, _ => .error .diverged
  | fuel + 1, ext, len => do
      let (ok, header) ← PFKEY_EXT_OK out ext len
      if ok then do
        let sadb_ext_len ← readLe out ext 2
        let sadb_ext_type ← readLe out (ext + 2) 2
        if SADB_EXT_MAX < sadb_ext_type ∨ sadb_ext_type = 0 then .ok (0, header)
        else if sadb_ext_type = SADB_EXT_SA then do
          let sadb_sa_spi ← readLe out (ext + 4) 4
          .ok (sadb_sa_spi, header ++ [(ext, PFKEY_USER_LEN sadb_ext_len)])
        else do
          -- PFKEY_EXT_NEXT_LEN
          let (received_spi, examined) ← extLoop out fuel (ext + PFKEY_USER_LEN sadb_ext_len)
            (len - sadb_ext_len)
          .ok (received_spi, header ++ examined)
      else .ok (0, header)

/-- `len -= sizeof(struct sadb_msg); ext = out + sizeof(struct sadb_msg);` and the loop. -/
def walkExtensions (out : List UInt8) : Run (Nat × List Range) :=
  extLoop out (out.length + 1) SADB_MSG_SIZE (out.length - SADB_MSG_SIZE)

/-- What `getSpi` returns: the SPI, or none for STATUS_FAILED. -/
def statusOf (received_spi : Nat) : Option Nat :=
  if received_spi = 0 then none else some received_spi

/-- `if (out->sadb_msg_errno) { ... goto fail; }` and the walk: `received_spi`, and what was
    examined. -/
def receivedSpi (out : Reply) : Run (Nat × List Range) :=
  if (SadbMsg.of out.bytes).sadb_msg_errno ≠ 0 then .ok (0, []) else walkExtensions out.bytes

/-- `getSpi` behind `sendPfkeySocket`. -/
def spiOfReply (out : Reply) : Run (Option Nat) := do
  let (received_spi, _) ← receivedSpi out
  .ok (statusOf received_spi)

/-! ## Extensions

  The reference knows nothing of the loop.  It splits a reply into records, by the lengths in words
  that the records carry, and takes the first that decides. -/

/-- An extension: its length in words, its type, and its bytes. -/
structure Extension where
  sadb_ext_len : Nat
  sadb_ext_type : Nat
  bytes : List UInt8

namespace Extension

variable (e : Extension)

/-- A type there is. -/
def validType : Bool := decide (0 < e.sadb_ext_type ∧ e.sadb_ext_type ≤ SADB_EXT_MAX)

/-- An SA, which has an SPI. -/
def isSa : Bool := e.sadb_ext_type == SADB_EXT_SA

/-- `sadb_sa_spi`, for an SA. -/
def sadb_sa_spi : Nat := leAt e.bytes 4 4

/-- The loop ends on it. -/
def decides : Bool := !e.validType || e.isSa

end Extension

/-- The header that stands at the front. -/
def headerOf (s : List UInt8) : Extension := ⟨leAt s 0 2, leAt s 2 2, s⟩

/-- One extension behind the other, each with at least one word, and with all its words there. -/
def extFraming : Framing UInt8 Extension where
  first s :=
    if SADB_EXT_SIZE ≤ s.length ∧ 1 ≤ (headerOf s).sadb_ext_len ∧ 8 * (headerOf s).sadb_ext_len ≤
      s.length then
      some ({ headerOf s with bytes := s.take (8 * (headerOf s).sadb_ext_len) },
        s.drop (8 * (headerOf s).sadb_ext_len))
    else none
  shrinks := by
    intro s rest r h
    split at h
    · next hfits =>
      obtain rfl := (Prod.mk.inj (Option.some.inj h)).2
      rw [List.length_drop]
      omega
    · cases h

/-- The extensions of a reply. -/
def extensions (out : List UInt8) : List Extension := extFraming.records (out.drop SADB_MSG_SIZE)

/-- What stands behind them. -/
def behindExtensions (out : List UInt8) : List UInt8 := extFraming.leftover (out.drop SADB_MSG_SIZE)

/-- **The first SA in front of which all extensions are valid.** -/
def firstSa (out : List UInt8) : Option Extension :=
  ((extensions out).find? Extension.decides).filter Extension.isSa

/-- What the loop counts as left behind the extensions. -/
def countedLeft (out : List UInt8) : Nat :=
  out.length - SADB_MSG_SIZE - ((extensions out).map Extension.sadb_ext_len).sum

/-- The loop ends there without leaving the reply: nothing is counted as left, or a whole header
    stands there, which is no extension, or not one of a type there is, or one whose length takes
    away exactly what is counted. -/
def Harmless (left : Nat) (s : List UInt8) : Prop :=
  left = 0 ∨ (SADB_EXT_SIZE ≤ s.length ∧
    ((headerOf s).sadb_ext_len = 0 ∨ left < (headerOf s).sadb_ext_len ∨
      (headerOf s).validType = false ∨
      ((headerOf s).isSa = false ∧ (headerOf s).sadb_ext_len = left)))

/-- What the walk should do with a reply: come to an end, examine nothing outside, and find the SPI
    of the first SA, if there is one. -/
def WalkCorrect (out : List UInt8) : Prop :=
  ∃ received_spi examined, walkExtensions out = .ok (received_spi, examined) ∧
    (∀ r ∈ examined, r.1 + r.2 ≤ out.length) ∧
      statusOf received_spi = (firstSa out).map Extension.sadb_sa_spi

/-- What `getSpi` should do with a reply: examine nothing outside, and return the SPI of the first
    SA, if there is one. -/
def SpiCorrect (out : Reply) : Prop :=
  (∃ received_spi examined, receivedSpi out = .ok (received_spi, examined) ∧
    ∀ r ∈ examined, r.1 + r.2 ≤ out.bytes.length) ∧
  spiOfReply out = .ok ((firstSa out.bytes).map Extension.sadb_sa_spi)

/-! ## The loop over the records

  What is left is counted too high, so every record that is there passes the test and is walked over
  as it should be; the count matters behind the last one only. -/

/-- The loop comes to an end with this `received_spi`, and examined nothing outside. -/
def Ends (out : List UInt8) (r : Run (Nat × List Range)) (received_spi : Nat) : Prop :=
  ∃ examined, r = .ok (received_spi, examined) ∧ ∀ r ∈ examined, r.1 + r.2 ≤ out.length

section Loop

variable {out s rest : List UInt8} {e : Extension} {pos len fuel received_spi : Nat}

/-- The first extension of a reply, and where it ends. -/
theorem first_some (h : extFraming.first s = some (e, rest)) :
    SADB_EXT_SIZE ≤ s.length ∧ 1 ≤ e.sadb_ext_len ∧ 8 * e.sadb_ext_len ≤ s.length ∧
    e = { headerOf s with bytes := s.take (8 * e.sadb_ext_len) } ∧
    rest = s.drop (8 * e.sadb_ext_len) := by
  simp only [extFraming] at h
  split at h
  · next hfits =>
    obtain ⟨rfl, rfl⟩ := Prod.mk.inj (Option.some.inj h)
    exact ⟨hfits.1, hfits.2.1, hfits.2.2, rfl, rfl⟩
  · cases h

/-- A header that reaches beyond the reply is none. -/
theorem first_none (h : extFraming.first s = none) (hsize : SADB_EXT_SIZE ≤ s.length)
    (hlen : 1 ≤ (headerOf s).sadb_ext_len) : s.length < 8 * (headerOf s).sadb_ext_len := by
  simp only [extFraming] at h
  split at h
  · cases h
  · next hfits => exact Nat.lt_of_not_le fun hle => hfits ⟨hsize, hlen, hle⟩

/-- The header of an extension is one word. -/
theorem extWords : PFKEY_LEN SADB_EXT_SIZE = 1 := rfl

/-- Whatever is returned, a header was examined if anything was left. -/
theorem header_examined {examined : List Range} (hlen : 1 ≤ len)
    (h : extLoop out fuel pos len = .ok (received_spi, examined)) :
    (pos, SADB_EXT_SIZE) ∈ examined := by
  cases fuel with
  | zero => cases h
  | succ fuel =>
    rw [extLoop, PFKEY_EXT_OK, if_pos (show PFKEY_LEN SADB_EXT_SIZE ≤ len from hlen)] at h
    simp only [Run.bind_ok] at h
    obtain ⟨⟨ok, header⟩, ⟨sadb_ext_len, hread, hok⟩, h⟩ := h
    obtain ⟨-, rfl⟩ := Prod.mk.inj (Except.ok.inj hok)
    simp only [] at h
    split at h
    · simp only [Run.bind_ok] at h
      obtain ⟨l, -, t, -, h⟩ := h
      split at h
      · obtain ⟨-, rfl⟩ := Prod.mk.inj (Except.ok.inj h)
        exact List.mem_singleton.mpr rfl
      · split at h
        · simp only [Run.bind_ok] at h
          obtain ⟨spi, -, h⟩ := h
          obtain ⟨-, rfl⟩ := Prod.mk.inj (Except.ok.inj h)
          exact List.mem_cons_self
        · simp only [Run.bind_ok] at h
          obtain ⟨r, -, h⟩ := h
          obtain ⟨-, rfl⟩ := Prod.mk.inj (Except.ok.inj h)
          exact List.mem_cons_self
    · obtain ⟨-, rfl⟩ := Prod.mk.inj (Except.ok.inj h)
      exact List.mem_singleton.mpr rfl

/-- So the loop does not end well where no header is. -/
theorem not_ends_outside (hlen : 1 ≤ len) (hout : out.length < pos + SADB_EXT_SIZE) :
    ¬ Ends out (extLoop out fuel pos len) received_spi := by
  rintro ⟨examined, h, hinside⟩
  exact absurd (hinside _ (header_examined hlen h)) (Nat.not_le.mpr hout)

/-- The walk ends where nothing is left. -/
theorem ends_nothingLeft (hfuel : 0 < fuel) : Ends out (extLoop out fuel pos 0) 0 := by
  obtain ⟨fuel, rfl⟩ : ∃ f, fuel = f + 1 := ⟨fuel - 1, by omega⟩
  refine ⟨[], rfl, ?_⟩
  intro r hr
  cases hr

/-- A header inside, and the turns behind it. -/
theorem ends_behind {r : Run (Nat × List Range)} (hpos : pos + 4 ≤ out.length) :
    Ends out (do
      let (received_spi, examined) ← r
      .ok (received_spi, (pos, SADB_EXT_SIZE) :: examined)) received_spi ↔
        Ends out r received_spi := by
  constructor
  · rintro ⟨examined, hrun, hinside⟩
    simp only [Run.bind_ok] at hrun
    obtain ⟨⟨spi, examined'⟩, hrun, hok⟩ := hrun
    obtain ⟨rfl, rfl⟩ := Prod.mk.inj (Except.ok.inj hok)
    exact ⟨examined', hrun, fun x hx => hinside x (List.mem_cons_of_mem _ hx)⟩
  · rintro ⟨examined, hrun, hinside⟩
    rw [hrun, Run.ok_bind]
    refine ⟨_, rfl, ?_⟩
    intro x hx
    rcases List.mem_cons.mp hx with rfl | hx
    · exact hpos
    · exact hinside x hx

/-- A header inside, and nothing behind it. -/
theorem ends_header (hpos : pos + 4 ≤ out.length) :
    Ends out (.ok (0, [(pos, SADB_EXT_SIZE)])) 0 := by
  refine ⟨_, rfl, ?_⟩
  intro r hr
  rw [List.mem_singleton.mp hr]
  exact hpos

/-- The turn of a header that does not pass the test. -/
theorem extLoop_stop (hs : out.drop pos = s) (hsize : 4 ≤ s.length) (hlen : 1 ≤ len)
    (hnot : ¬ (1 ≤ (headerOf s).sadb_ext_len ∧ (headerOf s).sadb_ext_len ≤ len)) :
    extLoop out (fuel + 1) pos len = .ok (0, [(pos, SADB_EXT_SIZE)]) := by
  have hread : readLe out pos 2 = .ok (headerOf s).sadb_ext_len := readLe_at (k := 0) hs Nat.two_pos
    (by omega)
  rw [extLoop, PFKEY_EXT_OK, extWords, if_pos hlen]
  simp only [hread, Run.ok_bind]
  rw [if_neg (by rw [decide_eq_false hnot]; exact Bool.false_ne_true)]

/-- The turn of a header that passes the test. -/
theorem extLoop_header (hs : out.drop pos = s) (hsize : SADB_EXT_SIZE ≤ s.length)
    (hok : 1 ≤ (headerOf s).sadb_ext_len ∧ (headerOf s).sadb_ext_len ≤ len) :
    extLoop out (fuel + 1) pos len =
      if (headerOf s).validType = false then .ok (0, [(pos, SADB_EXT_SIZE)])
      else if (headerOf s).isSa = true then do
        let sadb_sa_spi ← readLe out (pos + 4) 4
        .ok (sadb_sa_spi, [(pos, SADB_EXT_SIZE), (pos, PFKEY_USER_LEN (headerOf s).sadb_ext_len)])
      else (do
        let (received_spi, examined) ← extLoop out fuel
          (pos + PFKEY_USER_LEN (headerOf s).sadb_ext_len)
          (len - (headerOf s).sadb_ext_len)
        .ok (received_spi, (pos, SADB_EXT_SIZE) :: examined)) := by
  have hfour : 4 ≤ s.length := hsize
  have hlen : readLe out pos 2 = .ok (headerOf s).sadb_ext_len := readLe_at (k := 0) hs Nat.two_pos
    (by omega)
  have htype : readLe out (pos + 2) 2 = .ok (headerOf s).sadb_ext_type := readLe_at hs Nat.two_pos
    (by omega)
  have hinvalid : ((headerOf s).validType = false) =
      (SADB_EXT_MAX < (headerOf s).sadb_ext_type ∨ (headerOf s).sadb_ext_type = 0) := by
    rw [Extension.validType, decide_eq_false_iff_not, eq_iff_iff]
    omega
  have hsa : ((headerOf s).isSa = true) = ((headerOf s).sadb_ext_type = SADB_EXT_SA) := by
    rw [Extension.isSa, beq_iff_eq]
  rw [extLoop, PFKEY_EXT_OK, extWords, if_pos (Nat.le_trans hok.1 hok.2)]
  simp only [hlen, htype, Run.ok_bind, hinvalid, hsa]
  rw [if_pos (decide_eq_true hok)]
  rfl

/-- An SA has a type there is. -/
theorem isSa_of_invalid (h : e.validType = false) : e.isSa = false := by
  rw [Extension.validType, decide_eq_false_iff_not] at h
  rw [Extension.isSa, beq_eq_false_iff_ne]
  intro hsa
  rw [hsa] at h
  exact h (by decide)

/-- **An extension**: the loop ends on it, or goes on behind it. -/
theorem ends_extension (hfirst : extFraming.first s = some (e, rest)) (hs : out.drop pos = s)
    (hlen : s.length ≤ len) :
    (e.decides = true → Ends out (extLoop out (fuel + 1) pos len)
      (if e.isSa then e.sadb_sa_spi else 0)) ∧
    (e.decides = false → ∀ v, Ends out (extLoop out (fuel + 1) pos len) v ↔
      Ends out (extLoop out fuel (pos + 8 * e.sadb_ext_len) (len - e.sadb_ext_len)) v) := by
  obtain ⟨hsize, hone, hfits, he, -⟩ := first_some hfirst
  have hfour : 4 ≤ s.length := hsize
  have hout : s.length = out.length - pos := by rw [← hs, List.length_drop]
  have hheader : (headerOf s).sadb_ext_len = e.sadb_ext_len := by rw [he]
  have hvalid : (headerOf s).validType = e.validType := by rw [he]; rfl
  have hisSa : (headerOf s).isSa = e.isSa := by rw [he]; rfl
  have hok : 1 ≤ (headerOf s).sadb_ext_len ∧ (headerOf s).sadb_ext_len ≤ len := by
    rw [hheader]
    exact ⟨hone, by omega⟩
  -- the header passes the test, since the count is not below what is there
  have hturn := @extLoop_header out s pos len fuel hs hsize hok
  rw [hheader, hvalid, hisSa, PFKEY_USER_LEN, Nat.mul_comm] at hturn
  constructor
  · intro hdecides
    cases hv : e.validType with
    | false =>
      rw [hv, if_pos rfl] at hturn
      rw [isSa_of_invalid hv, hturn]
      exact ends_header (by omega)
    | true =>
      have hsa : e.isSa = true := by
        rw [Extension.decides, hv] at hdecides
        exact hdecides
      have hspi : readLe out (pos + 4) 4 = .ok e.sadb_sa_spi := by
        rw [readLe_at hs (by decide) (by omega), he, Extension.sadb_sa_spi, leAt_take s (by omega)]
      rw [hv, if_neg (by decide), hsa, if_pos rfl, hspi, Run.ok_bind] at hturn
      rw [hsa, if_pos rfl, hturn]
      refine ⟨_, rfl, ?_⟩
      intro r hr
      rcases List.mem_cons.mp hr with rfl | hr
      · show pos + 4 ≤ out.length
        omega
      · rw [List.mem_singleton.mp hr]
        show pos + 8 * e.sadb_ext_len ≤ out.length
        omega
  · intro hdecides v
    rw [Extension.decides, Bool.or_eq_false_iff, Bool.not_eq_false'] at hdecides
    rw [hdecides.1, hdecides.2, if_neg (by decide), if_neg (by decide)] at hturn
    rw [hturn]
    exact ends_behind (by omega)

/-- A header that passes the test is harmless in two ways. -/
theorem harmless_passed (hsize : SADB_EXT_SIZE ≤ s.length)
    (hok : 1 ≤ (headerOf s).sadb_ext_len ∧ (headerOf s).sadb_ext_len ≤ len) :
    Harmless len s ↔ (headerOf s).validType = false ∨
      ((headerOf s).isSa = false ∧ (headerOf s).sadb_ext_len = len) := by
  constructor
  · rintro (hzero | ⟨-, hzero | hlong | hwhy⟩)
    · omega
    · omega
    · omega
    · exact hwhy
  · intro hwhy
    exact .inr ⟨hsize, .inr (.inr hwhy)⟩

/-- The turn of a header that passes the test, longer than what is there. -/
theorem ends_tooLong (hs : out.drop pos = s) (hpos : pos ≤ out.length) (hsize : 4 ≤ s.length)
    (hok : 1 ≤ (headerOf s).sadb_ext_len ∧ (headerOf s).sadb_ext_len ≤ len)
    (hbig : s.length < 8 * (headerOf s).sadb_ext_len) (hfuel : len < fuel + 1) :
    Ends out (extLoop out (fuel + 1) pos len) 0 ↔ Harmless len s := by
  have hout : s.length = out.length - pos := by rw [← hs, List.length_drop]
  have hinside : pos + 4 ≤ out.length := by omega
  have hturn := @extLoop_header out s pos len fuel hs hsize hok
  rw [hturn, harmless_passed hsize hok, PFKEY_USER_LEN, Nat.mul_comm]
  generalize (headerOf s).sadb_ext_len = l at hok hbig
  cases (headerOf s).validType with
  | false =>
    rw [if_pos rfl]
    exact iff_of_true (ends_header hinside) (.inl rfl)
  | true =>
    rw [if_neg (by decide)]
    cases (headerOf s).isSa with
    | true =>
      -- all of the extension would have to be inside
      rw [if_pos rfl]
      refine iff_of_false ?_ ?_
      · rintro ⟨examined, hrun, hall⟩
        simp only [Run.bind_ok] at hrun
        obtain ⟨spi, -, hresult⟩ := hrun
        obtain ⟨-, rfl⟩ := Prod.mk.inj (Except.ok.inj hresult)
        have hsa :
          pos + 8 * l ≤ out.length := hall (pos, 8 * l) (List.mem_cons_of_mem _ List.mem_cons_self)
        omega
      · rintro (hvalid | ⟨hsa, -⟩)
        · cases hvalid
        · cases hsa
    | false =>
      rw [if_neg (by decide), ends_behind hinside]
      rcases Nat.eq_or_lt_of_le hok.2 with heq | hlt
      · rw [heq, Nat.sub_self]
        exact iff_of_true (ends_nothingLeft (by omega)) (.inr ⟨rfl, rfl⟩)
      · refine iff_of_false
          (not_ends_outside (by omega) (show out.length < pos + 8 * l + 4 by omega)) ?_
        rintro (hvalid | ⟨-, heq⟩)
        · cases hvalid
        · omega

/-- **Behind the extensions**: the loop ends well exactly if what stands there is harmless. -/
theorem ends_leftover (hfirst : extFraming.first s = none) (hs : out.drop pos = s)
    (hpos : pos ≤ out.length)
    (hfuel : len < fuel + 1) : Ends out (extLoop out (fuel + 1) pos len) 0 ↔ Harmless len s := by
  have hout : s.length = out.length - pos := by rw [← hs, List.length_drop]
  rcases Nat.eq_zero_or_pos len with rfl | hlen
  · exact ⟨fun _ => .inl rfl, fun _ => ends_nothingLeft (Nat.zero_lt_succ fuel)⟩
  · rcases Nat.lt_or_ge s.length 4 with hshort | hfour
    · refine iff_of_false (not_ends_outside hlen (show out.length < pos + 4 by omega)) ?_
      rintro (rfl | ⟨hsize, -⟩)
      · exact absurd hlen (Nat.lt_irrefl 0)
      · exact absurd hsize (Nat.not_le.mpr hshort)
    · by_cases hok : 1 ≤ (headerOf s).sadb_ext_len ∧ (headerOf s).sadb_ext_len ≤ len
      · exact ends_tooLong hs hpos hfour hok (first_none hfirst hfour hok.1) hfuel
      · rw [extLoop_stop hs hfour hlen hok]
        refine iff_of_true (ends_header (by omega)) (.inr ⟨hfour, ?_⟩)
        omega

end Loop

/-- **The whole loop**: it ends on the extension that decides, or as what is left over says.  By
    induction on the records of the reply. -/
theorem ends_records (out : List UInt8) (s : List UInt8) :
    ∀ pos len fuel, out.drop pos = s → pos ≤ out.length →
    s.length ≤ len → len < fuel →
    (∀ e, (extFraming.records s).find? Extension.decides = some e →
      Ends out (extLoop out fuel pos len) (if e.isSa then e.sadb_sa_spi else 0)) ∧
    ((extFraming.records s).find? Extension.decides = none →
      (Ends out (extLoop out fuel pos len) 0 ↔
      Harmless (len - ((extFraming.records s).map Extension.sadb_ext_len).sum)
      (extFraming.leftover s))) := by
  induction s using extFraming.induction with
  | hnone s hfirst =>
    intro pos len fuel hs hpos _ hfuel
    obtain ⟨fuel, rfl⟩ : ∃ f, fuel = f + 1 := ⟨fuel - 1, by omega⟩
    rw [Framing.records_none hfirst, Framing.leftover_none hfirst]
    refine ⟨?_, fun _ => ends_leftover hfirst hs hpos hfuel⟩
    intro e he
    cases he
  -- the loop ends on the first record, or goes on to the others with a count that is large enough
  | hsome s e rest hfirst ih =>
    intro pos len fuel hs hpos hlen hfuel
    obtain ⟨fuel, rfl⟩ : ∃ f, fuel = f + 1 := ⟨fuel - 1, by omega⟩
    obtain ⟨hends, hgoes⟩ := @ends_extension out s rest e pos len fuel hfirst hs hlen
    obtain ⟨-, hone, hfits, -, hrest⟩ := first_some hfirst
    have hout : s.length = out.length - pos := by rw [← hs, List.length_drop]
    rw [Framing.records_some hfirst, Framing.leftover_some hfirst, List.find?_cons, List.map_cons,
      List.sum_cons]
    cases hd : e.decides with
    | true =>
      simp only []
      refine ⟨?_, fun h => ?_⟩
      · intro e' he'
        obtain rfl := Option.some.inj he'
        exact hends hd
      · cases h
    | false =>
      simp only []
      have hnext : out.drop (pos + 8 * e.sadb_ext_len) = rest := by rw [hrest, ← hs, List.drop_drop]
      have hshort : rest.length = s.length - 8 * e.sadb_ext_len := by rw [hrest, List.length_drop]
      obtain ⟨hfound, hnone⟩ := ih (pos + 8 * e.sadb_ext_len) (len - e.sadb_ext_len) fuel hnext
        (by omega) (by omega) (by omega)
      refine ⟨fun e' he' => (hgoes hd _).mpr (hfound e' he'), fun h => ?_⟩
      rw [hgoes hd 0, hnone h, Nat.sub_sub]

/-- The macro is never endless. -/
theorem extOk_ne_diverged (out : List UInt8) (ext len : Nat) :
    PFKEY_EXT_OK out ext len ≠ .error .diverged := by
  unfold PFKEY_EXT_OK
  split
  · refine Run.bind_ne (readLe_ne_diverged out ext 2) ?_
    intro _ _ h
    cases h
  · intro h
    cases h

/-- What the test says about the length. -/
theorem extOk_true {out : List UInt8} {ext len sadb_ext_len : Nat} {header : List Range}
    (h : PFKEY_EXT_OK out ext len = .ok (true, header))
    (hlen : readLe out ext 2 = .ok sadb_ext_len) :
    1 ≤ sadb_ext_len ∧ sadb_ext_len ≤ len := by
  unfold PFKEY_EXT_OK at h
  split at h
  · rw [hlen, Run.ok_bind] at h
    exact of_decide_eq_true (Prod.mk.inj (Except.ok.inj h)).1
  · cases h

/-- The loop comes to an end, if only by a fault: every turn takes a word at least off what is
    counted. -/
theorem extLoop_terminates (out : List UInt8) :
    ∀ fuel pos len, len < fuel → extLoop out fuel pos len ≠ .error .diverged := by
  intro fuel
  induction fuel with
  | zero =>
    intro pos len hfuel
    exact absurd hfuel (Nat.not_lt_zero len)
  | succ fuel ih =>
    intro pos len hfuel
    rw [extLoop]
    refine Run.bind_ne (extOk_ne_diverged out pos len) ?_
    rintro ⟨ok, header⟩ hok
    simp only []
    split
    · next htest =>
      subst htest
      refine Run.bind_ne (readLe_ne_diverged out pos 2) ?_
      intro sadb_ext_len hlen
      refine Run.bind_ne (readLe_ne_diverged out (pos + 2) 2) ?_
      intro sadb_ext_type _
      split
      · intro h
        cases h
      · split
        · refine Run.bind_ne (readLe_ne_diverged out (pos + 4) 4) ?_
          intro _ _ h
          cases h
        · -- a word less, at least
          obtain ⟨hone, hle⟩ := extOk_true hok hlen
          refine Run.bind_ne (ih _ _ (by omega)) ?_
          intro _ _ h
          cases h
    · intro h
      cases h

/-! ## Headline

  `Walkable` speaks of the records and of what stands behind them, and `countedLeft` is the count as
  a number. -/

/-- The extension that decides is no SA without an SPI, or none decides and what stands behind them
    is harmless. -/
def Walkable (out : List UInt8) : Prop :=
  match (extensions out).find? Extension.decides with
  | some e => e.isSa = true → e.sadb_sa_spi ≠ 0
  | none => Harmless (countedLeft out) (behindExtensions out)

/-- No SPI is the SPI zero. -/
theorem statusOf_eq_none {received_spi : Nat} : statusOf received_spi = none ↔
    received_spi = 0 := by
  unfold statusOf
  split
  · next h => exact iff_of_true rfl h
  · next h => exact iff_of_false (fun hs => by cases hs) h

/-- Any other is one. -/
theorem statusOf_eq_some {received_spi : Nat} :
    statusOf received_spi = some received_spi ↔ received_spi ≠ 0 := by
  unfold statusOf
  split
  · next h => exact iff_of_false (fun hs => by cases hs) (fun hne => hne h)
  · next h => exact iff_of_true rfl h

/-- **The walk** is correct on exactly these replies.  Where an extension decides nothing behind it
    is looked at; where none does, what stands behind them has to be harmless. -/
theorem walkCorrect_iff (out : Reply) : WalkCorrect out.bytes ↔ Walkable out.bytes := by
  have hheader : 16 ≤ out.bytes.length := out.wellFormed.header
  obtain ⟨hfound, hnone⟩ := ends_records out.bytes (out.bytes.drop SADB_MSG_SIZE) SADB_MSG_SIZE
    (out.bytes.length - SADB_MSG_SIZE) (out.bytes.length + 1) rfl hheader
      (Nat.le_of_eq List.length_drop) (by omega)
  unfold WalkCorrect Walkable firstSa
  cases hdecides : (extensions out.bytes).find? Extension.decides with
  | none =>
    refine Iff.trans ?_ (hnone hdecides)
    constructor
    · rintro ⟨received_spi, examined, hrun, hinside, hstatus⟩
      obtain rfl := statusOf_eq_none.mp hstatus
      exact ⟨examined, hrun, hinside⟩
    · rintro ⟨examined, hrun, hinside⟩
      exact ⟨0, examined, hrun, hinside, rfl⟩
  | some e =>
    obtain ⟨examined, hrun, hinside⟩ := hfound e hdecides
    -- the walk has one result, so only its SPI is compared
    have hcorrect :
      (∃ received_spi examined, walkExtensions out.bytes = .ok (received_spi, examined) ∧
        (∀ r ∈ examined, r.1 + r.2 ≤ out.bytes.length) ∧
        statusOf received_spi = ((some e).filter Extension.isSa).map Extension.sadb_sa_spi) ↔
        statusOf (if e.isSa then e.sadb_sa_spi else 0) =
          ((some e).filter Extension.isSa).map Extension.sadb_sa_spi := by
      constructor
      · rintro ⟨received_spi, examined', hrun', -, hstatus⟩
        obtain ⟨rfl, -⟩ := Prod.mk.inj (Except.ok.inj (hrun.symm.trans hrun'))
        exact hstatus
      · intro hstatus
        exact ⟨_, examined, hrun, hinside, hstatus⟩
    rw [hcorrect]
    cases hsa : e.isSa with
    | true =>
      rw [if_pos rfl, Option.filter_some, hsa, if_pos rfl, Option.map_some, statusOf_eq_some]
      exact ⟨fun h _ => h, fun h => h hsa⟩
    | false =>
      rw [if_neg Bool.false_ne_true, Option.filter_some, hsa, if_neg Bool.false_ne_true]
      refine iff_of_true rfl ?_
      intro h
      exact absurd (h.symm.trans hsa) Bool.true_eq_false.mp

/-- A reply that is no error is walked. -/
theorem receivedSpi_walk {out : Reply} (h : (SadbMsg.of out.bytes).sadb_msg_errno = 0) :
    receivedSpi out = walkExtensions out.bytes := if_neg (Decidable.not_not.mpr h)

/-- Then all is right when the walk is. -/
theorem spiCorrect_walk {out : Reply} (h : (SadbMsg.of out.bytes).sadb_msg_errno = 0) :
    SpiCorrect out ↔ WalkCorrect out.bytes := by
  unfold SpiCorrect spiOfReply
  rw [receivedSpi_walk h]
  constructor
  · rintro ⟨⟨received_spi, examined, hrun, hinside⟩, hspi⟩
    rw [hrun] at hspi
    exact ⟨received_spi, examined, hrun, hinside, Except.ok.inj hspi⟩
  · rintro ⟨received_spi, examined, hrun, hinside, hstatus⟩
    refine ⟨⟨received_spi, examined, hrun, hinside⟩, ?_⟩
    rw [hrun, Run.ok_bind, ← hstatus]

/-- An error is never an SPI. -/
theorem spiCorrect_error {out : Reply} (h : (SadbMsg.of out.bytes).sadb_msg_errno ≠ 0) :
    SpiCorrect out ↔ firstSa out.bytes = none := by
  have hrun : receivedSpi out = .ok (0, []) := if_pos h
  unfold SpiCorrect spiOfReply
  rw [hrun, Run.ok_bind, Except.ok.injEq, ← Option.map_eq_none_iff (f := Extension.sadb_sa_spi)]
  constructor
  · exact fun hc => hc.2.symm
  · intro hnone
    refine ⟨⟨0, [], rfl, ?_⟩, hnone.symm⟩
    intro r hr
    cases hr

/-- When `getSpi` is right about a reply: an error without an SA, or a reply that the walk is right
    about. -/
def Readable (out : Reply) : Prop :=
  ((SadbMsg.of out.bytes).sadb_msg_errno ≠ 0 → firstSa out.bytes = none) ∧
  ((SadbMsg.of out.bytes).sadb_msg_errno = 0 → Walkable out.bytes)

/-- **`getSpi` is right about exactly these replies**, and it always comes to an end with one. -/
theorem extension_walk_iff (out : Reply) :
    (SpiCorrect out ↔ Readable out) ∧ spiOfReply out ≠ .error .diverged := by
  by_cases herrno : (SadbMsg.of out.bytes).sadb_msg_errno = 0
  · constructor
    · rw [spiCorrect_walk herrno, walkCorrect_iff, Readable]
      exact ⟨fun h => ⟨absurd herrno, fun _ => h⟩, fun h => h.2 herrno⟩
    · rw [spiOfReply, receivedSpi_walk herrno]
      refine Run.bind_ne (extLoop_terminates _ _ _ _ (by omega)) ?_
      intro _ _ h
      cases h
  · have hrun : receivedSpi out = .ok (0, []) := if_pos herrno
    constructor
    · rw [spiCorrect_error herrno, Readable]
      exact ⟨fun h => ⟨fun _ => h, fun h0 => absurd h0 herrno⟩, fun h => h.1 herrno⟩
    · rw [spiOfReply, hrun]
      intro h
      cases h

/-- A reply with one extension, a lifetime of one word, up to its last byte. -/
def lifetimeReply : Reply where
  bytes := [2, 1, 0, 3, 3, 0, 0, 0, 0, 0, 0, 0, 0x92, 0x10, 0, 0, 1, 0, 2, 0, 0, 0, 0, 0]
  wellFormed := ⟨by decide, by decide, by decide⟩

/-- Seven more words are looked for behind it. -/
theorem lifetime_overrun : ¬ ∀ out : Reply, SpiCorrect out := by
  intro hall
  obtain ⟨⟨received_spi, examined, hrun, -⟩, -⟩ := hall lifetimeReply
  have hfault : receivedSpi lifetimeReply = .error .outOfBounds := rfl
  rw [hfault] at hrun
  cases hrun

end Pfkey

end StevenProgram
