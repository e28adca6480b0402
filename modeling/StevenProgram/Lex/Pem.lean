/-
  `convertPEM2BIN`: a PEM file into the bytes it carries (`mxLexparser.cpp`, `chunk.cpp`).

  The file is read line by line; each line goes through a state machine that may ask for the line to
  be looked at again in the new state.  The lines of the body are decoded on the spot, from the
  front of the buffer that is still being read.

  1.  **Base 64** — `b642bin` and the two loops of `chunk_from_base64`.  The decoded length is an
     `s32_t`, computed from the length of the text alone; the padding is counted off while the
     digits are read.

  2.  **Boundaries** — `findBoundary` compares the head of a line with the dashes, the tag and a
     blank, and searches for the closing dashes with `strstr`, which knows no length.

  3.  **Lines** — `analyseDataOfPEM` is one look at a line, `analyseLine` the loop around it,
     `pemTurn` a turn of the loop over the lines, and `convertPEM2BIN` all of them with what follows
     the loop.

  `result->ptr` is never NULL and moves together with `result->len`, so `result` is that length; the
  `malloc` of `chunk_from_base64` is not reached.  `encrypted` of `convertPEM2BIN` stays false.
-/
import Mathlib.Algebra.Group.Int.Defs
import StevenProgram.Lex.Lexparser

namespace StevenProgram

open Asn1 (Cursor)

/-- The states of the machine. -/
inductive PemState where
  | PEM_PRE
  | PEM_MSG
  | PEM_HEADER
  | PEM_BODY
  | PEM_POST
  | PEM_ABORT
  deriving DecidableEq, Repr

namespace Pem

open Lexparser

abbrev EQUALS : UInt8 := 61
abbrev FOUR : UInt8 := 52

/-- What a boundary begins and ends with. -/
def DASHES : List UInt8 := ascii "-----"
def BEGIN : List UInt8 := ascii "BEGIN"
def END : List UInt8 := ascii "END"

variable {σ : Type} [TextStore σ]

/-! ## Base 64 -/

/-- The binary form of a base 64 digit; -1 as a `u8_t` for any other byte. -/
def b642bin (b64 : UInt8) : UInt8 :=
  if 65 ≤ b64 ∧ b64 ≤ 90 then b64 - 65
  else if 97 ≤ b64 ∧ b64 ≤ 122 then 26 + (b64 - 97)
  else if 48 ≤ b64 ∧ b64 ≤ 57 then 26 + 26 + (b64 - 48)
  else if b64 = 43 ∨ b64 = 45 then 62
  else if b64 = 47 ∨ b64 = 95 then 63
  else if b64 = EQUALS then 0
  else 255

/-- `if (*pos == '=' && outlen > 0) outlen--;` -/
def lessPad (b : UInt8) (outlen : Nat) : Nat :=
  if b = EQUALS ∧ outlen > 0 then outlen - 1 else outlen

/-- `byte[j]` and `outlen` behind a turn of the inner loop. -/
def nextDigit (s : σ) (pos outlen : Nat) : Run (UInt8 × Nat) := do
  let b ← TextStore.read s pos
  .ok (b642bin b, lessPad b outlen)

/-- The outer loop: `turns` groups of four digits from `pos` to `buf`. -/
def decodeGroups : Nat → σ → Nat → Nat → Nat → Run (σ × Nat)
  | 0, s, _, _, outlen => .ok (s, outlen)
  | turns + 1, s, pos, buf, outlen => do
      let (byte0, outlen) ← nextDigit s pos (outlen + 3)
      let (byte1, outlen) ← nextDigit s (pos + 1) outlen
      let (byte2, outlen) ← nextDigit s (pos + 2) outlen
      let (byte3, outlen) ← nextDigit s (pos + 3) outlen
      let s ← TextStore.emit s buf (byte0 <<< 2 ||| byte1 >>> 4)
      let s ← TextStore.emit s (buf + 1) (byte1 <<< 4 ||| byte2 >>> 2)
      let s ← TextStore.emit s (buf + 2) (byte2 <<< 6 ||| byte3)
      decodeGroups turns s (pos + 4) (buf + 3) outlen

/-- `len` of `chunk_from_base64`, an `s32_t`. -/
def base64Len (len : Nat) : Int := ((len / 4 * 3 : Nat) : Int).bmod (2 ^ 32)

/-- How often `for (i = 0; i < len; i += 3)` turns; `len` is a multiple of 3 when it is positive. -/
def base64Turns (len : Nat) : Nat := (base64Len len / 3).toNat

/-- The text, and the length of the chunk at `buf`. -/
def chunk_from_base64 (s : σ) (base64 : Cursor) (buf : Nat) : Run (σ × Nat) :=
  match base64.ptr with
  | some pos => decodeGroups (base64Turns base64.len) s pos buf 0
  | none => if base64Turns base64.len = 0 then .ok (s, 0) else .error .nullPtr

/-! ## Boundaries -/

/-- Skipping all bytes leaves the null chunk. -/
def chunk_skip (c : Cursor) (bytes : Nat) : Cursor :=
  if c.len > bytes then ⟨c.ptr.map (· + bytes), c.len - bytes⟩ else .null

/-- `line->len < strlen(lit) || strncmp(line->ptr, lit, strlen(lit)) != 0`, negated. -/
def startsWith (s : σ) (line : Cursor) (lit : List UInt8) : Run Bool :=
  if line.len < lit.length then .ok false else strncmp s line.ptr lit

/-- `strstr(line->ptr, "-----")`. -/
def findDashes (s : σ) (line : Cursor) : Run (Option Nat) := do
  let p ← deref line.ptr
  CString.strstr (TextStore.read s) DASHES (TextStore.size s) p

/-- Whether `line` is a boundary of the form -----tag name-----, and what is left of it. -/
def findBoundary (s : σ) (line : Cursor) (tag : List UInt8) : Run (Bool × Cursor) := do
  let dashes ← startsWith s line DASHES
  if dashes = false then .ok (false, line)
  else do
    let line := chunk_skip line DASHES.length
    let tagged ← startsWith s line tag
    if tagged = false then .ok (false, line)
    else do
      let line := chunk_skip line tag.length
      let space ← startsWith s line [SPACE]
      if space = false then .ok (false, line)
      else do
        let line := chunk_skip line 1
        let pos ← findDashes s line
        match pos with
        | none => .ok (false, line)
        | some pos => do
            let p ← deref line.ptr
            .ok (true, chunk_skip line (pos - p))

/-! ## Lines -/

/-- `value.len && *value.ptr == '4'`. -/
def isFour (s : σ) (value : Cursor) : Run Bool :=
  if value.len = 0 then .ok false
  else do
    let b ← load s value.ptr
    .ok (b == FOUR)

/-- `Proc-Type: 4…`. -/
def isEncrypted (s : σ) (name value : Cursor) : Run Bool := do
  let procType ← isName s name (ascii "Proc-Type")
  if procType then isFour s value else .ok false

/-- The branch for `DEK-Info`; nothing comes of it. -/
def dekInfo (s : σ) (name value : Cursor) : Run Unit := do
  let dek ← isName s name (ascii "DEK-Info")
  if dek then do
    let (_, value, _) ← extractToken s value COMMA
    if value.len = (ascii "DES-EDE3-CBC").length then do
      let _ ← strncmp s name.ptr (ascii "DES-EDE3-CBC")
      .ok ()
    else .ok ()
  else .ok ()

/-- The fields of a header that are looked at; whether the message is encrypted, which nothing
    reads. -/
def headerField (s : σ) (name value : Cursor) : Run Bool := do
  let encrypted ← isEncrypted s name value
  if encrypted then .ok true
  else do
    let _ ← dekInfo s name value
    .ok false

/-- The line without trailing whitespace, none at the END boundary. -/
def bodyData (s : σ) (line : Cursor) : Run (Option Cursor) := do
  let (found, line) ← findBoundary s line END
  if found then .ok none
  else do
    let (ret, line, data) ← extractToken s line SPACE
    .ok (some (if ret = .STATUS_FAILED then line else data))

/-- The status, the text, the state and the length of the result. -/
def analyseDataOfPEM (s : σ) (line : Cursor) (state : PemState) (result : Nat) :
    Run (LexStatus × σ × PemState × Nat) :=
  match state with
  | .PEM_PRE => do
      let (found, _) ← findBoundary s line BEGIN
      .ok (.STATUS_SUCCESS, s, if found then .PEM_MSG else .PEM_PRE, result)
  | .PEM_MSG => do
      let colon ← memchr s COLON line
      .ok (.STATUS_CONTINUE, s, if colon = none then .PEM_BODY else .PEM_HEADER, result)
  | .PEM_HEADER =>
      -- an empty line separates HEADER and BODY
      if line.len = 0 then .ok (.STATUS_SUCCESS, s, .PEM_BODY, result)
      else do
        let (ret, _, name, value) ← extractKeyValue s line .null
        if ret = .STATUS_FAILED then .ok (.STATUS_FAILED, s, .PEM_HEADER, result)
        else do
          let _ ← headerField s name value
          .ok (.STATUS_SUCCESS, s, .PEM_HEADER, result)
  | .PEM_BODY => do
      let data ← bodyData s line
      match data with
      | none => .ok (.STATUS_SUCCESS, s, .PEM_POST, result)
      | some data => do
          let (s, outlen) ← chunk_from_base64 s data result
          .ok (.STATUS_SUCCESS, s, .PEM_BODY, result + outlen)
  | state => .ok (.STATUS_FAILED, s, state, result)

/-- `do { … } while (ret == STATUS_CONTINUE);`, at most `fuel` times. -/
def analyseLine : Nat → σ → Cursor → PemState → Nat → Run (LexStatus × σ × PemState × Nat)
  | 0, _, _, _, _ => .error .diverged
  | fuel + 1, s, line, state, result => do
      let (ret, s, state, result) ← analyseDataOfPEM s line state result
      if ret = .STATUS_CONTINUE then analyseLine fuel s line state result
      else .ok (ret, s, state, result)

/-- The variables of `convertPEM2BIN` between two lines. -/
structure PemConfig (σ : Type) where
  text : σ
  blob : Cursor
  line : Cursor
  state : PemState
  result : Nat

/-- How a turn of the loop over the lines ends. -/
inductive PemTurn (σ : Type) where
  /-- no line was left -/
  | done (c : PemConfig σ)
  /-- `return STATUS_FAILED` -/
  | failed (c : PemConfig σ)
  | next (c : PemConfig σ)

/-- A turn of the loop.  A state that asks for its line again is left by asking, so two looks are
    enough. -/
def pemTurn (c : PemConfig σ) : Run (PemTurn σ) := do
  let (ret, text, blob, line) ← fetchLine c.text c.blob c.line
  if ret = .STATUS_SUCCESS then do
    let (ret, text, state, result) ← analyseLine 2 text line c.state c.result
    .ok (if ret = .STATUS_FAILED then .failed ⟨text, blob, line, state, result⟩
      else .next ⟨text, blob, line, state, result⟩)
  else .ok (.done c)

/-- What `convertPEM2BIN` leaves: its status, the text, the length of the decoded bytes and
    `src.len`. -/
structure PemOutcome (σ : Type) where
  status : LexStatus
  text : σ
  result : Nat
  srcLen : Nat

/-- The loop and what follows it, at most `fuel` turns; `srcLen` is `src.len` before. -/
def pemLoop (srcLen : Nat) : Nat → PemConfig σ → Run (PemOutcome σ)
  | 0, _ => .error .diverged
  | fuel + 1, c => do
      let turn ← pemTurn c
      match turn with
      | .next c => pemLoop srcLen fuel c
      | .failed c => .ok ⟨.STATUS_FAILED, c.text, c.result, srcLen⟩
      | .done c =>
          -- if not PEM_POST, the file is coded in unknown format and discarded
          .ok ⟨if c.state = .PEM_POST then .STATUS_SUCCESS else .STATUS_FAILED, c.text, c.result,
            c.result⟩

/-- Before the first line. -/
def pemStart (s : σ) (len : Nat) : PemConfig σ := ⟨s, ⟨some 0, len⟩, .null, .PEM_PRE, 0⟩

/-- `convertPEM2BIN` on a text of `len` bytes. -/
def convertPEM2BIN (s : σ) (len : Nat) : Run (PemOutcome σ) :=
  pemLoop len (len + 1) (pemStart s len)

/-- `convertPEM2BIN(src)`: the status, and the bytes `src` denotes afterwards. -/
def convert (src : Chunk) : Run (LexStatus × List UInt8) := do
  let o ← convertPEM2BIN (InPlace.of src.bytes) src.len
  .ok (o.status, o.text.mem.take o.srcLen)

end Pem

end StevenProgram
