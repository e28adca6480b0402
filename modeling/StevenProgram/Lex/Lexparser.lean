/-
  `mxLexparser`: lines, tokens, key-value pairs and file names with secrets (`mxLexparser.cpp`).

  A `chunk_t` that points into the text is a `Cursor`.  Every function works on the text of a
  `TextStore`, reads it byte by byte, and returns its result together with what it leaves in its
  reference arguments; only `fetchLine` writes.  The messages it prints are not modelled, nor are
  the two empty branches for secrets that begin with 0x and 0s.

  1.  **Reading** — `memchr`, `strncmp` and the copying of a chunk, each through the store, so that
     a read behind the text is a fault here as it is in the source.

  2.  **Tokens** — `extractToken` cuts at its termination character, where a blank also stands for a
     tab; `fetchLine` cuts at the newline and puts a NUL where the carriage return or the newline
     was; `eatWhitespace` skips blanks and says whether something is left that is no comment.

  3.  **Pairs** — a key, a colon and a value that may be quoted; a file name with an optional secret
     behind it.

  The reference arguments keep what they held where a function fails before it sets them.  Callers
  depend on this, wittingly or not: `loadSecrets` gets the file name of an earlier line in this way.
-/
import StevenProgram.Asn1.Parser
import StevenProgram.Common.TextStore
import StevenProgram.Lib.TextLines

namespace StevenProgram

open Asn1 (Cursor)

/-- `mxStatus.h`, as far as the lexer returns it. -/
inductive LexStatus where
  | STATUS_SUCCESS
  | STATUS_FAILED
  | STATUS_CONTINUE
  deriving DecidableEq, Repr

/-- The bytes of a string literal. -/
def ascii (s : String) : List UInt8 := s.toList.map fun c => UInt8.ofNat c.toNat

namespace Lexparser

open TextLines (LF CR)

abbrev TAB : UInt8 := 9
abbrev SPACE : UInt8 := 32
abbrev DQUOTE : UInt8 := 34
abbrev HASH : UInt8 := 35
abbrev QUOTE : UInt8 := 39
abbrev COMMA : UInt8 := 44
abbrev SLASH : UInt8 := 47
abbrev COLON : UInt8 := 58

variable {σ : Type} [TextStore σ]

/-! ## Reading -/

/-- `*p`. -/
def load (s : σ) (p : Option Nat) : Run UInt8 := do
  let p ← deref p
  TextStore.read s p

/-- `memchr(c.ptr, ch, c.len)`; of no bytes it reads none, whatever `c.ptr` is. -/
def memchr (s : σ) (ch : UInt8) (c : Cursor) : Run (Option Nat) :=
  match c.ptr with
  | some p => CString.memchr (TextStore.read s) ch p c.len
  | none => if c.len = 0 then .ok none else .error .nullPtr

/-- `strncmp(p, lit, strlen(lit)) == 0`. -/
def strncmp (s : σ) (p : Option Nat) (lit : List UInt8) : Run Bool := do
  let p ← deref p
  CString.strncmp (TextStore.read s) lit p

/-- `token->len == strlen(name) && strncmp(name, token->ptr, token->len) == 0`. -/
def isName (s : σ) (token : Cursor) (name : List UInt8) : Run Bool :=
  if token.len = name.length then strncmp s token.ptr name else .ok false

/-- `c->ptr++; c->len--;` -/
def skip1 (c : Cursor) : Cursor := ⟨c.ptr.map (· + 1), c.len - 1⟩

/-- The bytes `memcpy` takes. -/
def copy (s : σ) : Nat → Nat → Run (List UInt8)
  | _, 0 => .ok []
  | p, n + 1 => do
      let b ← TextStore.read s p
      let bs ← copy s (p + 1) n
      .ok (b :: bs)

/-- `chunk_clone`: the contents of the new chunk. -/
def chunk_clone (s : σ) (c : Cursor) : Run (List UInt8) :=
  match c.ptr with
  | some p => copy s p c.len
  | none => .ok []

/-! ## Tokens

  The functions that move a cursor over the text. -/

/-- `eot`: the termination character, or NULL. -/
def endOfToken (s : σ) (src : Cursor) (termination : UInt8) : Run (Option Nat) := do
  let eot ← memchr s termination src
  if termination = SPACE then do
    let eot_tab ← memchr s TAB src
    -- check if a tab instead of a space terminates the token
    .ok (match eot, eot_tab with
      | eot, none => eot
      | some e, some t => if e < t then some e else some t
      | none, some t => some t)
  else .ok eot

/-- The status, `*src` and `*token`. -/
def extractToken (s : σ) (src : Cursor) (termination : UInt8) : Run (LexStatus × Cursor × Cursor) :=
  do
  let eot ← endOfToken s src termination
  match eot with
  | none => .ok (.STATUS_FAILED, src, .null)
  | some e => do
      let p ← deref src.ptr
      let len := e - p
      .ok (.STATUS_SUCCESS, ⟨some (e + 1), src.len - (len + 1)⟩, ⟨src.ptr, len⟩)

/-- `if (line->len > 0 && *(line->ptr + line->len - 1) == '\r') line->len--;` -/
def removeCR (s : σ) (line : Cursor) : Run Cursor :=
  if line.len > 0 then do
    let b ← load s (line.ptr.map (· + (line.len - 1)))
    .ok (if b = CR then { line with len := line.len - 1 } else line)
  else .ok line

/-- The status, the text, `*src` and `*line`. -/
def fetchLine (s : σ) (src line : Cursor) : Run (LexStatus × σ × Cursor × Cursor) :=
  if src.len = 0 then .ok (.STATUS_FAILED, s, src, line)
  else do
    let (ret, src, token) ← extractToken s src LF
    match ret with
    | .STATUS_SUCCESS => do
        let line ← removeCR s token
        let p ← deref line.ptr
        let s ← TextStore.terminate s (p + line.len)
        .ok (.STATUS_SUCCESS, s, src, line)
    -- last line ends without newline
    | _ => .ok (.STATUS_SUCCESS, s, ⟨src.ptr.map (· + src.len), 0⟩, src)

/-- `while (len > 0 && (*ptr == ' ' || *ptr == '\t')) { ptr++; len--; }` -/
def skipBlanks (s : σ) : Option Nat → Nat → Run Cursor
  | ptr, 0 => .ok ⟨ptr, 0⟩
  | ptr, len + 1 => do
      let b ← load s ptr
      if b = SPACE ∨ b = TAB then skipBlanks s (ptr.map (· + 1)) len else .ok ⟨ptr, len + 1⟩

/-- Whether something is left that is no comment, and `*src`. -/
def eatWhitespace (s : σ) (src : Cursor) : Run (Bool × Cursor) := do
  let src ← skipBlanks s src.ptr src.len
  if src.len > 0 then do
    let b ← load s src.ptr
    .ok (b != HASH, src)
  else .ok (false, src)

/-- The delimiter of what stands at `src`, and `*src` behind an opening quote. -/
def openQuote (s : σ) (src : Cursor) : Run (UInt8 × Cursor) := do
  let b ← load s src.ptr
  .ok (if b = QUOTE ∨ b = DQUOTE then (b, skip1 src) else (SPACE, src))

/-! ## Pairs -/

/-- The status, `*src`, `*key` and `*value`. -/
def extractKeyValue (s : σ) (src value : Cursor) : Run (LexStatus × Cursor × Cursor × Cursor) := do
  let (ret, src, key) ← extractToken s src COLON
  if ret = .STATUS_FAILED then .ok (.STATUS_FAILED, src, key, value)
  else do
    let (more, src) ← eatWhitespace s src
    if more = false then .ok (.STATUS_SUCCESS, src, key, .null)
    else do
      let (delimiter, src) ← openQuote s src
      let (ret, src', value) ← extractToken s src delimiter
      if ret = .STATUS_FAILED then
        if delimiter = SPACE then .ok (.STATUS_SUCCESS, { src with len := 0 }, key, src)
        else .ok (.STATUS_FAILED, src', key, value)
      else .ok (.STATUS_SUCCESS, src', key, value)

/-- The optional passphrase behind a file name: the status and the contents of `*secret`. -/
def extractSecret (s : σ) (src : Cursor) : Run (LexStatus × List UInt8) := do
  let (more, src) ← eatWhitespace s src
  if more = false then .ok (.STATUS_SUCCESS, [])
  else do
    let (more, src) ← eatWhitespace s src
    -- missing secret
    if more = false then .ok (.STATUS_FAILED, [])
    else do
      let (delimiter, src) ← openQuote s src
      let (ret, src, raw_secret) ← extractToken s src delimiter
      if ret = .STATUS_FAILED then
        if delimiter = SPACE then do
          let secret ← chunk_clone s src
          .ok (.STATUS_SUCCESS, secret)
        -- missing second delimiter
        else .ok (.STATUS_FAILED, [])
      else do
        let secret ← chunk_clone s raw_secret
        .ok (.STATUS_SUCCESS, secret)

/-- The status, `*filename` and the contents of `*secret`; `filename` is what the caller has in
    it. -/
def extractFilenameSecret (s : σ) (src filename : Cursor) : Run (LexStatus × Cursor × List UInt8) :=
  do
  let (more, src) ← eatWhitespace s src
  if more = false then .ok (.STATUS_FAILED, filename, [])
  else do
    let (delimiter, src) ← openQuote s src
    let (ret, src, filename) ← extractToken s src delimiter
    if ret = .STATUS_FAILED then
      if delimiter = SPACE then do
        let (ret, secret) ← extractSecret s .null
        .ok (ret, src, secret)
      else .ok (.STATUS_FAILED, filename, [])
    else do
      let (ret, secret) ← extractSecret s src
      .ok (ret, filename, secret)

end Lexparser

end StevenProgram
