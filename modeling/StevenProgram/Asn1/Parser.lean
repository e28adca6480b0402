/-
  `asn1Parser`: a table of syntax lines driven over a blob (`asn1Parser.cpp`).

  Each call of `iterate` advances to the next line of the table and delivers one object.  A line
  works on the cursor of its level: it takes one object (tag, length, contents) off that cursor and
  leaves the contents as the cursor of the next level.  DEFAULT and OPTION lines may be absent, END
  lines close an option, a choice or a turn of a loop, and jump.

  A `chunk_t` here is a `Cursor`: an offset into the input blob, or NULL, and a length.  A read
  outside the input, an array index above `ASN1_MAX_LEVEL + 1`, a line past the end of the table and
  an unsigned length that would drop below zero are faults of the run; the model never reads around
  them.

  `mPrivate`, `mLevel0` and the names of the lines only reach the log.
-/
import Mathlib.Logic.Function.Basic
import StevenProgram.Common.Mem

namespace StevenProgram

namespace Asn1

/-! ## Tables -/

/- `asn1_t`, as far as tables use it -/
abbrev ASN1_PARSER_EOC : Nat := 0x00
abbrev ASN1_PARSER_BOOLEAN : Nat := 0x01
abbrev ASN1_PARSER_INTEGER : Nat := 0x02
abbrev ASN1_PARSER_BIT_STRING : Nat := 0x03
abbrev ASN1_PARSER_OCTET_STRING : Nat := 0x04
abbrev ASN1_PARSER_OID : Nat := 0x06
abbrev ASN1_PARSER_CONSTRUCTED : Nat := 0x20
abbrev ASN1_PARSER_SEQUENCE : Nat := 0x30
abbrev ASN1_PARSER_SET : Nat := 0x31
abbrev ASN1_PARSER_CONTEXT_C_0 : Nat := 0xA0
abbrev ASN1_PARSER_CONTEXT_C_1 : Nat := 0xA1
abbrev ASN1_PARSER_CONTEXT_C_2 : Nat := 0xA2
abbrev ASN1_PARSER_CONTEXT_C_3 : Nat := 0xA3

/- the flags of a line -/
abbrev ASN1_NONE : Nat := 0x0000
abbrev ASN1_DEF : Nat := 0x0001
abbrev ASN1_OPT : Nat := 0x0002
abbrev ASN1_LOOP : Nat := 0x0004
abbrev ASN1_CHOICE : Nat := 0x0008
abbrev ASN1_CH : Nat := 0x0010
abbrev ASN1_END : Nat := 0x0020
abbrev ASN1_OBJ : Nat := 0x0040
abbrev ASN1_BODY : Nat := 0x0080
abbrev ASN1_RAW : Nat := 0x0100
abbrev ASN1_EXIT : Nat := 0x0200

abbrev ASN1_MAX_LEVEL : Nat := 10
abbrev ASN1_INVALID_LENGTH : Nat := 0xffffffff

/-- `asn1Object_t`: a line of a table. -/
structure Asn1Object where
  level : Nat
  type : Nat
  flags : Nat
  deriving DecidableEq

/-- `obj.flags & flag`. -/
def Asn1Object.has (obj : Asn1Object) (flag : Nat) : Bool := obj.flags &&& flag != 0

/-! ## Cursors -/

/-- A `chunk_t` into the input: the offset, or NULL. -/
structure Cursor where
  ptr : Option Nat
  len : Nat
  deriving DecidableEq

namespace Cursor

/-- `{NULL, 0}`. -/
def null : Cursor := ⟨none, 0⟩

/-- The bytes the cursor denotes. -/
def bytes (input : List UInt8) (c : Cursor) : List UInt8 :=
  match c.ptr with
  | none => []
  | some p => (input.drop p).take c.len

/-- `c.ptr[k]`. -/
def read (input : List UInt8) (c : Cursor) (k : Nat) : Run UInt8 :=
  match c.ptr with
  | none => .error .nullPtr
  | some p =>
      match input[p + k]? with
      | some b => .ok b
      | none => .error .outOfBounds

/-- `c.ptr += k; c.len -= k;` -/
def advance (c : Cursor) (k : Nat) : Run Cursor :=
  match c.ptr with
  | none => .error .nullPtr
  | some p => if k ≤ c.len then .ok ⟨some (p + k), c.len - k⟩ else .error .wrapped

/-- `{start.ptr, (u32_t)(stop.ptr - start.ptr)}`. -/
def upTo (start stop : Cursor) : Cursor :=
  match start.ptr, stop.ptr with
  | some p, some q => ⟨some p, q - p⟩
  | _, _ => null

end Cursor

/-! ## Lengths

  `asn1Length` moves the blob behind tag and length.  It refuses a length of more than four octets
  and one that is larger than what is left; its answer is then `ASN1_INVALID_LENGTH`, which is above
  every `len` of a blob. -/

/-- `while (n-- > 0) { len = 256*len + *blob->ptr++; blob->len--; }` on the 32 bits of `len`. -/
def lengthOctets (input : List UInt8) : Nat → Nat → Cursor → Run (Nat × Cursor)
  | 0, len, blob => .ok (len, blob)
  | n + 1, len, blob => do
      let b ← blob.read input 0
      let blob ← blob.advance 1
      lengthOctets input n ((256 * len + b.toNat) % 2 ^ 32) blob

/-- The length, and the blob behind tag and length. -/
def asn1Length (input : List UInt8) (blob : Cursor) : Run (Nat × Cursor) :=
  if blob.len < 2 then .ok (ASN1_INVALID_LENGTH, blob)
  else do
    -- read length field, skip tag and length
    let n ← blob.read input 1
    let blob ← blob.advance 2
    if n &&& 0x80 = 0 then
      -- single length octet
      .ok (if blob.len < n.toNat then ASN1_INVALID_LENGTH else n.toNat, blob)
    else
      -- composite length, determine number of length octets
      let n := (n &&& 0x7f).toNat
      if n = 0 ∨ blob.len < n then .ok (ASN1_INVALID_LENGTH, blob)
      else if 4 < n then .ok (ASN1_INVALID_LENGTH, blob)
      else do
        let (len, blob) ← lengthOctets input n 0 blob
        .ok (if blob.len < len then ASN1_INVALID_LENGTH else len, blob)

end Asn1

open Asn1

/-! ## The parser -/

/-- `asn1Parser`, without the table and the blob, which never change. -/
structure Asn1Parser where
  mLine : Int
  mSuccess : Bool
  mImplicit : Bool
  /-- the jump back address of each level, 0 for none -/
  mLoopAddr : Nat → Nat
  /-- the cursor of each level -/
  mBlobs : Nat → Cursor
  /-- in a choice on this level? -/
  mChoice : Nat → Bool

/-- What a call of `iterate` hands back; `objectID` is not assigned at the end of the table. -/
structure Iterated where
  ret : Bool
  objectID : Option Nat
  object : Cursor
  deriving DecidableEq

namespace Asn1Parser

/-- `asn1Parser(objects, blob)`. -/
def new (input : List UInt8) : Asn1Parser where
  mLine := -1
  mSuccess := true
  mImplicit := false
  mLoopAddr _ := 0
  mBlobs k := if k = 0 then ⟨some 0, input.length⟩ else .null
  mChoice _ := false

/-- `setFlags(implicit, privated)`. -/
def setFlags (s : Asn1Parser) (implicit : Bool) : Asn1Parser := { s with mImplicit := implicit }

/-- `mpObjects[line]`. -/
def lineAt (objects : List Asn1Object) (line : Nat) : Run Asn1Object :=
  match objects[line]? with
  | some obj => .ok obj
  | none => .error .outOfBounds

/-- The first line behind `line` that satisfies `p`. -/
def nextLine (objects : List Asn1Object) (p : Asn1Object → Bool) (line : Nat) : Option Nat :=
  ((objects.drop (line + 1)).findIdx? p).map (line + 1 + ·)

/-- `do { mLine++; } while (!p(mpObjects[mLine]));` -/
def search (objects : List Asn1Object) (p : Asn1Object → Bool) (line : Nat) : Run Nat :=
  match nextLine objects p line with
  | some m => .ok m
  | none => .error .outOfBounds

/-- The line that closes an option or a loop of this level. -/
def isEnd (level : Nat) (obj : Asn1Object) : Bool := obj.has ASN1_END && decide (obj.level = level)

/-- The line that closes the choices around a choice of this level. -/
def isEndChoices (level : Nat) (obj : Asn1Object) : Bool :=
  obj.has ASN1_END && obj.has ASN1_CHOICE && decide (obj.level = (level + 2 ^ 32 - 1) % 2 ^ 32)

/-- The members indexed by `obj.level` and `obj.level + 1` exist. -/
def inArrays (obj : Asn1Object) : Run Unit :=
  if obj.level ≤ ASN1_MAX_LEVEL then .ok () else .error .outOfBounds

/-- `end: objectID = mLine; return mSuccess;` -/
def finish (s : Asn1Parser) (line : Nat) (object : Cursor) : Asn1Parser × Iterated :=
  ({ s with mLine := line }, ⟨s.mSuccess, some line, object⟩)

/-- `mSuccess = false; goto end;` -/
def fail (s : Asn1Parser) (line : Nat) : Asn1Parser × Iterated :=
  finish { s with mSuccess := false } line .null

/-- end of loop or choice or option, without another turn -/
def endLine (s : Asn1Parser) (objects : List Asn1Object) (line : Nat) (obj : Asn1Object) :
    Run (Asn1Parser × Iterated) :=
  let s := { s with mLoopAddr := Function.update s.mLoopAddr obj.level 0 }
  if obj.has ASN1_CHOICE && s.mChoice (obj.level + 1) then .ok (s.fail line)
  else if obj.has ASN1_CH then do
    -- a valid choice: advance to the end of the choices
    let m ← search objects (isEndChoices obj.level) line
    .ok (finish { s with mChoice := Function.update s.mChoice obj.level false } (m - 1) .null)
  else .ok (s.finish line .null)

/-- `blob->len == 0 || *start_ptr != obj.type`. -/
def absent (input : List UInt8) (blob : Cursor) (obj : Asn1Object) : Run Bool :=
  if blob.len = 0 then .ok true
  else do
    let tag ← blob.read input 0
    .ok (tag.toNat != obj.type)

/-- The test of a line that may be absent; other lines do not look at the tag. -/
def missing (s : Asn1Parser) (input : List UInt8) (obj : Asn1Object) : Run Bool :=
  if obj.has ASN1_DEF || obj.has ASN1_OPT then absent input (s.mBlobs obj.level) obj else .ok false

/-- A loop with items jumps back to the line behind its own. -/
def startLoop (s : Asn1Parser) (line : Nat) (obj : Asn1Object) : Asn1Parser :=
  if obj.has ASN1_LOOP then { s with mLoopAddr := Function.update s.mLoopAddr obj.level (line + 1) }
    else s

/-- Start to scan for exactly one valid choice. -/
def startChoice (s : Asn1Parser) (obj : Asn1Object) : Asn1Parser :=
  if obj.has ASN1_CHOICE then { s with mChoice := Function.update s.mChoice (obj.level + 1) true }
    else s

/-- A line whose object has the right type: `object` is all of it, `body` its contents. -/
def typedObject (s : Asn1Parser) (objects : List Asn1Object) (line : Nat) (obj : Asn1Object)
    (object body : Cursor) :
    Run (Asn1Parser × Iterated) :=
  if obj.has ASN1_LOOP && body.len == 0 then do
    -- no items, advance directly to end of loop
    let line ← search objects (isEnd obj.level) line
    .ok (s.finish line .null)
  else
    let s := s.startLoop line obj
    if obj.has ASN1_CHOICE && body.len == 0 then .ok (s.fail line)
    else
      .ok ((s.startChoice obj).finish line
        (if obj.has ASN1_OBJ then object else if obj.has ASN1_BODY then body else .null))

/-- `*start_ptr != obj.type && !(mImplicit && mLine == 0)`. -/
def wrongType (s : Asn1Parser) (line : Nat) (obj : Asn1Object) (tag : UInt8) : Bool :=
  tag.toNat != obj.type && !(s.mImplicit && line == 0)

/-- A line that is neither absent nor an END line: take one object off the cursor of its level. -/
def parseObject (s : Asn1Parser) (objects : List Asn1Object) (input : List UInt8) (line : Nat)
    (obj : Asn1Object) :
    Run (Asn1Parser × Iterated) :=
  let blob := s.mBlobs obj.level
  if blob.len < 2 then .ok (s.fail line)
  else do
    let (len, body) ← asn1Length input blob
    if len = ASN1_INVALID_LENGTH then
      let blob1 : Cursor := ⟨(s.mBlobs (obj.level + 1)).ptr, len⟩
      let blobs := Function.update (Function.update s.mBlobs obj.level body) (obj.level + 1) blob1
      .ok (fail { s with mBlobs := blobs } line)
    else do
      let rest ← body.advance len
      let body : Cursor := ⟨body.ptr, len⟩
      let blobs := Function.update (Function.update s.mBlobs obj.level rest) (obj.level + 1) body
      if obj.has ASN1_CHOICE && obj.type == ASN1_PARSER_EOC then
        -- choice without explicit context encoding
        .ok (finish { s with
          mChoice := Function.update s.mChoice (obj.level + 1) true
          mBlobs := Function.update blobs (obj.level + 1) blob } line .null)
      else
        let s := { s with mBlobs := blobs }
        if obj.has ASN1_RAW then .ok (s.finish line (blob.upTo rest))
        else do
          let tag ← blob.read input 0
          if s.wrongType line obj tag then .ok (s.fail line)
          else s.typedObject objects line obj (blob.upTo rest) body

/-- A line that is not an END line. -/
def parseLine (s : Asn1Parser) (objects : List Asn1Object) (input : List UInt8) (line : Nat)
    (obj : Asn1Object) :
    Run (Asn1Parser × Iterated) := do
  inArrays obj
  let missing ← s.missing input obj
  if obj.has ASN1_DEF && missing then
    -- field is missing: skip context-specific tag
    .ok (s.finish (if obj.type &&& ASN1_PARSER_CONSTRUCTED ≠ 0 then line + 1 else line) .null)
  else if obj.has ASN1_OPT && missing then do
    -- advance to end of missing option field
    let line ← search objects (isEnd obj.level) line
    .ok (s.finish line .null)
  else s.parseObject objects input line obj

/-- `iterate(objectID, object)`: one line of the table, and its object. -/
def iterate (s : Asn1Parser) (objects : List Asn1Object) (input : List UInt8) :
    Run (Asn1Parser × Iterated) := do
  let line := (s.mLine + 1).toNat
  let obj ← lineAt objects line
  if obj.has ASN1_EXIT then .ok ({ s with mLine := line }, ⟨false, none, .null⟩)
  else if obj.has ASN1_END then do
    inArrays obj
    if s.mLoopAddr obj.level ≠ 0 ∧ 0 < (s.mBlobs (obj.level + 1)).len then do
      -- another iteration
      let line := s.mLoopAddr obj.level
      let obj ← lineAt objects line
      s.parseLine objects input line obj
    else s.endLine objects line obj
  else s.parseLine objects input line obj

/-- Is the blob one ASN.1 object? -/
def isAsn1Encode (input : List UInt8) (blob : Cursor) : Run Bool :=
  if blob.len = 0 ∨ blob.ptr = none then .ok false
  else do
    let tag ← blob.read input 0
    if tag.toNat ≠ ASN1_PARSER_SEQUENCE ∧ tag.toNat ≠ ASN1_PARSER_SET ∧
      tag.toNat ≠ ASN1_PARSER_OCTET_STRING then .ok false
    else do
      let (len, blob) ← asn1Length input blob
      if len = ASN1_INVALID_LENGTH then .ok false
      else if len = blob.len then .ok true
      -- some websites append a surplus newline character to the blob
      else if (len + 1) % 2 ^ 32 = blob.len then do
        let c ← blob.read input len
        .ok (c.toNat == 0x0a)
      else .ok false

end Asn1Parser

end StevenProgram
