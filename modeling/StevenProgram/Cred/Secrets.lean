/-
  `credMgr::loadSecrets`: which private keys the secrets file makes the program load, and with which
  secrets.

  The file name and the secret of a line are kept outside the loop over the lines, and the status of
  `extractFilenameSecret` is not looked at.  A line without a file name leaves the name of an
  earlier line in place; a secret that is not closed leaves the name of its own line.

  1. **The source** — `loadSecrets`, as the list of its calls of `loadPriKeyByType`.  The messages
     are left out.
  2. **The format** — `secretsEntry`, what a line says by itself, and `prescribed`, the calls of a
     list of lines.
  3. **What the code makes of the lines** (`loadSecrets_eq`) — `made`, where the name left by the
     earlier lines is an argument.
  4. **Headline** (`loadSecrets_prescribed_iff`) — the calls are the prescribed ones exactly when
     the lines are `Harmless`.  `loadSecrets_stale` is a file whose second line is loaded under the
     name of the first.
-/
import Mathlib.Data.List.DropRight
import StevenProgram.Lex.Tokens

namespace StevenProgram

open Asn1 (Cursor)
open CString (Reads cut)
open TextLines (Line lines)
open Lexparser

/-! ## The source

  Written over a `TextStore`, as the lexer is.  `filename` is declared in front of the loop, and a
  turn that finds none hands on what it holds. -/

/-- The kinds of key that a line may name. -/
inductive KeyType where
  | KEY_RSA
  | KEY_ECDSA
  | KEY_BLISS
  deriving DecidableEq, Repr

def PRIVATE_KEY_DIR : List UInt8 := ascii "/usr/local/etc/ipsec.d/private"

/-- `loadPriKeyByType(fullName, keyType, secret)`. -/
structure SecretCall where
  fullName : List UInt8
  keyType : KeyType
  secret : List UInt8
  deriving DecidableEq, Repr

namespace CredMgr

/-- What `%.*s` prints of a text. -/
def cString (text : List UInt8) : List UInt8 := text.takeWhile (· != 0)

/-- What `snprintf(buf, size, …)` leaves in `buf`, without the NUL. -/
def snprintf (size : Nat) (text : List UInt8) : List UInt8 := text.take (size - 1)

/-- `fullName`, for a file name that is not empty. -/
def fullNameOf (name : List UInt8) : List UInt8 :=
  snprintf (128 - 1) (if name.head? = some SLASH then cString name else PRIVATE_KEY_DIR ++
    SLASH :: cString name)

variable {σ : Type} [TextStore σ]

/-- The key type, none for `STATUS_FAILED`. -/
def getKeyType (s : σ) (token : Cursor) : Run (Option KeyType) := do
  let rsa ← isName s token (ascii "RSA")
  if rsa then .ok (some .KEY_RSA)
  else do
    let ecdsa ← isName s token (ascii "ECDSA")
    if ecdsa then .ok (some .KEY_ECDSA)
    else do
      let bliss ← isName s token (ascii "BLISS")
      .ok (if bliss then some .KEY_BLISS else none)

/-- `line.len > 2 && strncmp(line.ptr, ": ", strlen(": ")) == 0`. -/
def isSeparated (s : σ) (line : Cursor) : Run Bool :=
  if line.len > 2 then strncmp s line.ptr (ascii ": ") else .ok false

/-- How the body of the loop ends. -/
inductive Turn where
  /-- `continue` -/
  | skip
  /-- `break` -/
  | stop
  /-- with a call of `loadPriKeyByType` -/
  | call (c : SecretCall)

/-- The part of the body behind `getKeyType`. -/
def secretsKey (s : σ) (line filename : Cursor) (keyType : KeyType) : Run (Turn × Cursor) := do
  let (_, filename, secret) ← extractFilenameSecret s line filename
  if filename.len = 0 then .ok (.stop, filename)
  else do
    -- what `%.*s` prints
    let name ← chunk_clone s filename
    .ok (.call ⟨fullNameOf name, keyType, secret⟩, filename)

/-- The body of the loop on a line, and the `filename` it leaves. -/
def secretsLine (s : σ) (line filename : Cursor) : Run (Turn × Cursor) := do
  let (more, line) ← eatWhitespace s line
  if more = false then .ok (.skip, filename)
  else do
    let separated ← isSeparated s line
    -- missing ' : ' separator
    if separated = false then .ok (.stop, filename)
    else do
      let (more, line) ← eatWhitespace s (skip1 line)
      -- missing token
      if more = false then .ok (.stop, filename)
      else do
        let (ret, line, token) ← extractToken s line SPACE
        if ret = .STATUS_FAILED then .ok (.stop, filename)
        else do
          let keyType ← getKeyType s token
          match keyType with
          | none => .ok (.stop, filename)
          | some keyType => secretsKey s line filename keyType

/-- `while (fetchLine(&src, &line) == STATUS_SUCCESS) { … }`, at most `fuel` times. -/
def secretsLoop : Nat → σ → Cursor → Cursor → Cursor → Run (List SecretCall)
  | 0, _, _, _, _ => .error .diverged
  | fuel + 1, s, src, line, filename => do
      let (ret, s, src, line) ← fetchLine s src line
      if ret = .STATUS_SUCCESS then do
        let (turn, filename) ← secretsLine s line filename
        match turn with
        | .skip => secretsLoop fuel s src line filename
        | .stop => .ok []
        | .call c => do
            let calls ← secretsLoop fuel s src line filename
            .ok (c :: calls)
      else .ok []

/-- The calls of `loadPriKeyByType`; a secrets file that cannot be read is an empty text. -/
def loadSecrets (data : Chunk) : Run (List SecretCall) :=
  secretsLoop (data.len + 1) (InPlace.of data.bytes) ⟨some 0, data.len⟩ .null .null

end CredMgr

/-! ## The format

  What a secrets file says, line by line and without a state. -/

namespace Secrets

open CredMgr

/-- What a line says by itself. -/
inductive Entry where
  /-- nothing, or a comment -/
  | blank
  /-- no `: TYPE ` in front -/
  | malformed
  /-- a type, and nothing behind it -/
  | noFile (keyType : KeyType)
  /-- an empty file name, or one whose quote is not closed -/
  | unnamed
  /-- a file name, and a secret whose quote is not closed -/
  | openSecret (keyType : KeyType) (file : List UInt8)
  | key (keyType : KeyType) (file secret : List UInt8)
  deriving DecidableEq

/-- The type a token stands for. -/
def keyTypeOf (token : List UInt8) : Option KeyType :=
  if token = ascii "RSA" then some .KEY_RSA
  else if token = ascii "ECDSA" then some .KEY_ECDSA
  else if token = ascii "BLISS" then some .KEY_BLISS
  else none

/-- The secret behind a file name; none when its quote is not closed. -/
def secretOf (bs : List UInt8) : Option (List UInt8) :=
  let bs := bs.dropWhile Lexparser.blank
  if begins bs = false then some [] else (valueOf bs).map Prod.fst

/-- The part behind the type. -/
def fileEntry (keyType : KeyType) (bs : List UInt8) : Entry :=
  let bs := bs.dropWhile Lexparser.blank
  if begins bs = false then .noFile keyType
  else match valueOf bs with
    | none => .unnamed
    | some ([], _) => .unnamed
    | some (b :: file, rest) =>
        match secretOf rest with
        | none => .openSecret keyType (b :: file)
        | some secret => .key keyType (b :: file) secret

/-- What a line says, from its first bytes on. -/
def secretsEntry (bs : List UInt8) : Entry :=
  let bs := bs.dropWhile Lexparser.blank
  if begins bs = false then .blank
  else if 2 < bs.length ∧ ascii ": " <+: bs then
    let bs := bs.tail.dropWhile Lexparser.blank
    if begins bs = false then .malformed
    else match cut Lexparser.blank bs with
      | none => .malformed
      | some (token, rest) =>
          match keyTypeOf token with
          | none => .malformed
          | some keyType => fileEntry keyType rest
  else .malformed

/-- The file, in the directory of the private keys unless its name is absolute. -/
def pathOf (file : List UInt8) : List UInt8 :=
  if file.head? = some SLASH then file else PRIVATE_KEY_DIR ++ SLASH :: file

/-- **The prescribed calls**: one for each line that names a key, up to the first line that is
    neither that nor blank. -/
def prescribed : List Entry → List SecretCall
  | .blank :: es => prescribed es
  | .key keyType file secret :: es => ⟨pathOf file, keyType, secret⟩ :: prescribed es
  | _ => []

/-- The lines of a file, each by itself. -/
def entries (text : List UInt8) : List Entry := (lines text).map fun l => secretsEntry l.content

/-! ## What the code makes of the lines

  `made` has the one piece of state that the code carries from line to line, the file name;
  `secretsLoop_eq` says that nothing else matters. -/

/-- The turn on a line, with the name the earlier lines left. -/
def turnOf (stale : List UInt8) : Entry → Turn
  | .blank => .skip
  | .malformed => .stop
  | .noFile keyType => if stale = [] then .stop else .call ⟨fullNameOf stale, keyType, []⟩
  | .unnamed => .stop
  | .openSecret keyType file => .call ⟨fullNameOf file, keyType, []⟩
  | .key keyType file secret => .call ⟨fullNameOf file, keyType, secret⟩

/-- The name behind the line, when the loop goes on. -/
def leaves (stale : List UInt8) : Entry → List UInt8
  | .openSecret _ file => file
  | .key _ file _ => file
  | _ => stale

/-- The calls of the code. -/
def made : List UInt8 → List Entry → List SecretCall
  | _, [] => []
  | stale, e :: es =>
      match turnOf stale e with
      | .skip => made (leaves stale e) es
      | .stop => []
      | .call c => c :: made (leaves stale e) es

section Views

variable {σ : Type} [TextStore σ] {s : σ} {a e : Nat} {c : Cursor} {bs : List UInt8}

/-- The secret of a line, or nothing. -/
theorem extractSecret_views (h : Views s a e c bs) :
    ∃ ret, extractSecret s c = .ok (ret, (secretOf bs).getD []) := by
  obtain ⟨c1, h1, hv1⟩ := eatWhitespace_views h
  rw [extractSecret, h1, Run.ok_bind, secretOf]
  cases hb : begins (bs.dropWhile Lexparser.blank) with
  | false => exact ⟨_, rfl⟩
  | true =>
    -- the second look at the blanks sees what the first saw
    obtain ⟨c2, h2, hv2⟩ := eatWhitespace_views hv1
    rw [List.dropWhile_idempotent, hb] at h2
    rw [List.dropWhile_idempotent] at hv2
    obtain ⟨c3, h3, hv3, ht⟩ := extractValue_views hv2 hb
    simp only [Bool.true_eq_false, if_false, h2, h3, Run.ok_bind]
    rw [valueOf]
    cases hcut :
      cut (stops (quoted (bs.dropWhile Lexparser.blank)).1)
      (quoted (bs.dropWhile Lexparser.blank)).2 with
    | some v =>
      rw [hcut] at ht
      obtain ⟨src, tok, htok, -, hvt⟩ := ht
      simp only [htok, Run.ok_bind, reduceCtorEq, if_false, chunk_clone_views hvt]
      exact ⟨_, rfl⟩
    | none =>
      rw [hcut] at ht
      simp only [ht, Run.ok_bind, if_true]
      split
      · simp only [chunk_clone_views hv3, Run.ok_bind]
        exact ⟨_, rfl⟩
      · exact ⟨_, rfl⟩

/-- With no file name, the caller's stays. -/
theorem extractFilenameSecret_noFile (h : Views s a e c bs) (filename : Cursor)
    (hb : begins (bs.dropWhile Lexparser.blank) = false) :
    extractFilenameSecret s c filename = .ok (.STATUS_FAILED, filename, []) := by
  obtain ⟨c1, h1, -⟩ := eatWhitespace_views h
  rw [extractFilenameSecret, h1, hb]
  rfl

/-- With an open quote, it is emptied. -/
theorem extractFilenameSecret_open (h : Views s a e c bs) (filename : Cursor)
    (hb : begins (bs.dropWhile Lexparser.blank) = true)
    (hv : valueOf (bs.dropWhile Lexparser.blank) = none) :
    extractFilenameSecret s c filename = .ok (.STATUS_FAILED, .null, []) := by
  obtain ⟨c1, h1, hv1⟩ := eatWhitespace_views h
  obtain ⟨c2, h2, -, ht⟩ := extractValue_views hv1 hb
  rw [extractFilenameSecret, h1, hb, Run.ok_bind]
  rw [valueOf] at hv
  split at hv
  · cases hv
  · next hcut =>
    rw [hcut] at ht
    split at hv
    · cases hv
    · next hd =>
      simp only [Bool.true_eq_false, if_false, h2, ht, Run.ok_bind, if_true]
      rw [if_neg hd]

/-- A line with a file name gives the name and the secret behind it. -/
theorem extractFilenameSecret_file (h : Views s a e c bs) (filename : Cursor)
    (hb : begins (bs.dropWhile Lexparser.blank) = true) {file rest : List UInt8}
    (hv : valueOf (bs.dropWhile Lexparser.blank) = some (file, rest)) :
    ∃ ret f, Views s a e f file ∧ extractFilenameSecret s c filename = .ok
      (ret, f, (secretOf rest).getD []) := by
  obtain ⟨c1, h1, hv1⟩ := eatWhitespace_views h
  obtain ⟨c2, h2, hv2, ht⟩ := extractValue_views hv1 hb
  rw [extractFilenameSecret, h1, hb, Run.ok_bind]
  rw [valueOf] at hv
  split at hv
  · next v hcut =>
    cases hv
    rw [hcut] at ht
    obtain ⟨src, tok, htok, hrest, hvt⟩ := ht
    obtain ⟨ret, hs⟩ := extractSecret_views hrest
    refine ⟨ret, tok, hvt, ?_⟩
    simp only [Bool.true_eq_false, if_false, h2, htok, Run.ok_bind, reduceCtorEq, hs]
  · next hcut =>
    rw [hcut] at ht
    split at hv
    · -- the name goes on to the end of the line
      next hd =>
      cases hv
      obtain ⟨ret, hs⟩ := extractSecret_views (Views.null (s := s) (a := a) (e := e))
      refine ⟨ret, c2, hv2, ?_⟩
      simp only [Bool.true_eq_false, if_false, h2, ht, Run.ok_bind, if_true]
      simp only [hd, if_true, hs, Run.ok_bind]
    · cases hv

/-- The type of a key is read off the front of the line. -/
theorem getKeyType_views (h : Views s a e c bs) : getKeyType s c = .ok (keyTypeOf bs) := by
  rw [getKeyType, keyTypeOf, isName_views h (by decide), isName_views h (by decide),
    isName_views h (by decide)]
  simp only [Run.ok_bind, decide_eq_true_eq]
  split
  · rfl
  · split
    · rfl
    · rfl

/-- The colon and the blank behind the type. -/
theorem isSeparated_views (h : Views s a e c bs) :
    isSeparated s c = .ok (decide (2 < bs.length ∧ ascii ": " <+: bs)) := by
  rw [isSeparated, h.len]
  by_cases hlen : 2 < bs.length
  · have hle : (ascii ": ").length ≤ bs.length := Nat.le_of_lt hlen
    rw [if_pos hlen, strncmp_views h (fun hb => by rw [hb] at hlen; cases hlen) hle]
    congr 1
    rw [Bool.eq_iff_iff, List.isPrefixOf_iff_prefix, decide_eq_true_iff]
    exact ⟨fun hp => ⟨hlen, hp⟩, And.right⟩
  · rw [if_neg hlen]
    congr 1
    exact (decide_eq_false fun hb => hlen hb.1).symm

/-- The turn behind the type, and the name it leaves. -/
theorem secretsKey_views (h : Views s a e c bs) {filename : Cursor} {stale : List UInt8}
    (hf : Views s a e filename stale) (keyType : KeyType) : ∃ turn f,
      secretsKey s c filename keyType = .ok (turn, f) ∧ turn = turnOf stale (fileEntry keyType bs) ∧
      (turn = .stop ∨ Views s a e f (leaves stale (fileEntry keyType bs))) := by
  -- once the name is there, the secret and the path are what they are
  have hend : ∀ {ret f file secret}, Views s a e f file →
      extractFilenameSecret s c filename = .ok (ret, f, secret) →
      secretsKey s c filename keyType =
        .ok (if file = [] then .stop else .call ⟨fullNameOf file, keyType, secret⟩, f) := by
    intro ret f file secret hv he
    rw [secretsKey, he, Run.ok_bind]
    simp only [hv.len, List.length_eq_zero_iff, chunk_clone_views hv, Run.ok_bind]
    split <;> rfl
  rw [fileEntry]
  cases hb : begins (bs.dropWhile Lexparser.blank) with
  | false =>
    exact ⟨_, _, hend hf (extractFilenameSecret_noFile h filename hb), rfl, .inr hf⟩
  | true =>
    simp only [Bool.true_eq_false, if_false]
    cases hv : valueOf (bs.dropWhile Lexparser.blank) with
    | none => exact ⟨_, _, hend .null (extractFilenameSecret_open h filename hb hv), rfl, .inl rfl⟩
    | some v =>
      obtain ⟨file, rest⟩ := v
      obtain ⟨ret, f, hfile, he⟩ := extractFilenameSecret_file h filename hb hv
      refine ⟨_, f, hend hfile he, ?_⟩
      cases file with
      | nil => exact ⟨rfl, .inl rfl⟩
      | cons b file =>
        simp only []
        cases secretOf rest with
        | none => exact ⟨rfl, .inr hfile⟩
        | some secret => exact ⟨rfl, .inr hfile⟩

/-- **A turn depends on its line and on the name left by the earlier ones.** -/
theorem secretsLine_views (h : Views s a e c bs) {filename : Cursor} {stale : List UInt8}
    (hf : Views s a e filename stale) : ∃ turn f,
      secretsLine s c filename = .ok (turn, f) ∧ turn = turnOf stale (secretsEntry bs) ∧
      (turn = .stop ∨ Views s a e f (leaves stale (secretsEntry bs))) := by
  obtain ⟨c1, h1, hv1⟩ := eatWhitespace_views h
  rw [secretsLine, h1, Run.ok_bind, secretsEntry]
  generalize bs.dropWhile Lexparser.blank = bs at hv1
  cases hb : begins bs with
  | false => exact ⟨_, _, rfl, rfl, .inr hf⟩
  | true =>
    simp only [Bool.true_eq_false, if_false, isSeparated_views hv1, Run.ok_bind,
      decide_eq_false_iff_not]
    by_cases hsep : 2 < bs.length ∧ ascii ": " <+: bs
    · rw [if_neg (not_not_intro hsep), if_pos hsep]
      have hv2 : Views s a e (skip1 c1) bs.tail := by
        cases bs with
        | nil => cases hb
        | cons b bs => exact hv1.cons.2
      obtain ⟨c2, h2, hv3⟩ := eatWhitespace_views hv2
      simp only [h2, Run.ok_bind]
      generalize bs.tail.dropWhile Lexparser.blank = bs at hv3
      cases hb2 : begins bs with
      | false => exact ⟨_, _, rfl, rfl, .inl rfl⟩
      | true =>
        simp only [Bool.true_eq_false, if_false]
        cases hcut : cut Lexparser.blank bs with
        | none =>
          simp only [extractToken_none hv3 hcut, Run.ok_bind, if_true]
          exact ⟨_, _, rfl, rfl, .inl rfl⟩
        | some v =>
          obtain ⟨src, tok, htok, hrest, hvt⟩ := extractToken_some hv3 hcut
          simp only [htok, Run.ok_bind, reduceCtorEq, if_false, getKeyType_views hvt]
          cases keyTypeOf v.1 with
          | none => exact ⟨_, _, rfl, rfl, .inl rfl⟩
          | some keyType => exact secretsKey_views hrest hf keyType
    · rw [if_pos hsep, if_neg hsep]
      exact ⟨_, _, rfl, rfl, .inl rfl⟩

end Views

/-- **The loop makes what its lines say**, with the file name of the lines before. By induction on
    the fuel, one turn for a line. -/
theorem secretsLoop_eq {σ : Type} [TextStore σ] [LawfulTextStore σ] :
    ∀ {fuel : Nat} {s : σ} {p : Nat}
    {bs stale : List UInt8} (line : Cursor) {filename : Cursor}, bs.length < fuel →
      Reads (TextStore.read s) p bs →
    p + bs.length = TextStore.size s → Views s 0 p filename stale →
    secretsLoop fuel s ⟨some p, bs.length⟩ line filename = .ok (made stale (entries bs)) := by
  intro fuel
  induction fuel with
  | zero => intro _ _ _ _ _ _ h; cases h
  | succ fuel ih =>
    intro s p bs stale line filename hfuel hr hend hf
    rw [secretsLoop]
    by_cases hne : bs = []
    · subst hne
      rw [fetchLine_none s line rfl]
      rfl
    · obtain ⟨s', l, q, hfetch, he⟩ := fetchLine_some line hr hne hend
      have hlt := hfetch.rest_lt
      have hle := hfetch.line_le
      have hrest := hfetch.rest_end
      have hq : p + l.content.length ≤ q := by omega
      -- what the earlier lines left is in front of this one
      have hf' : Views s' 0 q filename stale := hf.congr (Nat.le_refl 0) (by omega) fun r _ h =>
        hfetch.before r h
      obtain ⟨turn, f, hturn, rfl, hleaves⟩ :=
        secretsLine_views (.here (Nat.zero_le p) hq hfetch.line) hf'
      have hgo := fun (hv : Views s' 0 q f (leaves stale (secretsEntry l.content))) line =>
        ih line (Nat.lt_of_lt_of_le hlt (Nat.le_of_lt_succ hfuel)) hfetch.reads_rest
          (by rw [hfetch.size_eq]; omega) hv
      simp only [he, Run.ok_bind, if_true, hturn]
      rw [entries, hfetch.lines_eq, List.map_cons, made]
      cases ht : turnOf stale (secretsEntry l.content) with
      | skip => exact hgo (hleaves.resolve_left (by rw [ht]; simp)) _
      | stop => rfl
      | call c =>
        simp only [hgo (hleaves.resolve_left (by rw [ht]; simp)) _, Run.ok_bind]
        rfl

/-- **The code's calls**, by the lines. -/
theorem loadSecrets_eq (data : Chunk) : loadSecrets data = .ok (made [] (entries data.bytes)) :=
  secretsLoop_eq _ (Nat.lt_succ_self _) (readAt_reads [] data.bytes) (Nat.zero_add _) .null

/-! ## Headline

  `Harmless` follows the two in step and names every place where they may part: a path that is cut,
  a name from an earlier line, a line that ends the loop in one of them only. -/

/-- A path that `fullName` holds and a C string can say. -/
def Fits (file : List UInt8) : Prop := (pathOf file).length < 127 ∧ 0 ∉ file

/-- A text without a NUL is read back whole. -/
theorem cString_eq_self {text : List UInt8} : cString text = text ↔ 0 ∉ text := by
  rw [cString, List.takeWhile_eq_self_iff]
  constructor
  · intro h hm
    exact absurd (h 0 hm) (by decide)
  · intro h b hb
    simp only [bne_iff_ne]
    rintro rfl
    exact h hb

/-- The path fits into its buffer or is cut. -/
theorem fullNameOf_eq_pathOf {file : List UInt8} : fullNameOf file = pathOf file ↔ Fits file := by
  have hc : (cString file).length ≤ file.length := (List.takeWhile_prefix _).length_le
  rw [fullNameOf, snprintf, pathOf, Fits, pathOf]
  constructor
  · intro h
    have hl := congrArg List.length h
    rw [List.length_take] at hl
    split at hl
    · next ha =>
      rw [if_pos ha, if_pos ha, List.take_of_length_le (by omega)] at h
      exact ⟨by rw [if_pos ha]; omega, cString_eq_self.mp h⟩
    · next ha =>
      rw [if_neg ha, if_neg ha,
        List.take_of_length_le (by simp only [List.length_append, List.length_cons] at hl ⊢; omega)]
        at h
      refine ⟨by rw [if_neg ha]; omega, cString_eq_self.mp ?_⟩
      exact List.cons.inj (List.append_cancel_left h) |>.2
  · rintro ⟨hlen, h0⟩
    rw [cString_eq_self.mpr h0, List.take_of_length_le (Nat.le_of_lt_succ hlen)]

/-- The lines for which it does not matter that the code keeps going: every path fits, a line
    without a file name comes before any line that has one, and no secret is left open. -/
def Harmless : List UInt8 → List Entry → Prop
  | _, [] => True
  | stale, .blank :: es => Harmless stale es
  | _, .malformed :: _ => True
  | stale, .noFile _ :: _ => stale = []
  | _, .unnamed :: _ => True
  | _, .openSecret .. :: _ => False
  | _, .key _ file _ :: es => Fits file ∧ Harmless file es

/-- **What is made is what is prescribed exactly when every line is harmless.** By induction on the
    lines, with the name that is left over. -/
theorem made_eq_prescribed : ∀ {es : List Entry} {stale : List UInt8},
    made stale es = prescribed es ↔ Harmless stale es := by
  intro es
  induction es with
  | nil => intro stale; exact iff_of_true rfl trivial
  | cons e es ih =>
    intro stale
    cases e with
    | blank => exact ih
    | malformed => exact iff_of_true rfl trivial
    | noFile keyType =>
      by_cases hs : stale = []
      · subst hs
        exact iff_of_true rfl rfl
      · have hcall :
          made stale (.noFile keyType :: es) =
            ⟨fullNameOf stale, keyType, []⟩ :: made stale es := by
          rw [made, turnOf, if_neg hs]
          rfl
        rw [hcall]
        exact iff_of_false (List.cons_ne_nil _ _) hs
    | unnamed => exact iff_of_true rfl trivial
    | openSecret keyType file => exact iff_of_false (List.cons_ne_nil _ _) id
    | key keyType file secret =>
      have hcall :
        (⟨fullNameOf file, keyType, secret⟩ : SecretCall) = ⟨pathOf file, keyType, secret⟩ ↔
        Fits file := by
        rw [← fullNameOf_eq_pathOf, SecretCall.mk.injEq]
        simp
      show _ :: made file es = _ :: prescribed es ↔ _
      rw [List.cons.injEq, hcall, ih]
      rfl

/-- **The calls are the prescribed ones exactly when the lines are harmless.** -/
theorem loadSecrets_prescribed_iff (data : Chunk) :
    loadSecrets data = .ok (prescribed (entries data.bytes)) ↔ Harmless []
    (entries data.bytes) := by
  rw [loadSecrets_eq, Except.ok.injEq, made_eq_prescribed]

/-- `: RSA a.pem s` and then `: RSA `: the second line loads the file of the first, without a
    secret. -/
theorem loadSecrets_stale :
    let data : Chunk := ⟨ascii ": RSA a.pem s\n: RSA \n", by decide⟩
    loadSecrets data = .ok [⟨pathOf (ascii "a.pem"), .KEY_RSA, ascii "s"⟩,
      ⟨pathOf (ascii "a.pem"), .KEY_RSA, []⟩] ∧
      prescribed (entries data.bytes) = [⟨pathOf (ascii "a.pem"), .KEY_RSA, ascii "s"⟩] ∧
      loadSecrets data ≠ .ok (prescribed (entries data.bytes)) := by
  intro data
  rw [loadSecrets_eq]
  decide

end Secrets

end StevenProgram
