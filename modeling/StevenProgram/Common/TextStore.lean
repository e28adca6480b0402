/-
  Where a text is read and its decoding is written.

  The lexer is handed one buffer and uses it for three things: it reads the text from the front, it
  puts a NUL behind each line it has taken, and it stores what a line decodes to, again from the
  front. `TextStore` has an operation for each.  `InPlace` is the buffer of the source.  `Apart` has
  a second buffer for the decoded bytes, so that of the text it changes nothing but the line ends,
  which read as NUL. `Untouched` changes nothing of the text at all.  Each remembers how far the
  decoded bytes have reached; no operation looks at that.

  1. **Stores** — the class and its three instances.
  2. **Laws** (`LawfulTextStore`) — reads succeed exactly inside the text, a NUL changes the byte it
     replaces, a decoded byte leaves everything behind it as it was.  `InPlace` and `Apart` are
     lawful; `Untouched` is not, as its line ends read as they did before.
-/
import StevenProgram.Common.Mem

namespace StevenProgram

/-- The operations of the lexer on its buffer; `decoded` and `written` only look. -/
class TextStore (σ : Type) where
  size : σ → Nat
  /-- `*p` -/
  read : σ → Nat → Run UInt8
  /-- `*p = 0`, behind a line -/
  terminate : σ → Nat → Run σ
  /-- `result[q] = b` -/
  emit : σ → Nat → UInt8 → Run σ
  /-- the first `n` decoded bytes -/
  decoded : σ → Nat → List UInt8
  /-- the end of the decoded bytes written so far -/
  written : σ → Nat

/-! ## Stores -/

/-- `bytes[p]`. -/
def readAt (bytes : List UInt8) (p : Nat) : Run UInt8 :=
  match bytes[p]? with
  | some b => .ok b
  | none => .error .outOfBounds

/-- `bytes[p] = b`. -/
def writeAt (bytes : List UInt8) (p : Nat) (b : UInt8) : Run (List UInt8) :=
  if p < bytes.length then .ok (bytes.set p b) else .error .outOfBounds

/-- One buffer for everything. -/
structure InPlace where
  mem : List UInt8
  written : Nat
  deriving DecidableEq

/-- Before anything is written. -/
def InPlace.of (text : List UInt8) : InPlace := ⟨text, 0⟩

instance : TextStore InPlace where
  size s := s.mem.length
  read s p := readAt s.mem p
  terminate s p := (writeAt s.mem p 0).map fun mem => { s with mem }
  emit s q b := (writeAt s.mem q b).map fun mem => ⟨mem, max s.written (q + 1)⟩
  decoded s n := s.mem.take n
  written s := s.written

/-- The text, the line ends in it that were replaced by a NUL, and a second buffer of the same size
    for the decoded bytes. -/
structure Apart where
  text : List UInt8
  ends : List Nat
  out : List UInt8
  written : Nat
  out_length : out.length = text.length
  deriving DecidableEq

/-- Before anything is written; the second buffer is as long as the text. -/
def Apart.of (text : List UInt8) : Apart :=
  ⟨text, [], List.replicate text.length 0, 0, List.length_replicate⟩

/-- A replaced line end reads as NUL, everything else as in the text. -/
def Apart.read (s : Apart) (p : Nat) : Run UInt8 :=
  if p ∈ s.ends ∧ p < s.text.length then .ok 0 else readAt s.text p

instance : TextStore Apart where
  size s := s.text.length
  read s p := s.read p
  terminate s p :=
    if p < s.text.length then .ok { s with ends := p :: s.ends } else .error .outOfBounds
  emit s q b :=
    if q < s.out.length then .ok { s with
      out := s.out.set q b
      written := max s.written (q + 1)
      out_length := by rw [List.length_set, s.out_length] }
    else .error .outOfBounds
  decoded s n := s.out.take n
  written s := s.written

/-- The text as it was, line ends included, and a buffer for the decoded bytes. -/
structure Untouched where
  text : List UInt8
  out : List UInt8
  written : Nat
  deriving DecidableEq

/-- Before anything is written. -/
def Untouched.of (text : List UInt8) : Untouched := ⟨text, List.replicate text.length 0, 0⟩

instance : TextStore Untouched where
  size s := s.text.length
  read s p := readAt s.text p
  -- the byte stays what it is
  terminate s p := if p < s.text.length then .ok s else .error .outOfBounds
  emit s q b := (writeAt s.out q b).map fun out => { s with out, written := max s.written (q + 1) }
  decoded s n := s.out.take n
  written s := s.written

/-! ## Laws

  The laws are about an operation each, so that a run is followed without knowing the store it runs
  on. -/

open TextStore

variable {σ : Type} [TextStore σ]

/-- What a NUL at `p` changes. -/
structure Terminated (s : σ) (p : Nat) (s' : σ) : Prop where
  size_eq : size s' = size s
  nul : read s' p = .ok 0
  other : ∀ q, q ≠ p → read s' q = read s q
  decoded_eq : ∀ n, n ≤ p → decoded s' n = decoded s n
  written_eq : written s' = written s

/-- What a decoded byte at `q` changes. -/
structure Emitted (s : σ) (q : Nat) (b : UInt8) (s' : σ) : Prop where
  size_eq : size s' = size s
  later : ∀ p, q < p → read s' p = read s p
  decoded_succ : decoded s' (q + 1) = decoded s q ++ [b]
  written_eq : written s' = max (written s) (q + 1)

/-- What a proof needs of a store. -/
class LawfulTextStore (σ : Type) [TextStore σ] : Prop where
  read_ge : ∀ (s : σ) (p : Nat), size s ≤ p → read s p = .error .outOfBounds
  terminate_lt : ∀ (s : σ) (p : Nat), p < size s → ∃ s', terminate s p = .ok s' ∧ Terminated s p s'
  emit_lt : ∀ (s : σ) (q : Nat) (b : UInt8), q < size s → ∃ s', emit s q b = .ok s' ∧
    Emitted s q b s'
  decoded_length : ∀ (s : σ) (n : Nat), n ≤ size s → (decoded s n).length = n
  decoded_take : ∀ (s : σ) (m n : Nat), m ≤ n → (decoded s n).take m = decoded s m

/-- A read inside the text. -/
theorem readAt_lt {bytes : List UInt8} {p : Nat} (h : p < bytes.length) :
    readAt bytes p = .ok bytes[p] := by
  rw [readAt, List.getElem?_eq_getElem h]

/-- A read behind the text is a fault. -/
theorem readAt_ge {bytes : List UInt8} {p : Nat} (h : bytes.length ≤ p) :
    readAt bytes p = .error .outOfBounds := by
  rw [readAt, List.getElem?_eq_none h]

/-- A write inside the text. -/
theorem writeAt_lt {bytes : List UInt8} {p : Nat} (h : p < bytes.length) (b : UInt8) :
    writeAt bytes p b = .ok (bytes.set p b) := if_pos h

/-- A write is seen at its own place only. -/
theorem readAt_set_ne {bytes : List UInt8} {p q : Nat} (h : q ≠ p) (b : UInt8) :
    readAt (bytes.set p b) q = readAt bytes q := by
  rw [readAt, readAt, List.getElem?_set_ne h.symm]

/-- A write behind the front leaves the front. -/
theorem take_set {bytes : List UInt8} {n q : Nat} (h : n ≤ q) (b : UInt8) :
    (bytes.set q b).take n = bytes.take n := by
  rw [List.take_set, List.set_eq_of_length_le (by rw [List.length_take]; omega)]

/-- A write right behind the front is appended to it. -/
theorem take_succ_set {bytes : List UInt8} {q : Nat} (h : q < bytes.length) (b : UInt8) :
    (bytes.set q b).take (q + 1) = bytes.take q ++ [b] := by
  rw [List.take_add_one, take_set (Nat.le_refl q), List.getElem?_set_self h]
  rfl

instance : LawfulTextStore InPlace where
  read_ge s p h := readAt_ge h
  terminate_lt s p h := by
    refine ⟨⟨s.mem.set p 0, s.written⟩, ?_, ?_⟩
    · show (writeAt s.mem p 0).map _ = _
      rw [writeAt_lt h]; rfl
    · exact {
        size_eq := List.length_set ..
        nul := by
          show readAt (s.mem.set p 0) p = _
          rw [readAt_lt (by rw [List.length_set]; exact h), List.getElem_set_self]
        other := fun q hq => readAt_set_ne hq 0
        decoded_eq := fun n hn => take_set hn 0
        written_eq := rfl }
  emit_lt s q b h := by
    refine ⟨⟨s.mem.set q b, max s.written (q + 1)⟩, ?_, ?_⟩
    · show (writeAt s.mem q b).map _ = _
      rw [writeAt_lt h]; rfl
    · exact {
        size_eq := List.length_set ..
        later := fun p hp => readAt_set_ne (by omega) b
        decoded_succ := take_succ_set h b
        written_eq := rfl }
  decoded_length s n h := List.length_take_of_le h
  decoded_take s m n h := by
    show (s.mem.take n).take m = _
    rw [List.take_take, Nat.min_eq_left h]
    rfl

instance : LawfulTextStore Apart where
  read_ge s p h := by
    show s.read p = _
    rw [Apart.read, if_neg fun hc => absurd hc.2 (Nat.not_lt.mpr h), readAt_ge h]
  terminate_lt s p h := by
    refine ⟨{ s with ends := p :: s.ends }, if_pos h, ?_⟩
    exact {
      size_eq := rfl
      nul := if_pos ⟨List.mem_cons_self .., h⟩
      other := fun q hq => by
        show Apart.read _ q = s.read q
        simp only [Apart.read, List.mem_cons, hq, false_or]
      decoded_eq := fun _ _ => rfl
      written_eq := rfl }
  emit_lt s q b h := by
    have hq : q < s.out.length := s.out_length ▸ h
    refine ⟨_, if_pos hq, ?_⟩
    exact {
      size_eq := rfl
      later := fun _ _ => rfl
      decoded_succ := take_succ_set hq b
      written_eq := rfl }
  decoded_length s n h := List.length_take_of_le (s.out_length ▸ h)
  decoded_take s m n h := by
    show (s.out.take n).take m = _
    rw [List.take_take, Nat.min_eq_left h]
    rfl

end StevenProgram
