/-
  The memory the program works on: `mxDef.h`'s `chunk_t`, fixed-size arrays, and what can go wrong.

  C++ code that reads or writes past an object, follows NULL or never leaves a loop has no result;
  the model says which of these happened with a `Fault`, and a function that may do so returns `Run
  α = Except Fault α`.  `Chunk` is the contents a `chunk_t` argument denotes (its `len` is a
  `u32_t`, so the length bound is part of the type), and `Mem n` an array of exactly `n` bytes,
  which `memcpy` either keeps at `n` bytes or refuses.

  A loop of the source is a recursion on fuel, and `Fault.diverged` its end: a theorem that a
  function returns is therefore one that the fuel it is given suffices.
-/
import Mathlib.Algebra.Group.Nat.Defs
import StevenProgram.Lib.Bytes

namespace StevenProgram

/-- Why a run of the source has no result. -/
inductive Fault where
  /-- a read or a write outside the object it is made through -/
  | outOfBounds
  /-- an access through NULL -/
  | nullPtr
  /-- a loop that used up the bound the model gives it -/
  | diverged
  /-- an integer operation that leaves the range of its type, where the model follows it no
      further -/
  | wrapped
  /-- a `delete` of what has been deleted -/
  | doubleFree
  deriving DecidableEq, Repr

/-- A result, or why there is none. -/
abbrev Run (α : Type) : Type := Except Fault α

/-- Two runs one after the other succeed when both do. -/
theorem Run.bind_ok {α β : Type} {x : Run α} {f : α → Run β} {b : β} :
    (x >>= f) = .ok b ↔ ∃ a, x = .ok a ∧ f a = .ok b := by
  cases x with
  | error e => exact ⟨fun h => (nomatch h), fun ⟨_, h, _⟩ => (nomatch h)⟩
  | ok a => exact ⟨fun h => ⟨a, rfl, h⟩, fun ⟨_, h, hf⟩ => by cases h; exact hf⟩

/-- A run behind one that succeeded. -/
@[simp] theorem Run.ok_bind {α β : Type} (a : α) (f : α → Run β) :
    ((Except.ok a : Run α) >>= f) = f a := rfl

/-- No fault of one kind in either part. -/
theorem Run.bind_ne {α β : Type} {x : Run α} {f : α → Run β} {e : Fault} (hx : x ≠ .error e)
    (hf : ∀ a, x = .ok a → f a ≠ .error e) : (x >>= f) ≠ .error e := by
  cases x with
  | error e' =>
    intro h
    exact hx (congrArg Except.error (Except.error.inj h))
  | ok a => exact hf a rfl

/-- `*p` for a pointer that may be NULL. -/
def deref {α : Type} : Option α → Run α
  | none => .error .nullPtr
  | some a => .ok a

/-- The integer of `n` bytes at `p` in a block, in the host's byte order. -/
def readLe (block : List UInt8) (p n : Nat) : Run Nat :=
  if p + n ≤ block.length then .ok (Bytes.leAt block p n) else .error .outOfBounds

/-- A field of what stands at `pos`. -/
theorem readLe_at {block s : List UInt8} {pos : Nat} (hs : block.drop pos = s) {k n : Nat}
    (hn : 0 < n)
    (hk : k + n ≤ s.length) : readLe block (pos + k) n = .ok (Bytes.leAt s k n) := by
  have hlen : s.length = block.length - pos := by rw [← hs, List.length_drop]
  rw [readLe, if_pos (by omega), ← hs, Bytes.leAt_drop]

/-- A read that succeeds lies in the block and gives the little-endian value there. -/
theorem readLe_ok {block : List UInt8} {p n v : Nat} (h : readLe block p n = .ok v) :
    p + n ≤ block.length ∧ Bytes.leAt block p n = v := by
  unfold readLe at h
  split at h
  · next hle => exact ⟨hle, Except.ok.inj h⟩
  · cases h

/-- A read is never endless. -/
theorem readLe_ne_diverged (block : List UInt8) (p n : Nat) :
    readLe block p n ≠ .error .diverged := by
  intro h
  unfold readLe at h
  split at h <;> cases h

/-- `chunk_t`: the `len` bytes at `ptr`, with `len` a `u32_t`. -/
structure Chunk where
  bytes : List UInt8
  len_lt : bytes.length < 2 ^ 32
  deriving DecidableEq

namespace Chunk

/-- `len`. -/
def len (c : Chunk) : Nat := c.bytes.length

/-- `{NULL, 0}`. -/
def empty : Chunk := ⟨[], by decide⟩

end Chunk

/-- An array of `n` bytes. -/
structure Mem (n : Nat) where
  bytes : List UInt8
  size : bytes.length = n
  deriving DecidableEq

namespace Mem

variable {n : Nat}

/-- `memset(p, v, n)`. -/
def fill (n : Nat) (v : UInt8) : Mem n := ⟨List.replicate n v, List.length_replicate⟩

/-- `memcpy(&dst[off], src, src.length)`. -/
def memcpy (dst : Mem n) (off : Nat) (src : List UInt8) : Run (Mem n) :=
  if h : off + src.length ≤ n then
    .ok ⟨dst.bytes.take off ++ src ++ dst.bytes.drop (off + src.length), by
      have := dst.size
      simp only [List.length_append, List.length_take, List.length_drop]; omega⟩
  else .error .outOfBounds

/-- `{p, len}`: the first `len` bytes as a `chunk_t`. -/
def chunk (m : Mem n) (len : Nat) (hn : n < 2 ^ 32) : Chunk :=
  ⟨m.bytes.take len, by rw [List.length_take, m.size]; omega⟩

/-- A chunk shows the front of the memory. -/
@[simp] theorem chunk_bytes (m : Mem n) (len : Nat) (hn : n < 2 ^ 32) :
    (m.chunk len hn).bytes = m.bytes.take len := rfl

/-- `for (i = 0; i < len; i++) p[i] = p[i] ^ v;` -/
def xorFront (m : Mem n) (len : Nat) (v : UInt8) : Mem n :=
  ⟨(m.bytes.take len).map (· ^^^ v) ++ m.bytes.drop len, by
    have := m.size
    simp only [List.length_append, List.length_map, List.length_take, List.length_drop]; omega⟩

/-- The front of a memory after it was xored. -/
theorem take_xorFront (m : Mem n) {len : Nat} (h : len ≤ n) (v : UInt8) :
    (m.xorFront len v).bytes.take len = (m.bytes.take len).map (· ^^^ v) := by
  have hl : ((m.bytes.take len).map (· ^^^ v)).length = len := by
    rw [List.length_map, List.length_take, m.size]; omega
  rw [xorFront, List.take_append_of_le_length (by omega), List.take_of_length_le (by omega)]

/-- A copy that fits replaces the bytes it is copied over. -/
theorem memcpy_ok (dst : Mem n) (off : Nat) (src : List UInt8) (h : off + src.length ≤ n) :
    ∃ m, dst.memcpy off src = .ok m ∧
      m.bytes = dst.bytes.take off ++ src ++ dst.bytes.drop (off + src.length) := by
  rw [memcpy, dif_pos h]; exact ⟨_, rfl, rfl⟩

/-- A copy that does not fit is a fault. -/
theorem memcpy_fault {dst : Mem n} {off : Nat} {src : List UInt8} (h : n < off + src.length) :
    dst.memcpy off src = .error .outOfBounds := dif_neg (by omega)

/-- What lies in front of the written range stays. -/
theorem take_memcpy {dst m : Mem n} {off : Nat} {src : List UInt8}
    (h : dst.memcpy off src = .ok m) :
    m.bytes.take (off + src.length) = dst.bytes.take off ++ src := by
  have hle : off + src.length ≤ n := by
    rcases Nat.lt_or_ge n (off + src.length) with hlt | hge
    · rw [memcpy_fault hlt] at h; nomatch h
    · exact hge
  obtain ⟨m', hm', hb⟩ := memcpy_ok dst _ _ hle
  obtain rfl : m' = m := by rw [hm'] at h; injection h
  have hs := dst.size
  rw [hb, List.take_append_of_le_length
    (by simp only [List.length_append, List.length_take]; omega),
    List.take_of_length_le (by simp only [List.length_append, List.length_take]; omega)]

end Mem

end StevenProgram
