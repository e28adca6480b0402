/-
  Folding a byte stream BLOCK BY BLOCK — the Merkle–Damgård iteration without any hash in it.

  A compression step `f : σ → List α → σ` consumes blocks of `B` items.  `absorb B f s l` runs it
  over every COMPLETE block of `l`; `rest B l` is the unfinished tail (fewer than `B` items).  The
  two laws every streaming implementation rests on are

    * `absorb_append` — absorbing `l ++ m` is absorbing `l`, then absorbing `rest l ++ m`;
    * `rest_append`   — and the tail of `l ++ m` is the tail of `rest l ++ m`.

  So a state that keeps `(absorb … l, rest … l)` needs to know nothing else about `l`: appending `m`
  only ever looks at the buffered tail.  `blocks_add` / `blocks_append` are the counted forms behind
  them.  Generic in the item type and the state; no fact about a particular `f` is used.
-/

namespace BlockFold

universe u v

variable {σ : Type u} {α : Type v}

/-- Run `f` over the first `n` blocks of `B` items. -/
def blocks (B : Nat) (f : σ → List α → σ) : Nat → σ → List α → σ
  | 0, s, _ => s
  | n + 1, s, l => blocks B f n (f s (l.take B)) (l.drop B)

/-- Run `f` over every complete block. -/
def absorb (B : Nat) (f : σ → List α → σ) (s : σ) (l : List α) : σ :=
  blocks B f (l.length / B) s l

/-- The items after the last complete block. -/
def rest (B : Nat) (l : List α) : List α := l.drop (l.length / B * B)

section Laws

variable {B : Nat} (hB : 0 < B) (f : σ → List α → σ)

/-! ## Counted blocks -/

/-- Blocks in two goes. -/
theorem blocks_add : ∀ (m n : Nat) (s : σ) (l : List α),
    blocks B f (m + n) s l = blocks B f n (blocks B f m s l) (l.drop (m * B)) := by
  intro m
  induction m with
  | zero =>
    intro n s l
    simp [blocks]
  | succ m ih =>
    intro n s l
    rw [show m + 1 + n = (m + n) + 1 from by omega, blocks, blocks, ih, List.drop_drop,
      show B + m * B = (m + 1) * B from by rw [Nat.add_mul]; omega]

/-- Items behind the counted blocks do not matter. -/
theorem blocks_append : ∀ (n : Nat) (s : σ) (l m : List α), n * B ≤ l.length →
    blocks B f n s (l ++ m) = blocks B f n s l := by
  intro n
  induction n with
  | zero =>
    intro s l m _
    rfl
  | succ n ih =>
    intro s l m h
    have hB1 : B ≤ l.length := Nat.le_trans (by rw [Nat.add_mul]; omega) h
    rw [blocks, blocks, List.take_append_of_le_length hB1, List.drop_append_of_le_length hB1]
    apply ih
    rw [Nat.add_mul] at h
    rw [List.length_drop]
    omega

/-- The rest is shorter than a block. -/
theorem rest_length (l : List α) : (rest B l).length = l.length % B := by
  have := Nat.div_add_mod' l.length B
  rw [rest, List.length_drop]; omega

/-! ## Short inputs -/

/-- Less than a block is not absorbed. -/
theorem absorb_of_lt (s : σ) {l : List α} (h : l.length < B) : absorb B f s l = s := by
  rw [absorb, Nat.div_eq_of_lt h]; rfl

/-- But kept. -/
theorem rest_of_lt {l : List α} (h : l.length < B) : rest B l = l := by
  rw [rest, Nat.div_eq_of_lt h, Nat.zero_mul, List.drop_zero]

/-- Whole blocks leave no rest. -/
theorem rest_of_whole {l : List α} (h : l.length % B = 0) : rest B l = [] :=
  List.length_eq_zero_iff.mp (by rw [rest_length, h])

/-- Two functions that agree on whole blocks. -/
theorem absorb_congr {f g : σ → List α → σ} (h : ∀ s b, b.length = B → f s b = g s b) (s : σ)
    (l : List α) :
    absorb B f s l = absorb B g s l := by
  have hblocks :
    ∀ (n : Nat) (s : σ) (l : List α), n * B ≤ l.length → blocks B f n s l = blocks B g n s l := by
    intro n
    induction n with
    | zero => intro s l _; rfl
    | succ n ih =>
      intro s l hn
      rw [Nat.add_mul, Nat.one_mul] at hn
      rw [blocks, blocks, h _ _ (List.length_take_of_le (by omega)),
        ih _ _ (by rw [List.length_drop]; omega)]
  exact hblocks _ s l (Nat.div_mul_le_self _ _)

/-! ## The two laws of streaming -/

include hB

/-- Blocks of two pieces: those of the first, and those its rest makes with the second. -/
theorem append_div (l m : List α) :
    (l ++ m).length / B = l.length / B + (rest B l ++ m).length / B := by
  rw [List.length_append, List.length_append, rest_length]
  have := Nat.div_add_mod' l.length B
  rw [show l.length + m.length = l.length % B + m.length + l.length / B * B from by omega,
    Nat.add_mul_div_right _ _ hB]
  omega

/-- **Absorbing is a monoid action up to the buffered tail.** -/
theorem absorb_append (s : σ) (l m : List α) :
    absorb B f s (l ++ m) = absorb B f (absorb B f s l) (rest B l ++ m) := by
  have hle : l.length / B * B ≤ l.length := Nat.div_mul_le_self _ _
  rw [absorb, append_div hB, blocks_add, blocks_append f _ _ _ _ hle,
    List.drop_append_of_le_length hle]
  rfl

/-- The rest of two pieces is the rest of what was kept and the second. -/
theorem rest_append (l m : List α) : rest B (l ++ m) = rest B (rest B l ++ m) := by
  have hle : l.length / B * B ≤ l.length := Nat.div_mul_le_self _ _
  rw [rest, append_div hB, Nat.add_mul, ← List.drop_drop, List.drop_append_of_le_length hle]
  rfl

/-- Behind a whole number of blocks the stream starts afresh. -/
theorem absorb_append_of_whole (s : σ) {l : List α} (m : List α) (h : l.length % B = 0) :
    absorb B f s (l ++ m) = absorb B f (absorb B f s l) m := by
  rw [absorb_append hB, rest_of_whole h, List.nil_append]

/-- After whole blocks only the second piece matters. -/
theorem rest_append_of_whole {l : List α} (m : List α) (h : l.length % B = 0) :
    rest B (l ++ m) = rest B m := by
  rw [rest_append hB, rest_of_whole h, List.nil_append]

/-- One complete block is one step of `f`. -/
theorem absorb_one (s : σ) {b : List α} (h : b.length = B) : absorb B f s b = f s b := by
  rw [absorb, h, Nat.div_self hB, blocks, List.take_of_length_le (by omega)]
  rfl

end Laws

end BlockFold
