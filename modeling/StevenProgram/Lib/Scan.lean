/-
  Loops with an early exit.

  A scan takes a list item by item; a turn works on the state, and says whether to go on; it may
  also fail.  `Passes` is the part of a list over which every turn goes on.  A scan ends in one of
  three ways (`scan_ends`): it passes the whole list, or it passes a part of it up to an item that
  stops it, or up to one on which the turn fails.  What is behind that item has no influence on the
  result.
-/

namespace Scan

variable {ε α σ : Type} {turn : Nat → α → σ → Except ε (Bool × σ)}

/-- The turns are numbered; the result says whether none has stopped the scan. -/
def scan (turn : Nat → α → σ → Except ε (Bool × σ)) : Nat → List α → σ → Except ε (Bool × σ)
  | _, [], s => .ok (true, s)
  | i, x :: xs, s => do
      let (go, s) ← turn i x s
      if go then scan turn (i + 1) xs s else .ok (false, s)

/-- Every turn over the list goes on. -/
inductive Passes (turn : Nat → α → σ → Except ε (Bool × σ)) : Nat → List α → σ → σ → Prop
  | nil (i : Nat) (s : σ) : Passes turn i [] s s
  | cons {i : Nat} {x : α} {xs : List α} {s s' s'' : σ} : turn i x s = .ok (true, s') →
      Passes turn (i + 1) xs s' s'' → Passes turn i (x :: xs) s s''

theorem turn_behind (i n : Nat) : i + (n + 1) = i + 1 + n := by omega

/-- How a scan from the turn `i` ends. -/
inductive Ends (turn : Nat → α → σ → Except ε (Bool × σ)) (i : Nat) (xs : List α) (s : σ) :
    Except ε (Bool × σ) → Prop
  | passed {s' : σ} : Passes turn i xs s s' → Ends turn i xs s (.ok (true, s'))
  | stopped {before after : List α} {x : α} {s' s'' : σ} :
    xs = before ++ x :: after → Passes turn i before s s' →
      turn (i + before.length) x s' = .ok (false, s'') → Ends turn i xs s (.ok (false, s''))
  | failed {before after : List α} {x : α} {s' : σ} {e : ε} :
    xs = before ++ x :: after → Passes turn i before s s' →
      turn (i + before.length) x s' = .error e → Ends turn i xs s (.error e)

/-- A scan goes on behind what it has passed. -/
theorem scan_append {i : Nat} {before : List α} {s s' : σ} (h : Passes turn i before s s')
    (rest : List α) :
    scan turn i (before ++ rest) s = scan turn (i + before.length) rest s' := by
  induction h with
  | nil => rfl
  | @cons i _ xs _ _ _ hx _ ih =>
    rw [List.cons_append, scan, hx, List.length_cons, turn_behind i xs.length]
    exact ih

/-- Until a turn stops it. -/
theorem scan_stopped {i : Nat} {before after : List α} {x : α} {s s' s'' : σ}
    (h : Passes turn i before s s')
    (hx : turn (i + before.length) x s' = .ok (false, s'')) :
    scan turn i (before ++ x :: after) s = .ok (false, s'') := by
  rw [scan_append h, scan, hx]
  rfl

/-- One turn more in front. -/
theorem Ends.cons {i : Nat} {x : α} {xs : List α} {s s' : σ} {r : Except ε (Bool × σ)}
    (hx : turn i x s = .ok (true, s')) (h : Ends turn (i + 1) xs s' r) :
    Ends turn i (x :: xs) s r := by
  cases h with
  | passed h => exact .passed (.cons hx h)
  | stopped hxs h hstop =>
    refine .stopped (congrArg (x :: ·) hxs) (.cons hx h) ?_
    rw [List.length_cons, turn_behind]
    exact hstop
  | failed hxs h hfail =>
    refine .failed (congrArg (x :: ·) hxs) (.cons hx h) ?_
    rw [List.length_cons, turn_behind]
    exact hfail

variable (turn) in
/-- **The three ways.** -/
theorem scan_ends (xs : List α) : ∀ (i : Nat) (s : σ), Ends turn i xs s (scan turn i xs s) := by
  induction xs with
  | nil =>
    intro i s
    exact .passed (.nil i s)
  | cons x xs ih =>
    intro i s
    unfold scan
    cases hx : turn i x s with
    | error e => exact .failed (show x :: xs = [] ++ x :: xs from rfl) (.nil i s) hx
    | ok r =>
      obtain ⟨go, s'⟩ := r
      cases go with
      | false => exact .stopped (show x :: xs = [] ++ x :: xs from rfl) (.nil i s) hx
      | true => exact (ih (i + 1) s').cons hx

end Scan
