/-
  C's string functions on a memory that is only partly there.

  `rd p` is the byte at `p`, or what happens when there is none.  A function reads what its C
  counterpart has to read and not a byte more: `memchr` stops at the byte it looks for, `strncmp` at
  the first difference, `strstr` at a match or a NUL.

  The memory is a function into a monad of failures, so a specification says two things at once:
  which value comes back, and that no byte was read that is not there.  The third case, a byte that
  is missing before the function is done, has a lemma of its own (`strncmp_error`).

  1. **Functions** — `memchr`, `strncmp`, `strstr`.
  2. **Lists** — `cut` and `search`, what they compute of the bytes in front of them.
  3. **Specs** — `memchr_eq`, `strncmp_eq`, `strstr_nul`, where `Reads rd p bs` says that `rd`
     delivers `bs` from `p` on.
-/

namespace CString

variable {ε : Type}

/-! ## Functions

  Each recurses on what its counterpart counts: a length, or a fuel where the end is a NUL. -/

/-- `memchr(p, c, n)`. -/
def memchr (rd : Nat → Except ε UInt8) (c : UInt8) : Nat → Nat → Except ε (Option Nat)
  | _, 0 => .ok none
  | p, n + 1 => do
      let b ← rd p
      if b = c then .ok (some p) else memchr rd c (p + 1) n

/-- `strncmp(p, s, strlen(s)) == 0`. -/
def strncmp (rd : Nat → Except ε UInt8) : List UInt8 → Nat → Except ε Bool
  | [], _ => .ok true
  | c :: cs, p => do
      let b ← rd p
      if b = c then strncmp rd cs (p + 1) else .ok false

/-- `strstr(p, s)`, in a memory that ends at most `n` bytes behind `p`. -/
def strstr (rd : Nat → Except ε UInt8) (s : List UInt8) : Nat → Nat → Except ε (Option Nat)
  | 0, p => do
      let _ ← rd p
      .ok none
  | n + 1, p => do
      let eq ← strncmp rd s p
      if eq then .ok (some p)
      else do
        let b ← rd p
        if b = 0 then .ok none else strstr rd s n (p + 1)

/-! ## Lists

  The same questions about bytes that are known.  `cut` divides them at the first that satisfies a
  predicate, `search` at the first occurrence of a string. -/

/-- What stands before the first stop, and what behind it. -/
def cut (stop : UInt8 → Bool) : List UInt8 → Option (List UInt8 × List UInt8)
  | [] => none
  | b :: bs => if stop b then some ([], bs) else (cut stop bs).map fun t => (b :: t.1, t.2)

/-- How a search for a string ends. -/
inductive Search where
  /-- behind so many bytes -/
  | found (n : Nat)
  /-- at a NUL -/
  | stopped
  /-- with the bytes -/
  | ranOut
  deriving DecidableEq

def Search.later : Search → Search
  | .found n => .found (n + 1)
  | r => r

/-- Where the first occurrence begins, unless a NUL comes first or the bytes run out. -/
def search (s : List UInt8) : List UInt8 → Search
  | [] => .ranOut
  | b :: bs => if s.isPrefixOf (b :: bs) then .found 0 else if b = 0 then .stopped else
      (search s bs).later

/-- A cut is at the first byte that stops it. -/
theorem cut_some {stop : UInt8 → Bool} : ∀ {bs t rest : List UInt8}, cut stop bs = some (t, rest) →
    ∃ b, stop b = true ∧ bs = t ++ b :: rest ∧ ∀ x ∈ t, stop x = false := by
  intro bs
  induction bs with
  | nil =>
    intro t rest h
    cases h
  | cons c cs ih =>
    intro t rest h
    rw [cut] at h
    split at h
    · next hc =>
      cases h
      exact ⟨c, hc, rfl, fun x hx => nomatch hx⟩
    · next hc =>
      obtain ⟨⟨t', r'⟩, hcut, he⟩ := Option.map_eq_some_iff.mp h
      cases he
      obtain ⟨b, hb, rfl, ht⟩ := ih hcut
      refine ⟨b, hb, rfl, fun x hx => ?_⟩
      rcases List.mem_cons.mp hx with rfl | hx
      · simpa using hc
      · exact ht x hx

/-- There is none if no byte does. -/
theorem cut_none {stop : UInt8 → Bool} : ∀ {bs : List UInt8}, cut stop bs = none ↔ ∀ x ∈ bs,
    stop x = false := by
  intro bs
  induction bs with
  | nil => simp [cut]
  | cons c cs ih =>
    rw [cut]
    split
    · next hc => simp [hc]
    · next hc => simpa [ih] using fun _ => by simpa using hc

/-- The byte itself belongs to neither part. -/
theorem cut_length {stop : UInt8 → Bool} {bs t rest : List UInt8}
    (h : cut stop bs = some (t, rest)) :
    bs.length = t.length + rest.length + 1 := by
  obtain ⟨b, _, rfl, _⟩ := cut_some h
  simp only [List.length_append, List.length_cons]
  omega

/-- Of two stops the first counts. -/
theorem cut_or (f g : UInt8 → Bool) : ∀ bs : List UInt8, cut (fun b => f b || g b) bs =
    match cut f bs, cut g bs with
    | r, none => r
    | some t, some u => if t.1.length < u.1.length then some t else some u
    | none, some u => some u := by
  intro bs
  induction bs with
  | nil => rfl
  | cons b bs ih =>
    rw [cut, cut, cut, ih]
    cases hf : f b <;> cases hg : g b <;> cases cut f bs <;> cases cut g bs <;> simp
    split <;> rfl

/-- The bytes run out exactly when they hold neither the string nor a NUL. -/
theorem search_ranOut {s : List UInt8} (hs : s ≠ []) : ∀ {bs : List UInt8},
    search s bs = .ranOut ↔ ¬ s <:+: bs ∧ 0 ∉ bs := by
  intro bs
  induction bs with
  | nil => simp [search, hs]
  | cons b bs ih =>
    have hlater : (search s bs).later = .ranOut ↔ search s bs = .ranOut := by
      cases search s bs <;> simp [Search.later]
    rw [search, List.infix_cons_iff]
    split
    · next hp => simp [List.isPrefixOf_iff_prefix.mp hp]
    · next hp =>
      have hp' : ¬ s <+: b :: bs := fun h => hp (List.isPrefixOf_iff_prefix.mpr h)
      split
      · next hb => simp [hb]
      · next hb => rw [hlater, ih]; simp [hp', Ne.symm hb]

/-- A string in front of which no NUL stands is found. -/
theorem search_found {s : List UInt8} (hs : s ≠ []) (post : List UInt8) :
    ∀ {pre : List UInt8}, 0 ∉ pre →
    ∃ n, search s (pre ++ (s ++ post)) = .found n := by
  intro pre
  induction pre with
  | nil =>
    intro _
    cases s with
    | nil => exact absurd rfl hs
    | cons c cs =>
      refine ⟨0, ?_⟩
      rw [List.nil_append, List.cons_append, search, if_pos]
      exact List.isPrefixOf_iff_prefix.mpr ⟨post, rfl⟩
  | cons b bs ih =>
    intro h
    obtain ⟨n, hn⟩ := ih fun hmem => h (List.mem_cons_of_mem b hmem)
    rw [List.cons_append, search]
    split
    · exact ⟨0, rfl⟩
    · have hb : b ≠ 0 := fun hb => h (by rw [hb]; exact List.mem_cons_self ..)
      rw [if_neg hb, hn]
      exact ⟨n + 1, rfl⟩

/-- A byte behind the others that is not in the string does not help to find it. -/
theorem search_concat {s : List UInt8} {c : UInt8} (hs : s ≠ []) (hc : c ∉ s) :
    ∀ {bs : List UInt8} {n : Nat},
    search s (bs ++ [c]) = .found n → search s bs = .found n := by
  have hlater : ∀ {r : Search} {n : Nat}, r.later = .found n → ∃ m, r = .found m ∧ n = m + 1 := by
    intro r n h
    cases r with
    | found m => cases h; exact ⟨m, rfl, rfl⟩
    | stopped => cases h
    | ranOut => cases h
  -- an occurrence cannot use the last byte, which is none of `s`
  have hconcat : ∀ {xs : List UInt8}, s <+: xs ++ [c] → s <+: xs := by
    intro xs h
    rcases List.prefix_concat_iff.mp h with rfl | h
    · exact absurd (List.mem_append_right xs (List.mem_singleton_self c)) hc
    · exact h
  intro bs
  induction bs with
  | nil =>
    intro n h
    rw [List.nil_append, search] at h
    have hnot : ¬ s.isPrefixOf [c] = true := fun hp =>
      hs (List.prefix_nil.mp (hconcat (show s <+: [] ++ [c] from List.isPrefixOf_iff_prefix.mp hp)))
    rw [if_neg hnot] at h
    split at h
    · cases h
    · cases h
  | cons b bs ih =>
    intro n h
    rw [List.cons_append, search] at h
    rw [search]
    by_cases hp : s.isPrefixOf (b :: bs) = true
    · have hp' : s.isPrefixOf (b :: (bs ++ [c])) = true :=
        List.isPrefixOf_iff_prefix.mpr
          ((List.isPrefixOf_iff_prefix.mp hp).trans (List.prefix_append ..))
      rw [if_pos hp'] at h
      rw [if_pos hp, h]
    · have hp' : ¬ s.isPrefixOf (b :: (bs ++ [c])) = true := fun h' =>
        hp (List.isPrefixOf_iff_prefix.mpr
          (hconcat (show s <+: b :: bs ++ [c] from List.isPrefixOf_iff_prefix.mp h')))
      rw [if_neg hp'] at h
      rw [if_neg hp]
      split at h
      · cases h
      · next hb =>
        obtain ⟨m, hm, rfl⟩ := hlater h
        rw [if_neg hb, ih hm]
        rfl

/-! ## Specs

  From the memory to the list.  `Reads` asks for the bytes in front only; what is behind them may be
  missing. -/

/-- `rd` delivers `bs` from `p` on. -/
def Reads (rd : Nat → Except ε UInt8) : Nat → List UInt8 → Prop
  | _, [] => True
  | p, b :: bs => rd p = .ok b ∧ Reads rd (p + 1) bs

variable {rd rd' : Nat → Except ε UInt8}

/-- Reading two pieces is reading the one and then the other. -/
theorem Reads.append : ∀ {p : Nat} {xs ys : List UInt8},
    Reads rd p (xs ++ ys) ↔ Reads rd p xs ∧ Reads rd (p + xs.length) ys := by
  intro p xs
  induction xs generalizing p with
  | nil => intro ys; simp [Reads]
  | cons x xs ih =>
    intro ys
    simp only [List.cons_append, Reads, ih, List.length_cons, and_assoc]
    rw [show p + 1 + xs.length = p + (xs.length + 1) from by omega]

/-- Only the bytes it is about matter. -/
theorem Reads.congr :
    ∀ {p : Nat} {bs : List UInt8}, (∀ q, p ≤ q → q < p + bs.length → rd' q = rd q) →
    Reads rd p bs → Reads rd' p bs := by
  intro p bs
  induction bs generalizing p with
  | nil => intro _ _; trivial
  | cons b bs ih =>
    rintro h ⟨hb, hbs⟩
    have hp := h p (Nat.le_refl p) (by simp)
    refine ⟨hp.trans hb, ih (fun q hq hlt => ?_) hbs⟩
    exact h q (by omega) (by simp only [List.length_cons]; omega)

/-- **`memchr`** finds the first such byte in memory that can be read. -/
theorem memchr_eq (c : UInt8) : ∀ {p : Nat} {bs : List UInt8}, Reads rd p bs →
    memchr rd c p bs.length = .ok ((cut (· == c) bs).map fun t => p + t.1.length) := by
  intro p bs
  induction bs generalizing p with
  | nil => intro _; rfl
  | cons b bs ih =>
    rintro ⟨hb, hbs⟩
    rw [List.length_cons, memchr, hb, cut]
    show (if b = c then _ else _) = _
    by_cases hbc : b = c
    · simp [hbc]
    · rw [if_neg hbc, if_neg (by simpa using hbc), ih hbs, Option.map_map]
      congr 2
      funext t
      simp only [Function.comp_apply, List.length_cons]
      omega

/-- **`strncmp`** with a constant says whether the memory begins with it. -/
theorem strncmp_eq : ∀ {s : List UInt8} {p : Nat} {bs : List UInt8}, Reads rd p bs →
    s.length ≤ bs.length →
    strncmp rd s p = .ok (s.isPrefixOf bs) := by
  intro s
  induction s with
  | nil => intro p bs _ _; simp [strncmp]
  | cons c cs ih =>
    intro p bs h hlen
    cases bs with
    | nil => cases hlen
    | cons b bs =>
      obtain ⟨hb, hbs⟩ := h
      rw [strncmp, hb, List.isPrefixOf_cons_cons]
      show (if b = c then _ else _) = _
      by_cases hbc : b = c
      · rw [if_pos hbc, ih hbs (Nat.le_of_succ_le_succ hlen)]
        simp [hbc]
      · rw [if_neg hbc]
        simp [Ne.symm hbc]

/-- A difference among the bytes that are there ends the comparison. -/
theorem strncmp_ne : ∀ {s : List UInt8} {p : Nat} {bs : List UInt8}, Reads rd p bs → ¬ s <+: bs →
    ¬ bs <+: s →
    strncmp rd s p = .ok false := by
  intro s
  induction s with
  | nil => intro p bs _ h _; exact absurd (List.nil_prefix ..) h
  | cons c cs ih =>
    intro p bs h hs hbs
    cases bs with
    | nil => exact absurd (List.nil_prefix ..) hbs
    | cons b bs =>
      obtain ⟨hb, hr⟩ := h
      rw [strncmp, hb]
      show (if b = c then _ else _) = _
      by_cases hbc : b = c
      · subst hbc
        rw [if_pos rfl]
        exact ih hr (fun h => hs (List.cons_prefix_cons.mpr ⟨rfl, h⟩))
          (fun h => hbs (List.cons_prefix_cons.mpr ⟨rfl, h⟩))
      · rw [if_neg hbc]

/-- A comparison that meets the end of the memory before a difference. -/
theorem strncmp_error {e : ε} : ∀ {s : List UInt8} {p : Nat} {bs : List UInt8}, Reads rd p bs →
    rd (p + bs.length) = .error e → bs <+: s → bs.length < s.length →
      strncmp rd s p = .error e := by
  intro s
  induction s with
  | nil => intro p bs _ _ _ h; cases h
  | cons c cs ih =>
    intro p bs h he hpre hlen
    cases bs with
    | nil => rw [strncmp, show rd p = .error e from he]; rfl
    | cons b bs =>
      obtain ⟨hb, hbs⟩ := h
      obtain ⟨rfl, htail⟩ := List.cons_prefix_cons.mp hpre
      rw [strncmp, hb]
      show (if b = b then _ else _) = _
      rw [if_pos rfl]
      refine ih hbs ?_ htail (Nat.lt_of_succ_lt_succ hlen)
      rw [show p + 1 + bs.length = p + (b :: bs).length from by simp only [List.length_cons]; omega]
      exact he

/-- A comparison of a string without NUL ends at a NUL. -/
theorem strncmp_nul :
    ∀ {s : List UInt8} {p : Nat} {bs : List UInt8}, Reads rd p (bs ++ [0]) → 0 ∉ s →
    strncmp rd s p = .ok (s.isPrefixOf bs) := by
  intro s p bs h hs
  by_cases hlen : s.length ≤ bs.length
  · exact strncmp_eq (Reads.append.mp h).1 hlen
  · have hne : ¬ s <+: bs := fun hp => hlen hp.length_le
    have hf : s.isPrefixOf bs = false := by
      rw [← Bool.not_eq_true, List.isPrefixOf_iff_prefix]; exact hne
    rw [hf]
    refine strncmp_ne h ?_ ?_
    · rintro ⟨t, ht⟩
      -- the prefix would have to be everything, NUL included
      have hl := congrArg List.length ht
      simp only [List.length_append, List.length_cons, List.length_nil] at hl
      obtain rfl : t = [] := List.eq_nil_of_length_eq_zero (by omega)
      rw [List.append_nil] at ht
      exact hs (ht ▸ List.mem_append_right bs (List.mem_singleton_self 0))
    · rintro ⟨t, ht⟩
      exact hs (ht ▸ List.mem_append_left t (List.mem_append_right bs (List.mem_singleton_self 0)))

/-- `strstr` on bytes that a NUL ends. -/
theorem strstr_nul {s : List UInt8} (hs : s ≠ []) (h0 : 0 ∉ s) :
    ∀ {n p : Nat} {bs : List UInt8}, bs.length ≤ n →
    Reads rd p (bs ++ [0]) → strstr rd s n p = .ok (match search s bs with
      | .found k => some (p + k)
      | _ => none) := by
  intro n
  induction n with
  | zero =>
    intro p bs hn h
    obtain rfl : bs = [] := List.eq_nil_of_length_eq_zero (by omega)
    rw [strstr, h.1]
    rfl
  | succ n ih =>
    intro p bs hn h
    rw [strstr, strncmp_nul h h0]
    show (if _ then _ else _) = _
    cases bs with
    | nil =>
      cases s with
      | nil => exact absurd rfl hs
      | cons c cs =>
        rw [if_neg (by simp), h.1]
        rfl
    | cons b bs =>
      obtain ⟨hb, hbs⟩ := h
      rw [search]
      split
      · rfl
      · rw [hb]
        show (if b = 0 then _ else _) = _
        split
        · rfl
        · rw [ih (Nat.le_of_succ_le_succ hn) hbs]
          cases search s bs <;> simp [Search.later]
          omega

/-- `strstr` on bytes behind which there is nothing. -/
theorem strstr_open {e : ε} {s : List UInt8} (hs : s ≠ []) (h0 : 0 ∉ s) :
    ∀ {n p : Nat} {bs : List UInt8}, bs.length ≤ n →
    Reads rd p bs → rd (p + bs.length) = .error e → strstr rd s n p = match search s bs with
      | .found k => .ok (some (p + k))
      | .stopped => .ok none
      | .ranOut => .error e := by
  intro n
  induction n with
  | zero =>
    intro p bs hn _ he
    obtain rfl : bs = [] := List.eq_nil_of_length_eq_zero (by omega)
    rw [strstr, show rd p = .error e from he]
    rfl
  | succ n ih =>
    intro p bs hn h he
    rw [strstr]
    cases bs with
    | nil =>
      have hlen : 0 < s.length := List.length_pos_iff.mpr hs
      rw [strncmp_error (show Reads rd p [] from h) he (List.nil_prefix ..) hlen]
      rfl
    | cons b bs =>
      have hb : rd p = .ok b := h.1
      have hbs : Reads rd (p + 1) bs := h.2
      have he' : rd (p + 1 + bs.length) = .error e := by
        rw [show p + 1 + bs.length = p + (b :: bs).length from by
          simp only [List.length_cons]; omega]
        exact he
      rw [search]
      by_cases hp : s <+: b :: bs
      · rw [strncmp_eq h hp.length_le, List.isPrefixOf_iff_prefix.mpr hp]
        rfl
      · rw [if_neg fun h => hp (List.isPrefixOf_iff_prefix.mp h)]
        by_cases hq : b :: bs <+: s
        · -- the bytes end inside the string: it is not among them, and neither is a NUL
          have hlt : (b :: bs).length < s.length :=
            Nat.lt_of_le_of_ne hq.length_le fun hlen => hp
              (hq.eq_of_length hlen ▸ List.prefix_refl _)
          have hout : search s (b :: bs) = .ranOut :=
            (search_ranOut hs).mpr ⟨fun hi => absurd hi.length_le (by omega),
              fun hm => h0 (hq.subset hm)⟩
          rw [search, if_neg fun h => hp (List.isPrefixOf_iff_prefix.mp h)] at hout
          rw [hout, strncmp_error h he hq hlt]
          rfl
        · rw [strncmp_ne h hp hq]
          show (do let b ← rd p; _) = _
          rw [hb]
          show (if b = 0 then _ else _) = _
          split
          · rfl
          · rw [ih (Nat.le_of_succ_le_succ hn) hbs he']
            cases search s bs <;> simp [Search.later]
            omega

end CString
