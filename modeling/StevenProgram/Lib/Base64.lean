/-
  Base 64 with padding, with the standard alphabet and with the one that is safe in URLs.

  Three bytes make four digits of six bits each; a last group of one or two bytes is filled up with
  `PAD`. The alphabets differ in their last two digits.

  1. **Groups** — the values `v0` … `v3` of a group, all below 64, and how the bytes come back from
     them.
  2. **Texts** — `encode`, its length and its digits.
  3. **Alphabets** — `Alphabet.encode`, digit by digit from `encode`.
  4. **Wrapping** — a cut at a multiple of four digits is a cut of the bytes (`encode_split`).
-/

namespace Base64

abbrev PAD : UInt8 := 61

/-- The digit of a six-bit value. -/
def digit (v : UInt8) : UInt8 :=
  if v < 26 then 65 + v
  else if v < 52 then 97 + (v - 26)
  else if v < 62 then 48 + (v - 52)
  else if v = 62 then 43
  else 47

/-! ## Groups

  Each group stands for itself, which is why a text can be cut between two of them. -/

def v0 (x : UInt8) : UInt8 := x >>> 2
def v1 (x y : UInt8) : UInt8 := (x &&& 3) <<< 4 ||| y >>> 4
def v2 (y z : UInt8) : UInt8 := (y &&& 15) <<< 2 ||| z >>> 6
def v3 (z : UInt8) : UInt8 := z &&& 63

/-- A fact about bytes is one about 256 numbers. -/
theorem forall_byte {p : UInt8 → Prop} (h : ∀ b : Fin 256, p (UInt8.ofFin b)) (b : UInt8) : p b :=
  h b.toFin

/-- Six bits stay six bits under `or`. -/
theorem or_lt_64 {a b : UInt8} (ha : a < 64) (hb : b < 64) : a ||| b < 64 := by
  rw [UInt8.lt_iff_toNat_lt, UInt8.toNat_or]
  exact Nat.or_lt_two_pow (n := 6) ha hb

/-- Each of the four values of a group has six bits: the first. -/
theorem v0_lt (x : UInt8) : v0 x < 64 := by
  revert x
  exact forall_byte (by decide +kernel)

/-- The second. -/
theorem v1_lt (x y : UInt8) : v1 x y < 64 := by
  have hx : (x &&& 3) <<< 4 < 64 := by
    revert x
    exact forall_byte (by decide +kernel)
  have hy : y >>> 4 < 64 := by
    revert y
    exact forall_byte (by decide +kernel)
  exact or_lt_64 hx hy

/-- The third. -/
theorem v2_lt (y z : UInt8) : v2 y z < 64 := by
  have hy : (y &&& 15) <<< 2 < 64 := by
    revert y
    exact forall_byte (by decide +kernel)
  have hz : z >>> 6 < 64 := by
    revert z
    exact forall_byte (by decide +kernel)
  exact or_lt_64 hy hz

/-- And the fourth. -/
theorem v3_lt (z : UInt8) : v3 z < 64 := by
  revert z
  exact forall_byte (by decide +kernel)

/-- The first byte of a group. -/
theorem join_first (x y : UInt8) : v0 x <<< 2 ||| v1 x y >>> 4 = x := by
  have hy : (y >>> 4) >>> 4 = 0 := by
    revert y
    exact forall_byte (by decide +kernel)
  have hx : (x >>> 2) <<< 2 ||| ((x &&& 3) <<< 4) >>> 4 = x := by
    revert x
    exact forall_byte (by decide +kernel)
  rw [v0, v1, UInt8.shiftRight_or, hy, UInt8.or_zero, hx]

/-- The second. -/
theorem join_second (x y z : UInt8) : v1 x y <<< 4 ||| v2 y z >>> 2 = y := by
  have hx : ((x &&& 3) <<< 4) <<< 4 = 0 := by
    revert x
    exact forall_byte (by decide +kernel)
  have hz : (z >>> 6) >>> 2 = 0 := by
    revert z
    exact forall_byte (by decide +kernel)
  have hy : (y >>> 4) <<< 4 ||| ((y &&& 15) <<< 2) >>> 2 = y := by
    revert y
    exact forall_byte (by decide +kernel)
  rw [v1, v2, UInt8.shiftRight_or, hz, UInt8.or_zero, UInt8.shiftLeft_or, hx, UInt8.zero_or, hy]

/-- The third. -/
theorem join_third (y z : UInt8) : v2 y z <<< 6 ||| v3 z = z := by
  have hy : ((y &&& 15) <<< 2) <<< 6 = 0 := by
    revert y
    exact forall_byte (by decide +kernel)
  have hz : (z >>> 6) <<< 6 ||| z &&& 63 = z := by
    revert z
    exact forall_byte (by decide +kernel)
  rw [v2, v3, UInt8.shiftLeft_or, hy, UInt8.zero_or, hz]

/-! ## Texts

  Four digits for every three bytes that have begun. -/

/-- Group after group, with the standard alphabet. -/
def encode : List UInt8 → List UInt8
  | x :: y :: z :: rest => digit (v0 x) :: digit (v1 x y) :: digit (v2 y z) :: digit
    (v3 z) :: encode rest
  | [x, y] => [digit (v0 x), digit (v1 x y), digit (v2 y 0), PAD]
  | [x] => [digit (v0 x), digit (v1 x 0), PAD, PAD]
  | [] => []

/-- A text is a group and a text, or the last group. -/
theorem group_induction {p : List UInt8 → Prop}
    (group : ∀ x y z rest, p rest → p (x :: y :: z :: rest))
    (two : ∀ x y, p [x, y]) (one : ∀ x, p [x]) (nil : p []) : ∀ d, p d
  | x :: y :: z :: rest => group x y z rest (group_induction group two one nil rest)
  | [x, y] => two x y
  | [x] => one x
  | [] => nil

/-- Four digits for every three bytes that are begun. -/
theorem encode_length (d : List UInt8) : (encode d).length = 4 * ((d.length + 2) / 3) := by
  induction d using group_induction with
  | group x y z rest ih =>
    simp only [encode, List.length_cons, ih]
    omega
  | two x y => simp only [encode, List.length_cons, List.length_nil]
  | one x => simp only [encode, List.length_cons, List.length_nil]
  | nil => rfl

/-- A byte of a text: a digit or padding. -/
def IsDigit (b : UInt8) : Prop := b = PAD ∨ ∃ v, v < 64 ∧ b = digit v

/-- A value of six bits has a digit. -/
theorem isDigit_digit {v : UInt8} (h : v < 64) : IsDigit (digit v) := .inr ⟨v, h, rfl⟩

/-- An encoding has nothing but digits and padding in it. -/
theorem isDigit_of_mem {d : List UInt8} : ∀ b ∈ encode d, IsDigit b := by
  induction d using group_induction with
  | group x y z rest ih =>
    intro b hb
    simp only [encode, List.mem_cons] at hb
    rcases hb with rfl | rfl | rfl | rfl | hb
    · exact isDigit_digit (v0_lt x)
    · exact isDigit_digit (v1_lt x y)
    · exact isDigit_digit (v2_lt y z)
    · exact isDigit_digit (v3_lt z)
    · exact ih b hb
  | two x y =>
    intro b hb
    simp only [encode, List.mem_cons, List.not_mem_nil, or_false] at hb
    rcases hb with rfl | rfl | rfl | rfl
    · exact isDigit_digit (v0_lt x)
    · exact isDigit_digit (v1_lt x y)
    · exact isDigit_digit (v2_lt y 0)
    · exact .inl rfl
  | one x =>
    intro b hb
    simp only [encode, List.mem_cons, List.not_mem_nil, or_false] at hb
    rcases hb with rfl | rfl | rfl | rfl
    · exact isDigit_digit (v0_lt x)
    · exact isDigit_digit (v1_lt x 0)
    · exact .inl rfl
    · exact .inl rfl
  | nil => intro b hb; cases hb

/-- Digits are letters, numbers, `+`, `/` and `=`. -/
theorem IsDigit.range {b : UInt8} (h : IsDigit b) : 43 ≤ b ∧ b ≠ 44 ∧ b ≠ 45 ∧ b ≠ 46 ∧ b ≠ 58 := by
  have hdigit : ∀ v : UInt8, v < 64 → 43 ≤ digit v ∧ digit v ≠ 44 ∧ digit v ≠ 45 ∧ digit v ≠ 46 ∧
    digit v ≠ 58 :=
    forall_byte (by decide +kernel)
  rcases h with rfl | ⟨v, hv, rfl⟩
  · decide
  · exact hdigit v hv

/-- Zeros are `A`s. -/
theorem encode_zeros (n : Nat) : encode (List.replicate (3 * n) 0) = List.replicate (4 * n) 65 := by
  induction n with
  | zero => rfl
  | succ n ih =>
    rw [show 3 * (n + 1) = 3 * n + 1 + 1 + 1 from rfl, show 4 * (n + 1) = 4 * n + 1 + 1 + 1 + 1
      from rfl]
    simp only [List.replicate_succ, encode, ih]
    rfl

/-! ## Alphabets

  An alphabet is a table of 64 digits, and encoding in it is encoding followed by the table. -/

/-- The two alphabets of RFC 4648. -/
inductive Alphabet where
  | standard
  | urlSafe
  deriving DecidableEq

/-- `-` for `+`, and `_` for `/`. -/
def urlDigit (b : UInt8) : UInt8 := if b = 43 then 45 else if b = 47 then 95 else b

/-- The text in an alphabet: digit by digit from the standard one. -/
def Alphabet.encode : Alphabet → List UInt8 → List UInt8
  | standard, d => Base64.encode d
  | urlSafe, d => (Base64.encode d).map urlDigit

/-- The alphabet does not matter to the length. -/
theorem Alphabet.encode_length (a : Alphabet) (d : List UInt8) :
    (a.encode d).length = (Base64.encode d).length := by
  cases a with
  | standard => rfl
  | urlSafe => exact List.length_map urlDigit

/-! ## Wrapping

  Lines of a length that is a multiple of four can be decoded one by one. -/

/-- Of the last four digits all or none are taken. -/
theorem encode_split_last {d l rest : List UInt8} (hd : (encode d).length = 4)
    (h : l ++ rest = encode d)
    (hl : 4 ∣ l.length) : ∃ d1 d2, d = d1 ++ d2 ∧ l = encode d1 ∧ rest = encode d2 := by
  have hlen := congrArg List.length h
  rw [List.length_append, hd] at hlen
  by_cases h0 : l.length = 0
  · obtain rfl := List.eq_nil_of_length_eq_zero h0
    exact ⟨[], d, rfl, rfl, h⟩
  · obtain rfl : rest = [] := List.eq_nil_of_length_eq_zero (by omega)
    exact ⟨d, [], (List.append_nil d).symm, by rw [← h, List.append_nil], rfl⟩

/-- The first digits, a multiple of four, encode the first bytes, and the others the rest. -/
theorem encode_split : ∀ {d l rest : List UInt8}, l ++ rest = encode d → 4 ∣ l.length →
    ∃ d1 d2, d = d1 ++ d2 ∧ l = encode d1 ∧ rest = encode d2 := by
  intro d
  induction d using group_induction with
  | group x y z d ih =>
    intro l rest h hl
    match l with
    | [] => exact ⟨[], x :: y :: z :: d, rfl, rfl, h⟩
    | a :: b :: c :: e :: l =>
      simp only [encode, List.cons_append, List.cons.injEq] at h
      obtain ⟨rfl, rfl, rfl, rfl, h⟩ := h
      simp only [List.length_cons] at hl
      obtain ⟨d1, d2, rfl, rfl, rfl⟩ := ih h (by omega)
      exact ⟨x :: y :: z :: d1, d2, rfl, rfl, rfl⟩
    | [_] | [_, _] | [_, _, _] => simp only [List.length_cons, List.length_nil] at hl; omega
  | two x y => exact encode_split_last rfl
  | one x => exact encode_split_last rfl
  | nil =>
    intro l rest h _
    obtain ⟨rfl, rfl⟩ := List.append_eq_nil_iff.mp h
    exact ⟨[], [], rfl, rfl, rfl⟩

end Base64
