/-
  Finite maps from keys to things that carry their key, listed in order.

  `SortedMap key` is a list of things with strictly increasing keys; the order is a field, so a map
  out of order cannot be built.  `find` looks a key up, `insert` keeps a thing that is there,
  `erase` and `replace` act on the thing with the key they are given.  It says what a container of
  unique keys is for, and nothing about how one is stored: a search tree, a skip list or a sorted
  array may represent it.

  1.  **The map** — the operations, each with the order as part of its value.
  2.  **Look-ups** (`find_insert`, `find_erase`, `find_replace`) — what is found after each
     operation, as a case split on the key.  A map is what its look-ups give (`ext_find`), so two
     maps are compared through `find` alone, by whatever operations they came about.
  3.  **A list split at a key** (`insert_split`, `erase_split`, `replace_split`) — what a search
     tree does to its list: the way down to a place splits the list there, the smaller keys in front
     and the larger ones behind, and the operation changes the middle.  These are the lemmas a
     representation uses; the filters in the definitions are never unfolded outside.

  The crux of both is `sorted_around`: around an element of a list in order all keys in front are
  smaller and all behind are larger, so a filter by the key is a split at it.
-/
import Mathlib.Data.List.Pairwise
import Mathlib.Data.List.Perm.Subperm
import Mathlib.Order.Lattice

/-- A list of things in the strict order of their keys. -/
structure SortedMap {ι K : Type} [LinearOrder K] (key : ι → K) where
  elems : List ι
  sorted : elems.Pairwise fun a b => key a < key b

namespace SortedMap

variable {ι K : Type} [LinearOrder K] {key : ι → K} {k k' : K} {i x : ι} {xs ys : List ι}
  {s s' : SortedMap key}

/-- The keys around an element of a list in order. -/
theorem sorted_around (h : (xs ++ x :: ys).Pairwise fun a b => key a < key b) :
    (xs ++ ys).Pairwise (fun a b => key a < key b) ∧ (∀ a ∈ xs, key a < key x) ∧ ∀ a ∈ ys,
      key x < key a := by
  obtain ⟨hx, hy, hxy⟩ := List.pairwise_append.mp h
  obtain ⟨hxy', hy⟩ := List.pairwise_cons.mp hy
  refine ⟨List.pairwise_append.mpr ⟨hx, hy, fun a ha b hb =>
    hxy a ha b (List.mem_cons_of_mem _ hb)⟩, ?_, hxy'⟩
  exact fun a ha => hxy a ha x (List.mem_cons_self ..)

/-- Different places have different keys. -/
theorem nodup (s : SortedMap key) : s.elems.Nodup := s.sorted.imp fun {a b} hab (heq : a = b) =>
    lt_irrefl _ (heq ▸ hab)

/-! ## The map -/

/-- The map that holds nothing. -/
def empty (key : ι → K) : SortedMap key := ⟨[], .nil⟩

/-- The thing with the key, if there is one. -/
def find (s : SortedMap key) (k : K) : Option ι := s.elems.find? fun a => key a = k

/-- Nothing happens where the key is there; else the thing goes between the smaller and the larger
    keys. -/
def insert (s : SortedMap key) (i : ι) : SortedMap key :=
  if s.find (key i) = none then
    ⟨s.elems.filter (fun a => key a < key i) ++ i :: s.elems.filter (fun a => key i < key a), by
      refine List.pairwise_append.mpr ⟨s.sorted.filter _, List.pairwise_cons.mpr ⟨fun a ha => ?_,
        s.sorted.filter _⟩, ?_⟩
      · simpa using (List.mem_filter.mp ha).2
      · intro a ha b hb
        have hai : key a < key i := by simpa using (List.mem_filter.mp ha).2
        rcases List.mem_cons.mp hb with rfl | hb
        · exact hai
        · exact lt_trans hai (by simpa using (List.mem_filter.mp hb).2)⟩
  else s

/-- The map without the thing with the key. -/
def erase (s : SortedMap key) (k : K) : SortedMap key :=
  ⟨s.elems.filter fun a => key a ≠ k, s.sorted.filter _⟩

/-- `i` in the place of the element with its key, if there is one. -/
def replace (s : SortedMap key) (i : ι) : SortedMap key :=
  ⟨s.elems.map fun a => if key a = key i then i else a, by
    refine List.pairwise_map.mpr (s.sorted.imp fun {a b} hab => ?_)
    split_ifs with ha hb hb
    · exact absurd hab (by rw [ha, hb]; exact lt_irrefl _)
    · exact ha ▸ hab
    · exact hb ▸ hab
    · exact hab⟩

@[simp] theorem elems_empty : (empty key).elems = [] := rfl

/-- A new element goes between the smaller and the larger keys. -/
theorem elems_insert (h : s.find (key i) = none) :
    (s.insert i).elems = s.elems.filter (fun a => key a < key i) ++ i :: s.elems.filter
      (fun a => key i < key a) := by
  rw [insert, if_pos h]

/-- An erased key is filtered out. -/
theorem elems_erase : (s.erase k).elems = s.elems.filter fun a => key a ≠ k := rfl

/-- A replacement takes the place of the element with its key. -/
theorem elems_replace :
    (s.replace i).elems = s.elems.map fun a => if key a = key i then i else a := rfl

/-! ## Look-ups

  Each operation is told by what `find` gives afterwards.  The proofs go through `find_eq_some`, by
  which a look-up is membership together with the key, and through the membership lemmas of the
  operations. -/

/-- A key is absent if no element has it. -/
theorem find_eq_none : s.find k = none ↔ ∀ a ∈ s.elems, key a ≠ k := by
  simp [find]

/-- An element whose key is absent is not in the map. -/
theorem not_mem_of_find (h : s.find (key i) = none) : i ∉ s.elems :=
  fun hi => find_eq_none.mp h i hi rfl

/-- There is one element with a key at most, and `find` gives it: two elements with one key stand at
    one place, as different places have different keys. -/
theorem find_eq_some : s.find k = some x ↔ x ∈ s.elems ∧ key x = k := by
  constructor
  · intro h
    exact ⟨List.mem_of_find?_eq_some h, by simpa using List.find?_some h⟩
  · rintro ⟨hx, rfl⟩
    obtain ⟨xs, ys, hxs⟩ := List.append_of_mem hx
    have hlt := (sorted_around (hxs ▸ s.sorted)).2.1
    rw [find, hxs, List.find?_append,
      List.find?_eq_none.mpr (fun a ha => by simpa using ne_of_lt (hlt a ha))]
    simp

/-- A map is its elements. -/
theorem ext_elems (h : s.elems = s'.elems) : s = s' := by
  cases s; cases s'; cases h; rfl

/-- **A map is what its look-ups give.** Equal look-ups give equal members, and of two lists in
    strict order with the same members each is a permutation of the other, so they are equal. -/
theorem ext_find (h : ∀ k, s.find k = s'.find k) : s = s' := by
  refine ext_elems
    (List.Perm.eq_of_pairwise (fun a b _ _ hab hba =>
    absurd hba (lt_asymm hab)) s.sorted s'.sorted ?_)
  have hmem : ∀ a, a ∈ s.elems ↔ a ∈ s'.elems := by
    intro a
    have ha := h (key a)
    constructor
    · intro hin
      exact (find_eq_some.mp (ha ▸ find_eq_some.mpr ⟨hin, rfl⟩)).1
    · intro hin
      exact (find_eq_some.mp (ha ▸ find_eq_some.mpr ⟨hin, rfl⟩)).1
  exact (List.perm_ext_iff_of_nodup s.nodup s'.nodup).mpr hmem

/-- Membership after an insertion. -/
theorem mem_insert (h : s.find (key i) = none) : x ∈ (s.insert i).elems ↔ x = i ∨ x ∈ s.elems := by
  rw [elems_insert h]
  simp only [List.mem_append, List.mem_cons, List.mem_filter, decide_eq_true_eq]
  constructor
  · rintro (⟨hx, _⟩ | rfl | ⟨hx, _⟩)
    · exact .inr hx
    · exact .inl rfl
    · exact .inr hx
  · rintro (rfl | hx)
    · exact .inr (.inl rfl)
    · rcases lt_or_gt_of_ne (find_eq_none.mp h x hx) with hlt | hgt
      · exact .inl ⟨hx, hlt⟩
      · exact .inr (.inr ⟨hx, hgt⟩)

/-- What is in the map stays in it after an insertion. -/
theorem mem_insert_of_mem (h : x ∈ s.elems) : x ∈ (s.insert i).elems := by
  by_cases hnone : s.find (key i) = none
  · exact (mem_insert hnone).mpr (.inr h)
  · rw [insert, if_neg hnone]
    exact h

/-- What is left after a removal: everything with another key. -/
theorem mem_erase : x ∈ (s.erase k).elems ↔ x ∈ s.elems ∧ key x ≠ k := by simp [elems_erase]

/-- What is there after a replacement: everything with another key, and the new thing where its key
    was there. -/
theorem mem_replace : x ∈ (s.replace i).elems ↔ (x ∈ s.elems ∧ key x ≠ key i) ∨
    (x = i ∧ s.find (key i) ≠ none) := by
  rw [elems_replace, List.mem_map, show s.find (key i) ≠ none ↔ ¬∀ a ∈ s.elems,
    key a ≠ key i from not_congr find_eq_none]
  constructor
  · rintro ⟨a, ha, rfl⟩
    by_cases hkey : key a = key i
    · rw [if_pos hkey]
      exact .inr ⟨rfl, fun hnone => hnone a ha hkey⟩
    · rw [if_neg hkey]
      exact .inl ⟨ha, hkey⟩
  · rintro (⟨hx, hkey⟩ | ⟨rfl, hfound⟩)
    · exact ⟨x, hx, if_neg hkey⟩
    · push Not at hfound
      obtain ⟨a, ha, hkey⟩ := hfound
      exact ⟨a, ha, if_pos hkey⟩

/-- A removal does not make the map longer. -/
theorem length_erase_le (s : SortedMap key) (k : K) : (s.erase k).elems.length ≤ s.elems.length :=
  List.length_filter_le _ _

/-- A replacement leaves its length. -/
theorem length_replace (s : SortedMap key) (i : ι) : (s.replace i).elems.length = s.elems.length :=
  List.length_map _

/-- An insertion adds one at most. -/
theorem length_insert_le (s : SortedMap key) (i : ι) :
    (s.insert i).elems.length ≤ s.elems.length + 1 := by
  by_cases h : s.find (key i) = none
  · exact (List.subperm_of_subset (s.insert i).nodup fun x hx =>
      List.mem_cons.mpr ((mem_insert h).mp hx)).length_le
  · rw [insert, if_neg h]
    exact Nat.le_succ _

/-- What is found after an insertion: a key that was there keeps its element. -/
theorem find_insert (s : SortedMap key) (i : ι) (k : K) :
    (s.insert i).find k = if k = key i ∧ s.find (key i) = none then some i else s.find k := by
  by_cases h : s.find (key i) = none
  · split_ifs with hk
    · rw [hk.1]
      exact find_eq_some.mpr ⟨(mem_insert h).mpr (.inl rfl), rfl⟩
    · have hk : k ≠ key i := fun heq => hk ⟨heq, h⟩
      refine Option.ext fun x => ?_
      rw [find_eq_some, find_eq_some, mem_insert h]
      constructor
      · rintro ⟨rfl | hx, hxk⟩
        · exact absurd hxk.symm hk
        · exact ⟨hx, hxk⟩
      · rintro ⟨hx, hxk⟩
        exact ⟨.inr hx, hxk⟩
  · rw [insert, if_neg h, if_neg (fun hk => h hk.2)]

/-- After a removal the key is absent, and every other one is found as before. -/
theorem find_erase (s : SortedMap key) (k k' : K) :
    (s.erase k).find k' = if k' = k then none else s.find k' := by
  split_ifs with hk
  · rw [hk, find_eq_none]
    intro a ha
    simpa using (List.mem_filter.mp ha).2
  · refine Option.ext fun x => ?_
    rw [find_eq_some, find_eq_some]
    constructor
    · rintro ⟨hx, hxk⟩
      exact ⟨(List.mem_filter.mp hx).1, hxk⟩
    · rintro ⟨hx, rfl⟩
      exact ⟨List.mem_filter.mpr ⟨hx, by simpa using hk⟩, rfl⟩

/-! ## A list split at a key

  The same operations, told by the place in the list.  The hypothesis is always that the list is
  known on both sides of a place; that the keys there are unique and in order is in the map. -/

/-- Where the new element goes, told by a split of the list into smaller and larger keys.  The two
    filters of `insert` give back the two parts, as each is all of its part and nothing of the
    other. -/
theorem insert_split (hs : s.elems = xs ++ ys) (hxs : ∀ a ∈ xs, key a < key i)
    (hys : ∀ a ∈ ys, key i < key a) :
    s.find (key i) = none ∧ (s.insert i).elems = xs ++ i :: ys := by
  have hnone : s.find (key i) = none := by
    refine find_eq_none.mpr fun a ha => ?_
    rw [hs] at ha
    rcases List.mem_append.mp ha with ha | ha
    · exact ne_of_lt (hxs a ha)
    · exact ne_of_gt (hys a ha)
  refine ⟨hnone, ?_⟩
  rw [elems_insert hnone, hs, List.filter_append, List.filter_append,
    List.filter_eq_self.mpr (fun a ha => by simpa using hxs a ha), List.filter_eq_nil_iff.mpr
      (fun a ha => by simpa using le_of_lt (hys a ha)),
    List.filter_eq_nil_iff.mpr (fun a ha => by simpa using le_of_lt (hxs a ha)),
      List.filter_eq_self.mpr (fun a ha => by simpa using hys a ha),
    List.append_nil, List.nil_append]

/-- The list without the element with the key. -/
theorem erase_split (hs : s.elems = xs ++ x :: ys) : (s.erase (key x)).elems = xs ++ ys := by
  obtain ⟨-, hxs, hys⟩ := sorted_around (hs ▸ s.sorted)
  rw [elems_erase, hs, List.filter_append, List.filter_cons_of_neg (by simp),
    List.filter_eq_self.mpr (fun a ha => by simpa using ne_of_lt (hxs a ha)),
      List.filter_eq_self.mpr (fun a ha => by simpa using ne_of_gt (hys a ha))]

/-- Nothing is erased for a key that is absent. -/
theorem erase_absent (h : s.find k = none) : s.erase k = s :=
  ext_elems (List.filter_eq_self.mpr fun a ha => by simpa using find_eq_none.mp h a ha)

/-- The list with another element in the same place, which has the same key. -/
theorem replace_split (hs : s.elems = xs ++ x :: ys) (hx : key x = key i) :
    (s.replace i).elems = xs ++ i :: ys := by
  obtain ⟨-, hxs, hys⟩ := sorted_around (hs ▸ s.sorted)
  have hid :
    ∀ l : List ι, (∀ a ∈ l, key a ≠ key i) →
      l.map (fun a => if key a = key i then i else a) = l := by
    intro l hl
    exact (List.map_congr_left (g := id) fun a ha => if_neg (hl a ha)).trans (List.map_id l)
  rw [elems_replace, hs, List.map_append, List.map_cons, if_pos hx,
    hid xs (fun a ha => hx ▸ ne_of_lt (hxs a ha)),
    hid ys (fun a ha => hx ▸ ne_of_gt (hys a ha))]

/-- Nothing is replaced for a key that is absent. -/
theorem replace_absent (h : s.find (key i) = none) : s.replace i = s := by
  refine ext_elems ?_
  rw [elems_replace]
  exact (List.map_congr_left (g := id) fun a ha => if_neg (find_eq_none.mp h a ha)).trans
    (List.map_id s.elems)

/-- And after a replacement, which adds no key. -/
theorem find_replace (s : SortedMap key) (i : ι) (k : K) :
    (s.replace i).find k = if k = key i ∧ s.find (key i) ≠ none then some i else s.find k := by
  by_cases h : s.find (key i) = none
  · rw [replace_absent h, if_neg fun hk => hk.2 h]
  · split_ifs with hk
    · rw [hk.1]
      exact find_eq_some.mpr ⟨mem_replace.mpr (.inr ⟨rfl, h⟩), rfl⟩
    · have hk : k ≠ key i := fun heq => hk ⟨heq, h⟩
      refine Option.ext fun x => ?_
      rw [find_eq_some, find_eq_some, mem_replace]
      constructor
      · rintro ⟨⟨hx, -⟩ | ⟨rfl, -⟩, hxk⟩
        · exact ⟨hx, hxk⟩
        · exact absurd hxk.symm hk
      · rintro ⟨hx, rfl⟩
        exact ⟨.inl ⟨hx, hk⟩, rfl⟩

end SortedMap
