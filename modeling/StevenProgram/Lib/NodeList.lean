/-
  `std::list` with its iterators.

  An iterator of a `std::list` points to a NODE and stays with it whatever is inserted around it.  A
  `NodeList` therefore carries an identity for each node, never used twice; an iterator is the
  identity of a node, or `none` for `end()`.  The two facts that make the identities iterators are
  fields, so no operation can break them.

  1. **Operations** — `beginIt`, `pushBack`, `insert`, `popFront`, and `findIt p`, which is a
     `for (it = begin(); it != end(); it++) if (p(*it)) break;`.
  2. **Contents** — what each operation does to `toList`.
  3. **Iterators** (`beginIt_insert_ne`) — after an insertion in front of the node an iterator
     points to, that iterator is not `begin()`, wherever it was before.
-/

/-- The nodes in order, each with its identity, and the identity of the next one that is made. -/
structure NodeList (α : Type) where
  nodes : List (Nat × α)
  /-- the identity the next node gets -/
  next : Nat
  fresh : ∀ q ∈ nodes, q.1 < next
  nodup : (nodes.map Prod.fst).Nodup

namespace NodeList

variable {α : Type}

/-- What the nodes hold. -/
def toList (l : NodeList α) : List α := l.nodes.map Prod.snd

def empty : NodeList α := ⟨[], 0, fun _ h => absurd h List.not_mem_nil, List.nodup_nil⟩

def isEmpty (l : NodeList α) : Bool := l.nodes.isEmpty

def front? (l : NodeList α) : Option α := l.nodes.head?.map Prod.snd

/-- The first node, or `end()`. -/
def beginIt (l : NodeList α) : Option Nat := l.nodes.head?.map Prod.fst

def endIt : Option Nat := none

/-- The first node that satisfies `p`, or `end()`. -/
def findIt (l : NodeList α) (p : α → Bool) : Option Nat :=
  (l.nodes.find? fun q => p q.2).map Prod.fst

/-! ## Inserting

  The position is given by an identity, and an identity that is not there is the end. -/

/-- The nodes with a new one in front of the first that satisfies `p`. -/
def insertFirst {β : Type} (p : β → Bool) (b : β) : List β → List β
  | [] => [b]
  | q :: qs => if p q then b :: q :: qs else q :: insertFirst p b qs

/-- An insertion adds its element and nothing else. -/
theorem insertFirst_perm {β : Type} (p : β → Bool) (b : β) :
    ∀ l : List β, (insertFirst p b l).Perm (b :: l) := by
  intro l
  induction l with
  | nil => exact .refl _
  | cons q qs ih =>
    rw [insertFirst]
    split
    · exact .refl _
    · exact (ih.cons q).trans (.swap b q qs)

/-- The place depends on what the predicate looks at only. -/
theorem insertFirst_map {β γ : Type} (g : β → γ) {p : β → Bool} {p' : γ → Bool}
    (hp : ∀ q, p q = p' (g q)) (b : β) :
    ∀ l : List β, (insertFirst p b l).map g = insertFirst p' (g b) (l.map g) := by
  intro l
  induction l with
  | nil => rfl
  | cons q qs ih =>
    rw [insertFirst, List.map_cons, insertFirst, ← hp]
    split
    · rfl
    · rw [List.map_cons, ih]

/-- Without a place to stop at, the element goes to the end. -/
theorem insertFirst_of_none {β : Type} {p : β → Bool} (b : β) :
    ∀ {l : List β}, (∀ q ∈ l, p q = false) →
    insertFirst p b l = l ++ [b] := by
  intro l
  induction l with
  | nil =>
    intro _
    rfl
  | cons q qs ih =>
    intro h
    rw [insertFirst, h q (List.mem_cons_self ..), if_neg (by decide),
      ih fun r hr => h r (List.mem_cons_of_mem q hr)]
    rfl

/-- Inserting at the first element that a new one has to precede keeps the list in order. -/
theorem insertFirst_pairwise {β : Type} {R : β → β → Prop} {p : β → Bool} {b : β} :
    ∀ {l : List β}, l.Pairwise R →
    (∀ q ∈ l, p q = false → R q b) → (∀ q ∈ l, p q = true → R b q) →
    (∀ q ∈ l, p q = true → ∀ r ∈ l, R q r → R b r) → (insertFirst p b l).Pairwise R := by
  intro l
  induction l with
  | nil =>
    intro _ _ _ _
    exact List.pairwise_singleton ..
  | cons q qs ih =>
    intro hl hlo hhi htr
    obtain ⟨hq, hqs⟩ := List.pairwise_cons.mp hl
    rw [insertFirst]
    split
    · next hp =>
      apply List.pairwise_cons.mpr
      constructor
      · intro r hr
        rcases List.mem_cons.mp hr with rfl | hr
        · exact hhi r (List.mem_cons_self ..) hp
        · exact htr q (List.mem_cons_self ..) hp r (List.mem_cons_of_mem q hr) (hq r hr)
      · exact hl
    · next hp =>
      have htail := ih hqs (fun r hr => hlo r (List.mem_cons_of_mem q hr))
        (fun r hr => hhi r (List.mem_cons_of_mem q hr))
        (fun r hr hpr t ht => htr r (List.mem_cons_of_mem q hr) hpr t (List.mem_cons_of_mem q ht))
      apply List.pairwise_cons.mpr
      constructor
      · intro r hr
        rcases List.mem_cons.mp ((insertFirst_perm p b qs).mem_iff.mp hr) with rfl | hr
        · exact hlo q (List.mem_cons_self ..) (by simpa using hp)
        · exact hq r hr
      · exact htail

/-- `push_back`. -/
def pushBack (l : NodeList α) (a : α) : NodeList α where
  nodes := l.nodes ++ [(l.next, a)]
  next := l.next + 1
  fresh q hq := by
    rcases List.mem_append.mp hq with hq | hq
    · have := l.fresh q hq; omega
    · obtain rfl := List.mem_singleton.mp hq; exact Nat.lt_succ_self _
  nodup := by
    rw [List.map_append, List.nodup_append]
    refine ⟨l.nodup, List.pairwise_singleton .., fun i hi j hj => ?_⟩
    obtain ⟨q, hq, rfl⟩ := List.mem_map.mp hi
    obtain rfl := List.mem_singleton.mp hj
    have := l.fresh q hq; omega

/-- `insert(it, a)`: a new node in front of the one `it` points to. -/
def insert (l : NodeList α) (it : Option Nat) (a : α) : NodeList α where
  nodes := insertFirst (fun q => decide (it = some q.1)) (l.next, a) l.nodes
  next := l.next + 1
  fresh q hq := by
    rcases List.mem_cons.mp ((insertFirst_perm _ _ _).mem_iff.mp hq) with rfl | hq
    · exact Nat.lt_succ_self _
    · have := l.fresh q hq; omega
  nodup := by
    refine ((insertFirst_perm _ _ _).map Prod.fst).nodup_iff.mpr
      (List.nodup_cons.mpr ⟨fun hmem => ?_, l.nodup⟩)
    obtain ⟨q, hq, he⟩ := List.mem_map.mp hmem
    have := l.fresh q hq; omega

/-- `pop_front`. -/
def popFront (l : NodeList α) : NodeList α where
  nodes := l.nodes.tail
  next := l.next
  fresh q hq := l.fresh q (List.mem_of_mem_tail hq)
  nodup := by rw [List.map_tail]; exact l.nodup.sublist (List.tail_sublist _)

/-! ## Contents

  What a reader of the list sees, who knows nothing of identities. -/

/-- `push_back` on the contents. -/
@[simp] theorem toList_pushBack (l : NodeList α) (a : α) :
    (l.pushBack a).toList = l.toList ++ [a] := by
  rw [toList, pushBack, List.map_append]; rfl

/-- `pop_front` on the contents. -/
@[simp] theorem toList_popFront (l : NodeList α) : l.popFront.toList = l.toList.tail := by
  rw [toList, popFront, List.map_tail]; rfl

/-- `front` on the contents. -/
theorem front?_eq (l : NodeList α) : l.front? = l.toList.head? := by
  rw [toList, List.head?_map]; rfl

/-- `empty` on the contents. -/
theorem isEmpty_eq (l : NodeList α) : l.isEmpty = true ↔ l.toList = [] := by
  rw [isEmpty, List.isEmpty_iff, toList, List.map_eq_nil_iff]

/-- The loop finds nothing exactly when no element satisfies `p`. -/
theorem findIt_eq_end {l : NodeList α} {p : α → Bool} :
    l.findIt p = endIt ↔ ∀ a ∈ l.toList, p a = false := by
  rw [findIt, endIt, Option.map_eq_none_iff, List.find?_eq_none]
  constructor
  · rintro h a ha
    obtain ⟨q, hq, rfl⟩ := List.mem_map.mp ha
    simpa using h q hq
  · intro h q hq
    rw [h q.2 (List.mem_map_of_mem hq)]; decide

/-- The node the loop stops at is the first that satisfies `p`. -/
theorem insertFirst_findIt {p : α → Bool} (q : Nat × α) :
    ∀ {nodes : List (Nat × α)}, (nodes.map Prod.fst).Nodup →
    ∀ {n : Nat}, (nodes.find? fun r => p r.2).map Prod.fst = some n →
    insertFirst (fun r => decide (some n = some r.1)) q nodes = insertFirst
      (fun r => p r.2) q nodes := by
  intro nodes
  induction nodes with
  | nil =>
    intro _ n h
    nomatch h
  | cons r rs ih =>
    intro hnd n h
    obtain ⟨hr, hrs⟩ := List.nodup_cons.mp (List.map_cons .. ▸ hnd)
    rw [insertFirst, insertFirst]
    cases hp : p r.2 with
    | true =>
      -- the loop stops here
      rw [List.find?_cons_of_pos (by simpa using hp)] at h
      obtain rfl : r.1 = n := Option.some.inj h
      rw [if_pos (by simp), if_pos rfl]
    | false =>
      rw [List.find?_cons_of_neg (by simp [hp])] at h
      -- the node found later is another one
      have hne : n ≠ r.1 := by
        rintro rfl
        obtain ⟨t, ht, he⟩ := Option.map_eq_some_iff.mp h
        exact hr (List.mem_map.mpr ⟨t, List.mem_of_find?_eq_some ht, he⟩)
      rw [if_neg (by simpa using hne), if_neg (by decide), ih hrs h]

/-- **`insert` at the place a search found** is an insertion at the first match of the contents. -/
theorem toList_insert_findIt {l : NodeList α} {p : α → Bool} (h : l.findIt p ≠ endIt) (a : α) :
    (l.insert (l.findIt p) a).toList = insertFirst p a l.toList := by
  obtain ⟨n, hn⟩ := Option.ne_none_iff_exists'.mp h
  rw [toList, insert, hn]
  simp only []
  rw [insertFirst_findIt (p := p) (l.next, a) l.nodup hn]
  exact insertFirst_map Prod.snd (fun _ => rfl) _ _

/-! ## Iterators

  An iterator is compared by its node; nothing is said about positions. -/

/-- **The insertion iterator is not `begin()`.**  If it pointed to the first node, the new node is
    in front of it now; if not, it still is not the first. -/
theorem beginIt_insert_ne {l : NodeList α} {it : Option Nat} (hit : ∃ q ∈ l.nodes, it = some q.1)
    (a : α) :
    it ≠ (l.insert it a).beginIt := by
  obtain ⟨q, hq, rfl⟩ := hit
  have hne : q.1 ≠ l.next := Nat.ne_of_lt (l.fresh q hq)
  rw [beginIt, insert]
  simp only []
  cases hn : l.nodes with
  | nil => rw [hn] at hq; nomatch hq
  | cons r rs =>
    rw [insertFirst]
    split
    · simpa using hne
    · rename_i hr; simpa using hr

/-- A search that does not end at `end()` has found a node of the list. -/
theorem findIt_mem {l : NodeList α} {p : α → Bool} (h : l.findIt p ≠ endIt) :
    ∃ q ∈ l.nodes, l.findIt p = some q.1 := by
  obtain ⟨n, hn⟩ := Option.ne_none_iff_exists'.mp h
  obtain ⟨q, hq, rfl⟩ := Option.map_eq_some_iff.mp hn
  exact ⟨q, List.mem_of_find?_eq_some hq, hn⟩

end NodeList
