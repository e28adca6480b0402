/-
  The rings of the bins.

  `live` lists the elements of the table in the order of their insertion.  `Linked` says that the
  heap holds exactly these, and that those of a bin, in that order, are a ring; `Inv` adds that the
  bin points to the oldest of them, and that `dataRoot` and the nodes are a ring.  Elements come and
  go in three places: at the end (`insertToBin_spec`), in front of the bin's pointer and through it
  (`remove`, `clear`), for which `Linked.without` says what taking one out of the middle leaves.

  1. **Elements** — `Entry`, `chain`, `Linked`.
  2. **Taking out** — `destruct_eq`, `discard_eq`, `Linked.without`.
  3. **Putting in** — `Inv`, `insertToBin_spec`.
-/
import StevenProgram.Table.Bins

namespace StevenProgram

namespace HashTable

/-! ## Elements

  One list tells everything: the bins are its parts by index, and the order in a ring is the order
  in the list.  An `Entry` is an element together with the arguments it was made from. -/

/-- A key that no element can be found by. -/
def HashKey.void : HashKey → Bool
  | .str key => key.1.isEmpty
  | .ptr key => key == 0
  | _ => false

/-- The arguments of one overload. -/
def HashKey.sameShape : HashKey → HashKey → Bool
  | .int _, .int _ | .pair .., .pair .. | .str _, .str _ | .ptr _, .ptr _ => true
  | _, _ => false

/-- An element of the table, by its address and its number. -/
structure Entry where
  addr : Addr
  key : HashKey
  data : UInt64
  serial : Nat
  deriving DecidableEq

namespace Entry

/-- The element as its constructor leaves it. -/
def elem (e : Entry) : HashElement := .make e.serial e.data e.key

def buffer (e : Entry) : List Nat := e.elem.buffer

/-- Whether a search for `key` stops at the element. -/
def hit (key : HashKey) (e : Entry) : Bool := decide (e.key = key) && !key.void

end Entry

/-- An element keeps its serial number. -/
theorem elem_serial (e : Entry) : e.elem.serial = e.serial := by
  rw [Entry.elem]
  cases e.key with
  | str key =>
    rw [HashElement.make]
    split <;> rfl
  | _ => rfl

/-- An element has one buffer, under its own number, or none. -/
theorem mem_buffer {e : Entry} {b : Nat} (h : b ∈ e.buffer) : b = e.serial := by
  rw [Entry.buffer, HashElement.buffer] at h
  split at h
  · rw [List.mem_singleton.mp h, elem_serial]
  · cases h

/-- The elements of a bin. -/
def bucket (c : HashConfig) (live : List Entry) (i : Nat) : List Entry := live.filter fun e =>
    c.index e.key = i

/-- Their addresses. -/
def chain (c : HashConfig) (live : List Entry) (i : Nat) : List Addr :=
  (bucket c live i).map Entry.addr

section Entries

variable {c : HashConfig} {live l1 l2 : List Entry} {e : Entry} {i : Nat}

/-- The elements of a bin, over two parts of the table. -/
theorem bucket_append : bucket c (l1 ++ l2) i = bucket c l1 i ++ bucket c l2 i :=
  List.filter_append ..

/-- And over the first element. -/
theorem bucket_cons :
    bucket c (e :: live) i =
      if c.index e.key = i then e :: bucket c live i else bucket c live i := by
  rw [bucket, List.filter_cons, bucket]
  simp only [decide_eq_true_eq]

/-- An element is in its own bin. -/
theorem mem_bucket : e ∈ bucket c live i ↔ e ∈ live ∧ c.index e.key = i := by
  rw [bucket, List.mem_filter, decide_eq_true_eq]

/-- The chain of a bin, over two parts of the table. -/
theorem chain_append : chain c (l1 ++ l2) i = chain c l1 i ++ chain c l2 i := by
  rw [chain, bucket_append, List.map_append, chain, chain]

/-- An element divides its chain. -/
theorem chain_split :
    chain c (l1 ++ e :: l2) (c.index e.key) = chain c l1 (c.index e.key) ++ e.addr :: chain c l2
      (c.index e.key) := by
  rw [chain_append]
  congr 1
  rw [chain, bucket_cons, if_pos rfl, List.map_cons, chain]

/-- It is in no other. -/
theorem chain_other (h : c.index e.key ≠ i) : chain c (l1 ++ e :: l2) i = chain c (l1 ++ l2) i := by
  rw [chain_append, chain_append]
  congr 1
  rw [chain, bucket_cons, if_neg h, chain]

/-- The addresses of a chain are those of the elements of its bin. -/
theorem mem_chain {p : Addr} : p ∈ chain c live i ↔ ∃ e ∈ live, c.index e.key = i ∧ e.addr = p := by
  rw [chain, List.mem_map]
  simp only [mem_bucket, and_assoc]

/-- An address belongs to one element. -/
theorem entry_unique (h : (live.map Entry.addr).Nodup) {a b : Entry} (ha : a ∈ live) (hb : b ∈ live)
    (hab : a.addr = b.addr) :
    a = b := List.inj_on_of_nodup_map h ha hb hab

/-- No address is in two bins. -/
theorem chain_disjoint (h : (live.map Entry.addr).Nodup) {j : Nat} {p : Addr}
    (hi : p ∈ chain c live i)
    (hj : p ∈ chain c live j) : i = j := by
  obtain ⟨a, ha, rfl, hap⟩ := mem_chain.mp hi
  obtain ⟨b, hb, rfl, hbp⟩ := mem_chain.mp hj
  rw [entry_unique h ha hb (hap.trans hbp.symm)]

/-- A type supports keys of one shape only. -/
theorem same_shape {a b : HashKey} (ha : c.accepts a = true) (hb : c.accepts b = true) :
    a.sameShape b = true := by
  rw [HashConfig.accepts.eq_def] at ha hb
  cases hty : c.mHashType <;> cases a <;> cases b <;> simp [hty, HashKey.sameShape] at ha hb ⊢

/-- **`isSameKey` compares keys**, except that it finds no void one. -/
theorem isSameKey_eq_hit (he : c.accepts e.key = true) {key : HashKey} (hk : c.accepts key = true)
    (node : Option Addr) :
    ({ e.elem with pANode := node } : HashElement).isSameKey key = e.hit key := by
  have hshape := same_shape he hk
  obtain ⟨addr, ekey, data, serial⟩ := e
  rw [Entry.hit, Entry.elem]
  match ekey, key, hshape with
  | .int a, .int b, _ =>
    simp [HashElement.make, HashElement.isSameKey, HashKey.void, Bool.beq_eq_decide_eq, eq_comm]
  | .pair a1 a2, .pair b1 b2, _ =>
    simp [HashElement.make, HashElement.isSameKey, HashKey.void, Bool.beq_eq_decide_eq, eq_comm,
      Bool.decide_and]
  | .str ⟨a, ha⟩, .str ⟨b, hb⟩, _ =>
    cases a with
    | nil =>
      cases b with
      | nil => rfl
      | cons y b => simp [HashElement.make, HashElement.isSameKey]
    | cons x a =>
      by_cases hab : x :: a = b
      · subst hab
        simp [HashElement.make, HashElement.isSameKey, HashKey.void]
      · have hba : ¬ b = x :: a := fun h => hab h.symm
        simp [HashElement.make, HashElement.isSameKey, hab, hba]
  | .ptr a, .ptr b, _ =>
    by_cases hab : a = b
    · subst hab
      simp [HashElement.make, HashElement.isSameKey, HashKey.void, bne]
    · simp [HashElement.make, HashElement.isSameKey, hab]

/-- A look-up hits an element of its key, unless the key is void. -/
theorem hit_iff {key : HashKey} : e.hit key = true ↔ e.key = key ∧ key.void = false := by
  rw [Entry.hit, Bool.and_eq_true, decide_eq_true_eq, Bool.not_eq_true']

/-- What a search finds is in the key's bin. -/
theorem find?_bucket (live : List Entry) (key : HashKey) :
    (bucket c live (c.index key)).find? (Entry.hit key) = live.find? (Entry.hit key) := by
  rw [bucket, List.find?_filter]
  congr 1
  funext e
  cases hh : e.hit key with
  | false => simp
  | true => simp [(hit_iff.mp hh).1]

end Entries

/-- The heap holds the elements of `live`, those of each bin in a ring. -/
structure Linked (t : Table) (live : List Entry) : Prop where
  ring : ∀ i, t.links.IsRing (chain t.cfg live i)
  elem_eq : ∀ e ∈ live, ∃ node, t.elems e.addr = some { e.elem with pANode := node }
  dom : ∀ p, (t.elems p).isSome = true → p ∈ live.map Entry.addr
  nodup : (live.map Entry.addr).Nodup
  home : ∀ e ∈ live, t.cfg.accepts e.key = true
  serial_lt : ∀ e ∈ live, e.serial < t.made
  sorted : live.Pairwise fun a b => a.serial < b.serial
  /-- what has been released belongs to elements that are gone -/
  fresh : ∀ e ∈ live, e.serial ∉ t.released
  released_lt : ∀ b ∈ t.released, b < t.made
  count : t.mNumberOfElement = UInt32.ofNat live.length

namespace Linked

variable {t : Table} {live l1 l2 : List Entry} {e : Entry}

/-- There is memory at the address of a live element. -/
theorem isSome (h : Linked t live) {p : Addr} (hp : p ∈ live.map Entry.addr) :
    (t.elems p).isSome = true := by
  obtain ⟨e, he, rfl⟩ := List.mem_map.mp hp
  obtain ⟨node, helem⟩ := h.elem_eq e he
  rw [helem]
  rfl

/-- And at every address of a chain. -/
theorem isSome_of_chain (h : Linked t live) {p : Addr} {i : Nat} (hp : p ∈ chain t.cfg live i) :
    (t.elems p).isSome = true := by
  obtain ⟨e, he, -, rfl⟩ := mem_chain.mp hp
  exact h.isSome (List.mem_map_of_mem he)

/-- What is on the heap is an element of the list. -/
theorem entry_of (h : Linked t live) {p : Addr} {e : HashElement} (he : t.elems p = some e) :
    ∃ e' ∈ live, e'.addr = p ∧ ∃ node, e = { e'.elem with pANode := node } := by
  have hsome : (t.elems p).isSome = true := by rw [he]; rfl
  obtain ⟨e', he', haddr⟩ := List.mem_map.mp (h.dom p hsome)
  obtain ⟨node, helem⟩ := h.elem_eq e' he'
  rw [haddr, he] at helem
  exact ⟨e', he', haddr, node, Option.some.inj helem⟩

/-- No memory is left exactly when no element is. -/
theorem empty_iff (h : Linked t live) : (∀ p, t.elems p = none) ↔ live = [] := by
  constructor
  · intro hnone
    refine List.eq_nil_iff_forall_not_mem.mpr fun e he => ?_
    have hsome := h.isSome (List.mem_map_of_mem he)
    rw [hnone e.addr] at hsome
    cases hsome
  · rintro rfl p
    exact Option.not_isSome_iff_eq_none.mp fun hsome => List.not_mem_nil (h.dom p hsome)

/-- The ring of an element. -/
theorem ring_split (h : Linked t (l1 ++ e :: l2)) : t.links.IsRing
    (chain t.cfg l1 (t.cfg.index e.key) ++ e.addr :: chain t.cfg l2 (t.cfg.index e.key)) :=
  chain_split ▸ h.ring (t.cfg.index e.key)

/-- As the numbers increase, there are not more elements than have been constructed. -/
theorem length_le (h : Linked t live) : live.length ≤ t.made := by
  have hnodup : (live.map Entry.serial).Nodup :=
    (List.pairwise_map.mpr (h.sorted.imp fun hab => Nat.ne_of_lt hab))
  have hsub : live.map Entry.serial ⊆ List.range t.made := by
    intro s hs
    obtain ⟨e, he, rfl⟩ := List.mem_map.mp hs
    exact List.mem_range.mpr (h.serial_lt e he)
  have hle := (List.subperm_of_subset hnodup hsub).length_le
  rwa [List.length_map, List.length_range] at hle

end Linked

/-! ## Taking out

  `discard` runs the destructor twice, once by name and once through `delete`.  The first run
  detaches the element; the second finds it alone in its ring, and only its key is in danger. -/

namespace Table

variable {t : Table} {p : Addr}

/-- A copied key that was not released before can be released. -/
theorem releaseKey_eq {e : HashElement} (h : t.strict = true → ∀ b ∈ e.buffer, b ∉ t.released) :
    t.releaseKey e = .ok { t with released := t.released ++ e.buffer } := by
  rw [releaseKey, if_neg]
  rintro ⟨hstrict, b, hb, hrel⟩
  exact h hstrict b hb hrel

/-- **The destructor detaches the element and releases its key buffer.** -/
theorem destruct_eq {e : HashElement} (he : t.elems p = some e)
    (hprev : (t.elems (t.links.prev p)).isSome = true)
    (hnext : (t.elems (t.links.next p)).isSome = true) :
    t.destruct p = { t with links := t.links.detach p }.releaseKey e := by
  by_cases hself : t.links.prev p = p
  · simp only [destruct, pPrev, elem, he, Option.isSome_some, if_true, Run.ok_bind, hself, ne_eq,
      not_true_eq_false, if_false,
      Links.detach]
  · simp only [destruct, pPrev, pNext, setNext, setPrev, elem, he, hprev, hnext, Option.isSome_some,
      if_true, Run.ok_bind,
      hself, Ne.symm hself, ne_eq, not_false_eq_true, if_false, Links.setNext_next,
        Links.setNext_prev, Links.detach, Links.unlink]

/-- The destructor of an element: it is taken out of its chain, its key is released and its memory
    given back. -/
theorem delete_eq {e : HashElement} (he : t.elems p = some e)
    (hprev : (t.elems (t.links.prev p)).isSome = true)
    (hnext : (t.elems (t.links.next p)).isSome = true) (hrel : t.strict = true → ∀ b ∈ e.buffer,
      b ∉ t.released) :
    t.delete p = .ok { t with
      links := t.links.detach p
      released := t.released ++ e.buffer
      elems := fun q => if q = p then none else t.elems q } := by
  rw [delete, destruct_eq he hprev hnext, releaseKey_eq (by exact hrel)]
  rfl

section Discard

variable {e : HashElement} (he : t.elems p = some e)
  (hprev : (t.elems (t.links.prev p)).isSome = true)
  (hnext : (t.elems (t.links.next p)).isSome = true) (hrel : t.strict = true → ∀ b ∈ e.buffer,
    b ∉ t.released)

include he hprev hnext hrel

/-- The first of the two destructor calls: what is left for the second. -/
theorem discard_turn : t.discard p = (do
    let t ← ({ t with links := t.links.detach p, released := t.released ++ e.buffer } :
      Table).delete p
    .ok { t with mNumberOfElement := t.mNumberOfElement - 1 }) := by
  rw [discard, destruct_eq he hprev hnext, releaseKey_eq (by exact hrel)]
  rfl

/-- **A second destructor call releases the key buffer again** and does nothing else. -/
theorem discard_eq (hbare : t.strict = true → e.buffer = []) : t.discard p = .ok { t with
      links := t.links.detach p
      released := t.released ++ e.buffer ++ e.buffer
      elems := fun q => if q = p then none else t.elems q
      mNumberOfElement := t.mNumberOfElement - 1 } := by
  have hself := t.links.detach_self p
  have hagain :=
    delete_eq (t := { t with links := t.links.detach p, released := t.released ++ e.buffer }) he
    (by rw [hself.2]; exact hprev) (by rw [hself.1]; exact hnext) (fun hstrict b hb => by
      rw [hbare hstrict] at hb
      exact absurd hb List.not_mem_nil)
  rw [discard_turn he hprev hnext hrel, hagain, Links.detach_detach]
  rfl

/-- **Where the allocator minds, it ends the run** with an element that has a copy of its key. -/
theorem discard_fault (hstrict : t.strict = true) (hown : e.buffer ≠ []) :
    t.discard p = .error .doubleFree := by
  have hself := t.links.detach_self p
  have hagain :=
    destruct_eq (t := { t with links := t.links.detach p, released := t.released ++ e.buffer }) he
    (by rw [hself.2]; exact hprev) (by rw [hself.1]; exact hnext)
  obtain ⟨b, hb⟩ := List.exists_mem_of_ne_nil _ hown
  rw [discard_turn he hprev hnext hrel, delete, hagain, releaseKey,
    if_pos ⟨hstrict, b, hb, List.mem_append_right _ hb⟩]
  rfl

end Discard

/-- The table without the element at `p`, after the releases `log`. -/
def without (t : Table) (p : Addr) (log : List Nat) : Table := { t with
  links := t.links.detach p
  released := t.released ++ log
  elems := fun q => if q = p then none else t.elems q
  mNumberOfElement := t.mNumberOfElement - 1 }

end Table

/-- The counter of elements steps back. -/
theorem ofNat_succ_sub (n : Nat) : UInt32.ofNat (n + 1) - 1 = UInt32.ofNat n := by
  rw [UInt32.ofNat_add]
  exact UInt32.add_sub_cancel _ _

namespace Linked

variable {t : Table} {live l1 l2 : List Entry} {e : Entry}

/-- The neighbours of an element are in the table. -/
theorem neighbours (h : Linked t (l1 ++ e :: l2)) :
    (t.elems (t.links.prev e.addr)).isSome = true ∧
      (t.elems (t.links.next e.addr)).isSome = true := by
  exact ⟨h.isSome_of_chain (chain_split ▸ h.ring_split.prev_mem),
    h.isSome_of_chain (chain_split ▸ h.ring_split.next_mem)⟩

/-- The copy of a live element is still owned. -/
theorem owned (h : Linked t (l1 ++ e :: l2)) : ∀ b ∈ e.buffer, b ∉ t.released := by
  intro b hb
  rw [mem_buffer hb]
  exact h.fresh e (by simp)

/-- **An element is discarded**: detached, its key released and then its destructor run. -/
theorem discard (h : Linked t (l1 ++ e :: l2)) (hbare : t.strict = true → e.buffer = []) :
    t.discard e.addr = .ok (t.without e.addr (e.buffer ++ e.buffer)) := by
  obtain ⟨node, helem⟩ := h.elem_eq e (by simp)
  rw [Table.discard_eq helem h.neighbours.1 h.neighbours.2 (fun _ => h.owned) hbare, Table.without,
    List.append_assoc]
  rfl

/-- Where the allocator minds, a copied key ends it. -/
theorem discard_fault (h : Linked t (l1 ++ e :: l2)) (hstrict : t.strict = true)
    (hown : e.buffer ≠ []) :
    t.discard e.addr = .error .doubleFree := by
  obtain ⟨node, helem⟩ := h.elem_eq e (by simp)
  exact Table.discard_fault helem h.neighbours.1 h.neighbours.2 (fun _ => h.owned) hstrict hown

/-- An element leaves its ring, and no other. -/
theorem ring_without (h : Linked t (l1 ++ e :: l2)) (i : Nat) :
    (t.links.detach e.addr).IsRing (chain t.cfg (l1 ++ l2) i) := by
  by_cases hi : t.cfg.index e.key = i
  · subst hi
    rw [chain_append]
    exact h.ring_split.detach
  · -- the other rings have none of the links that are set
    have hring := h.ring i
    rw [chain_other hi] at hring
    refine hring.congr fun a ha => h.ring_split.detach_other fun ha' => hi ?_
    rw [← chain_split] at ha'
    rw [← chain_other hi] at ha
    exact chain_disjoint h.nodup ha' ha

/-- **Without one of its elements the table is as it was.** -/
theorem without (h : Linked t (l1 ++ e :: l2)) {log : List Nat} (hlog : ∀ b ∈ log, b = e.serial) :
    Linked (t.without e.addr log) (l1 ++ l2) := by
  have hnodup := h.nodup
  have hne : ∀ e' ∈ l1 ++ l2, e'.addr ≠ e.addr := by
    intro e' he' heq
    rw [List.map_append, List.map_cons, List.nodup_middle, List.nodup_cons, ← List.map_append]
      at hnodup
    exact hnodup.1 (heq ▸ List.mem_map_of_mem he')
  have hsub : ∀ e' ∈ l1 ++ l2, e' ∈ l1 ++ e :: l2 := by
    intro e' he'
    simp only [List.mem_append, List.mem_cons] at he' ⊢
    exact he'.imp_right .inr
  have hsublist : List.Sublist (l1 ++ l2) (l1 ++ e :: l2) := (List.Sublist.refl l1).append
    (List.sublist_cons_self e l2)
  -- the numbers of the others are other numbers
  have hserial : ∀ e' ∈ l1 ++ l2, e'.serial ≠ e.serial := by
    intro e' he'
    obtain ⟨-, hcons, hcross⟩ := List.pairwise_append.mp h.sorted
    rcases List.mem_append.mp he' with he' | he'
    · exact Nat.ne_of_lt (hcross e' he' e (List.mem_cons_self ..))
    · exact Nat.ne_of_gt ((List.pairwise_cons.mp hcons).1 e' he')
  exact {
    ring := h.ring_without
    elem_eq := by
      intro e' he'
      show ∃ node, (if e'.addr = e.addr then none else t.elems e'.addr) = _
      rw [if_neg (hne e' he')]
      exact h.elem_eq e' (hsub e' he')
    dom := by
      intro p hp
      have hp : (if p = e.addr then none else t.elems p).isSome = true := hp
      split at hp
      · cases hp
      · next hpe =>
        have hmem := h.dom p hp
        simp only [List.map_append, List.map_cons, List.mem_append, List.mem_cons] at hmem ⊢
        rcases hmem with hmem | hmem | hmem
        · exact .inl hmem
        · exact absurd hmem hpe
        · exact .inr hmem
    nodup := hnodup.sublist (hsublist.map _)
    home := fun e' he' => h.home e' (hsub e' he')
    serial_lt := fun e' he' => h.serial_lt e' (hsub e' he')
    sorted := h.sorted.sublist hsublist
    fresh := by
      intro e' he' hrel
      rcases List.mem_append.mp (show e'.serial ∈ t.released ++ log from hrel) with hrel | hrel
      · exact h.fresh e' (hsub e' he') hrel
      · exact hserial e' he' (hlog _ hrel)
    released_lt := by
      intro b hb
      rcases List.mem_append.mp (show b ∈ t.released ++ log from hb) with hb | hb
      · exact h.released_lt b hb
      · rw [hlog b hb]
        exact h.serial_lt e (by simp)
    count := by
      have hlen : (l1 ++ e :: l2).length = (l1 ++ l2).length + 1 := by simp [Nat.add_assoc]
      show t.mNumberOfElement - 1 = _
      rw [h.count, hlen, ofNat_succ_sub] }

end Linked

/-! ## Putting in

  A new element is linked in front of its bin's pointer, which makes it the last of the ring.  The
  node goes to the end of the list on `dataRoot` in the same way. -/

/-- `dataRoot` and the nodes of `hist`, each with its element, are a ring. -/
structure Noded (t : Table) (hist : List (Addr × Addr)) : Prop where
  node_ring : t.nodeLinks.IsRing (dataRoot :: hist.map Prod.fst)
  nodes_eq : ∀ q p, t.nodes q = some p ↔ (q, p) ∈ hist

/-- The table with `n` bins: what is live, what has been inserted ever, and where the bins point
    to. -/
structure Inv (n : Nat) (t : Table) (live : List Entry) (hist : List (Addr × Addr)) : Prop extends
    Linked t live, Noded t hist where
  valid : t.cfg.Valid n
  bins_length : t.mpBin.length = n
  head_eq : ∀ i, i < n → t.mpBin[i]? = some (chain t.cfg live i).head?

/-- The table with a new element `e` and its node, whose bin pointed to `head`. -/
def Table.with_ (t : Table) (e : Entry) (node : Addr) (head : Option Addr) : Table where
  cfg := t.cfg
  mpBin := if head = none then t.mpBin.set (t.cfg.index e.key) (some e.addr) else t.mpBin
  mNumberOfElement := t.mNumberOfElement + 1
  elems := fun q => if q = e.addr then some { e.elem with pANode := some node } else t.elems q
  links := t.links.enter head e.addr
  nodes := fun q => if q = node then some e.addr else t.nodes q
  nodeLinks := t.nodeLinks.enter (some dataRoot) node
  made := t.made + 1
  acquired := t.acquired ++ e.buffer
  released := t.released
  strict := t.strict

section Insert

variable {n : Nat} {t : Table} {live : List Entry} {hist : List (Addr × Addr)}

/-- A bin is the head of its chain. -/
theorem Inv.bin (h : Inv n t live hist) {i : Nat} (hi : i < n) :
    t.bin i = .ok (chain t.cfg live i).head? := by
  rw [Table.bin, if_neg (by omega), Int.toNat_natCast, h.head_eq i hi]

/-- A bin of the table can be written. -/
theorem Table.setBin_eq {i : Nat} (hi : i < t.mpBin.length) (p : Option Addr) :
    t.setBin i p = .ok { t with mpBin := t.mpBin.set i p } := by
  rw [Table.setBin, Int.toNat_natCast, if_neg (by omega)]

/-- The last node is one of the nodes, or `dataRoot`. -/
theorem Noded.last (h : Noded t hist) :
    t.nodeLinks.prev dataRoot = dataRoot ∨ (t.nodes (t.nodeLinks.prev dataRoot)).isSome = true := by
  have hmem := Links.IsRing.prev_mem (show t.nodeLinks.IsRing ([] ++ dataRoot :: hist.map Prod.fst)
    from h.node_ring)
  rw [List.nil_append] at hmem
  rcases List.mem_cons.mp hmem with hmem | hmem
  · exact .inl hmem
  · obtain ⟨⟨q, p⟩, hqp, hq⟩ := List.mem_map.mp hmem
    have hq : q = t.nodeLinks.prev dataRoot := hq
    rw [← hq, (h.nodes_eq q p).mpr hqp]
    exact .inr rfl

/-- The new node is the last one. -/
theorem Noded.with_ (h : Noded t hist) (e : Entry) {node : Addr} (hnode : t.nodes node = none)
    (hroot : node ≠ dataRoot)
    (head : Option Addr) : Noded (t.with_ e node head) (hist ++ [(node, e.addr)]) := by
  have hnew : node ∉ dataRoot :: hist.map Prod.fst := by
    intro hm
    rcases List.mem_cons.mp hm with hm | hm
    · exact hroot hm
    · obtain ⟨⟨q, p⟩, hqp, rfl⟩ := List.mem_map.mp hm
      cases hnode.symm.trans ((h.nodes_eq q p).mpr hqp)
  exact {
    node_ring := by
      rw [List.map_append]
      exact h.node_ring.enter hnew
    nodes_eq := by
      intro q p
      show (if q = node then some e.addr else t.nodes q) = some p ↔ _
      rw [List.mem_append, List.mem_singleton, Prod.mk.injEq]
      by_cases hq : q = node
      · have hnot : (q, p) ∉ hist := fun hm => by
          rw [hq] at hm
          cases hnode.symm.trans ((h.nodes_eq node p).mpr hm)
        rw [if_pos hq, Option.some.injEq, or_iff_right hnot, and_iff_right hq, eq_comm]
      · rw [if_neg hq, h.nodes_eq, or_iff_left fun hc => hq hc.1] }

/-- A new element enters its ring, and no other. -/
theorem Linked.ring_with (h : Linked t live) {e : Entry} (hnew : e.addr ∉ live.map Entry.addr)
    (i : Nat) :
    (t.links.enter (chain t.cfg live (t.cfg.index e.key)).head? e.addr).IsRing
      (chain t.cfg (live ++ [e]) i) := by
  have hnot : ∀ i, e.addr ∉ chain t.cfg live i := fun i hm => by
    obtain ⟨e', he', -, heq⟩ := mem_chain.mp hm
    exact hnew (heq ▸ List.mem_map_of_mem he')
  rw [chain_append]
  by_cases hi : t.cfg.index e.key = i
  · subst hi
    have hself : chain t.cfg [e] (t.cfg.index e.key) = [e.addr] := by
      rw [chain, bucket_cons, if_pos rfl]
      rfl
    rw [hself]
    exact (h.ring _).enter (hnot _)
  · have hother : chain t.cfg [e] i = [] := by
      rw [chain, bucket_cons, if_neg hi]
      rfl
    rw [hother, List.append_nil]
    -- the links of the other rings are not set
    refine (h.ring i).congr fun a ha => (h.ring _).enter_other (hnot _)
      (fun ha' => hi ?_) fun hae => ?_
    · exact chain_disjoint h.nodup ha' ha
    · exact hnot i (hae ▸ ha)

/-- **A new element is the last of its ring**, and the first if the bin was empty. -/
theorem Linked.with_ (h : Linked t live) {e : Entry} (hfree : t.elems e.addr = none)
    (hacc : t.cfg.accepts e.key = true)
    (hserial : e.serial = t.made) (node : Addr) :
    Linked (t.with_ e node (chain t.cfg live (t.cfg.index e.key)).head?) (live ++ [e]) := by
  have hnew : e.addr ∉ live.map Entry.addr := fun hm => by
    have := h.isSome hm
    rw [hfree] at this
    cases this
  exact {
    ring := h.ring_with hnew
    elem_eq := by
      intro e' he'
      show ∃ node', (if e'.addr = e.addr then some { e.elem with pANode := some node } else
        t.elems e'.addr) = _
      rcases List.mem_append.mp he' with he' | he'
      · rw [if_neg fun heq : e'.addr = e.addr => hnew (heq ▸ List.mem_map_of_mem he')]
        exact h.elem_eq e' he'
      · obtain rfl := List.mem_singleton.mp he'
        exact ⟨some node, if_pos rfl⟩
    dom := by
      intro p hp
      have hp :
        (if p = e.addr then some { e.elem with pANode := some node } else t.elems p).isSome =
        true := hp
      rw [List.map_append, List.mem_append]
      split at hp
      · next hpe => exact .inr (List.mem_singleton.mpr hpe)
      · exact .inl (h.dom p hp)
    nodup := by
      rw [List.map_append]
      refine List.nodup_append.mpr ⟨h.nodup, List.nodup_singleton _, fun a ha b hb hab => ?_⟩
      obtain rfl : b = e.addr := List.mem_singleton.mp hb
      exact hnew (hab ▸ ha)
    home := by
      intro e' he'
      rcases List.mem_append.mp he' with he' | he'
      · exact h.home e' he'
      · exact List.mem_singleton.mp he' ▸ hacc
    serial_lt := by
      intro e' he'
      show e'.serial < t.made + 1
      rcases List.mem_append.mp he' with he' | he'
      · exact Nat.lt_succ_of_lt (h.serial_lt e' he')
      · rw [List.mem_singleton.mp he', hserial]
        exact Nat.lt_succ_self _
    sorted := by
      refine List.pairwise_append.mpr ⟨h.sorted, List.pairwise_singleton .., fun a ha b hb => ?_⟩
      rw [List.mem_singleton.mp hb, hserial]
      exact h.serial_lt a ha
    -- its number is the next one, so nothing was released under it
    fresh := by
      intro e' he' hrel
      rcases List.mem_append.mp he' with he' | he'
      · exact h.fresh e' he' hrel
      · rw [List.mem_singleton.mp he', hserial] at hrel
        exact Nat.lt_irrefl _ (h.released_lt _ hrel)
    released_lt := fun b hb => Nat.lt_succ_of_lt (h.released_lt b hb)
    count := by
      show t.mNumberOfElement + 1 = _
      rw [h.count, List.length_append, UInt32.ofNat_add]
      rfl }

/-- **A new element keeps the invariant**, at the head of its chain and at the end of the list. -/
theorem Inv.with_ (h : Inv n t live hist) {e : Entry} (hfree : t.elems e.addr = none)
    (hacc : t.cfg.accepts e.key = true)
    (hserial : e.serial = t.made) {node : Addr} (hnode : t.nodes node = none)
    (hroot : node ≠ dataRoot) :
    Inv n (t.with_ e node (chain t.cfg live (t.cfg.index e.key)).head?) (live ++ [e])
    (hist ++ [(node, e.addr)]) where
  toLinked := h.toLinked.with_ hfree hacc hserial node
  toNoded := h.toNoded.with_ e hnode hroot _
  valid := h.valid
  bins_length := by
    show (if _ then _ else _ : List _).length = n
    split
    · rw [List.length_set, h.bins_length]
    · exact h.bins_length
  head_eq := by
    intro i hi
    have hlt := h.valid.index_lt hacc
    have hhead := h.head_eq i hi
    show (if _ then _ else _ : List (Option Addr))[i]? = some (chain t.cfg (live ++ [e]) i).head?
    rw [chain_append]
    by_cases hie : t.cfg.index e.key = i
    · subst hie
      have hself : chain t.cfg [e] (t.cfg.index e.key) = [e.addr] := by
        rw [chain, bucket_cons, if_pos rfl]
        rfl
      rw [hself]
      cases hc : chain t.cfg live (t.cfg.index e.key) with
      | nil =>
        rw [List.head?_nil, if_pos rfl, List.getElem?_set_self (h.bins_length.symm ▸ hlt)]
        rfl
      | cons p ps =>
        rw [if_neg (by simp), hhead, hc]
        rfl
    · have hother : chain t.cfg [e] i = [] := by
        rw [chain, bucket_cons, if_neg hie]
        rfl
      rw [hother, List.append_nil, ← hhead]
      split
      · exact List.getElem?_set_ne hie
      · rfl

/-- The four assignments of `insertToBin`. -/
theorem Table.link_eq {x p : Addr} (hx : (t.elems x).isSome = true) (hp : (t.elems p).isSome = true)
    (hprev : (t.elems (t.links.prev p)).isSome = true) (hxp : p ≠ x) (k : Table → Run Table) : (do
      let t ← t.setNext x p
      let prev ← t.pPrev p
      let t ← t.setPrev x prev
      let prev ← t.pPrev p
      let t ← t.setNext prev x
      let t ← t.setPrev p x
      k t) = k { t with links := t.links.insertBefore p x } := by
  simp only [setNext, setPrev, pPrev, hx, hp, hprev, if_true, Run.ok_bind, Links.setNext_prev,
    Links.setPrev_prev, hxp,
    if_false, Links.insertBefore]

/-- A new element stands at its own address. -/
theorem construct_elems {e : Entry} (hserial : e.serial = t.made) (q : Addr) :
    (t.construct e.addr e.key e.data).elems q = if q = e.addr then some e.elem else t.elems q := by
  rw [Table.construct, Entry.elem, hserial]

/-- And its copied key is acquired. -/
theorem construct_acquired {e : Entry} (hserial : e.serial = t.made) :
    (t.construct e.addr e.key e.data).acquired = t.acquired ++ e.buffer := by
  rw [Table.construct, Entry.buffer, Entry.elem, hserial]

/-- The node of an element, put on `dataRoot`. -/
theorem Noded.linkNode_eq (h : Noded t hist) {t' : Table} (hlinks : t'.nodeLinks = t.nodeLinks)
    (hnodes : t'.nodes = t.nodes)
    {p : Addr} {x : HashElement} (helem : t'.elems p = some x) (node : Addr) :
    t'.linkNode p node = .ok { t' with
      nodes := fun q => if q = node then some p else t'.nodes q
      elems := fun q => if q = p then some { x with pANode := some node } else t'.elems q
      nodeLinks := t'.nodeLinks.enter (some dataRoot) node } := by
  have hlast : t'.nodeLinks.prev dataRoot = dataRoot ∨
      (if t'.nodeLinks.prev dataRoot = node then some p else
        t'.nodes (t'.nodeLinks.prev dataRoot)).isSome = true := by
    rw [hlinks, hnodes]
    refine h.last.imp_right fun hsome => ?_
    split
    · rfl
    · exact hsome
  simp only [Table.linkNode, Table.elem, helem, Run.ok_bind, hlast, if_true, Links.enter]

/-- **`insertToBin` on a new element.** -/
theorem insertToBin_spec (h : Inv n t live hist) {e : Entry} (hfree : t.elems e.addr = none)
    (hacc : t.cfg.accepts e.key = true)
    (hserial : e.serial = t.made) (node : Addr) :
    (t.construct e.addr e.key e.data).insertToBin (t.cfg.index e.key) e.addr node =
      .ok (t.with_ e node (chain t.cfg live (t.cfg.index e.key)).head?) := by
  have hlt := h.valid.index_lt hacc
  have hbin := h.bin hlt
  have hring := h.ring (t.cfg.index e.key)
  have hmem : ∀ p ∈ chain t.cfg live (t.cfg.index e.key), (t.elems p).isSome = true :=
    fun p hp => h.isSome_of_chain hp
  -- the chain of the bin, of which only its first element matters
  generalize chain t.cfg live (t.cfg.index e.key) = ps at hbin hring hmem
  have hself : (t.construct e.addr e.key e.data).elems e.addr = some e.elem :=
    (construct_elems hserial e.addr).trans (if_pos rfl)
  have hsome :
    ∀ q, (t.elems q).isSome = true → ((t.construct e.addr e.key e.data).elems q).isSome = true := by
    intro q hq
    rw [construct_elems hserial]
    split
    · rfl
    · exact hq
  have helems : (fun q => if q = e.addr then some { e.elem with pANode := some node }
      else (t.construct e.addr e.key e.data).elems q) =
      fun q => if q = e.addr then some { e.elem with pANode := some node } else t.elems q := by
    funext q
    rw [construct_elems hserial]
    split <;> rfl
  have hbin' : (t.construct e.addr e.key e.data).bin (t.cfg.index e.key) = .ok ps.head? := hbin
  rw [Table.insertToBin, hbin', Run.ok_bind]
  cases ps with
  -- an empty bin gets a pointer, and the element is alone in its ring
  | nil =>
    have hset := Table.setBin_eq (t := t.construct e.addr e.key e.data)
      (show t.cfg.index e.key < t.mpBin.length from
      h.bins_length.symm ▸ hlt) (some e.addr)
    simp only [List.head?_nil, hset, Run.ok_bind]
    rw [h.toNoded.linkNode_eq (x := e.elem)]
    · simp only [Run.ok_bind, helems, construct_acquired hserial]
      rfl
    · rfl
    · rfl
    · exact hself
  -- else it is linked in front of the first element, and the bin's pointer stays
  | cons p ps =>
    have hp := hmem p (List.mem_cons_self ..)
    have hxp : p ≠ e.addr := by
      rintro rfl
      rw [hfree] at hp
      cases hp
    have hprev :
      t.links.prev p ∈ p :: ps := Links.IsRing.prev_mem
      (show t.links.IsRing ([] ++ p :: ps) from hring)
    have hprev1 : (t.construct e.addr e.key e.data).links.prev p = t.links.prev p :=
      (Links.single_other hxp).2
    have hx1 : ((t.construct e.addr e.key e.data).elems e.addr).isSome = true := by rw [hself]; rfl
    have hp1 := hsome p hp
    have hpp1 := hsome _ (hmem _ hprev)
    rw [← hprev1] at hpp1
    simp only [List.head?_cons]
    rw [Table.link_eq hx1 hp1 hpp1 hxp, h.toNoded.linkNode_eq (x := e.elem)]
    · simp only [Run.ok_bind, helems, construct_acquired hserial]
      rfl
    · rfl
    · rfl
    · exact hself

end Insert

end HashTable

end StevenProgram
