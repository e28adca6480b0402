/-
  What the calls on a table do.

  In a table that satisfies `Inv` no loop runs out of turns, and one call can fault: a `clear` that
  comes upon an element with a copy of its key, where the allocator minds (`Stops`).  What a call
  returns and what it does to the elements is an `Effect`, in terms of the list of live elements
  alone: `insert` appends one or refuses, `find` looks for the first with the key, `remove` takes
  that one out, `clear` takes all of them.

  The list of live elements is what makes these statements short: the heap has as many pointers as
  it has elements, and every one of them is settled by that list and the order in it.

  1. **Searching** — `search_spec`, `find_spec`.
  2. **Removing** — `remove_hit`, `remove_none`.
  3. **Clearing** — `clear_spec`; an element at a time, from the last of a ring to its first, as far
     as the allocator lets it.
  4. **Calls** — `Effect`, `exec_spec`.
-/
import StevenProgram.Table.Chains

namespace StevenProgram

namespace HashTable

/-! ## Searching

  The loop goes round the ring once, from the oldest element of the bin to the youngest, so the
  first it meets with the key is the oldest. -/

section Search

variable {n : Nat} {t : Table} {live : List Entry} {hist : List (Addr × Addr)} {key : HashKey}

/-- The chain of a bin is the addresses of its elements. -/
theorem chain_eq {c : HashConfig} {i : Nat} {es : List Entry} (h : bucket c live i = es) :
    chain c live i = es.map Entry.addr := by
  rw [chain, h]

/-- An element of a bin is in the table. -/
theorem mem_of_bucket {c : HashConfig} {i : Nat} {pre suf : List Entry} {x : Entry}
    (h : bucket c live i = pre ++ x :: suf) :
    x ∈ live := by
  have hx : x ∈ bucket c live i := by
    rw [h]
    exact List.mem_append_right pre (List.mem_cons_self ..)
  exact (mem_bucket.mp hx).1

/-- An element keeps its data. -/
theorem elem_pData (e : Entry) : e.elem.pData = e.data := by
  rw [Entry.elem]
  cases e.key with
  | str key =>
    rw [HashElement.make]
    split <;> rfl
  | _ => rfl

/-- A bin is closed: behind its last element comes its first. -/
theorem Linked.closes (h : Linked t live) {i : Nat} {es : List Entry} {a z : Entry}
    (hb : bucket t.cfg live i = es)
    (ha : es.head? = some a) (hz : es.getLast? = some z) : t.links.Step z.addr a.addr := by
  have hring := h.ring i
  rw [chain_eq hb] at hring
  cases es with
  | nil => cases ha
  | cons b es =>
    obtain rfl : b = a := Option.some.inj ha
    have hlast : ((b :: es).map Entry.addr).getLast? = some z.addr := by
      rw [List.getLast?_map, hz]
      rfl
    exact Links.IsRing.step_last hring hlast

/-- A turn of the loop, at the element `x`. -/
theorem search_turn (h : Linked t live) (hk : t.cfg.accepts key = true) {x : Entry}
    (hmem : x ∈ live) {pOrg : Addr}
    {pNext : Option Addr} (hx : pNext.getD pOrg = x.addr) (hne : some pOrg ≠ pNext) (fuel : Nat) :
    t.search key pOrg (fuel + 1) pNext =
      if x.hit key = true then .ok (some x.addr) else t.search key pOrg fuel
        (some (t.links.next x.addr)) := by
  obtain ⟨node, helem⟩ := h.elem_eq x hmem
  have hsome : (t.elems x.addr).isSome = true := by rw [helem]; rfl
  have hnext : t.pNext x.addr = .ok (t.links.next x.addr) := if_pos hsome
  rw [Table.search, if_neg hne, hx]
  simp only [Table.elem, helem, hnext, Run.ok_bind, isSameKey_eq_hit (h.home x hmem) hk]

/-- The loop from the element `x` of the bin on, by induction on the elements behind it. -/
theorem search_from (h : Linked t live) (hk : t.cfg.accepts key = true) {i : Nat} {a : Entry} :
    ∀ {suf pre : List Entry}
    {x : Entry} {pNext : Option Addr} {fuel : Nat}, bucket t.cfg live i = pre ++ x :: suf →
      (pre ++ [x]).head? = some a →
    pNext.getD a.addr = x.addr → some a.addr ≠ pNext → suf.length + 1 < fuel →
    t.search key a.addr fuel pNext = .ok (((x :: suf).find? (Entry.hit key)).map Entry.addr) := by
  intro suf
  induction suf with
  | nil =>
    intro pre x pNext fuel hb ha hx hne hfuel
    obtain ⟨fuel, rfl⟩ :
      ∃ f, fuel = f + 2 := ⟨fuel - 2, by simp only [List.length_nil] at hfuel; omega⟩
    have hnext : t.links.next x.addr = a.addr := (h.closes hb ha List.getLast?_concat).1
    rw [search_turn h hk (mem_of_bucket hb) hx hne, hnext, List.find?_cons]
    cases hhit : x.hit key with
    | true => rfl
    | false =>
      -- the loop is back at the first element
      rw [if_neg (by decide), Table.search, if_pos rfl]
      rfl
  | cons y suf ih =>
    intro pre x pNext fuel hb ha hx hne hfuel
    obtain ⟨fuel, rfl⟩ : ∃ f, fuel = f + 1 := ⟨fuel - 1, by omega⟩
    have hring := h.ring i
    rw [chain_eq hb, List.map_append, List.map_cons, List.map_cons] at hring
    have hnext : t.links.next x.addr = y.addr := hring.step_of_infix.1
    rw [search_turn h hk (mem_of_bucket hb) hx hne, hnext, List.find?_cons]
    cases hhit : x.hit key with
    | true => rfl
    | false =>
      have hsplit : bucket t.cfg live i = (pre ++ [x]) ++ y :: suf := by
        rw [hb, List.append_assoc]
        rfl
      rw [if_neg (by decide)]
      refine ih hsplit ?_ rfl ?_ (by simp only [List.length_cons] at hfuel; omega)
      · rw [List.head?_append, ha]
        rfl
      · -- the loop is not back at the first element
        intro heq
        have heq := Option.some.inj heq
        have hin : a ∈ pre ++ [x] := List.mem_of_mem_head? ha
        have hnodup := hring.1
        rw [← List.map_cons, ← List.map_cons, ← List.map_append, ← List.singleton_append,
          ← List.append_assoc, List.map_append] at hnodup
        exact (List.nodup_append.mp hnodup).2.2 _ (List.mem_map_of_mem hin) _ (by simp) heq

/-- **The search stops at the oldest element with the key**, and at none for a void key. -/
theorem search_spec (h : Linked t live) (hk : t.cfg.accepts key = true) {a : Entry}
    {as : List Entry}
    (hb : bucket t.cfg live (t.cfg.index key) = a :: as) :
    t.search key a.addr (t.made + 1) none = .ok ((live.find? (Entry.hit key)).map Entry.addr) := by
  have hlen : (a :: as).length ≤ live.length := hb ▸ List.length_filter_le _ live
  have hmade := h.length_le
  rw [← find?_bucket (c := t.cfg), hb]
  refine search_from h hk (show bucket t.cfg live _ = [] ++ a :: as from hb) rfl rfl (by simp) ?_
  simp only [List.length_cons] at hlen
  omega

/-- No element has a key of another shape. -/
theorem find?_refused (h : Linked t live) (hk : t.cfg.accepts key = false) :
    live.find? (Entry.hit key) = none := by
  rw [List.find?_eq_none]
  intro e he hhit
  have hacc := h.home e he
  rw [(hit_iff.mp hhit).1, hk] at hacc
  cases hacc

/-- What a search finds. -/
def found (live : List Entry) (key : HashKey) : Bool × UInt64 :=
  match live.find? (Entry.hit key) with
  | some e => (true, e.data)
  | none => (false, 0)

/-- **`find` returns the data of the oldest element with the key.** -/
theorem find_spec (h : Inv n t live hist) (key : HashKey) : t.find key = .ok (found live key) := by
  rw [Table.find, found]
  cases hk : t.cfg.accepts key with
  | false =>
    rw [HashConfig.findBinIndex_refused hk, find?_refused h.toLinked hk]
    rfl
  | true =>
    show (if t.cfg.findBinIndex key ≠ -1 then _ else _) = _
    rw [if_pos (h.valid.findBinIndex_ne hk), h.valid.index_eq hk, h.bin (h.valid.index_lt hk),
      Run.ok_bind]
    cases hb : bucket t.cfg live (t.cfg.index key) with
    | nil =>
      rw [chain_eq hb, ← find?_bucket (c := t.cfg), hb]
      rfl
    | cons a as =>
      rw [chain_eq hb]
      simp only [List.map_cons, List.head?_cons, search_spec h.toLinked hk hb, Run.ok_bind]
      cases hf : live.find? (Entry.hit key) with
      | none => rfl
      | some e =>
        obtain ⟨node, helem⟩ := h.elem_eq e (List.mem_of_find?_eq_some hf)
        simp only [Option.map_some, Table.elem, helem, Run.ok_bind, elem_pData]

end Search

/-! ## Removing

  The element that goes may be the one the bin points to, and it may be the only one of its bin; the
  code tells the three apart. -/

section Remove

variable {n : Nat} {t : Table} {live l1 l2 : List Entry} {hist : List (Addr × Addr)} {e : Entry}

/-- The bins are no part of the links. -/
theorem Linked.setBins (h : Linked t live) (b : List (Option Addr)) :
    Linked { t with mpBin := b } live :=
  ⟨h.ring, h.elem_eq, h.dom, h.nodup, h.home, h.serial_lt, h.sorted, h.fresh, h.released_lt,
    h.count⟩

/-- Taking an element out, with bins that point to the oldest of the others. -/
theorem Inv.without (h : Inv n t (l1 ++ e :: l2) hist) {log : List Nat}
    (hlog : ∀ b ∈ log, b = e.serial)
    {b : List (Option Addr)} (hlen : b.length = n)
    (hhead : ∀ i, i < n → b[i]? = some (chain t.cfg (l1 ++ l2) i).head?) :
    Inv n (Table.without { t with mpBin := b } e.addr log) (l1 ++ l2) hist where
  toLinked := (h.toLinked.setBins b).without hlog
  toNoded := ⟨h.node_ring, h.nodes_eq⟩
  valid := h.valid
  bins_length := hlen
  head_eq := hhead

/-- The pointer of the element's bin, when the element goes. -/
theorem Inv.head_without (h : Inv n t (l1 ++ e :: l2) hist) {b : List (Option Addr)}
    (hb : b = t.mpBin.set (t.cfg.index e.key) (chain t.cfg (l1 ++ l2) (t.cfg.index e.key)).head?) :
    b.length = n ∧ ∀ i, i < n → b[i]? = some (chain t.cfg (l1 ++ l2) i).head? := by
  subst hb
  refine ⟨by rw [List.length_set, h.bins_length], fun i hi => ?_⟩
  by_cases hie : t.cfg.index e.key = i
  · subst hie
    rw [List.getElem?_set_self (h.bins_length.symm ▸ hi)]
  · rw [List.getElem?_set_ne hie, h.head_eq i hi, chain_other hie]

/-- The loop finds the oldest element with the key. -/
theorem Linked.search_hit (h : Linked t (l1 ++ e :: l2)) (he : e.hit e.key = true)
    (hnone : ∀ a ∈ l1, a.hit e.key = false) :
    ∃ pOrg, (chain t.cfg (l1 ++ e :: l2) (t.cfg.index e.key)).head? = some pOrg ∧
      t.search e.key pOrg (t.made + 1) none = .ok (some e.addr) := by
  have hmem : e ∈ l1 ++ e :: l2 := by simp
  -- in the order of insertion, the first that hits
  have hfind : (l1 ++ e :: l2).find? (Entry.hit e.key) = some e := by
    rw [List.find?_append, List.find?_eq_none.mpr fun a ha =>
      by simp [hnone a ha], List.find?_cons_of_pos he]
    rfl
  cases hb : bucket t.cfg (l1 ++ e :: l2) (t.cfg.index e.key) with
  -- the bin of the key is not empty, as the element is in it
  | nil =>
    have hin := mem_bucket.mpr ⟨hmem, (rfl : t.cfg.index e.key = _)⟩
    rw [hb] at hin
    cases hin
  | cons a as =>
    refine ⟨a.addr, by rw [chain_eq hb]; rfl, ?_⟩
    rw [search_spec h (h.home e hmem) hb, hfind]
    rfl

/-- Whichever branch `remove` takes, the bin then points to the oldest of the others. -/
theorem Inv.unhook_eq (h : Inv n t (l1 ++ e :: l2) hist) {pOrg : Addr}
    (hhead : (chain t.cfg (l1 ++ e :: l2) (t.cfg.index e.key)).head? = some pOrg)
    (k : Table → Run (UInt64 × Table)) :
    (if t.links.prev e.addr = e.addr then do
      let t ← t.setBin (t.cfg.index e.key) none
      k t
    else if e.addr = pOrg then do
      let t ← t.setBin (t.cfg.index e.key) (some (t.links.next e.addr))
      k t
    else k t) =
    k { t with
      mpBin := t.mpBin.set (t.cfg.index e.key)
        (chain t.cfg (l1 ++ l2) (t.cfg.index e.key)).head? } := by
  have hlt := h.valid.index_lt (h.home e (by simp))
  have hbins : (t.cfg.index e.key) < t.mpBin.length := h.bins_length.symm ▸ hlt
  have hring := h.toLinked.ring_split
  have hhead_i := h.head_eq _ hlt
  rw [hhead] at hhead_i
  rw [chain_split] at hhead
  rw [chain_append]
  have hnodup := hring.1
  generalize chain t.cfg l1 (t.cfg.index e.key) = A at hring hhead hnodup
  generalize chain t.cfg l2 (t.cfg.index e.key) = B at hring hhead hnodup
  by_cases hself : t.links.prev e.addr = e.addr
  · -- it is alone in the bin
    obtain ⟨rfl, rfl⟩ := hring.prev_eq_self_iff.mp hself
    rw [if_pos hself, Table.setBin_eq hbins]
    rfl
  · rw [if_neg hself]
    cases A with
    | nil =>
      -- it is the first of the bin
      obtain rfl : e.addr = pOrg := Option.some.inj hhead
      rw [if_pos rfl, Table.setBin_eq hbins]
      cases B with
      | nil => exact absurd (hring.prev_eq_self_iff.mpr ⟨rfl, rfl⟩) hself
      | cons b B =>
        have hnext :=
          (Links.IsRing.step_of_infix (show t.links.IsRing ([] ++ e.addr :: b :: B) from hring)).1
        rw [hnext]
        rfl
    | cons a A =>
      obtain rfl : a = pOrg := Option.some.inj hhead
      have hne : e.addr ≠ a := by
        rintro rfl
        rw [List.cons_append, List.nodup_cons] at hnodup
        exact hnodup.1 (by simp)
      rw [if_neg hne]
      have hsame : t.mpBin.set (t.cfg.index e.key) (some a) = t.mpBin := by
        refine List.ext_getElem? fun j => ?_
        by_cases hj : t.cfg.index e.key = j
        · rw [← hj, List.getElem?_set_self hbins, hhead_i]
        · rw [List.getElem?_set_ne hj]
      rw [List.cons_append, List.head?_cons, hsame]

/-- **`remove` takes out the oldest element with the key.** -/
theorem remove_hit (h : Inv n t (l1 ++ e :: l2) hist) {key : HashKey} (he : e.hit key = true)
    (hnone : ∀ a ∈ l1, a.hit key = false) : ∃ t', t.remove key = .ok (e.data, t') ∧
    Inv n t' (l1 ++ l2) hist ∧
      t'.cfg = t.cfg ∧ t'.made = t.made ∧ t'.acquired = t.acquired ∧ t'.released = t.released ++
        e.buffer ∧
      t'.strict = t.strict := by
  obtain ⟨rfl, hvoid⟩ := hit_iff.mp he
  have hmem : e ∈ l1 ++ e :: l2 := by simp
  have hk := h.home e hmem
  have hlt := h.valid.index_lt hk
  obtain ⟨node, helem⟩ := h.elem_eq e hmem
  have hsome : (t.elems e.addr).isSome = true := by rw [helem]; rfl
  have hnb := h.toLinked.neighbours
  -- the loop finds the element
  obtain ⟨pOrg, hhead, hsearch⟩ := h.toLinked.search_hit he hnone
  -- the bin without the element
  have hb := h.head_without rfl
  refine ⟨_, ?_, h.without (fun _ => mem_buffer) hb.1 hb.2, rfl, rfl, rfl, rfl, rfl⟩
  rw [Table.remove]
  show (if t.cfg.findBinIndex e.key ≠ -1 then _ else _) = _
  rw [if_pos (h.valid.findBinIndex_ne hk), h.valid.index_eq hk, h.bin hlt, Run.ok_bind, hhead]
  have helem' : t.elem e.addr = .ok { e.elem with pANode := node } := by rw [Table.elem, helem]
  have hprev : t.pPrev e.addr = .ok (t.links.prev e.addr) := if_pos hsome
  have hnext : t.pNext e.addr = .ok (t.links.next e.addr) := if_pos hsome
  simp only [hsearch, Run.ok_bind, helem', hprev, hnext]
  refine (h.unhook_eq hhead _).trans ?_
  rw [Table.delete_eq (e := { e.elem with pANode := node })]
  · show Except.ok (e.elem.pData, _) = _
    rw [elem_pData]
    rfl
  · exact helem
  · exact hnb.1
  · exact hnb.2
  · exact fun _ => h.toLinked.owned

/-- Without such an element it does nothing. -/
theorem remove_none (h : Inv n t live hist) {key : HashKey}
    (hnone : live.find? (Entry.hit key) = none) :
    t.remove key = .ok (0, t) := by
  rw [Table.remove]
  cases hk : t.cfg.accepts key with
  | false =>
    rw [HashConfig.findBinIndex_refused hk]
    rfl
  | true =>
    show (if t.cfg.findBinIndex key ≠ -1 then _ else _) = _
    rw [if_pos (h.valid.findBinIndex_ne hk), h.valid.index_eq hk, h.bin (h.valid.index_lt hk),
      Run.ok_bind]
    cases hb : bucket t.cfg live (t.cfg.index key) with
    | nil =>
      rw [chain_eq hb]
      rfl
    | cons a as =>
      rw [chain_eq hb]
      simp only [List.map_cons, List.head?_cons, search_spec h.toLinked hk hb, hnone, Run.ok_bind,
        Option.map_none]

end Remove

/-! ## Clearing

  `Shrunk` says what is left behind any number of discards, and composes.  By `Stops` it is known in
  advance whether the allocator ends the run, since a copy that is live at first is still live when
  its turn comes. -/

section Clear

variable {n : Nat} {t t' t'' : Table} {live live' live'' l1 l2 : List Entry}
  {hist : List (Addr × Addr)} {e : Entry} {i : Nat}

/-- What an element leaves in the log when it is cleared. -/
def Entry.twice (e : Entry) : List Nat := e.buffer ++ e.buffer

/-- What is released twice is the buffer of its element. -/
theorem mem_twice {b : Nat} (h : b ∈ e.twice) : b = e.serial :=
  (List.mem_append.mp h).elim mem_buffer mem_buffer

/-- Clearing these elements ends the run: one of them has a copy of its key, and the allocator
    minds. -/
def Stops (t : Table) (live : List Entry) : Prop := t.strict = true ∧ ∃ e ∈ live, e.buffer ≠ []

/-- Elements have been cleared, and nothing else has happened. -/
structure Shrunk (t : Table) (live : List Entry) (t' : Table) (live' : List Entry) : Prop where
  linked : Linked t' live'
  cfg_eq : t'.cfg = t.cfg
  nodes_eq : t'.nodes = t.nodes
  nodeLinks_eq : t'.nodeLinks = t.nodeLinks
  made_eq : t'.made = t.made
  acquired_eq : t'.acquired = t.acquired
  strict_eq : t'.strict = t.strict
  subset : ∀ e ∈ live', e ∈ live
  log : ∃ log, t'.released = t.released ++ log ∧ (log ++ live'.flatMap Entry.twice).Perm
    (live.flatMap Entry.twice)
  /-- under a strict allocator nothing has been released on the way -/
  quiet : t.strict = true → t'.released = t.released

/-- Nothing taken away. -/
theorem Shrunk.refl (h : Linked t live) : Shrunk t live t live where
  linked := h
  cfg_eq := rfl
  nodes_eq := rfl
  nodeLinks_eq := rfl
  made_eq := rfl
  acquired_eq := rfl
  strict_eq := rfl
  subset _ he := he
  log := ⟨[], (List.append_nil _).symm, .refl _⟩
  quiet _ := rfl

/-- One part of a clear behind another. -/
theorem Shrunk.trans (h : Shrunk t live t' live') (h' : Shrunk t' live' t'' live'') :
    Shrunk t live t'' live'' where
  linked := h'.linked
  cfg_eq := h'.cfg_eq.trans h.cfg_eq
  nodes_eq := h'.nodes_eq.trans h.nodes_eq
  nodeLinks_eq := h'.nodeLinks_eq.trans h.nodeLinks_eq
  made_eq := h'.made_eq.trans h.made_eq
  acquired_eq := h'.acquired_eq.trans h.acquired_eq
  strict_eq := h'.strict_eq.trans h.strict_eq
  subset e he := h.subset e (h'.subset e he)
  log := by
    obtain ⟨log, hlog, hperm⟩ := h.log
    obtain ⟨log', hlog', hperm'⟩ := h'.log
    refine ⟨log ++ log', by rw [hlog', hlog, List.append_assoc], ?_⟩
    rw [List.append_assoc]
    exact (hperm'.append_left log).trans hperm
  quiet hstrict := (h'.quiet (h.strict_eq.trans hstrict)).trans (h.quiet hstrict)

/-- One element is cleared. -/
theorem Shrunk.discard (h : Linked t (l1 ++ e :: l2)) (hbare : t.strict = true → e.buffer = []) :
    Shrunk t (l1 ++ e :: l2) (t.without e.addr e.twice) (l1 ++ l2) where
  linked := h.without fun _ => mem_twice
  cfg_eq := rfl
  nodes_eq := rfl
  nodeLinks_eq := rfl
  made_eq := rfl
  acquired_eq := rfl
  strict_eq := rfl
  subset e' he' := by
    simp only [List.mem_append, List.mem_cons] at he' ⊢
    exact he'.imp_right .inr
  log := by
    refine ⟨e.twice, rfl, ?_⟩
    rw [List.flatMap_append, List.flatMap_append, List.flatMap_cons]
    exact List.perm_append_comm_assoc ..
  quiet hstrict := by
    show t.released ++ e.twice = t.released
    rw [Entry.twice, hbare hstrict, List.append_nil, List.append_nil]

/-- **A turn of the clear**: the element is discarded, or it has a copy of its key and a strict
    allocator ends the run. -/
theorem Shrunk.discard_or_stops (h : Linked t (l1 ++ e :: l2)) :
    (t.discard e.addr = .ok (t.without e.addr e.twice) ∧
      Shrunk t (l1 ++ e :: l2) (t.without e.addr e.twice) (l1 ++ l2)) ∨
    (t.discard e.addr = .error .doubleFree ∧ Stops t (l1 ++ e :: l2)) := by
  by_cases hstop : t.strict = true ∧ e.buffer ≠ []
  · exact .inr ⟨h.discard_fault hstop.1 hstop.2, hstop.1, e, by simp, hstop.2⟩
  · have hbare : t.strict = true → e.buffer = [] := fun hstrict =>
      Classical.byContradiction fun hown => hstop ⟨hstrict, hown⟩
    exact .inl ⟨h.discard hbare, .discard h hbare⟩

/-- The bins may be set between. -/
theorem Shrunk.setBins (h : Shrunk t live t' live') (b : List (Option Addr)) :
    Shrunk t live { t' with mpBin := b } live' :=
  ⟨h.linked.setBins b, h.cfg_eq, h.nodes_eq, h.nodeLinks_eq, h.made_eq, h.acquired_eq, h.strict_eq,
    h.subset, h.log, h.quiet⟩

/-- What ends the run later is there from the start. -/
theorem Shrunk.stops (h : Shrunk t live t' live') (hstops : Stops t' live') : Stops t live := by
  obtain ⟨hstrict, e, he, hown⟩ := hstops
  exact ⟨h.strict_eq.symm.trans hstrict, e, h.subset e he, hown⟩

/-- Where everything has been cleared there was nothing to end the run. -/
theorem Shrunk.not_stops (h : Shrunk t live t' []) : ¬ Stops t live := by
  rintro ⟨hstrict, e, he, hown⟩
  obtain ⟨log, hlog, hperm⟩ := h.log
  rw [h.quiet hstrict] at hlog
  obtain rfl : log = [] := List.append_right_eq_self.mp hlog.symm
  obtain ⟨b, hb⟩ := List.exists_mem_of_ne_nil _ hown
  have hmem :
    b ∈ live.flatMap Entry.twice := List.mem_flatMap.mpr ⟨e, he, List.mem_append_left _ hb⟩
  exact absurd (hperm.mem_iff.mpr hmem) List.not_mem_nil

/-- The nodes stay. -/
theorem Shrunk.noded (h : Shrunk t live t' live') (hn : Noded t hist) : Noded t' hist :=
  ⟨h.nodeLinks_eq ▸ hn.node_ring, h.nodes_eq ▸ hn.nodes_eq⟩

/-- A list without repetition has its last element at its end only. -/
theorem append_cons_eq_concat {α : Type} {X Y W : List α} {z : α} (h : X ++ z :: Y = W ++ [z])
    (hz : z ∉ Y) : X = W ∧ Y = [] := by
  rcases List.eq_nil_or_concat Y with rfl | ⟨Y', y, rfl⟩
  · exact ⟨List.append_cancel_right h, rfl⟩
  · rw [List.concat_eq_append, ← List.cons_append, ← List.append_assoc] at h
    obtain rfl : y = z := by simpa using (List.append_inj' h rfl).2
    exact absurd (by simp) hz

/-- An element of a bin, taken out of all the elements. -/
theorem bucket_without {c : HashConfig} {W : List Entry} {z : Entry}
    (hnodup : (live.map Entry.addr).Nodup)
    (h : bucket c live i = W ++ [z]) : ∃ l1 l2, live = l1 ++ z :: l2 ∧ bucket c (l1 ++ l2) i = W ∧
      ∀ j, j ≠ i → bucket c (l1 ++ l2) j = bucket c live j := by
  have hmem : z ∈ bucket c live i := by
    rw [h]
    simp
  obtain ⟨hlive, hi⟩ := mem_bucket.mp hmem
  obtain ⟨l1, l2, rfl⟩ := List.append_of_mem hlive
  -- no second element has this address, so it is not behind itself
  have hz : z ∉ bucket c l2 i := by
    intro hin
    have hn := (List.nodup_append.mp (List.map_append ▸ hnodup)).2.1
    rw [List.map_cons, List.nodup_cons] at hn
    exact hn.1 (List.mem_map_of_mem (mem_bucket.mp hin).1)
  rw [bucket_append, bucket_cons, if_pos hi] at h
  obtain ⟨hW, hnil⟩ := append_cons_eq_concat h hz
  refine ⟨l1, l2, rfl, by rw [bucket_append, hW, hnil, List.append_nil], fun j hj => ?_⟩
  rw [bucket_append, bucket_append, bucket_cons, if_neg fun hij => hj (hij.symm.trans hi)]

/-- **The loop that walks back** clears all elements of the ring but the first, or is ended by the
    allocator.  By induction on the elements behind the first. -/
theorem clearBack_spec {a : Entry} :
    ∀ {as : List Entry} {t : Table} {live : List Entry} {fuel : Nat} {z : Entry}, Linked t live →
    bucket t.cfg live i = a :: as → (a :: as).getLast? = some z → as.length < fuel →
    (∃ t' live', Table.clearBack a.addr fuel t z.addr = .ok t' ∧ Shrunk t live t' live' ∧
      t'.mpBin = t.mpBin ∧
      bucket t.cfg live' i = [a] ∧ ∀ j, j ≠ i → bucket t.cfg live' j = bucket t.cfg live j) ∨
    (Table.clearBack a.addr fuel t z.addr = .error .doubleFree ∧ Stops t live) := by
  intro as
  induction as using List.reverseRecOn with
  -- only the first is left, and the walk has come back to it
  | nil =>
    intro t live fuel z h hb hz hfuel
    obtain rfl : a = z := Option.some.inj hz
    obtain ⟨fuel, rfl⟩ : ∃ f, fuel = f + 1 := ⟨fuel - 1, by omega⟩
    refine .inl ⟨t, live, ?_, .refl h, rfl, hb, fun _ _ => rfl⟩
    rw [Table.clearBack, if_pos rfl]
  | append_singleton bs y ih =>
    intro t live fuel z h hb hz hfuel
    rw [← List.cons_append, List.getLast?_concat] at hz
    obtain rfl : y = z := Option.some.inj hz
    rw [List.length_append, List.length_singleton] at hfuel
    obtain ⟨fuel, rfl⟩ : ∃ f, fuel = f + 1 := ⟨fuel - 1, by omega⟩
    have hring := h.ring i
    rw [chain_eq hb, ← List.cons_append, List.map_append] at hring
    have hne : y.addr ≠ a.addr := by
      intro heq
      exact (List.nodup_append.mp hring.1).2.2 a.addr
        (List.mem_map_of_mem (List.mem_cons_self ..)) y.addr (by simp) heq.symm
    -- the one before the last of the ring is the last of what is left
    obtain ⟨x, hx⟩ := Links.getLast?_isSome a bs
    obtain ⟨init, hinit⟩ : ∃ init, a :: bs = init ++ [x] := by
      rcases List.eq_nil_or_concat (a :: bs) with hnil | ⟨init, w, hw⟩
      · cases hnil
      · rw [hw, List.concat_eq_append, List.getLast?_concat] at hx
        obtain rfl := Option.some.inj hx
        exact ⟨init, hw.trans List.concat_eq_append⟩
    have hprev : t.links.prev y.addr = x.addr := by
      rw [hinit, List.map_append, List.append_assoc] at hring
      exact hring.step_of_infix.2
    have hy : y ∈ live := mem_of_bucket (hb.trans (List.cons_append ..).symm)
    have hsome : (t.elems y.addr).isSome = true := h.isSome (List.mem_map_of_mem hy)
    -- a turn: the last element of the ring is discarded, and the walk goes on from the one before
    -- it
    have hturn : Table.clearBack a.addr (fuel + 1) t y.addr =
        (t.discard y.addr >>= fun t => Table.clearBack a.addr fuel t x.addr) := by
      rw [Table.clearBack, if_neg hne, Table.pPrev, if_pos hsome, Run.ok_bind, hprev]
    obtain ⟨l1, l2, rfl, hbucket, hother⟩ := bucket_without h.nodup
      (hb.trans (List.cons_append ..).symm)
    rcases Shrunk.discard_or_stops h with ⟨hdiscard, hshrunk⟩ | ⟨hdiscard, hstops⟩
    · rw [hdiscard, Run.ok_bind] at hturn
      rcases ih hshrunk.linked hbucket hx (show bs.length < fuel by omega) with
        ⟨t', live', hrun, hs, hbins, hlast, hrest⟩ | ⟨hrun, hstops⟩
      · exact .inl ⟨t', live', hturn.trans hrun, hshrunk.trans hs, hbins, hlast,
          fun j hj => (hrest j hj).trans (hother j hj)⟩
      · exact .inr ⟨hturn.trans hrun, hshrunk.stops hstops⟩
    · refine .inr ⟨?_, hstops⟩
      rw [hturn, hdiscard]
      rfl

/-- **A bin is cleared.** -/
theorem clearBin_spec (h : Inv n t live hist) (hi : i < n) :
    (∃ t' live', t.clearBin i = .ok t' ∧ Inv n t' live' hist ∧
      Shrunk t live t' live' ∧ bucket t.cfg live' i = [] ∧ ∀ j, j ≠ i →
        bucket t.cfg live' j = bucket t.cfg live j) ∨
    (t.clearBin i = .error .doubleFree ∧ Stops t live) := by
  rw [Table.clearBin, h.bin hi, Run.ok_bind]
  cases hb : bucket t.cfg live i with
  -- an empty bin is left as it is
  | nil =>
    rw [chain_eq hb]
    exact .inl ⟨t, live, rfl, h, .refl h.toLinked, hb, fun _ _ => rfl⟩
  | cons a as =>
    rw [chain_eq hb, List.map_cons, List.head?_cons]
    obtain ⟨z, hz⟩ := Links.getLast?_isSome a as
    have ha : a ∈ live := mem_of_bucket (show bucket t.cfg live i = [] ++ a :: as from hb)
    have hsome : (t.elems a.addr).isSome = true := h.isSome (List.mem_map_of_mem ha)
    have hprev : t.links.prev a.addr = z.addr := (h.toLinked.closes hb rfl hz).2
    -- the loop has fuel for every element of the ring
    have hlen : as.length < t.made + 1 := by
      have hle : (a :: as).length ≤ live.length := hb ▸ List.length_filter_le _ live
      have hmade := h.toLinked.length_le
      simp only [List.length_cons] at hle
      omega
    -- the loop clears the ring down to its first element, or the allocator ends the run there
    rcases clearBack_spec h.toLinked hb hz hlen with ⟨t1, live1, hrun, hs1, hbins1, hlast,
      hrest⟩ | ⟨hrun, hstops⟩
    swap
    · refine .inr ⟨?_, hstops⟩
      simp only [Table.pPrev, hsome, if_true, Run.ok_bind, hprev, hrun]
      rfl
    have hcfg := hs1.cfg_eq
    rw [← hcfg] at hlast
    obtain ⟨l1, l2, rfl, hbucket, hother⟩ := bucket_without (W := []) hs1.linked.nodup hlast
    -- the first element is discarded apart, behind the loop
    rcases Shrunk.discard_or_stops hs1.linked with ⟨hdiscard, hs2⟩ | ⟨hdiscard, hstops⟩
    swap
    · refine .inr ⟨?_, hs1.stops hstops⟩
      simp only [Table.pPrev, hsome, if_true, Run.ok_bind, hprev, hrun, hdiscard]
      rfl
    have hlen2 : (t1.without a.addr a.twice).mpBin.length = n :=
      (congrArg List.length hbins1).trans h.bins_length
    -- the bin is empty and the others are as they were
    have hbuckets :
      ∀ j, bucket t1.cfg (l1 ++ l2) j = if j = i then [] else bucket t.cfg live j := by
      intro j
      split
      · next hj => rw [hj, hbucket]
      · next hj => rw [hother j hj, hcfg, hrest j hj]
    refine .inl ⟨_, l1 ++ l2, ?_, ?_, (hs1.trans hs2).setBins (t1.mpBin.set i none), ?_,
      fun j hj => ?_⟩
    · simp only [Table.pPrev, hsome, if_true, Run.ok_bind, hprev, hrun, hdiscard]
      exact Table.setBin_eq (t := t1.without a.addr a.twice) (Nat.lt_of_lt_of_eq hi hlen2.symm) none
    · -- the heads: none for this bin, the old ones for the others
      exact {
        toLinked := hs2.linked.setBins _
        toNoded := ((hs1.trans hs2).setBins (t1.mpBin.set i none)).noded h.toNoded
        valid := hcfg ▸ h.valid
        bins_length := (List.length_set ..).trans hlen2
        head_eq := by
          intro j hj
          show (t1.mpBin.set i none)[j]? = some (chain t1.cfg (l1 ++ l2) j).head?
          rw [chain, hbuckets]
          by_cases hji : j = i
          · subst hji
            rw [if_pos rfl,
              List.getElem?_set_self
              (show j < t1.mpBin.length from Nat.lt_of_lt_of_eq hj hlen2.symm)]
            rfl
          · rw [if_neg hji, List.getElem?_set_ne (Ne.symm hji), hbins1, h.head_eq j hj, chain] }
    · rw [← hcfg, hbuckets, if_pos rfl]
    · rw [← hcfg, hbuckets, if_neg hj, hcfg]

/-- The first `k` bins are cleared, or the allocator has ended the run; by induction on `k`. -/
theorem clearBins_spec (h : Inv n t live hist) : ∀ {k : Nat}, k ≤ n → (∃ t' live',
      (List.range k).foldlM Table.clearBin t = .ok t' ∧ Inv n t' live' hist ∧
      Shrunk t live t' live' ∧
      ∀ j, j < k → bucket t.cfg live' j = []) ∨
    ((List.range k).foldlM Table.clearBin t = .error .doubleFree ∧ Stops t live) := by
  intro k
  induction k with
  | zero =>
    intro _
    exact .inl ⟨t, live, rfl, h, .refl h.toLinked, fun _ hj => absurd hj (Nat.not_lt_zero _)⟩
  | succ k ih =>
    intro hk
    rw [List.range_succ, List.foldlM_append]
    rcases ih (Nat.le_of_succ_le hk) with ⟨t1, live1, hrun1, hinv1, hs1, hempty1⟩ | ⟨hrun1, hstops1⟩
    swap
    · refine .inr ⟨?_, hstops1⟩
      rw [hrun1]
      rfl
    have hlast :
      ((List.range k).foldlM Table.clearBin t >>= fun t => [k].foldlM Table.clearBin t) =
      t1.clearBin k := by
      rw [hrun1, Run.ok_bind, List.foldlM_cons]
      exact bind_pure _
    rw [hlast]
    rcases clearBin_spec hinv1 hk with ⟨t2, live2, hrun2, hinv2, hs2, hempty2, hrest2⟩ | ⟨hrun2,
      hstops2⟩
    · rw [hs1.cfg_eq] at hempty2 hrest2
      refine .inl ⟨t2, live2, hrun2, hinv2, hs1.trans hs2, fun j hj => ?_⟩
      by_cases hjk : j = k
      · rw [hjk, hempty2]
      · rw [hrest2 j hjk, hempty1 j (by omega)]
    · exact .inr ⟨hrun2, hs1.stops hstops2⟩

/-- **`clear` takes everything out**, or the allocator ends the run. -/
theorem clear_spec (h : Inv n t live hist) :
    (∃ t', t.clear = .ok t' ∧ Inv n t' [] hist ∧ Shrunk t live t' []) ∨
    (t.clear = .error .doubleFree ∧ Stops t live) := by
  rw [Table.clear, h.valid.bins_eq]
  refine (clearBins_spec h (Nat.le_refl n)).imp_left ?_
  rintro ⟨t', live', hrun, hinv, hs, hempty⟩
  have hlive : live' = [] := by
    refine List.eq_nil_iff_forall_not_mem.mpr fun e he => ?_
    have hhome := hinv.home e he
    have hin : e ∈ bucket t.cfg live' (t.cfg.index e.key) := mem_bucket.mpr ⟨he, rfl⟩
    rw [hempty _ (h.valid.index_lt (hs.cfg_eq ▸ hhome))] at hin
    cases hin
  subst hlive
  exact ⟨t', hrun, hinv, hs⟩

end Clear

/-! ## Calls

  Every constructor of `Effect` is one way a call can go, with its answer and what it did; the
  invariants of the following modules are proved by cases on it and never look at the code again. -/

/-- What is recorded of a step: the elements constructed, the key buffers acquired and released. -/
structure Booked (t t' : Table) (built : Nat) (got gone : List Nat) : Prop where
  cfg_eq : t'.cfg = t.cfg
  strict_eq : t'.strict = t.strict
  made_eq : t'.made = t.made + built
  acquired_eq : t'.acquired = t.acquired ++ got
  released_eq : t'.released = t.released ++ gone

/-- **What a call returns and does**, by the elements that are live. -/
inductive Effect (t : Table) (live : List Entry) (hist : List (Addr × Addr)) :
    HashOp → HashRet → Table → List Entry → List (Addr × Addr) → Prop
  | inserted {key : HashKey} {pData : UInt64} {pEle node : Addr} {t' : Table} {e : Entry}
  (he : e = ⟨pEle, key, pData, t.made⟩)
      (hacc : t.cfg.accepts key = true) (hdup : t.cfg.mDuplicateNumber = 0 →
        live.find? (Entry.hit key) = none)
      (hbook : Booked t t' 1 e.buffer []) :
      Effect t live hist (.insert key pData pEle node) (.done true) t' (live ++ [e])
        (hist ++ [(node, pEle)])
  | refused {key : HashKey} {pData : UInt64} {pEle node : Addr} (hwhy : t.cfg.accepts key = false ∨
      t.cfg.mDuplicateNumber = 0 ∧ (live.find? (Entry.hit key)).isSome = true) :
      Effect t live hist (.insert key pData pEle node) (.done false) t live hist
  | found {key : HashKey} :
    Effect t live hist (.find key) (.found (found live key).1 (found live key).2) t live hist
  | foundData {key : HashKey} :
    Effect t live hist (.findData key) (.data (found live key).2) t live hist
  | removed {key : HashKey} {t' : Table} {l1 l2 : List Entry} {e : Entry}
    (hlive : live = l1 ++ e :: l2) (hhit : e.hit key = true)
      (hfirst : ∀ a ∈ l1, a.hit key = false) (hbook : Booked t t' 0 [] e.buffer) :
      Effect t live hist (.remove key) (.data e.data) t' (l1 ++ l2) hist
  | missed {key : HashKey} (hnone : live.find? (Entry.hit key) = none) :
      Effect t live hist (.remove key) (.data 0) t live hist
  | cleared {t' : Table} {gone : List Nat} (hstops : ¬ Stops t live)
    (hgone : gone.Perm (live.flatMap Entry.twice)) (hbook : Booked t t' 0 [] gone) :
      Effect t live hist .clear .nothing t' [] hist
  | size : Effect t live hist .size (.count (UInt32.ofNat live.length)) t live hist

section Calls

variable {n : Nat} {t : Table} {live : List Entry} {hist : List (Addr × Addr)}

/-- **`insert` puts an element in**, unless the key is of another shape or a duplicate. -/
theorem insert_spec (h : Inv n t live hist) (key : HashKey) (pData : UInt64) {pEle node : Addr}
    (hfree : t.elems pEle = none)
    (hnode : t.nodes node = none) (hroot : node ≠ dataRoot) :
    ∃ b t' live' hist', t.insert key pData pEle node = .ok (b, t') ∧
      Inv n t' live' hist' ∧ Effect t live hist (.insert key pData pEle node)
      (.done b) t' live' hist' := by
  -- the test for a duplicate
  have hrun : t.insert key pData pEle node =
      if (if t.cfg.mDuplicateNumber = 0 then found live key else (false, 0)).1 = true then
        .ok (false, t)
      else if t.cfg.findBinIndex key ≠ -1 then do
        let t ← (t.construct pEle key pData).insertToBin (t.cfg.findBinIndex key).toInt pEle node
        .ok (true, t)
      else .ok (false, t) := by
    rw [Table.insert]
    by_cases hd : t.cfg.mDuplicateNumber = 0
    · rw [if_pos hd, if_pos hd, find_spec h key]
      rfl
    · rw [if_neg hd, if_neg hd]
      rfl
  by_cases hdup : t.cfg.mDuplicateNumber = 0 ∧ (live.find? (Entry.hit key)).isSome = true
  · obtain ⟨e, he⟩ := Option.isSome_iff_exists.mp hdup.2
    refine ⟨false, t, live, hist, ?_, h, .refused (.inr hdup)⟩
    rw [hrun, if_pos hdup.1, found, he]
    rfl
  · have hdup' : t.cfg.mDuplicateNumber = 0 → live.find? (Entry.hit key) = none := fun hd =>
      Option.not_isSome_iff_eq_none.mp fun hs => hdup ⟨hd, hs⟩
    have hnot :
      (if t.cfg.mDuplicateNumber = 0 then found live key else (false, 0)) = (false, 0) := by
      split
      · next hd => rw [found, hdup' hd]
      · rfl
    rw [hnot, if_neg (by decide)] at hrun
    cases hk : t.cfg.accepts key with
    | false =>
      refine ⟨false, t, live, hist, ?_, h, .refused (.inl hk)⟩
      rw [hrun, HashConfig.findBinIndex_refused hk]
      rfl
    | true =>
      let e : Entry := ⟨pEle, key, pData, t.made⟩
      refine ⟨true, _, _, _, ?_, h.with_ (e := e) hfree hk rfl hnode hroot,
        .inserted rfl hk hdup' ⟨rfl, rfl, rfl, rfl, (List.append_nil _).symm⟩⟩
      rw [hrun, if_pos (h.valid.findBinIndex_ne hk), h.valid.index_eq hk]
      have hspec := insertToBin_spec h (e := e) hfree hk rfl node
      show ((t.construct e.addr e.key e.data).insertToBin (t.cfg.index e.key) e.addr node >>= _) = _
      rw [hspec]
      rfl

/-- **Every call returns**, and has one of the effects, but for a `clear` where the allocator ends
    the run.  The calls one by one, each from its own lemma. -/
theorem exec_spec (h : Inv n t live hist) {op : HashOp} (hfree : Free t op) : (∃ ret t' live' hist',
      exec t op = .ok (ret, t') ∧ Inv n t' live' hist' ∧ Effect t live hist op ret t' live' hist') ∨
    (op = .clear ∧ exec t op = .error .doubleFree ∧ Stops t live) := by
  cases op with
  | insert key pData pEle node =>
    obtain ⟨b, t', live', hist', hrun, hinv, heff⟩ :=
      insert_spec h key pData hfree.1 hfree.2.1 hfree.2.2
    refine .inl ⟨.done b, t', live', hist', ?_, hinv, heff⟩
    rw [exec, hrun]
    rfl
  | find key =>
    refine .inl ⟨_, t, live, hist, ?_, h, .found⟩
    rw [exec, find_spec h key]
    rfl
  | findData key =>
    refine .inl ⟨_, t, live, hist, ?_, h, .foundData⟩
    rw [exec, Table.findData, find_spec h key]
    rfl
  | remove key =>
    cases hf : live.find? (Entry.hit key) with
    | none =>
      refine .inl ⟨.data 0, t, live, hist, ?_, h, .missed hf⟩
      rw [exec, remove_none h hf]
      rfl
    | some e =>
      obtain ⟨hhit, l1, l2, rfl, hfirst⟩ := List.find?_eq_some_iff_append.mp hf
      have hfirst : ∀ a ∈ l1, a.hit key = false := fun a ha => by simpa using hfirst a ha
      obtain ⟨t', hrun, hinv, hcfg, hmade, hacq, hrel, hstrict⟩ := remove_hit h hhit hfirst
      refine .inl ⟨.data e.data, t', l1 ++ l2, hist, ?_, hinv,
        .removed rfl hhit hfirst ⟨hcfg, hstrict, hmade, ?_, hrel⟩⟩
      · rw [exec, hrun]
        rfl
      · rw [hacq, List.append_nil]
  -- the only call that may fault
  | clear =>
    rcases clear_spec h with ⟨t', hrun, hinv, hs⟩ | ⟨hrun, hstops⟩
    · obtain ⟨log, hlog, hperm⟩ := hs.log
      refine .inl ⟨.nothing, t', [], hist, ?_, hinv,
        .cleared hs.not_stops ?_ ⟨hs.cfg_eq, hs.strict_eq, hs.made_eq, ?_, hlog⟩⟩
      · rw [exec, hrun]
        rfl
      · simpa using hperm
      · rw [hs.acquired_eq, List.append_nil]
    · refine .inr ⟨rfl, ?_, hstops⟩
      rw [exec, hrun]
      rfl
  | size =>
    refine .inl ⟨_, t, live, hist, ?_, h, .size⟩
    rw [exec, Table.size, h.count]

end Calls

end HashTable

end StevenProgram
