/-
  A table over its calls.

  `tableSys` is the table as a transition system: an event is a call with what it returns.  In
  `strictSys` a second release of a buffer ends the run, in `sys` it is only written down.  `Inv`
  holds in every state of both (`reachable_inv`), so every call returns in every state but for a
  `clear` of elements with copied keys under a strict allocator (`returns`), and the pointers are as
  `Chained` says, which is `Inv` told by following them.

  1. **Calls one after the other** — `tableSys`, `step_spec`, `reachable_inv`.
  2. **Copies of the keys** — `Bare`, `ClearsBare`, `returns`.
  3. **Rings** — `Chained`.
  4. **Counting** — the number of elements is kept in 32 bits, and tables grow past that.
-/
import Mathlib.Data.Fintype.EquivFin
import StevenProgram.Lib.TransSys
import StevenProgram.Table.Calls

namespace StevenProgram

namespace HashTable

/-! ## Calls one after the other

  Any call may follow any other, on any addresses that are free; a call that does not return is no
  step. -/

/-- A call with what it returns. -/
abbrev Call : Type := HashOp × HashRet

/-- The table from its construction on, under an allocator that is strict or not. -/
def tableSys (strict : Bool) (numberOfBin : UInt32) (hashType : HashType_e) (duplicateNum : Int32) :
    TransSys Table Call where
  init := { mxHashTable numberOfBin hashType duplicateNum with strict }
  step t call :=
    if Free t call.1 then
      match exec t call.1 with
      | .ok (ret, t') => if ret = call.2 then some t' else none
      | .error _ => none
    else none

/-- A second release of a buffer is written down, and the run goes on. -/
abbrev sys : UInt32 → HashType_e → Int32 → TransSys Table Call := tableSys false

/-- A second release of a buffer ends the run. -/
abbrev strictSys : UInt32 → HashType_e → Int32 → TransSys Table Call := tableSys true

section Runs

variable {strict : Bool} {numberOfBin : UInt32} {hashType : HashType_e} {duplicateNum : Int32}
  {n : Nat} {t t' : Table} {live : List Entry}
  {hist : List (Addr × Addr)} {op : HashOp} {ret : HashRet}

/-- A step is a call on free addresses and its answer. -/
theorem step_iff : (tableSys strict numberOfBin hashType duplicateNum).step t (op, ret) = some t' ↔
    Free t op ∧ exec t op = .ok (ret, t') := by
  show (if Free t op then _ else none) = some t' ↔ _
  by_cases hfree : Free t op
  · rw [if_pos hfree, and_iff_right hfree]
    cases hrun : exec t op with
    | error _ => simp
    | ok r =>
      obtain ⟨ret1, t1⟩ := r
      by_cases hret : ret1 = ret
      · subst hret
        simp
      · simp [hret]
  · rw [if_neg hfree]
    exact ⟨nofun, fun h => absurd h.1 hfree⟩

/-- The table that the constructor makes meets the invariant. -/
theorem init_inv (h1 : 1 ≤ numberOfBin.toNat) (h2 : numberOfBin.toNat < 2147483648) :
    Inv numberOfBin.toNat (tableSys strict numberOfBin hashType duplicateNum).init [] [] where
  ring _ := ⟨List.nodup_nil, Cycle.Chain.nil _⟩
  elem_eq := nofun
  dom := nofun
  nodup := List.nodup_nil
  home := nofun
  serial_lt := nofun
  sorted := .nil
  fresh := nofun
  released_lt := nofun
  count := rfl
  node_ring := Links.isRing_cons.mpr ⟨List.nodup_singleton _, .cons_cons ⟨rfl, rfl⟩ (.singleton _)⟩
  nodes_eq _ _ := ⟨nofun, nofun⟩
  valid := make_valid h1 h2 hashType duplicateNum
  bins_length := List.length_replicate
  head_eq i hi := by
    show (List.replicate numberOfBin.toNat none)[i]? = some none
    rw [List.getElem?_replicate, if_pos hi]

/-- **A step has one of the effects.** -/
theorem step_spec (h : Inv n t live hist)
    (hs : (tableSys strict numberOfBin hashType duplicateNum).step t (op, ret) = some t') :
    ∃ live' hist', Inv n t' live' hist' ∧ Effect t live hist op ret t' live' hist' := by
  obtain ⟨hfree, hrun⟩ := step_iff.mp hs
  rcases exec_spec h hfree with ⟨ret1, t1, live', hist', hrun1, hinv, heff⟩ | ⟨-, hrun1, -⟩
  · rw [hrun] at hrun1
    obtain ⟨rfl, rfl⟩ := Prod.mk.inj (Except.ok.inj hrun1)
    exact ⟨live', hist', hinv, heff⟩
  · cases hrun.symm.trans hrun1

/-- What the constructor sets stays. -/
theorem Effect.cfg_eq {live' : List Entry} {hist' : List (Addr × Addr)}
    (h : Effect t live hist op ret t' live' hist') :
    t'.cfg = t.cfg := by
  cases h with
  | inserted _ _ _ hbook => exact hbook.cfg_eq
  | removed _ _ _ hbook => exact hbook.cfg_eq
  | cleared _ _ hbook => exact hbook.cfg_eq
  | _ => rfl

/-- The allocator stays the same. -/
theorem Effect.strict_eq {live' : List Entry} {hist' : List (Addr × Addr)}
    (h : Effect t live hist op ret t' live' hist') :
    t'.strict = t.strict := by
  cases h with
  | inserted _ _ _ hbook => exact hbook.strict_eq
  | removed _ _ _ hbook => exact hbook.strict_eq
  | cleared _ _ hbook => exact hbook.strict_eq
  | _ => rfl

/-- **Every reachable table meets the invariant**, and its memory is as strict as at first. -/
theorem reachable_inv (h1 : 1 ≤ numberOfBin.toNat) (h2 : numberOfBin.toNat < 2147483648)
    (h : (tableSys strict numberOfBin hashType duplicateNum).Reachable t) :
    ∃ live hist, Inv numberOfBin.toNat t live hist ∧ t.strict = strict := by
  refine TransSys.Runs.invariant (I := fun t => ∃ live hist, Inv numberOfBin.toNat t live hist ∧
    t.strict = strict)
    ⟨[], [], init_inv h1 h2, rfl⟩ ?_ h
  rintro t ⟨op, ret⟩ t' ⟨live, hist, hinv, hstrict⟩ hs -
  obtain ⟨live', hist', hinv', heff⟩ := step_spec hinv hs
  exact ⟨live', hist', hinv', heff.strict_eq.trans hstrict⟩

/-- There is always memory for another element. -/
theorem Inv.exists_free (h : Inv n t live hist) (key : HashKey) (pData : UInt64) :
    ∃ pEle node, Free t (.insert key pData pEle node) := by
  obtain ⟨pEle, hp⟩ := Infinite.exists_notMem_finset (live.map Entry.addr).toFinset
  obtain ⟨node, hq⟩ := Infinite.exists_notMem_finset (dataRoot :: hist.map Prod.fst).toFinset
  rw [List.mem_toFinset] at hp hq
  refine ⟨pEle, node, ?_, ?_, fun hroot => hq (hroot ▸ List.mem_cons_self ..)⟩
  · exact Option.not_isSome_iff_eq_none.mp fun hsome => hp (h.dom pEle hsome)
  · refine Option.eq_none_iff_forall_ne_some.mpr fun p hnode => hq (List.mem_cons_of_mem _ ?_)
    exact List.mem_map_of_mem (f := Prod.fst) ((h.nodes_eq node p).mp hnode)

end Runs

/-! ## Copies of the keys

  Which calls return is decided before they begin, by the elements that have a copy. -/

/-- No element has a copy of its key. -/
def Bare (t : Table) : Prop := ∀ p e, t.elems p = some e → e.pKey = none

/-- A call that clears nothing but elements without a copy. -/
def ClearsBare (t : Table) : HashOp → Prop
  | .clear => Bare t
  | _ => True

section Copies

variable {n : Nat} {t : Table} {live : List Entry} {hist : List (Addr × Addr)} {op : HashOp}
  {e : Entry}

/-- An element without a copied key. -/
theorem buffer_eq_nil_iff : e.buffer = [] ↔ e.elem.pKey = none := by
  rw [Entry.buffer, HashElement.buffer]
  cases e.elem.pKey <;> simp

/-- The table is bare when its live elements have no buffers. -/
theorem bare_iff (h : Linked t live) : Bare t ↔ ∀ e ∈ live, e.buffer = [] := by
  constructor
  · intro hbare e he
    obtain ⟨node, helem⟩ := h.elem_eq e he
    exact buffer_eq_nil_iff.mpr (show ({ e.elem with pANode := node } : HashElement).pKey =
      none from hbare e.addr _ helem)
  · intro hall p e he
    obtain ⟨e', he', -, node, rfl⟩ := h.entry_of he
    exact buffer_eq_nil_iff.mp (hall e' he')

/-- The run ends when the allocator is strict and the table is not bare. -/
theorem stops_iff (h : Linked t live) : Stops t live ↔ t.strict = true ∧ ¬ Bare t := by
  rw [Stops, bare_iff h]
  simp

/-- **A call returns**, or it is a `clear` of elements with copies and the allocator ends the
    run. -/
theorem returns (h : Inv n t live hist) (hfree : Free t op)
    (hop : t.strict = true → ClearsBare t op) :
    ∃ r, exec t op = .ok r := by
  rcases exec_spec h hfree with ⟨ret, t', live', hist', hrun, -⟩ | ⟨rfl, -, hstops⟩
  · exact ⟨_, hrun⟩
  · obtain ⟨hstrict, hbare⟩ := (stops_iff h.toLinked).mp hstops
    exact absurd (hop hstrict) hbare

/-- A clear of a copied key faults. -/
theorem returns_not (h : Inv n t live hist) (hstrict : t.strict = true) (hop : ¬ ClearsBare t op) :
    exec t op = .error .doubleFree := by
  cases op with
  | clear =>
    rcases clear_spec h with ⟨t', -, -, hs⟩ | ⟨hrun, -⟩
    · exact absurd ((stops_iff h.toLinked).mpr ⟨hstrict, hop⟩) hs.not_stops
    · rw [exec, hrun]
      rfl
  | _ => exact absurd trivial hop

/-- The destructor of the table clears it. -/
theorem Inv.destroy (h : Inv n t live hist) (hbare : t.strict = true → Bare t) :
    ∃ t', t.destroy = .ok t' ∧ t'.acquired = t.acquired ∧
      ∃ gone, t'.released = t.released ++ gone ∧ gone.Perm (live.flatMap Entry.twice) := by
  rcases clear_spec h with ⟨t1, hrun, -, hs⟩ | ⟨-, hstops⟩
  · obtain ⟨gone, hgone, hperm⟩ := hs.log
    refine ⟨{ t1 with mpBin := [] }, ?_, hs.acquired_eq, gone, hgone, by simpa using hperm⟩
    rw [Table.destroy, hrun]
    rfl
  · obtain ⟨hstrict, hnot⟩ := (stops_iff h.toLinked).mp hstops
    exact absurd (hbare hstrict) hnot

/-- And so does the destruction. -/
theorem Inv.destroy_not (h : Inv n t live hist) (hstrict : t.strict = true) (hbare : ¬ Bare t) :
    t.destroy = .error .doubleFree := by
  rcases clear_spec h with ⟨t1, -, -, hs⟩ | ⟨hrun, -⟩
  · exact absurd ((stops_iff h.toLinked).mpr ⟨hstrict, hbare⟩) hs.not_stops
  · rw [Table.destroy, hrun]
    rfl

end Copies

/-! ## Rings

  `Chained` does not mention `Linked` or the lists of the invariant: it follows the pointers of the
  table as a reader with a debugger would. -/

/-- Whether `p` is met on the way along `pNext` from the first element of a bin. -/
def Table.InBin (t : Table) (i : Nat) (p : Addr) : Prop :=
  ∃ head k, t.mpBin[i]? = some (some head) ∧ t.links.next^[k] head = p

/-- The elements of the table are `live`, in the order of their insertion, and the pointers are
    intact. -/
structure Chained (n : Nat) (t : Table) (live : List Entry) : Prop where
  elems : ∀ p, (t.elems p).isSome = true ↔ p ∈ live.map Entry.addr
  elem_eq : ∀ e ∈ live, ∃ node, t.elems e.addr = some { e.elem with pANode := node }
  order : live.Pairwise fun a b => a.serial < b.serial
  /-- no element points to a deleted one -/
  neighbours :
    ∀ e ∈ live, (t.elems (t.links.next e.addr)).isSome = true ∧
    (t.elems (t.links.prev e.addr)).isSome = true
  inverse :
    ∀ e ∈ live, t.links.next (t.links.prev e.addr) = e.addr ∧
    t.links.prev (t.links.next e.addr) = e.addr
  /-- from the first element of a bin `pNext` runs through those of the bin in order, and back -/
  walk : ∀ i, i < n → t.mpBin[i]? = some (chain t.cfg live i).head? ∧ ∀ head,
    t.mpBin[i]? = some (some head) →
    ∀ k, (chain t.cfg live i)[k % (chain t.cfg live i).length]? = some (t.links.next^[k] head)
  /-- an element is met in the bin of its key and in no other -/
  in_bin : ∀ e ∈ live, ∃ i, i < n ∧ (t.cfg.findBinIndex e.key).toInt = i ∧ ∀ j, j < n →
    (t.InBin j e.addr ↔ j = i)
  count : t.mNumberOfElement = UInt32.ofNat live.length

section Chains

variable {n : Nat} {t : Table} {live : List Entry} {hist : List (Addr × Addr)}

/-- Walking from the head of a bin goes round its chain. -/
theorem Inv.walk (h : Inv n t live hist) {i : Nat} (hi : i < n) {head : Addr}
    (hhead : t.mpBin[i]? = some (some head)) (k : Nat) :
    (chain t.cfg live i)[k % (chain t.cfg live i).length]? = some (t.links.next^[k] head) := by
  have hring := h.ring i
  have heq := h.head_eq i hi
  rw [hhead] at heq
  generalize chain t.cfg live i = ps at hring heq
  cases ps with
  | nil => cases heq
  | cons p ps =>
    obtain rfl : head = p := Option.some.inj (Option.some.inj heq)
    exact hring.iterate k

/-- **What is met in a bin is what belongs to it.** -/
theorem Inv.in_bin_iff (h : Inv n t live hist) {i : Nat} (hi : i < n) {p : Addr} :
    t.InBin i p ↔ p ∈ chain t.cfg live i := by
  constructor
  · rintro ⟨head, k, hhead, rfl⟩
    exact List.mem_of_getElem? (h.walk hi hhead k)
  · intro hp
    obtain ⟨k, hk, hkp⟩ := List.getElem_of_mem hp
    have heq := h.head_eq i hi
    cases hc : chain t.cfg live i with
    | nil =>
      rw [hc] at hp
      cases hp
    | cons head ps =>
      rw [hc] at heq
      refine ⟨head, k, heq, ?_⟩
      have hwalk := h.walk hi heq k
      rw [Nat.mod_eq_of_lt hk, List.getElem?_eq_getElem hk, hkp] at hwalk
      exact (Option.some.inj hwalk).symm

/-- The chains and the list, as the invariant tells them. -/
theorem Inv.chained (h : Inv n t live hist) : Chained n t live where
  elems p := ⟨h.dom p, h.isSome⟩
  elem_eq := h.elem_eq
  order := h.sorted
  neighbours e he := by
    obtain ⟨l1, l2, rfl⟩ := List.append_of_mem he
    exact h.toLinked.neighbours.symm
  inverse e he := by
    obtain ⟨l1, l2, rfl⟩ := List.append_of_mem he
    exact h.toLinked.ring_split.inverse
  walk i hi := ⟨h.head_eq i hi, fun _ hhead k => h.walk hi hhead k⟩
  in_bin e he := by
    refine ⟨t.cfg.index e.key, h.valid.index_lt (h.home e he), h.valid.index_eq (h.home e he),
      fun j hj => ?_⟩
    rw [h.in_bin_iff hj, mem_chain]
    constructor
    · rintro ⟨e', he', rfl, haddr⟩
      rw [entry_unique h.nodup he' he haddr]
    · rintro rfl
      exact ⟨e, he, rfl, rfl⟩
  count := h.count

end Chains

/-- **The rings are intact whatever has been called**, and no loop runs on: every call returns, and
    the destructor of the table does, but for a `clear` or a destruction that comes upon an element
    with a copy of its key, in which the copy is released twice. -/
theorem chains_intact (numberOfBin : UInt32) (hashType : HashType_e) (duplicateNum : Int32)
    (h1 : 1 ≤ numberOfBin.toNat)
    (h2 : numberOfBin.toNat < 2147483648) {t : Table}
    (h : (strictSys numberOfBin hashType duplicateNum).Reachable t) :
    (∃ live, Chained numberOfBin.toNat t live) ∧
    (∀ op, Free t op → (ClearsBare t op → ∃ r, exec t op = .ok r) ∧
      (¬ ClearsBare t op → exec t op = .error .doubleFree)) ∧
    (Bare t → ∃ t', t.destroy = .ok t') ∧ (¬ Bare t → t.destroy = .error .doubleFree) := by
  obtain ⟨live, hist, hinv, hstrict⟩ := reachable_inv h1 h2 h
  refine ⟨⟨live, hinv.chained⟩, fun op hfree => ⟨fun hop => returns hinv hfree fun _ => hop,
    returns_not hinv hstrict⟩,
    fun hbare => ?_, hinv.destroy_not hstrict⟩
  obtain ⟨t', hrun, -⟩ := hinv.destroy fun _ => hbare
  exact ⟨t', hrun⟩

/-- Three bins of pairs: two insertions into one bin, and the older element taken out again. -/
theorem chains_intact_pairs : ∃ t, (strictSys 3 .INT64Type 0).exec (strictSys 3 .INT64Type 0).init
      [(.insert (.pair 1 2) 7 10 1, .done true), (.insert (.pair 4 2) 8 11 2, .done true),
        (.remove (.pair 1 2), .data 7)] = some t ∧
    (∃ live, Chained 3 t live) ∧
    (∀ op, Free t op → (ClearsBare t op → ∃ r, exec t op = .ok r) ∧
      (¬ ClearsBare t op → exec t op = .error .doubleFree)) ∧
    (Bare t → ∃ t', t.destroy = .ok t') ∧ (¬ Bare t → t.destroy = .error .doubleFree) := by
  obtain ⟨t, ht⟩ : ∃ t, (strictSys 3 .INT64Type 0).exec (strictSys 3 .INT64Type 0).init
    [(.insert (.pair 1 2) 7 10 1, .done true), (.insert (.pair 4 2) 8 11 2, .done true),
      (.remove (.pair 1 2), .data 7)] = some t :=
    ⟨_, rfl⟩
  exact ⟨t, ht, chains_intact 3 .INT64Type 0 (by decide) (by decide)
    (TransSys.Reachable.exec .init _ ht)⟩

/-! ## Counting

  `mNumberOfElement` is a `u32_t`, and nothing stops a table from having more elements than that. -/

/-- A table can grow to any number of elements, by induction on it: in a table that takes duplicates
    an insertion is never refused. -/
theorem grows (k : Nat) : ∃ t live hist, (strictSys 1 .INT32Type 1).Reachable t ∧
    Inv 1 t live hist ∧
    t.cfg = HashConfig.make 1 .INT32Type 1 ∧ live.length = k := by
  induction k with
  | zero =>
    exact ⟨_, [], [], .init, init_inv (show 1 ≤ (1 : UInt32).toNat by decide) (by decide), rfl, rfl⟩
  | succ k ih =>
    obtain ⟨t, live, hist, hreach, hinv, hcfg, hlen⟩ := ih
    obtain ⟨pEle, node, hfree⟩ := hinv.exists_free (.int 0) 0
    obtain ⟨ret, t', live', hist', hrun, hinv', heff⟩ :=
      (exec_spec hinv hfree).resolve_right fun hc => (by cases hc.1)
    have hcfg' := heff.cfg_eq.trans hcfg
    refine ⟨t', live', hist', .step hreach (step_iff.mpr ⟨hfree, hrun⟩) trivial, hinv', hcfg', ?_⟩
    cases heff with
    | inserted he hacc hdup hbook => rw [List.length_append, hlen, List.length_singleton]
    | refused hwhy =>
      rw [hcfg] at hwhy
      rcases hwhy with hacc | ⟨hdup, -⟩
      · exact absurd hacc (by decide)
      · exact absurd hdup (by decide)

/-- After 4294967296 insertions the count is zero. -/
theorem count_wraps : ¬ ∀ t, (strictSys 1 .INT32Type 1).Reachable t → ∀ l : List Addr, l.Nodup →
    (∀ p, p ∈ l ↔ (t.elems p).isSome = true) → t.mNumberOfElement.toNat = l.length := by
  intro hall
  obtain ⟨t, live, hist, hreach, hinv, -, hlen⟩ := grows 4294967296
  have hcount := hall t hreach (live.map Entry.addr) hinv.nodup fun p => (hinv.chained.elems p).symm
  rw [hinv.count, List.length_map, hlen] at hcount
  cases hcount

end HashTable

end StevenProgram
