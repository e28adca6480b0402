/-
  The list of all elements.

  Every insertion puts a node on `dataRoot`, and nothing takes one off: `remove` and `clear` have
  their calls of `destroyNode` commented out.  So the nodes mirror the bins while nothing is taken
  out, and never again after that (`Inv.lags`).

  `hist` of the invariant is the history of all insertions.  `Mirrored` compares it with what is
  live: equal while nothing is taken out, longer ever after, because an insertion adds to both and
  no call shortens it.
-/
import StevenProgram.Table.Runs

namespace StevenProgram

namespace HashTable

/-- On `dataRoot` is one node for each element, in the order of their insertion, and as many as are
    counted. -/
def Mirrored (n : Nat) (t : Table) : Prop :=
  ∃ live qs, Chained n t live ∧ t.nodeLinks.IsRing (dataRoot :: qs) ∧
    qs.map t.nodes = live.map (fun e => some e.addr) ∧ t.mNumberOfElement.toNat = qs.length

/-- Another element would still be counted. -/
def Room (t : Table) : Prop :=
  ∀ l : List Addr, l.Nodup → (∀ p ∈ l, (t.elems p).isSome = true) → l.length + 1 < 4294967296

/-- A call that takes nothing out. -/
def TakesNothing (t : Table) : HashOp → Prop
  | .insert .. => Room t
  | .remove key => t.cfg.accepts key = true → ∀ p e, t.elems p = some e → e.isSameKey key = false
  | .clear => ∀ p, t.elems p = none
  | .find _ | .findData _ | .size => True

section Mirror

variable {n : Nat} {t t' : Table} {live live' : List Entry} {hist hist' : List (Addr × Addr)}
  {op : HashOp} {ret : HashRet}

/-- The nodes of the list hold the elements, in order. -/
theorem Noded.nodes_map (h : Noded t hist) :
    (hist.map Prod.fst).map t.nodes = (hist.map Prod.snd).map some := by
  rw [List.map_map, List.map_map]
  exact List.map_congr_left fun x hx => (h.nodes_eq x.1 x.2).mpr hx

/-- The invariant says that the table is mirrored, where list and chains hold the same elements. -/
theorem Inv.mirrored (h : Inv n t live hist) (hhist : hist.map Prod.snd = live.map Entry.addr)
    (hlt : live.length < 4294967296) :
    Mirrored n t := by
  refine ⟨live, hist.map Prod.fst, h.chained, h.node_ring, ?_, ?_⟩
  · rw [h.toNoded.nodes_map, hhist, List.map_map]
    rfl
  · have hlen : hist.length = live.length := by simpa using congrArg List.length hhist
    rw [h.count, List.length_map, hlen]
    exact Nat.mod_eq_of_lt hlt

/-- `remove` takes nothing out when no live element has the key. -/
theorem takesNothing_remove_iff (h : Linked t live) {key : HashKey} :
    TakesNothing t (.remove key) ↔ live.find? (Entry.hit key) = none := by
  rw [List.find?_eq_none]
  constructor
  · intro hop e he hhit
    have hacc := h.home e he
    obtain ⟨rfl, -⟩ := hit_iff.mp hhit
    obtain ⟨node, helem⟩ := h.elem_eq e he
    have hsame := isSameKey_eq_hit hacc hacc node
    rw [hop hacc e.addr _ helem, hhit] at hsame
    cases hsame
  · intro hnone hacc p e he
    obtain ⟨e', he', -, node, rfl⟩ := h.entry_of he
    rw [isSameKey_eq_hit (h.home e' he') hacc]
    exact Bool.eq_false_iff.mpr (hnone e' he')

/-- **Step lemma.** -/
theorem effect_mirrored (h : Inv n t live hist) (hhist : hist.map Prod.snd = live.map Entry.addr)
    (hlt : live.length < 4294967296) (hop : TakesNothing t op)
    (heff : Effect t live hist op ret t' live' hist') :
    hist'.map Prod.snd = live'.map Entry.addr ∧ live'.length < 4294967296 := by
  cases heff with
  | inserted he _ _ _ =>
    refine ⟨by rw [List.map_append, List.map_append, hhist, he]; rfl, ?_⟩
    have hroom := hop (live.map Entry.addr) h.nodup fun p hp => h.isSome hp
    rw [List.length_map] at hroom
    rwa [List.length_append, List.length_singleton]
  | @removed key t' l1 l2 e hlive hhit _ _ =>
    -- there is no such element
    have hnone := List.find?_eq_none.mp ((takesNothing_remove_iff h.toLinked).mp hop)
    have hmem : e ∈ live := by simp [hlive]
    exact absurd hhit (hnone e hmem)
  | cleared _ _ _ =>
    obtain rfl := h.toLinked.empty_iff.mp hop
    exact ⟨hhist, hlt⟩
  | _ => exact ⟨hhist, hlt⟩

/-- No two elements of a table share an address. -/
theorem Chained.nodup (h : Chained n t live) : (live.map Entry.addr).Nodup := by
  refine List.pairwise_map.mpr (h.order.imp_of_mem fun {a b} ha hb hab haddr => ?_)
  obtain ⟨node, helem⟩ := h.elem_eq a ha
  obtain ⟨node', helem'⟩ := h.elem_eq b hb
  rw [haddr, helem'] at helem
  have hserial := congrArg HashElement.serial (Option.some.inj helem)
  have hb' : b.elem.serial = a.elem.serial := hserial
  rw [elem_serial, elem_serial] at hb'
  exact Nat.ne_of_lt hab hb'.symm

/-- **Behind elements that have been taken out the nodes stay.** -/
theorem Inv.lags (h : Inv n t live hist) (hlen : live.length < hist.length) : ¬ Mirrored n t := by
  rintro ⟨live', qs, hchained, hring, hmap, -⟩
  obtain rfl : qs = hist.map Prod.fst := hring.unique h.node_ring
  have hlive : (live'.map Entry.addr).Perm (live.map Entry.addr) :=
    (List.perm_ext_iff_of_nodup hchained.nodup h.nodup).mpr fun p => (hchained.elems p).symm.trans
      (h.chained.elems p)
  have h1 := hlive.length_eq
  have h2 := congrArg List.length hmap
  simp only [List.length_map] at h1 h2
  omega

/-- The list is never the shorter one. -/
theorem Effect.length_le (heff : Effect t live hist op ret t' live' hist')
    (hle : live.length ≤ hist.length) :
    live'.length ≤ hist'.length := by
  cases heff with
  | inserted _ _ _ _ =>
    rw [List.length_append, List.length_append]
    exact Nat.add_le_add_right hle 1
  | removed hlive _ _ _ =>
    subst hlive
    simp only [List.length_append, List.length_cons] at hle ⊢
    omega
  | cleared _ _ => exact Nat.zero_le _
  | _ => exact hle

/-- An element that is taken out is missed. -/
theorem Effect.length_lt (h : Inv n t live hist) (heff : Effect t live hist op ret t' live' hist')
    (hroom : Room t) (hop : ¬ TakesNothing t op) (hle : live.length ≤ hist.length) :
    live'.length < hist'.length := by
  cases heff with
  | inserted _ _ _ _ => exact absurd hroom hop
  | refused _ => exact absurd hroom hop
  | found => exact absurd trivial hop
  | foundData => exact absurd trivial hop
  | size => exact absurd trivial hop
  | removed hlive _ _ _ =>
    subst hlive
    simp only [List.length_append, List.length_cons] at hle ⊢
    omega
  | missed hnone => exact absurd ((takesNothing_remove_iff h.toLinked).mpr hnone) hop
  | cleared _ _ =>
    have hpos : 0 < live.length := List.length_pos_iff.mpr fun hlive => hop
      (h.toLinked.empty_iff.mpr hlive)
    exact Nat.lt_of_lt_of_le hpos hle

/-- There are not more elements than have been constructed. -/
theorem Inv.room (h : Inv n t live hist) (hmade : t.made + 1 < 4294967296) : Room t := by
  intro l hnodup hl
  have hle := (List.subperm_of_subset hnodup fun p hp => h.dom p (hl p hp)).length_le
  have hlive := h.toLinked.length_le
  rw [List.length_map] at hle
  omega

end Mirror

/-- **The nodes mirror the bins as long as nothing is taken out.** -/
theorem mirrored_run (numberOfBin : UInt32) (hashType : HashType_e) (duplicateNum : Int32)
    (h1 : 1 ≤ numberOfBin.toNat)
    (h2 : numberOfBin.toNat < 2147483648) {t : Table}
    (h : (sys numberOfBin hashType duplicateNum).Runs (fun t call _ => TakesNothing t call.1) t) :
    Mirrored numberOfBin.toNat t := by
  obtain ⟨live, hist, hinv, hhist, hlt⟩ := TransSys.Runs.invariant (I := fun t => ∃ live hist,
    Inv numberOfBin.toNat t live hist ∧
    hist.map Prod.snd = live.map Entry.addr ∧ live.length < 4294967296) ⟨[], [], init_inv h1 h2,
      rfl, by decide⟩ (by
      rintro t ⟨op, ret⟩ t' ⟨live, hist, hinv, hhist, hlt⟩ hs hop
      obtain ⟨live', hist', hinv', heff⟩ := step_spec hinv hs
      exact ⟨live', hist', hinv', effect_mirrored hinv hhist hlt hop heff⟩) h
  exact hinv.mirrored hhist hlt

/-- Two integer elements, in the list and in the chains. -/
theorem mirrored_run_ints : ∃ t, t.mNumberOfElement = 2 ∧ Mirrored 2 t := by
  have hroom : ∀ t, (sys 2 .INT32Type 0).Reachable t → t.made < 2 → Room t := by
    intro t ht hmade
    obtain ⟨live, hist, hinv, -⟩ := reachable_inv (by decide) (by decide) ht
    exact hinv.room (by omega)
  have h0 : (sys 2 .INT32Type 0).Runs (fun t call _ => TakesNothing t call.1) _ := .init
  have h1 := h0.step (e := (HashOp.insert (HashKey.int 5) 7 10 1, HashRet.done true)) rfl
    (hroom _ h0.reachable (by decide))
  have h2 := h1.step (e := (HashOp.insert (HashKey.int 6) 8 11 2, HashRet.done true)) rfl
    (hroom _ h1.reachable (by decide))
  exact ⟨_, rfl, mirrored_run 2 .INT32Type 0 (by decide) (by decide) h2⟩

/-- **A call that takes an element out leaves its node**, for good. -/
theorem taken_breaks (numberOfBin : UInt32) (hashType : HashType_e) (duplicateNum : Int32)
    (h1 : 1 ≤ numberOfBin.toNat)
    (h2 : numberOfBin.toNat < 2147483648) {t t' : Table} {op : HashOp} {ret : HashRet}
    (h : (sys numberOfBin hashType duplicateNum).Reachable t)
    (hs : (sys numberOfBin hashType duplicateNum).step t (op, ret) = some t')
    (hroom : Room t) (hop : ¬ TakesNothing t op) : ¬ Mirrored numberOfBin.toNat t' := by
  obtain ⟨live, hist, hinv, hle⟩ := TransSys.Runs.invariant (I := fun t => ∃ live hist,
    Inv numberOfBin.toNat t live hist ∧
    live.length ≤ hist.length) ⟨[], [], init_inv h1 h2, Nat.le_refl _⟩ (by
      rintro t ⟨op, ret⟩ t' ⟨live, hist, hinv, hle⟩ hs -
      obtain ⟨live', hist', hinv', heff⟩ := step_spec hinv hs
      exact ⟨live', hist', hinv', heff.length_le hle⟩) h
  obtain ⟨live', hist', hinv', heff⟩ := step_spec hinv hs
  exact hinv'.lags (heff.length_lt hinv hroom hop hle)

/-- The node of an element that has been removed is still on `dataRoot`. -/
theorem removed_stays : ¬ ∀ t, (sys 1 .INT32Type 0).Reachable t → Mirrored 1 t := by
  intro hall
  have h0 : (sys 1 .INT32Type 0).Reachable _ := .init
  have h1 := h0.step (e := (HashOp.insert (HashKey.int 5) 7 10 1, HashRet.done true)) rfl trivial
  have h2 := h1.step (e := (HashOp.remove (HashKey.int 5), HashRet.data 7)) rfl trivial
  obtain ⟨live, hist, hinv, -⟩ := reachable_inv (by decide) (by decide) h1
  refine taken_breaks 1 .INT32Type 0 (by decide) (by decide) h1
    (show (sys 1 .INT32Type 0).step _ (HashOp.remove (HashKey.int 5), HashRet.data 7) = some _
      from rfl)
    (hinv.room (by decide)) (fun hop => ?_) (hall _ h2)
  cases hop rfl 10 _ rfl

end HashTable

end StevenProgram
