/-
  The copies of the keys.

  An element of a string table owns a copy of its key, which the constructor acquires and the
  destructor releases.  `remove` destroys an element once.  `clear` calls the destructor and deletes
  the element after, which calls it again; so a copy is released twice when `clear`, or the table's
  destructor, comes upon an element that has one (`destroy_once_iff`), and never otherwise.  To
  count, the runs here are those of `sys`, which go on behind a second release.

  1. **Accounts** — `Settled`, what has been acquired is released or owned by a live element.
  2. **Runs** — `buffers_once`.
-/
import StevenProgram.Table.Runs

namespace StevenProgram

namespace HashTable

/-- Every copy is released once: not before its element goes, and when no elements are left all have
    been. -/
structure ReleasedOnce (t : Table) : Prop where
  nodup : t.released.Nodup
  live : ∀ p e, t.elems p = some e → ∀ b ∈ e.buffer, b ∉ t.released
  all : (∀ p, t.elems p = none) → ∀ b ∈ t.acquired, b ∈ t.released

/-! ## Accounts

  Buffers are named by the number of their element, which is never given twice. -/

/-- What has been acquired is either released or owned by a live element. -/
structure Settled (t : Table) (live : List Entry) : Prop where
  perm : t.acquired.Perm (t.released ++ live.flatMap Entry.buffer)
  nodup : t.acquired.Nodup
  lt : ∀ b ∈ t.acquired, b < t.made

section Accounts

variable {n : Nat} {t t' : Table} {live live' : List Entry} {hist hist' : List (Addr × Addr)}
  {op : HashOp} {ret : HashRet} {e : Entry}

/-- An element has one copied key at most. -/
theorem buffer_nodup (e : Entry) : e.buffer.Nodup := by
  rw [Entry.buffer, HashElement.buffer]
  split
  · exact List.nodup_singleton _
  · exact List.nodup_nil

/-- Without copied keys nothing is released twice. -/
theorem twice_eq_nil (h : ∀ e ∈ live, e.buffer = []) : live.flatMap Entry.twice = [] := by
  refine List.flatMap_eq_nil_iff.mpr fun e he => ?_
  rw [Entry.twice, h e he]
  rfl

/-- **Step lemma.** -/
theorem Settled.effect (hs : Settled t live) (h : Linked t live) (hop : ClearsBare t op)
    (heff : Effect t live hist op ret t' live' hist') : Settled t' live' := by
  cases heff with
  | @inserted key pData pEle node t' e he _ _ hbook =>
    have hnew : ∀ b ∈ e.buffer, b = t.made := fun b hb => by
      rw [mem_buffer hb, he]
    exact {
      perm := by
        rw [hbook.acquired_eq, hbook.released_eq, List.append_nil, List.flatMap_append,
          ← List.append_assoc]
        refine hs.perm.append ?_
        rw [List.flatMap_singleton]
      nodup := by
        rw [hbook.acquired_eq]
        refine List.nodup_append.mpr ⟨hs.nodup, buffer_nodup e, fun a ha b hb hab => ?_⟩
        have hlt := hs.lt a ha
        rw [hab, hnew b hb] at hlt
        exact Nat.lt_irrefl _ hlt
      lt := by
        intro b hb
        rw [hbook.acquired_eq] at hb
        rw [hbook.made_eq]
        rcases List.mem_append.mp hb with hb | hb
        · exact Nat.lt_succ_of_lt (hs.lt b hb)
        · exact hnew b hb ▸ Nat.lt_succ_self _ }
  | @removed key t' l1 l2 e hlive _ _ hbook =>
    subst hlive
    have hacq : t'.acquired = t.acquired := by rw [hbook.acquired_eq, List.append_nil]
    refine ⟨?_, hacq ▸ hs.nodup, fun b hb => hbook.made_eq ▸ hs.lt b (hacq ▸ hb)⟩
    rw [hacq, hbook.released_eq, List.append_assoc]
    refine hs.perm.trans (List.Perm.append_left _ ?_)
    rw [List.flatMap_append, List.flatMap_append, List.flatMap_cons]
    exact List.perm_append_comm_assoc ..
  | @cleared t' gone _ hgone hbook =>
    -- nothing is released
    have hbare := (bare_iff h).mp hop
    rw [twice_eq_nil hbare, List.perm_nil] at hgone
    subst hgone
    have hacq : t'.acquired = t.acquired := by rw [hbook.acquired_eq, List.append_nil]
    refine ⟨?_, hacq ▸ hs.nodup, fun b hb => hbook.made_eq ▸ hs.lt b (hacq ▸ hb)⟩
    rw [hacq, hbook.released_eq]
    refine hs.perm.trans ?_
    rw [List.flatMap_eq_nil_iff.mpr hbare, List.flatMap_nil, List.append_nil, List.append_nil]
  | _ => exact hs

/-- A table whose released buffers are those of no live element has released each once. -/
theorem Settled.once (hs : Settled t live) (h : Linked t live) : ReleasedOnce t := by
  have hnodup := List.nodup_append.mp (hs.perm.nodup_iff.mp hs.nodup)
  refine ⟨hnodup.1, fun p e he b hb hrel => ?_, fun hnone b hb => ?_⟩
  · obtain ⟨e', he', -, node, rfl⟩ := h.entry_of he
    exact hnodup.2.2 b hrel b (List.mem_flatMap.mpr ⟨e', he', hb⟩) rfl
  · rcases List.mem_append.mp (hs.perm.mem_iff.mp hb) with hb | hb
    · exact hb
    · rw [h.empty_iff.mp hnone] at hb
      cases hb

/-- **The destructor of the table releases twice what is still owned.** -/
theorem destroy_once_iff (hs : Settled t live) (h : Inv n t live hist) (hstrict : t.strict = false)
    (hrun : t.destroy = .ok t') :
    (∀ b ∈ t'.acquired, b ∈ t'.released) ∧ (t'.released.Nodup ↔ Bare t) := by
  obtain ⟨t1, hrun1, hacq, gone, hgone, hperm⟩ := h.destroy fun htrue => absurd htrue
    (by rw [hstrict]; decide)
  obtain rfl := Except.ok.inj (hrun.symm.trans hrun1)
  have hnodup := List.nodup_append.mp (hs.perm.nodup_iff.mp hs.nodup)
  rw [hacq, hgone, bare_iff h.toLinked]
  constructor
  · intro b hb
    rcases List.mem_append.mp (hs.perm.mem_iff.mp hb) with hb | hb
    · exact List.mem_append_left _ hb
    · obtain ⟨e, he, hbe⟩ := List.mem_flatMap.mp hb
      exact List.mem_append_right _
        (hperm.mem_iff.mpr (List.mem_flatMap.mpr ⟨e, he, List.mem_append_left _ hbe⟩))
  constructor
  · -- the buffers of an element stand there twice
    intro hn e he
    obtain ⟨l1, l2, rfl⟩ := List.append_of_mem he
    have htwice := hperm.nodup_iff.mp (List.nodup_append.mp hn).2.1
    rw [List.flatMap_append, List.flatMap_cons] at htwice
    have hself :=
      (List.nodup_append.mp (List.nodup_append.mp (List.nodup_append.mp htwice).2.1).1).2.2
    exact List.eq_nil_iff_forall_not_mem.mpr fun b hb => hself b hb b hb rfl
  · intro hbare
    rw [twice_eq_nil hbare, List.perm_nil] at hperm
    rw [hperm, List.append_nil]
    exact hnodup.1

end Accounts

/-! ## Runs

  As long as `clear` comes upon no copy, what has been released was released once. -/

/-- **Every copy is released once as long as no element with a copy is cleared**, at the end
    included. -/
theorem buffers_once (numberOfBin : UInt32) (hashType : HashType_e) (duplicateNum : Int32)
    (h1 : 1 ≤ numberOfBin.toNat)
    (h2 : numberOfBin.toNat < 2147483648) {t : Table}
    (h : (sys numberOfBin hashType duplicateNum).Runs (fun t call _ => ClearsBare t call.1) t) :
    ReleasedOnce t ∧
    ∃ t', t.destroy = .ok t' ∧ (∀ b ∈ t'.acquired, b ∈ t'.released) ∧
    (t'.released.Nodup ↔ Bare t) := by
  obtain ⟨live, hist, hinv, hs⟩ := TransSys.Runs.invariant (I := fun t => ∃ live hist,
    Inv numberOfBin.toNat t live hist ∧
    Settled t live) ⟨[], [], init_inv h1 h2, .refl _, List.nodup_nil,
      fun _ hb => absurd hb List.not_mem_nil⟩ (by
      rintro t ⟨op, ret⟩ t' ⟨live, hist, hinv, hs⟩ hstep hop
      obtain ⟨live', hist', hinv', heff⟩ := step_spec hinv hstep
      exact ⟨live', hist', hinv', hs.effect hinv.toLinked hop heff⟩) h
  obtain ⟨-, -, -, hstrict⟩ := reachable_inv h1 h2 h.reachable
  obtain ⟨t', hrun, -⟩ := hinv.destroy fun htrue => absurd htrue (by rw [hstrict]; decide)
  exact ⟨hs.once hinv.toLinked, t', hrun, destroy_once_iff hs hinv hstrict hrun⟩

/-- A string element that was inserted and removed: its buffer is released once. -/
theorem buffers_once_ab : ∃ t, t.released = [0] ∧ ReleasedOnce t ∧
    ∃ t', t.destroy = .ok t' ∧ (∀ b ∈ t'.acquired, b ∈ t'.released) ∧
    (t'.released.Nodup ↔ Bare t) := by
  have h0 : (sys 2 .StringType 0).Runs (fun t call _ => ClearsBare t call.1) _ := .init
  have h1 :=
    h0.step (e := (HashOp.insert (HashKey.str ⟨[97, 98], by decide⟩) 7 10 1, HashRet.done true))
    rfl trivial
  have h2 :=
    h1.step (e := (HashOp.remove (HashKey.str ⟨[97, 98], by decide⟩), HashRet.data 7)) rfl trivial
  exact ⟨_, rfl, buffers_once 2 .StringType 0 (by decide) (by decide) h2⟩

/-- `clear` releases the copy of an element twice. -/
theorem cleared_twice : ¬ ∀ t, (sys 1 .StringType 0).Reachable t → ReleasedOnce t := by
  intro hall
  have h0 : (sys 1 .StringType 0).Reachable _ := .init
  have h1 :=
    h0.step (e := (HashOp.insert (HashKey.str ⟨[97], by decide⟩) 7 10 1, HashRet.done true))
    rfl trivial
  have h2 := h1.step (e := (HashOp.clear, HashRet.nothing)) rfl trivial
  exact absurd (hall _ h2).nodup (show ¬ [0, 0].Nodup by decide)

end HashTable

end StevenProgram
