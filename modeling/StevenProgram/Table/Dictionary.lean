/-
  The table as a dictionary.

  `dictionary` is the reference: a `Dict` that answers the same calls.  A table whose live elements
  all have keys that can be found stands for the dictionary `dictOf` of them, and each call on it is
  a call on that. It fails for the void keys, an empty string and a null pointer: `insert` takes
  them, and no search finds them again, not even the one that looks for duplicates.  And `clear`
  does not get to its end where an element has a copy of its key, as it releases that twice.

  1. **The reference** — `answers`, `dictionary`.
  2. **What a table stands for** — `dictOf`, and the searches in it.
  3. **Calls** — `effect_answers`, `calls_answer`.
-/
import Mathlib.Data.List.Find
import StevenProgram.Lib.Dict
import StevenProgram.Table.Runs

namespace StevenProgram

namespace HashTable

/-! ## The reference

  A `Dict` is a list of keys with their data; the oldest entry of a key is the one that is found and
  removed. -/

/-- Whether a dictionary answers a call so; a key that is not there has no data, which is NULL. -/
def answers (d : Dict HashKey UInt64) : HashOp → HashRet → Bool
  | .insert key .., .done b => b == d.admits key
  | .find key, .found isFound pData => isFound == (d.lookup key).isSome && pData ==
      (d.lookup key).getD 0
  | .findData key, .data pData => pData == (d.lookup key).getD 0
  | .remove key, .data pData => pData == (d.lookup key).getD 0
  | .clear, .nothing => true
  | .size, .count n => n.toNat == d.size
  | _, _ => false

/-- The dictionary after the call. -/
def after (d : Dict HashKey UInt64) : HashOp → Dict HashKey UInt64
  | .insert key pData .. => d.insert key pData
  | .remove key => d.remove key
  | .clear => d.clear
  | .find _ | .findData _ | .size => d

/-- The reference: a call is a step if it is answered right. -/
def dictionary (unique : Bool) : TransSys (Dict HashKey UInt64) Call where
  init := ⟨unique, []⟩
  step d call := if answers d call.1 call.2 then some (after d call.1) else none

/-! ## What a table stands for

  Without void keys a search for a key stops where the keys are equal. -/

/-- The dictionary of the live elements. -/
def dictOf (c : HashConfig) (live : List Entry) : Dict HashKey UInt64 :=
  ⟨c.mDuplicateNumber == 0, live.map fun e => (e.key, e.data)⟩

/-- All elements have keys that can be found. -/
def NoneVoid (live : List Entry) : Prop := ∀ e ∈ live, e.key.void = false

section Searches

variable {c : HashConfig} {live l1 l2 : List Entry} {e : Entry} {key : HashKey}

/-- For an element without a void key a hit is equality. -/
theorem hit_eq (he : e.key.void = false) : e.hit key = decide (e.key = key) := by
  rw [Bool.eq_iff_iff, hit_iff, decide_eq_true_iff]
  exact and_iff_left_of_imp fun hkey => hkey ▸ he

/-- What the dictionary holds is what a look-up hits. -/
theorem lookup_dictOf (h : NoneVoid live) :
    (dictOf c live).lookup key = (live.find? (Entry.hit key)).map Entry.data := by
  have hfind :
    live.find? (Entry.hit key) = live.find? ((fun e => decide (e.1 = key)) ∘ fun e =>
    (e.key, e.data)) :=
    List.find?_congr fun e he => hit_eq (h e he)
  rw [Dict.lookup, dictOf, List.find?_map, hfind, Option.map_map]
  rfl

/-- A key that is there is refused, unless the table takes duplicates. -/
theorem admits_dictOf (h : NoneVoid live) : (dictOf c live).admits key =
    !(c.mDuplicateNumber == 0 && (live.find? (Entry.hit key)).isSome) := by
  rw [Dict.admits, lookup_dictOf h, Option.isSome_map]
  rfl

/-- So `find` answers as the dictionary does. -/
theorem found_eq (h : NoneVoid live) :
    found live key =
      (((dictOf c live).lookup key).isSome, ((dictOf c live).lookup key).getD 0) := by
  rw [lookup_dictOf h, found]
  cases live.find? (Entry.hit key) <;> rfl

/-- Removing the first hit removes the key. -/
theorem remove_dictOf (h : NoneVoid (l1 ++ e :: l2)) (hhit : e.hit key = true)
    (hfirst : ∀ a ∈ l1, a.hit key = false) :
    (dictOf c (l1 ++ e :: l2)).remove key = dictOf c (l1 ++ l2) := by
  have hl1 : ∀ a ∈ l1.map fun e => (e.key, e.data), ¬ decide (a.1 = key) = true := by
    intro a ha
    obtain ⟨x, hx, rfl⟩ := List.mem_map.mp ha
    rw [← hit_eq (h x (List.mem_append_left _ hx)), hfirst x hx]
    exact Bool.false_ne_true
  have he : decide (e.key = key) = true := decide_eq_true (hit_iff.mp hhit).1
  rw [Dict.remove, dictOf, List.map_append, List.map_cons, List.eraseP_append_right _ hl1,
    List.eraseP_cons_of_pos (by exact he),
    ← List.map_append]
  rfl

/-- Removing a key that is not there removes nothing. -/
theorem remove_dictOf_none (h : NoneVoid live) (hnone : live.find? (Entry.hit key) = none) :
    (dictOf c live).remove key = dictOf c live := by
  have hall : ∀ a ∈ live.map fun e => (e.key, e.data), ¬ decide (a.1 = key) = true := by
    intro a ha
    obtain ⟨x, hx, rfl⟩ := List.mem_map.mp ha
    rw [← hit_eq (h x hx)]
    exact List.find?_eq_none.mp hnone x hx
  rw [Dict.remove, dictOf, List.eraseP_of_forall_not hall]

end Searches

/-! ## Calls

  `Sound` is the condition on a call, in terms of the table before it and of nothing the call
  computes. -/

/-- The keys of a call have the shape that the type supports. -/
def Supported (c : HashConfig) : HashOp → Prop
  | .insert key .. | .find key | .findData key | .remove key => c.accepts key = true
  | .clear | .size => True

/-- Fewer elements than the count can hold. -/
def Countable (t : Table) : Prop :=
  ∀ l : List Addr, l.Nodup → (∀ p ∈ l, (t.elems p).isSome = true) → l.length < 4294967296

/-- A call that is answered right: no void key is inserted, no element with a copy of its key is
    cleared, and the count is asked for while it is right. -/
def Sound (t : Table) : HashOp → Prop
  | .insert key .. => key.void = false
  | .clear => Bare t
  | .size => Countable t
  | _ => True

/-- A sound clear is one without copied keys. -/
theorem Sound.clearsBare {t : Table} {op : HashOp} (h : Sound t op) : ClearsBare t op := by
  cases op with
  | clear => exact h
  | _ => exact trivial

section Calls

variable {n : Nat} {t t' : Table} {live live' : List Entry} {hist hist' : List (Addr × Addr)}
  {op : HashOp} {ret : HashRet}

/-- No call brings a void key in. -/
theorem NoneVoid.effect (h : NoneVoid live) (hsound : Sound t op)
    (heff : Effect t live hist op ret t' live' hist') :
    NoneVoid live' := by
  cases heff with
  | inserted he _ _ _ =>
    intro e' he'
    rcases List.mem_append.mp he' with he' | he'
    · exact h e' he'
    · obtain rfl := List.mem_singleton.mp he'
      rw [he]
      exact hsound
  | removed hlive _ _ _ =>
    subst hlive
    intro e' he'
    refine h e' ?_
    simp only [List.mem_append, List.mem_cons] at he' ⊢
    exact he'.imp_right .inr
  | cleared _ _ _ => exact List.forall_mem_nil _
  | _ => exact h

/-- The count, while it is right. -/
theorem size_eq (h : Inv n t live hist) (hcount : Countable t) :
    (UInt32.ofNat live.length).toNat = live.length := by
  have hlt := hcount (live.map Entry.addr) h.nodup fun p hp => h.isSome hp
  rw [List.length_map] at hlt
  exact Nat.mod_eq_of_lt hlt

/-- **A call on a table is a call on the dictionary**, with the same answer and the same entries
    behind it; one case for each effect. -/
theorem effect_answers (h : Inv n t live hist) (hvoid : NoneVoid live) (hsupp : Supported t.cfg op)
    (hsound : Sound t op)
    (heff : Effect t live hist op ret t' live' hist') :
    answers (dictOf t.cfg live) op ret = true ∧
      after (dictOf t.cfg live) op = dictOf t.cfg live' := by
  cases heff with
  | @inserted key pData pEle node t' e he _ hdup _ =>
    have hyes : (dictOf t.cfg live).admits key = true := by
      rw [admits_dictOf hvoid, Bool.not_eq_true', Bool.and_eq_false_imp]
      intro hd
      rw [hdup (beq_iff_eq.mp hd)]
      rfl
    refine ⟨by rw [answers, hyes]; rfl, ?_⟩
    rw [after, Dict.insert, if_pos hyes, he, dictOf, dictOf, List.map_append]
    rfl
  -- refused for a duplicate, since the key has the right shape
  | @refused key pData pEle node hwhy =>
    obtain ⟨hdup, hsome⟩ := hwhy.resolve_left
      (by rw [show t.cfg.accepts key = true from hsupp]; decide)
    have hno : (dictOf t.cfg live).admits key = false := by
      rw [admits_dictOf hvoid, hsome, hdup]
      rfl
    refine ⟨by rw [answers, hno]; rfl, ?_⟩
    rw [after, Dict.insert, if_neg (by rw [hno]; decide)]
  | found =>
    refine ⟨?_, rfl⟩
    rw [answers, found_eq (c := t.cfg) hvoid]
    simp
  | foundData =>
    refine ⟨?_, rfl⟩
    rw [answers, found_eq (c := t.cfg) hvoid]
    exact beq_self_eq_true _
  | @removed key t' l1 l2 e hlive hhit hfirst _ =>
    subst hlive
    have hfind : (l1 ++ e :: l2).find? (Entry.hit key) = some e :=
      List.find?_eq_some_iff_append.mpr ⟨hhit, l1, l2, rfl, fun a ha => by simp [hfirst a ha]⟩
    refine ⟨?_, remove_dictOf hvoid hhit hfirst⟩
    rw [answers, lookup_dictOf hvoid, hfind]
    exact beq_self_eq_true _
  | missed hnone =>
    refine ⟨?_, remove_dictOf_none hvoid hnone⟩
    rw [answers, lookup_dictOf hvoid, hnone]
    rfl
  | cleared _ _ _ => exact ⟨rfl, rfl⟩
  | size =>
    refine ⟨?_, rfl⟩
    rw [answers, Dict.size, dictOf, List.length_map, size_eq h hsound]
    exact beq_self_eq_true _

end Calls

/-- **A table answers as a dictionary does**, as long as its calls are sound; and every sound call
    returns. -/
theorem calls_answer (numberOfBin : UInt32) (hashType : HashType_e) (duplicateNum : Int32)
    (h1 : 1 ≤ numberOfBin.toNat)
    (h2 : numberOfBin.toNat < 2147483648) {calls : List Call} {t : Table}
    (h : (strictSys numberOfBin hashType duplicateNum).Trace (fun t call _ =>
      Supported t.cfg call.1 ∧ Sound t call.1) calls t) :
    (∃ d, (dictionary (duplicateNum == 0)).Trace (fun _ _ _ => True) calls d) ∧
    ∀ op, Free t op → Sound t op → ∃ r, exec t op = .ok r := by
  let R : Table → Dict HashKey UInt64 → Prop := fun t d => ∃ live hist,
    Inv numberOfBin.toNat t live hist ∧ NoneVoid live ∧
    t.cfg.mDuplicateNumber = duplicateNum ∧ d = dictOf t.cfg live
  have hsim := TransSys.Trace.simulation (A := dictionary (duplicateNum == 0)) (R := R)
    ⟨[], [], init_inv h1 h2, nofun, rfl, rfl⟩ ?_ h
  · obtain ⟨d, htrace, live, hist, hinv, -⟩ := hsim
    exact ⟨⟨d, htrace⟩, fun op hfree hsound => returns hinv hfree fun _ => hsound.clearsBare⟩
  · rintro t d ⟨op, ret⟩ t' - ⟨live, hist, hinv, hvoid, hdup, rfl⟩ hs ⟨hsupp, hsound⟩
    obtain ⟨live', hist', hinv', heff⟩ := step_spec hinv hs
    obtain ⟨hans, hafter⟩ := effect_answers hinv hvoid hsupp hsound heff
    refine ⟨dictOf t.cfg live', ?_, live', hist', hinv', hvoid.effect hsound heff, ?_, ?_⟩
    · show (if answers _ op ret then _ else _) = _
      rw [if_pos hans, hafter]
    · rw [heff.cfg_eq, hdup]
    · rw [heff.cfg_eq]

/-- A string table: a key, the same again, the key taken out, and then a `clear`, as no copy is
    left. -/
theorem calls_answer_ab : ∃ t, (∃ d, (dictionary true).Trace (fun _ _ _ => True) ([] ++
      [(.insert (.str ⟨[97, 98], by decide⟩) 7 10 1, .done true)] ++
        [(.insert (.str ⟨[97, 98], by decide⟩) 8 11 2, .done false)] ++
      [(.remove (.str ⟨[97, 98], by decide⟩), .data 7)] ++ [(.clear, .nothing)]) d) ∧
    ∀ op, Free t op → Sound t op → ∃ r, exec t op = .ok r := by
  have h0 :
    (strictSys 2 .StringType 0).Trace (fun t call _ => Supported t.cfg call.1 ∧ Sound t call.1)
    [] _ := .init
  have h1 :=
    h0.step (e := (HashOp.insert (HashKey.str ⟨[97, 98], by decide⟩) 7 10 1, HashRet.done true)) rfl
    ⟨rfl, rfl⟩
  have h2 :=
    h1.step (e := (HashOp.insert (HashKey.str ⟨[97, 98], by decide⟩) 8 11 2, HashRet.done false))
    rfl ⟨rfl, rfl⟩
  have h3 := h2.step (e := (HashOp.remove (HashKey.str ⟨[97, 98], by decide⟩), HashRet.data 7)) rfl
    ⟨rfl, trivial⟩
  -- one element has been constructed and none is counted
  have hempty : ∀ t, (strictSys 2 .StringType 0).Reachable t → t.made < 2 → t.mNumberOfElement = 0 →
    Bare t := by
    intro t ht hmade hzero
    obtain ⟨live, hist, hinv, -⟩ := reachable_inv (by decide) (by decide) ht
    have hlen := hinv.length_le
    have hcount := congrArg UInt32.toNat (hinv.count.symm.trans hzero)
    have hsmall : (UInt32.ofNat live.length).toNat = live.length := Nat.mod_eq_of_lt (by omega)
    obtain rfl : live = [] := List.length_eq_zero_iff.mp (hsmall.symm.trans hcount)
    exact (bare_iff hinv.toLinked).mpr (List.forall_mem_nil _)
  have h4 := h3.step (e := (HashOp.clear, HashRet.nothing)) rfl
    ⟨trivial, hempty _ h3.runs.reachable (by decide) rfl⟩
  exact ⟨_, calls_answer 2 .StringType 0 (by decide) (by decide) h4⟩

/-- An empty key is inserted and not found. -/
theorem empty_key_lost :
    ¬ ∀ calls t, (strictSys 1 .StringType 0).Trace
      (fun t call _ => Supported t.cfg call.1) calls t →
    ∃ d, (dictionary true).Trace (fun _ _ _ => True) calls d := by
  intro hall
  have h0 : (strictSys 1 .StringType 0).Trace (fun t call _ => Supported t.cfg call.1) [] _ := .init
  have h1 :=
    h0.step (e := (HashOp.insert (HashKey.str ⟨[], by decide⟩) 7 10 1, HashRet.done true)) rfl rfl
  have h2 :=
    h1.step (e := (HashOp.find (HashKey.str ⟨[], by decide⟩), HashRet.found false 0)) rfl rfl
  obtain ⟨d, hd⟩ := hall _ _ h2
  cases hd.exec_eq

end HashTable

end StevenProgram
