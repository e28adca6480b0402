/-
  Loops that gather.

  A turn puts what an item yields behind a state, or it fails; which of the two happens, and what is
  put behind, is a matter of the item alone (`Gathers`).  A loop over a list of items is then such a
  turn itself (`Gathers.loop`), and so are a loop over loops and a run of calls: none of them needs
  an induction of its own.
-/

namespace Gather

variable {ε α β σ : Type} {add : σ → List β → σ} {turn : σ → α → Except ε σ} {ok : α → Prop}
  {out : α → List β}

/-- Lists are put behind a state one after the other. -/
structure Appends (add : σ → List β → σ) : Prop where
  nil : ∀ s, add s [] = s
  append : ∀ s l l', add (add s l) l' = add s (l ++ l')

/-- The turn adds what an item yields, and fails exactly on the items that are not `ok`. -/
structure Gathers (add : σ → List β → σ) (turn : σ → α → Except ε σ) (ok : α → Prop)
    (out : α → List β) : Prop where
  adds : ∀ {a}, ok a → ∀ s, turn s a = .ok (add s (out a))
  fails : ∀ {a}, ¬ ok a → ∀ s, ∃ e, turn s a = .error e

/-- What a turn has done when it has not failed. -/
theorem Gathers.of_ok (h : Gathers add turn ok out) {s s' : σ} {a : α} (hrun : turn s a = .ok s') :
    ok a ∧ s' = add s (out a) := by
  by_cases hok : ok a
  · exact ⟨hok, Except.ok.inj (hrun.symm.trans (h.adds hok s))⟩
  · obtain ⟨e, he⟩ := h.fails hok s
    nomatch hrun.symm.trans he

/-- The items by other names. -/
theorem Gathers.comap {γ : Type} (h : Gathers add turn ok out) (f : γ → α) :
    Gathers add (fun s c => turn s (f c)) (fun c => ok (f c)) (fun c => out (f c)) :=
  ⟨fun hok s => h.adds hok s, fun hok s => h.fails hok s⟩

/-- The same turn, written in another way. -/
theorem Gathers.congr {turn' : σ → α → Except ε σ} {out' : α → List β} (h : Gathers add turn ok out)
    (hturn : ∀ s a, turn' s a = turn s a) (hout : ∀ a, out' a = out a) :
    Gathers add turn' ok out' := by
  obtain rfl : turn' = turn := funext fun s => funext (hturn s)
  obtain rfl : out' = out := funext hout
  exact h

/-- **A loop over the items.** -/
theorem Gathers.loop (hadd : Appends add) (h : Gathers add turn ok out) :
    Gathers add (fun s as => List.foldlM turn s as) (fun as => ∀ a ∈ as, ok a)
    (fun as => as.flatMap out) := by
  constructor
  · intro as hok
    induction as with
    | nil =>
      intro s
      rw [List.flatMap_nil, hadd.nil]
      rfl
    | cons a as ih =>
      intro s
      have htail := ih (fun b hb => hok b (List.mem_cons_of_mem a hb)) (add s (out a))
      rw [List.foldlM_cons, h.adds (hok a List.mem_cons_self), List.flatMap_cons, ← hadd.append,
        ← htail]
      rfl
  · intro as hok
    induction as with
    | nil => exact absurd (fun a ha => nomatch ha) hok
    | cons a as ih =>
      intro s
      by_cases ha : ok a
      · have hrest : ¬ ∀ b ∈ as, ok b := fun hall => hok fun b hb => (List.mem_cons.mp hb).elim
          (· ▸ ha) (hall b)
        obtain ⟨e, he⟩ := ih hrest (add s (out a))
        rw [List.foldlM_cons, h.adds ha]
        exact ⟨e, he⟩
      · obtain ⟨e, he⟩ := h.fails ha s
        rw [List.foldlM_cons, he]
        exact ⟨e, rfl⟩

end Gather
