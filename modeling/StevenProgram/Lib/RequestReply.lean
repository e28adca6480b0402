/-
  A client that asks over a datagram socket and waits for the answer.

  A call puts its parameters into a request, sends it and waits.  Datagrams arrive at any time and
  in any order, and stand in the socket's queue until a waiting call takes them off, the oldest
  first: the call goes on waiting (`again`), gives up (`fails`) or returns (`answers`).  A call that
  gave up leaves behind whatever arrives later, and the next call finds it there.

  The requests are numbered in the order they were sent; the log has every answer a call returned,
  with the request and the datagram it was taken from.  Neither is seen by the client.

  1. **The system** — `Client` and its transition system.
  2. **Rules** — what a step does (`step_does`), and from it: what holds of the client and of the
     request that is waited for (`inv_reachable`), what gets into the log (`log_step`), and so what
     holds of every answer.  A step keeps a property of all answers exactly if the answer it adds
     has it (`sound_step_iff`), and along a run in which every step does all answers have it
     (`sound_of_runs`).
-/
import StevenProgram.Lib.TransSys

namespace RequestReply

/-- What a waiting call does with a datagram. -/
inductive Reaction (α : Type) where
  | again
  | fails
  | answers (a : α)

/-- `κ` are the calls, `ρ` the requests, `δ` the datagrams, `α` the answers. -/
structure Client (σ κ ρ δ α : Type) where
  init : σ
  request : σ → κ → ρ × σ
  /-- none when the call comes to no end -/
  react : σ → ρ → δ → Option (Reaction α)

/-- An answer, and what it answers. -/
structure Entry (ρ δ α : Type) where
  number : Nat
  request : ρ
  datagram : δ
  answer : α

/-- The client, what it waits for, the queue of its socket, and the histories. -/
structure State (σ ρ δ α : Type) where
  client : σ
  queue : List δ
  /-- the requests sent so far -/
  sent : Nat
  /-- the request that is waited for, with its number -/
  waiting : Option (Nat × ρ)
  log : List (Entry ρ δ α)

/-- A call, the arrival of a datagram, a look at the queue, or the end of the wait. -/
inductive ClientEvent (κ δ : Type) where
  /-- a call sends its request -/
  | call (k : κ)
  /-- a datagram arrives -/
  | deliver (d : δ)
  /-- the waiting call takes a datagram off the queue -/
  | receive
  /-- the waiting call gives up without one -/
  | abort

variable {σ κ ρ δ α : Type}

/-- The state behind a reaction. -/
def State.after (s : State σ ρ δ α) (n : Nat) (r : ρ) (d : δ) (ds : List δ) :
    Reaction α → State σ ρ δ α
  | .again => { s with queue := ds }
  | .fails => { s with queue := ds, waiting := none }
  | .answers a => { s with queue := ds, waiting := none, log := s.log ++ [⟨n, r, d, a⟩] }

namespace Client

variable (C : Client σ κ ρ δ α)

def step (s : State σ ρ δ α) : ClientEvent κ δ → Option (State σ ρ δ α)
  | .call k =>
      match s.waiting with
      | some _ => none
      | none =>
          some { s with
            client := (C.request s.client k).2
            sent := s.sent + 1
            waiting := some (s.sent, (C.request s.client k).1) }
  | .deliver d => some { s with queue := s.queue ++ [d] }
  | .receive =>
      match s.waiting, s.queue with
      | some (n, r), d :: ds => (C.react s.client r d).map (s.after n r d ds)
      | _, _ => none
  | .abort =>
      match s.waiting with
      | some _ => some { s with waiting := none }
      | none => none

/-- The client with its socket, from no call on. -/
def sys : TransSys (State σ ρ δ α) (ClientEvent κ δ) where
  init := ⟨C.init, [], 0, none, []⟩
  step := C.step

variable {C} {s s' : State σ ρ δ α} {e : ClientEvent κ δ}

/-! ## Rules

  `Client` leaves open what a datagram and an answer are, and what the client knows.  So the rules
  are the same for every protocol that is used in this way, and a client only has to say what
  becomes of a datagram it takes. -/

/-- What a step does. -/
inductive Does (C : Client σ κ ρ δ α) (s : State σ ρ δ α) : ClientEvent κ δ → State σ ρ δ α → Prop
  | call (k : κ) (hidle : s.waiting = none) : Does C s (.call k)
      { s with
        client := (C.request s.client k).2
        sent := s.sent + 1
        waiting := some (s.sent, (C.request s.client k).1) }
  | deliver (d : δ) : Does C s (.deliver d) { s with queue := s.queue ++ [d] }
  | receive (n : Nat) (r : ρ) (d : δ) (ds : List δ) (reaction : Reaction α)
    (hw : s.waiting = some (n, r))
      (hq : s.queue = d :: ds) (hreact : C.react s.client r d = some reaction) :
        Does C s .receive (s.after n r d ds reaction)
  | abort (hbusy : s.waiting ≠ none) : Does C s .abort { s with waiting := none }

/-- A step is one of them. -/
theorem step_does (h : C.sys.step s e = some s') : C.Does s e s' := by
  cases e with
  | call k =>
    simp only [sys, step] at h
    split at h
    · cases h
    · next hidle =>
      obtain rfl := Option.some.inj h
      exact .call k hidle
  | deliver d =>
    obtain rfl := Option.some.inj h
    exact .deliver d
  | receive =>
    simp only [sys, step] at h
    split at h
    · next n r d ds hw hq =>
      obtain ⟨reaction, hreact, rfl⟩ := Option.map_eq_some_iff.mp h
      exact .receive n r d ds reaction hw hq hreact
    · cases h
  | abort =>
    simp only [sys, step] at h
    split at h
    · next hbusy =>
      obtain rfl := Option.some.inj h
      refine .abort ?_
      rw [hbusy]
      exact Option.some_ne_none _
    · cases h

/-- **What holds of the client**, and of the request that is waited for. -/
theorem inv_reachable {I : σ → Prop} {R : ρ → Prop} (hinit : I C.init)
    (hrequest : ∀ s k, I s → R (C.request s k).1 ∧ I (C.request s k).2) (h : C.sys.Reachable s) :
    I s.client ∧ ∀ n r, s.waiting = some (n, r) → R r := by
  refine TransSys.Runs.invariant (I := fun s : State σ ρ δ α => I s.client ∧ ∀ n r,
    s.waiting = some (n, r) → R r) ?_ ?_ h
  · refine ⟨hinit, ?_⟩
    intro n r hw
    cases hw
  · rintro s e s' ⟨hclient, hwaiting⟩ hs -
    have hnone : ∀ n r, (none : Option (Nat × ρ)) = some (n, r) → R r := by
      intro n r hw
      cases hw
    cases step_does hs with
    | call k _ =>
      obtain ⟨hr, hc⟩ := hrequest s.client k hclient
      refine ⟨hc, ?_⟩
      intro n r hw
      obtain ⟨-, rfl⟩ := Prod.mk.inj (Option.some.inj hw)
      exact hr
    | deliver d => exact ⟨hclient, hwaiting⟩
    | receive n r d ds reaction _ _ _ =>
      cases reaction with
      | again => exact ⟨hclient, hwaiting⟩
      | fails => exact ⟨hclient, hnone⟩
      | answers a => exact ⟨hclient, hnone⟩
    | abort _ => exact ⟨hclient, hnone⟩

/-- The answer a step adds has the property. -/
def Adds (C : Client σ κ ρ δ α) (P : Entry ρ δ α → Prop) (s : State σ ρ δ α) (e : ClientEvent κ δ) :
    Prop :=
  e = .receive → ∀ n r d ds a, s.waiting = some (n, r) → s.queue = d :: ds →
    C.react s.client r d = some (.answers a) →
    P ⟨n, r, d, a⟩

/-- **Only an answer gets into the log.** -/
theorem log_step (h : C.sys.step s e = some s') :
    s'.log = s.log ∧ (∀ P, C.Adds P s e) ∨
    ∃ n r d ds a, e = .receive ∧ s.waiting = some (n, r) ∧ s.queue = d :: ds ∧
    C.react s.client r d = some (.answers a) ∧
      s'.log = s.log ++ [⟨n, r, d, a⟩] := by
  cases step_does h with
  | call k _ =>
    left
    refine ⟨rfl, ?_⟩
    intro P he
    cases he
  | deliver d =>
    left
    refine ⟨rfl, ?_⟩
    intro P he
    cases he
  | receive n r d ds reaction hw hq hreact =>
    -- only one reaction to a datagram adds an answer
    have hother : (∀ a, reaction ≠ .answers a) → ∀ P, C.Adds P s .receive := by
      intro hne P _ n' r' d' ds' a hw' hq' hreact'
      obtain ⟨-, rfl⟩ := Prod.mk.inj (Option.some.inj (hw.symm.trans hw'))
      obtain ⟨rfl, -⟩ := List.cons.inj (hq.symm.trans hq')
      exact absurd (Option.some.inj (hreact.symm.trans hreact')) (hne a)
    cases reaction with
    | again =>
      left
      refine ⟨rfl, hother ?_⟩
      intro a ha
      cases ha
    | fails =>
      left
      refine ⟨rfl, hother ?_⟩
      intro a ha
      cases ha
    | answers a =>
      right
      exact ⟨n, r, d, ds, a, rfl, hw, hq, hreact, rfl⟩
  | abort _ =>
    left
    refine ⟨rfl, ?_⟩
    intro P he
    cases he

/-- Every answer so far has the property. -/
def Sound (P : Entry ρ δ α → Prop) (s : State σ ρ δ α) : Prop := ∀ e ∈ s.log, P e

/-- **A step keeps the answers sound exactly if the one it adds is.** -/
theorem sound_step_iff {P : Entry ρ δ α → Prop} (hs : Sound P s) (h : C.sys.step s e = some s') :
    Sound P s' ↔ C.Adds P s e := by
  rcases log_step h with ⟨hlog, hadds⟩ | ⟨n, r, d, ds, a, rfl, hw, hq, hreact, hlog⟩
  · refine ⟨fun _ => hadds P, fun _ => ?_⟩
    unfold Sound
    rw [hlog]
    exact hs
  · unfold Sound
    rw [hlog]
    constructor
    · intro hall _ n' r' d' ds' a' hw' hq' hreact'
      obtain ⟨rfl, rfl⟩ := Prod.mk.inj (Option.some.inj (hw.symm.trans hw'))
      obtain ⟨rfl, -⟩ := List.cons.inj (hq.symm.trans hq')
      obtain rfl := Reaction.answers.inj (Option.some.inj (hreact.symm.trans hreact'))
      exact hall _ (List.mem_append_right _ List.mem_cons_self)
    · intro hadds en hmem
      rcases List.mem_append.mp hmem with hold | hnew
      · exact hs en hold
      · rw [List.mem_singleton.mp hnew]
        exact hadds rfl n r d ds a hw hq hreact

/-- **Sound answers along a run.** -/
theorem sound_of_runs {P : Entry ρ δ α → Prop}
    {G : State σ ρ δ α → ClientEvent κ δ → State σ ρ δ α → Prop}
    (hadds : ∀ {s e s'}, C.sys.Reachable s → C.sys.step s e = some s' → G s e s' → C.Adds P s e)
    (h : C.sys.Runs G s) :
    Sound P s := by
  refine TransSys.Runs.and (I := C.sys.Reachable) (fun hr => hr) ?_ ?_ h
  · intro e he
    cases he
  · intro s e s' hr hsound hs hg
    exact (sound_step_iff hsound hs).mpr (hadds hr hs hg)

end Client

end RequestReply
