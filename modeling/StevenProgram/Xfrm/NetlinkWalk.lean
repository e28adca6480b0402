/-
  What `sendNetlinkSocket` and the walk of `getSpi` read of a datagram.

  Three lengths meet here: that of the datagram, which `recv` reports in full though it stores no
  more than the buffer holds, `nlmsg_len`, and the aligned step.  `NLMSG_OK` compares `nlmsg_len`
  with what is left, `NLMSG_NEXT` subtracts the aligned length, and neither the buffer's size nor a
  payload's is compared with anything.

  `len` is a `size_t`, so the subtraction of an aligned length that is larger wraps around; the walk
  then goes on with a length that no datagram has, and its next read is behind the datagram.

  1. **The walk** — the states it passes (`Visited`), and when it is safe (`WalkSafe`).
  2. **The condition** (`messageLoop_inside`) — read off the messages of the datagram.
  3. **Headline** (`netlink_walk_iff`) — for every datagram.
-/
import StevenProgram.Xfrm.Netlink

namespace StevenProgram

open Bytes Records

namespace Netlink

/-! ## The walk

  A state of the walk is where it stands and what it takes to be left. -/

/-- The walk goes on behind a message of this type. -/
def stepsOver (nlmsg_type : Nat) : Prop :=
  nlmsg_type ≠ XFRM_MSG_NEWSA ∧ nlmsg_type ≠ NLMSG_ERROR ∧ nlmsg_type ≠ NLMSG_DONE

/-- The `hdr` and the `len` that the loop's condition sees. -/
inductive Visited (out : List UInt8) : Nat → Nat → Prop
  | start : Visited out 0 out.length
  | next {hdr len nlmsg_len nlmsg_type : Nat} : Visited out hdr len → NLMSG_HDRLEN ≤ len →
      readLe out hdr 4 = .ok nlmsg_len → NLMSG_HDRLEN ≤ nlmsg_len → nlmsg_len ≤ len →
      readLe out (hdr + 4) 2 = .ok nlmsg_type → stepsOver nlmsg_type →
      Visited out (hdr + NLMSG_ALIGN nlmsg_len) (subtract len (NLMSG_ALIGN nlmsg_len))

/-- The walk ends, reads inside the received bytes only, and what is left never wraps. -/
structure WalkSafe (out : List UInt8) : Prop where
  ends : ∃ received_spi, messageLoop out (out.length + 1) 0 out.length = .ok received_spi
  left : ∀ hdr len, Visited out hdr len → hdr + len = out.length

/-- What is copied was stored, and the walk over the copy is safe. -/
structure ReplySafe (datagram : List UInt8) : Prop where
  copy : ∃ out, receiveReply datagram = .ok out
  walk : ∀ out, receiveReply datagram = .ok (some out) → WalkSafe out

section Loop

variable {out s : List UInt8} {pos len fuel : Nat}

/-- The turn of a message that the walk steps over. -/
theorem messageLoop_next {nlmsg_len nlmsg_type : Nat} (h16 : NLMSG_HDRLEN ≤ len)
    (hlen : readLe out pos 4 = .ok nlmsg_len)
    (hsize : NLMSG_HDRLEN ≤ nlmsg_len) (hfits : nlmsg_len ≤ len)
    (htype : readLe out (pos + 4) 2 = .ok nlmsg_type)
    (hover : stepsOver nlmsg_type) :
    messageLoop out (fuel + 1) pos len =
      messageLoop out fuel (pos + NLMSG_ALIGN nlmsg_len)
        (subtract len (NLMSG_ALIGN nlmsg_len)) := by
  have hok : ¬ (nlmsg_len < NLMSG_HDRLEN ∨ len < nlmsg_len) :=
    not_or.mpr ⟨Nat.not_lt.mpr hsize, Nat.not_lt.mpr hfits⟩
  rw [messageLoop, if_neg (Nat.not_lt.mpr h16), hlen, Run.ok_bind, if_neg hok, htype, Run.ok_bind,
    if_neg hover.1,
    if_neg hover.2.1, if_neg hover.2.2]

/-- A walk without a fault has passed through the received bytes only. -/
theorem visited_left {v : Nat} (hrun : messageLoop out (out.length + 1) 0 out.length = .ok v)
    (h : Visited out pos len) :
    pos + len = out.length ∧ ∃ fuel, messageLoop out fuel pos len = .ok v := by
  induction h with
  | start => exact ⟨Nat.zero_add _, _, hrun⟩
  | @next hdr len nlmsg_len nlmsg_type _ h16 hlen hsize hfits htype hover ih =>
    obtain ⟨hleft, fuel, hfuel⟩ := ih
    cases fuel with
    | zero => cases hfuel
    | succ fuel =>
      rw [messageLoop_next h16 hlen hsize hfits htype hover] at hfuel
      refine ⟨?_, fuel, hfuel⟩
      rcases behind_cases hleft hfits with ⟨hnext, -⟩ | ⟨hout, hhuge⟩
      · exact hnext
      · -- a header behind the datagram would have been read
        cases fuel with
        | zero => cases hfuel
        | succ fuel =>
          rw [messageLoop_outside hout hhuge (Nat.zero_lt_succ fuel)] at hfuel
          cases hfuel

/-- A walk is safe when the loop returns. -/
theorem walkSafe_iff :
    WalkSafe out ↔ ∃ v, messageLoop out (out.length + 1) 0 out.length = .ok v := by
  constructor
  · intro h
    exact h.ends
  · intro h
    obtain ⟨v, hv⟩ := h
    exact ⟨⟨v, hv⟩, fun hdr len hvisited => (visited_left hv hvisited).1⟩

/-! ## The condition

  The walk is followed along the messages; at each of them the three lengths are compared, as the
  code should have done. -/

/-- What the walk reads of the message it ends on is in the datagram. -/
def PayloadInside (m : Message) : Prop :=
  (m.header.nlmsg_type = XFRM_MSG_NEWSA → NLMSG_LENGTH USERSA_SPI + 4 ≤ m.here.length) ∧
  (m.header.nlmsg_type = NLMSG_ERROR → NLMSG_HDRLEN + 4 ≤ m.here.length)

/-- The message's padding is in the datagram too. -/
def Padded (m : Message) : Prop := NLMSG_ALIGN m.header.nlmsg_len ≤ m.here.length

/-- The message that decides has its payload; where there is none, every message has its padding. -/
def Inside (ms : List Message) : Prop :=
  (∀ m, ms.find? Message.decides = some m → PayloadInside m) ∧
  (ms.find? Message.decides = none → ∀ m ∈ ms, Padded m)

/-- Nothing lies inside. -/
theorem inside_nil : Inside [] := by
  constructor
  · intro m h
    cases h
  · intro _ m h
    exact absurd h List.not_mem_nil

/-- The first message decides, or is padded and the rest decides. -/
theorem inside_cons {m : Message} {ms : List Message} (hlast : ms = [] ∨ Padded m) :
    Inside (m :: ms) ↔ if m.decides = true then PayloadInside m else Padded m ∧ Inside ms := by
  rw [Inside, List.find?_cons]
  cases hdecides : m.decides with
  | true =>
    simp only [if_true, reduceCtorEq, false_implies, and_true]
    constructor
    · intro h
      exact h m rfl
    · intro h m' hm
      cases hm
      exact h
  | false =>
    simp only [Bool.false_eq_true, if_false, List.forall_mem_cons]
    constructor
    · intro h
      refine ⟨?_, h.1, fun hnone => (h.2 hnone).2⟩
      rcases hlast with rfl | hpadded
      · exact (h.2 rfl).1
      · exact hpadded
    · intro h
      exact ⟨h.2.1, fun hnone => ⟨h.1, h.2.2 hnone⟩⟩

/-- A message that has another behind it has its padding. -/
theorem padded_of_more {m : Message} {rest : List UInt8}
    (hfirst : framing.first s = some (m, rest)) :
    framing.records rest = [] ∨ Padded m := by
  obtain ⟨-, -, -, rfl, rfl⟩ := first_some hfirst
  rcases Nat.lt_or_ge s.length (NLMSG_ALIGN (Nlmsghdr.of s).nlmsg_len) with hlt | hge
  · left
    have hnone : framing.first [] = none := rfl
    rw [List.drop_eq_nil_of_le (Nat.le_of_lt hlt), Framing.records_none hnone]
  · right
    exact hge

/-- The walk ends on this message. -/
theorem messageLoop_ends (hs : out.drop pos = s) (hlen : s.length = len) (h16 : 16 ≤ s.length)
    (hsize : 16 ≤ (Nlmsghdr.of s).nlmsg_len) (hfits : (Nlmsghdr.of s).nlmsg_len ≤ s.length)
    (hdecides : Message.decides ⟨.of s, s⟩ = true) :
    (∃ v, messageLoop out (fuel + 1) pos len = .ok v) ↔ PayloadInside ⟨.of s, s⟩ := by
  have hreads : ∀ k, (∃ v, readLe out (pos + k) 4 = .ok v) ↔ k + 4 ≤ s.length := by
    intro k
    constructor
    · intro h
      obtain ⟨v, hv⟩ := h
      have hinside := (readLe_ok hv).1
      rw [← hs, List.length_drop]
      omega
    · intro hk
      exact ⟨_, readLe_at hs (by decide) hk⟩
  have htypes :
    (Nlmsghdr.of s).nlmsg_type = XFRM_MSG_NEWSA ∨ (Nlmsghdr.of s).nlmsg_type = NLMSG_ERROR ∨
      (Nlmsghdr.of s).nlmsg_type = NLMSG_DONE := by
    simpa only [Message.decides, Bool.or_eq_true, beq_iff_eq, or_assoc] using hdecides
  rw [messageLoop_message hs hlen h16 hsize hfits, PayloadInside]
  -- an SPI is read, an error number is read, or nothing is
  rcases htypes with htype | htype | htype
  · rw [htype, if_pos rfl, Nat.add_assoc, hreads]
    exact ⟨fun h => ⟨fun _ => h, fun hne => absurd hne (by decide)⟩, fun h => h.1 rfl⟩
  · rw [htype, if_neg (by decide), if_pos rfl]
    have hbind : (∃ v : Nat, (do
        let _ ← readLe out (pos + NLMSG_HDRLEN) 4
        Except.ok 0 : Run Nat) = .ok v) ↔ ∃ v, readLe out (pos + NLMSG_HDRLEN) 4 = .ok v := by
      constructor
      · intro h
        obtain ⟨v, hv⟩ := h
        obtain ⟨err, herr, -⟩ := Run.bind_ok.mp hv
        exact ⟨err, herr⟩
      · intro h
        obtain ⟨err, herr⟩ := h
        exact ⟨0, Run.bind_ok.mpr ⟨err, herr, rfl⟩⟩
    rw [hbind, hreads]
    exact ⟨fun h => ⟨fun hne => absurd hne (by decide), fun _ => h⟩, fun h => h.2 rfl⟩
  · rw [htype, if_neg (by decide), if_neg (by decide), if_pos rfl]
    exact ⟨fun _ => ⟨fun hne => absurd hne (by decide), fun hne => absurd hne (by decide)⟩,
      fun _ => ⟨0, rfl⟩⟩

/-- **The walk has no fault exactly if what it needs is inside.** -/
theorem messageLoop_inside (hs : out.drop pos = s) (hpos : pos + len = out.length)
    (hfuel : len < fuel) :
    (∃ v, messageLoop out fuel pos len = .ok v) ↔ Inside (framing.records s) := by
  induction fuel generalizing s pos len with
  | zero => exact absurd hfuel (Nat.not_lt_zero len)
  | succ fuel ih =>
    have hlen : s.length = len := by
      rw [← hs, List.length_drop]
      omega
    cases hfirst : framing.first s with
    | none =>
      rw [messageLoop_none hs hlen hfirst, Framing.records_none hfirst]
      exact ⟨fun _ => inside_nil, fun _ => ⟨0, rfl⟩⟩
    | some p =>
      obtain ⟨m, rest⟩ := p
      have hlast := padded_of_more hfirst
      rw [Framing.records_some hfirst, inside_cons hlast]
      obtain ⟨h16, hsize, hfits, rfl, rfl⟩ := first_some hfirst
      cases hdecides : Message.decides ⟨.of s, s⟩ with
      | true =>
        rw [if_pos rfl]
        exact messageLoop_ends hs hlen h16 hsize hfits hdecides
      | false =>
        rw [if_neg (by decide), messageLoop_skip hs hlen h16 hsize hfits hdecides]
        have halign : (Nlmsghdr.of s).nlmsg_len ≤ NLMSG_ALIGN (Nlmsghdr.of s).nlmsg_len := by
          unfold NLMSG_ALIGN
          omega
        rcases behind_cases hpos (by omega : (Nlmsghdr.of s).nlmsg_len ≤ len)
          with ⟨hnext, hleft⟩ | ⟨hout, hhuge⟩
        · have hpadded : Padded ⟨.of s, s⟩ := by
            show NLMSG_ALIGN (Nlmsghdr.of s).nlmsg_len ≤ s.length
            omega
          rw [ih (by rw [← List.drop_drop, hs]) hnext (by omega)]
          exact ⟨fun h => ⟨hpadded, h⟩, fun h => h.2⟩
        · -- the length wraps, and the next turn reads behind the datagram
          rw [messageLoop_outside hout hhuge (by omega)]
          constructor
          · intro h
            obtain ⟨v, hv⟩ := h
            cases hv
          · intro h
            have hpadded : NLMSG_ALIGN (Nlmsghdr.of s).nlmsg_len ≤ s.length := h.1
            omega

end Loop

/-! ## Headline

  Both directions, and that the walk ends for every datagram. -/

/-- The first check of a reply turns the datagram down. -/
def Corrupted (datagram : List UInt8) : Prop :=
  datagram.length < NLMSG_HDRLEN ∨ leAt datagram 0 4 < NLMSG_HDRLEN

/-- A reply that is corrupted is refused before it is walked. -/
theorem replySafe_corrupted {datagram : List UInt8} (h : Corrupted datagram) :
    ReplySafe datagram := by
  have hreceive : receiveReply datagram = .ok none := if_pos h
  refine ⟨⟨_, hreceive⟩, ?_⟩
  intro out hout
  rw [hreceive] at hout
  cases hout

/-- The copy is out of bounds, or it is the datagram. -/
theorem replySafe_received {datagram : List UInt8} (h : ¬ Corrupted datagram) :
    ReplySafe datagram ↔ datagram.length ≤ NETLINK_BUFFER_SIZE ∧ WalkSafe datagram := by
  have hreceive : receiveReply datagram =
      if NETLINK_BUFFER_SIZE < datagram.length then .error .outOfBounds else .ok (some datagram) :=
        if_neg h
  by_cases hfits : NETLINK_BUFFER_SIZE < datagram.length
  · rw [if_pos hfits] at hreceive
    apply iff_of_false
    · intro hsafe
      obtain ⟨out, hout⟩ := hsafe.copy
      rw [hreceive] at hout
      cases hout
    · intro hcond
      exact absurd hfits (Nat.not_lt.mpr hcond.1)
  · rw [if_neg hfits] at hreceive
    constructor
    · intro hsafe
      exact ⟨Nat.le_of_not_lt hfits, hsafe.walk datagram hreceive⟩
    · intro hcond
      refine ⟨⟨_, hreceive⟩, ?_⟩
      intro out hout
      rw [hreceive] at hout
      obtain rfl := Option.some.inj (Except.ok.inj hout)
      exact hcond.2

/-- **A reply is copied and walked over safely exactly if** the first check turns it down, or it
    fits into the buffer and the message that decides has its payload, or, where no message decides,
    every message has its padding. -/
theorem netlink_walk_iff (datagram : List UInt8) :
    ReplySafe datagram ↔
      Corrupted datagram ∨ datagram.length ≤ NETLINK_BUFFER_SIZE ∧ Inside (messages datagram) := by
  by_cases hcorrupted : Corrupted datagram
  · exact iff_of_true (replySafe_corrupted hcorrupted) (.inl hcorrupted)
  · have hinside : (∃ v, messageLoop datagram (datagram.length + 1) 0 datagram.length = .ok v) ↔
      Inside (messages datagram) :=
      messageLoop_inside rfl (Nat.zero_add _) (Nat.lt_succ_self datagram.length)
    rw [replySafe_received hcorrupted, walkSafe_iff, hinside]
    exact ⟨.inr, fun h => h.resolve_left hcorrupted⟩

/-- **The length wraps**: one message of 17 bytes, of a type the walk steps over, and nothing behind
    it. -/
theorem netlink_walk_unaligned : ¬ ∀ datagram : List UInt8, ReplySafe datagram := by
  intro h
  obtain ⟨v, hv⟩ := ((h ([17, 0, 0, 0] ++ List.replicate 13 0)).walk _ rfl).ends
  have hrun : messageLoop ([17, 0, 0, 0] ++ List.replicate 13 0) 18 0 17 = .error .outOfBounds :=
    rfl
  cases hrun.symm.trans hv

end Netlink

end StevenProgram
