/-
  Asking the kernel for an SPI over netlink: `getSpi` and `sendNetlinkSocket` in
  `xfrmKernelNetlink.cpp`.

  A call numbers its request with `mSequence`, which counts up.  Then it takes one datagram off the
  socket, walks over the messages in it to the first NEWSA, ERROR or DONE, and returns the SPI of a
  NEWSA.  The sequence number of the message is not looked at.  So a reply that arrives late, or is
  left in the queue because a call gave up, is the answer to the next call.

  A datagram longer than the buffer is copied from behind the buffer's end, a NEWSA too short for an
  SPI is read behind its own, and a last message whose length is not aligned makes what is left wrap
  around.

  1. **The program** — the walk over a datagram (`messageLoop`), a call, and the client they make.
  2. **Messages** — the records of a datagram, and the one that decides (`decisive`).
  3. **The loop over the records** (`messageLoop_spi`) — an SPI comes from the message that decides.
  4. **Headline** (`netlink_spi_matches`) — along every run in which that message is one for the
     call.
-/
import StevenProgram.Lib.Records
import StevenProgram.Lib.RequestReply
import StevenProgram.Common.Mem

namespace StevenProgram

open Bytes Records RequestReply

namespace Netlink

/-! ## The program

  A walk ends with an SPI, with none, or with a read outside the buffer, which is a fault and the
  end of the run. -/

abbrev NETLINK_BUFFER_SIZE : Nat := 4096

abbrev NLMSG_ERROR : Nat := 2
abbrev NLMSG_DONE : Nat := 3
abbrev XFRM_MSG_NEWSA : Nat := 16
abbrev XFRM_MSG_ALLOCSPI : Nat := 22
abbrev NLM_F_REQUEST : Nat := 1

/-- `struct nlmsghdr`. -/
structure Nlmsghdr where
  nlmsg_len : Nat
  nlmsg_type : Nat
  nlmsg_flags : Nat
  nlmsg_seq : Nat
  nlmsg_pid : Nat

abbrev NLMSG_HDRLEN : Nat := 16

/-- `sizeof(struct xfrm_userspi_info)`, and where `id.spi` is in a `struct xfrm_usersa_info`. -/
abbrev USERSPI_INFO_SIZE : Nat := 232
abbrev USERSA_SPI : Nat := 72

/-- `NLMSG_ALIGN(len)`, for a length that is in a datagram. -/
def NLMSG_ALIGN (len : Nat) : Nat := (len + 3) / 4 * 4

/-- `NLMSG_LENGTH(len)`. -/
def NLMSG_LENGTH (len : Nat) : Nat := len + NLMSG_HDRLEN

/-- `len -= NLMSG_ALIGN(...)`, of a `size_t`. -/
def subtract (len n : Nat) : Nat := if n ≤ len then len - n else len + 2 ^ 64 - n

/-- `while (NLMSG_OK(hdr, len)) { ... }`: `received_spi`. -/
def messageLoop (out : List UInt8) : Nat → Nat → Nat → Run Nat
  | 0, _, _ => .error .diverged
  | fuel + 1, hdr, len =>
      if len < NLMSG_HDRLEN then .ok 0
      else do
        let nlmsg_len ← readLe out hdr 4
        if nlmsg_len < NLMSG_HDRLEN ∨ len < nlmsg_len then .ok 0
        else do
          let nlmsg_type ← readLe out (hdr + 4) 2
          if nlmsg_type = XFRM_MSG_NEWSA then readLe out (hdr + NLMSG_HDRLEN + USERSA_SPI) 4
          else if nlmsg_type = NLMSG_ERROR then do
            -- err->error, for the log
            let _ ← readLe out (hdr + NLMSG_HDRLEN) 4
            .ok 0
          else if nlmsg_type = NLMSG_DONE then .ok 0
          else
            messageLoop out fuel (hdr + NLMSG_ALIGN nlmsg_len)
              (subtract len (NLMSG_ALIGN nlmsg_len))

/-- The member that numbers the requests. -/
structure xfrmKernelNetlink where
  mSequence : Nat

namespace xfrmKernelNetlink

/-- `xfrmKernelNetlink()`. -/
def new : xfrmKernelNetlink := ⟨202⟩

/-- The header of a request; `mSequence++`. -/
def request (k : xfrmKernelNetlink) (getpid : Nat) : Nlmsghdr × xfrmKernelNetlink :=
  (⟨NLMSG_LENGTH USERSPI_INFO_SIZE, XFRM_MSG_ALLOCSPI, NLM_F_REQUEST, k.mSequence, getpid⟩,
    { k with mSequence := (k.mSequence + 1) % 2 ^ 32 })

end xfrmKernelNetlink

/-- The second loop of `sendNetlinkSocket` on a datagram: `*out`, or none for STATUS_FAILED.  With
    MSG_TRUNC `recv` returns the whole length of a datagram of which it stored the front. -/
def receiveReply (datagram : List UInt8) : Run (Option (List UInt8)) :=
  if datagram.length < NLMSG_HDRLEN ∨ leAt datagram 0 4 < NLMSG_HDRLEN then .ok none
  else if NETLINK_BUFFER_SIZE < datagram.length then .error .outOfBounds
  else .ok (some datagram)

/-- `getSpi` behind its request. -/
def takeReply (datagram : List UInt8) : Run (Reaction Nat) := do
  match ← receiveReply datagram with
  | none => .ok .fails
  | some out => do
      let received_spi ← messageLoop out (out.length + 1) 0 out.length
      .ok (if received_spi = 0 then .fails else .answers received_spi)

/-- The client.  Nothing but the number distinguishes its requests here. -/
def client (getpid : Nat) : Client xfrmKernelNetlink Unit Nlmsghdr (List UInt8) Nat where
  init := .new
  request k _ := k.request getpid
  react _ _ d := (takeReply d).toOption

/-! ## Messages

  The messages of a datagram as a list, independent of the loop: each with its length, and padded to
  the next word. -/

/-- A message: its header, and all that stands in the datagram from there on. -/
structure Message where
  header : Nlmsghdr
  here : List UInt8

/-- The header at the front of some bytes. -/
def Nlmsghdr.of (s : List UInt8) : Nlmsghdr :=
  ⟨leAt s 0 4, leAt s 4 2, leAt s 6 2, leAt s 8 4, leAt s 12 4⟩

namespace Message

variable (m : Message)

/-- The SPI a NEWSA carries, in its own bytes. -/
def spi : Option Nat :=
  if m.header.nlmsg_type = XFRM_MSG_NEWSA ∧ NLMSG_LENGTH USERSA_SPI + 4 ≤ m.header.nlmsg_len then
    some (leAt m.here (NLMSG_LENGTH USERSA_SPI) 4)
  else none

/-- The walk ends on it. -/
def decides : Bool :=
  m.header.nlmsg_type == XFRM_MSG_NEWSA || m.header.nlmsg_type == NLMSG_ERROR ||
    m.header.nlmsg_type == NLMSG_DONE

end Message

/-- One message behind the other; each is all there, the padding of the last need not be. -/
def framing : Framing UInt8 Message where
  first s :=
    if NLMSG_HDRLEN ≤ s.length ∧ NLMSG_HDRLEN ≤ (Nlmsghdr.of s).nlmsg_len ∧
      (Nlmsghdr.of s).nlmsg_len ≤ s.length then
      some (⟨.of s, s⟩, s.drop (NLMSG_ALIGN (Nlmsghdr.of s).nlmsg_len))
    else none
  shrinks := by
    intro s rest r h
    split at h
    · next hfits =>
      have hlen : 16 ≤ (Nlmsghdr.of s).nlmsg_len := hfits.2.1
      have hsize : 16 ≤ s.length := hfits.1
      obtain rfl := (Prod.mk.inj (Option.some.inj h)).2
      rw [List.length_drop, NLMSG_ALIGN]
      omega
    · cases h

/-- The messages of a datagram. -/
def messages (datagram : List UInt8) : List Message := framing.records datagram

/-- **The message that decides.** -/
def decisive (datagram : List UInt8) : Option Message := (messages datagram).find? Message.decides

/-! ## The loop over the records

  The walk passes over messages of other types, so the first of the three types decides, whatever
  its number. -/

section Loop

variable {out s : List UInt8} {pos len fuel v : Nat}

/-- The first message of a datagram, and where it ends. -/
theorem first_some {m : Message} {rest : List UInt8} (h : framing.first s = some (m, rest)) :
    16 ≤ s.length ∧ 16 ≤ (Nlmsghdr.of s).nlmsg_len ∧ (Nlmsghdr.of s).nlmsg_len ≤ s.length ∧
    m = ⟨.of s, s⟩ ∧
    rest = s.drop (NLMSG_ALIGN (Nlmsghdr.of s).nlmsg_len) := by
  simp only [framing] at h
  split at h
  · next hfits =>
    obtain ⟨rfl, rfl⟩ := Prod.mk.inj (Option.some.inj h)
    exact ⟨hfits.1, hfits.2.1, hfits.2.2, rfl, rfl⟩
  · cases h

/-- Behind the datagram there is nothing to read. -/
theorem messageLoop_outside (hpos : out.length < pos) (hlen : 16 ≤ len) (hfuel : 0 < fuel) :
    messageLoop out fuel pos len = .error .outOfBounds := by
  obtain ⟨fuel, rfl⟩ : ∃ f, fuel = f + 1 := ⟨fuel - 1, by omega⟩
  have hread : readLe out pos 4 = .error .outOfBounds := by
    rw [readLe, if_neg (by omega)]
  rw [messageLoop, if_neg (Nat.not_lt.mpr hlen), hread]
  rfl

/-- Behind a message: what is left and where, or a length that wrapped. -/
theorem behind_cases {n : Nat} (hpos : pos + len = out.length) (hn : n ≤ len) :
    (pos + NLMSG_ALIGN n + subtract len (NLMSG_ALIGN n) = out.length ∧
      subtract len (NLMSG_ALIGN n) = len - NLMSG_ALIGN n) ∨
    (out.length < pos + NLMSG_ALIGN n ∧ 16 ≤ subtract len (NLMSG_ALIGN n)) := by
  have halign : NLMSG_ALIGN n ≤ n + 3 := by
    unfold NLMSG_ALIGN
    omega
  unfold subtract
  split
  · left
    omega
  · right
    omega

/-- The turn of a message. -/
theorem messageLoop_message (hs : out.drop pos = s) (hlen : s.length = len) (h16 : 16 ≤ s.length)
    (hsize : 16 ≤ (Nlmsghdr.of s).nlmsg_len) (hfits : (Nlmsghdr.of s).nlmsg_len ≤ s.length) :
    messageLoop out (fuel + 1) pos len =
      if (Nlmsghdr.of s).nlmsg_type = XFRM_MSG_NEWSA then readLe out
        (pos + NLMSG_HDRLEN + USERSA_SPI) 4
      else if (Nlmsghdr.of s).nlmsg_type = NLMSG_ERROR then (do
        let _ ← readLe out (pos + NLMSG_HDRLEN) 4
        .ok 0)
      else if (Nlmsghdr.of s).nlmsg_type = NLMSG_DONE then .ok 0
      else messageLoop out fuel (pos + NLMSG_ALIGN (Nlmsghdr.of s).nlmsg_len)
        (subtract len (NLMSG_ALIGN (Nlmsghdr.of s).nlmsg_len)) := by
  have hreadLen : readLe out pos 4 = .ok (Nlmsghdr.of s).nlmsg_len := readLe_at (k := 0) hs
    (by decide) (by omega)
  have hreadType : readLe out (pos + 4) 2 = .ok (Nlmsghdr.of s).nlmsg_type :=
    readLe_at hs (by decide) (by omega)
  have hok : ¬ ((Nlmsghdr.of s).nlmsg_len < NLMSG_HDRLEN ∨ len < (Nlmsghdr.of s).nlmsg_len) :=
    not_or.mpr ⟨Nat.not_lt.mpr hsize, Nat.not_lt.mpr (by omega)⟩
  rw [messageLoop, if_neg (Nat.not_lt.mpr (show 16 ≤ len by omega)), hreadLen, Run.ok_bind,
    if_neg hok, hreadType, Run.ok_bind]

/-- Where no message stands, nothing is received. -/
theorem messageLoop_none (hs : out.drop pos = s) (hlen : s.length = len)
    (hfirst : framing.first s = none) :
    messageLoop out (fuel + 1) pos len = .ok 0 := by
  rw [messageLoop]
  split
  · rfl
  · next h16 =>
    have h16 : 16 ≤ s.length := by
      rw [hlen]
      exact Nat.le_of_not_lt h16
    have hread : readLe out pos 4 = .ok (Nlmsghdr.of s).nlmsg_len := readLe_at (k := 0) hs
      (by decide) (by omega)
    rw [hread, Run.ok_bind]
    apply if_pos
    refine Decidable.byContradiction fun hok => ?_
    obtain ⟨hsize, hfits⟩ := not_or.mp hok
    have hall :
      16 ≤ s.length ∧ 16 ≤ (Nlmsghdr.of s).nlmsg_len ∧ (Nlmsghdr.of s).nlmsg_len ≤ s.length :=
      ⟨h16, Nat.le_of_not_lt hsize, by omega⟩
    simp only [framing, if_pos hall] at hfirst
    cases hfirst

/-- A message that ends the walk with an SPI is a NEWSA. -/
theorem messageLoop_decided (hs : out.drop pos = s) (hlen : s.length = len) (h16 : 16 ≤ s.length)
    (hsize : 16 ≤ (Nlmsghdr.of s).nlmsg_len) (hfits : (Nlmsghdr.of s).nlmsg_len ≤ s.length)
    (hdecides : Message.decides ⟨.of s, s⟩ = true)
    (hrun : messageLoop out (fuel + 1) pos len = .ok v) (hv : v ≠ 0) :
    (Nlmsghdr.of s).nlmsg_type = XFRM_MSG_NEWSA ∧ NLMSG_LENGTH USERSA_SPI + 4 ≤ s.length ∧
      leAt s (NLMSG_LENGTH USERSA_SPI) 4 = v := by
  rw [messageLoop_message hs hlen h16 hsize hfits] at hrun
  split at hrun
  · next hnewsa =>
    rw [Nat.add_assoc] at hrun
    obtain ⟨hinside, hvalue⟩ := readLe_ok hrun
    refine ⟨hnewsa, ?_, ?_⟩
    · show 16 + 72 + 4 ≤ s.length
      have : pos + (16 + 72) + 4 ≤ out.length := hinside
      rw [← hs, List.length_drop]
      omega
    · rw [← hvalue, ← hs, leAt_drop]
      rfl
  · next hnewsa =>
    split at hrun
    · rw [Run.bind_ok] at hrun
      obtain ⟨-, -, hzero⟩ := hrun
      exact absurd (Except.ok.inj hzero).symm hv
    · next herror =>
      split at hrun
      · exact absurd (Except.ok.inj hrun).symm hv
      · next hdone =>
        simp only [Message.decides, beq_eq_false_iff_ne.mpr hnewsa, beq_eq_false_iff_ne.mpr herror,
          beq_eq_false_iff_ne.mpr hdone, Bool.or_self] at hdecides
        cases hdecides

/-- A message that does not decide is stepped over. -/
theorem messageLoop_skip (hs : out.drop pos = s) (hlen : s.length = len) (h16 : 16 ≤ s.length)
    (hsize : 16 ≤ (Nlmsghdr.of s).nlmsg_len) (hfits : (Nlmsghdr.of s).nlmsg_len ≤ s.length)
    (hdecides : Message.decides ⟨.of s, s⟩ = false) :
    messageLoop out (fuel + 1) pos len =
      messageLoop out fuel (pos + NLMSG_ALIGN (Nlmsghdr.of s).nlmsg_len)
        (subtract len (NLMSG_ALIGN (Nlmsghdr.of s).nlmsg_len)) := by
  simp only [Message.decides, Bool.or_eq_false_iff, beq_eq_false_iff_ne] at hdecides
  obtain ⟨⟨hnewsa, herror⟩, hdone⟩ := hdecides
  rw [messageLoop_message hs hlen h16 hsize hfits, if_neg hnewsa, if_neg herror, if_neg hdone]

/-- **An SPI is read off the message that decides**, a NEWSA. -/
theorem messageLoop_spi (hs : out.drop pos = s) (hpos : pos + len = out.length)
    (hrun : messageLoop out fuel pos len = .ok v) (hv : v ≠ 0) :
    ∃ m, (framing.records s).find? Message.decides = some m ∧ m.header.nlmsg_type = XFRM_MSG_NEWSA ∧
      NLMSG_LENGTH USERSA_SPI + 4 ≤ m.here.length ∧
        leAt m.here (NLMSG_LENGTH USERSA_SPI) 4 = v := by
  induction fuel generalizing s pos len with
  | zero => cases hrun
  | succ fuel ih =>
    have hlen : s.length = len := by
      rw [← hs, List.length_drop]
      omega
    cases hfirst : framing.first s with
    | none =>
      rw [messageLoop_none hs hlen hfirst] at hrun
      exact absurd (Except.ok.inj hrun).symm hv
    | some p =>
      obtain ⟨m, rest⟩ := p
      obtain ⟨h16, hsize, hfits, rfl, rfl⟩ := first_some hfirst
      rw [Framing.records_some hfirst, List.find?_cons]
      cases hdecides : Message.decides ⟨.of s, s⟩ with
      | true => exact ⟨_, rfl, messageLoop_decided hs hlen h16 hsize hfits hdecides hrun hv⟩
      | false =>
        rw [messageLoop_skip hs hlen h16 hsize hfits hdecides] at hrun
        rcases behind_cases hpos (by omega : (Nlmsghdr.of s).nlmsg_len ≤ len)
          with ⟨hnext, -⟩ | ⟨hout, hhuge⟩
        · exact ih (by rw [← List.drop_drop, hs]) hnext hrun
        · -- the length wrapped: the next turn faults
          cases fuel with
          | zero => cases hrun
          | succ fuel =>
            rw [messageLoop_outside hout hhuge (Nat.zero_lt_succ fuel)] at hrun
            cases hrun

end Loop

/-- An SPI is the number at its place in the message that decides. -/
theorem takeReply_answers {d : List UInt8} {a : Nat} (h : takeReply d = .ok (.answers a)) :
    ∃ m, decisive d = some m ∧ m.header.nlmsg_type = XFRM_MSG_NEWSA ∧ NLMSG_LENGTH USERSA_SPI + 4 ≤
      m.here.length ∧
      leAt m.here (NLMSG_LENGTH USERSA_SPI) 4 = a ∧ a ≠ 0 := by
  unfold takeReply at h
  rw [Run.bind_ok] at h
  obtain ⟨reply, hreceive, h⟩ := h
  cases reply with
  | none => cases h
  | some out =>
    simp only [Run.bind_ok] at h
    obtain ⟨received_spi, hrun, h⟩ := h
    have hout : out = d := by
      unfold receiveReply at hreceive
      split at hreceive
      · cases hreceive
      · split at hreceive
        · cases hreceive
        · exact (Option.some.inj (Except.ok.inj hreceive)).symm
    split at h
    · cases h
    · next hne =>
      obtain rfl := Reaction.answers.inj (Except.ok.inj h)
      subst hout
      obtain ⟨m, hm, htype, hinside, hvalue⟩ := messageLoop_spi rfl (Nat.zero_add _) hrun hne
      exact ⟨m, hm, htype, hinside, hvalue, hne⟩

/-! ## Headline

  The condition is on a step: the message that decides in the datagram which the step takes is one
  for the call that is going on. -/

/-- The answer is the SPI of a NEWSA in the datagram, with the number of the request. -/
def Matched (e : Entry Nlmsghdr (List UInt8) Nat) : Prop :=
  ∃ m ∈ messages e.datagram, m.spi = some e.answer ∧ m.header.nlmsg_seq = e.request.nlmsg_seq

/-- If the message that decides is a NEWSA with a number at the SPI's place, it has the number of
    the request and is long enough for an SPI. -/
def ForCall (r : Nlmsghdr) (d : List UInt8) : Prop :=
  ∀ m, decisive d = some m → m.header.nlmsg_type = XFRM_MSG_NEWSA → NLMSG_LENGTH USERSA_SPI + 4 ≤
    m.here.length →
    leAt m.here (NLMSG_LENGTH USERSA_SPI) 4 ≠ 0 →
    m.header.nlmsg_seq = r.nlmsg_seq ∧ NLMSG_LENGTH USERSA_SPI + 4 ≤ m.header.nlmsg_len

/-- The datagram that the step takes is for the call that takes it. -/
def TakesOwn (s : State xfrmKernelNetlink Nlmsghdr (List UInt8) Nat)
    (e : ClientEvent Unit (List UInt8)) : Prop :=
  e = .receive → ∀ n r d ds, s.waiting = some (n, r) → s.queue = d :: ds → ForCall r d

/-- An answer for the own request matches it. -/
theorem matched_of_forCall {n a : Nat} {r : Nlmsghdr} {d : List UInt8}
    (h : takeReply d = .ok (.answers a))
    (hown : ForCall r d) : Matched ⟨n, r, d, a⟩ := by
  obtain ⟨m, hm, htype, hinside, hvalue, hne⟩ := takeReply_answers h
  obtain ⟨hseq, hlong⟩ := hown m hm htype hinside (by rw [hvalue]; exact hne)
  refine ⟨m, List.mem_of_find?_eq_some hm, ?_, hseq⟩
  rw [Message.spi, if_pos ⟨htype, hlong⟩, hvalue]

variable {getpid : Nat} {s : State xfrmKernelNetlink Nlmsghdr (List UInt8) Nat}

/-- **Answers match their requests along every run in which the datagram a call takes is for
    it.** -/
theorem netlink_spi_matches (h : (client getpid).sys.Runs (fun s e _ => TakesOwn s e) s) :
    ∀ e ∈ s.log, Matched e := by
  refine Client.sound_of_runs ?_ h
  intro s e s' _ _ htakes he n r d ds a hw hq hreact
  have hanswer : takeReply d = .ok (.answers a) := by
    change (takeReply d).toOption = some (.answers a) at hreact
    cases htake : takeReply d with
    | error fault =>
      rw [htake] at hreact
      cases hreact
    | ok reaction =>
      rw [htake] at hreact
      rw [Option.some.inj hreact]
  exact matched_of_forCall hanswer (htakes he n r d ds hw hq)

/-- A NEWSA with this number and this SPI. -/
def newsa (seq spi : UInt8) : List UInt8 :=
  [240, 0, 0, 0, 16, 0, 0, 0, seq, 0, 0, 0, 0x92, 0x10, 0, 0] ++ List.replicate 72 0 ++
    [spi, 0, 0, 0] ++ List.replicate 148 0

set_option maxRecDepth 2000 in
/-- A reply of one message. -/
theorem messages_newsa (seq spi : UInt8) :
    messages (newsa seq spi) = [⟨.of (newsa seq spi), newsa seq spi⟩] := by
  have hsize : (newsa seq spi).length = 240 := rfl
  have hlen : (Nlmsghdr.of (newsa seq spi)).nlmsg_len = 240 := rfl
  have hfirst :
    framing.first (newsa seq spi) = some (⟨.of (newsa seq spi), newsa seq spi⟩, []) := by
    simp only [framing]
    rw [if_pos (by rw [hsize, hlen]; decide), hlen, show NLMSG_ALIGN 240 = 240 from rfl,
      List.drop_eq_nil_of_le (Nat.le_of_eq hsize)]
  have hend : framing.first [] = none := rfl
  rw [messages, Framing.records_some hfirst, Framing.records_none hend]

set_option maxRecDepth 2000 in
/-- A call, and its reply. -/
theorem netlink_spi_matches_first : ∃ s, (client 4242).sys.exec (client 4242).sys.init
      [.call (), .deliver (newsa 202 7), .receive] = some s ∧ s.log.map (fun e => e.answer) = [7] ∧
    ∀ e ∈ s.log, Matched e := by
  have h0 : (client 4242).sys.Runs (fun s e _ => TakesOwn s e) _ := .init
  have h1 := h0.step (e := ClientEvent.call ()) rfl (by intro h; cases h)
  have h2 := h1.step (e := ClientEvent.deliver (newsa 202 7)) rfl (by intro h; cases h)
  have h3 := h2.step (e := ClientEvent.receive) rfl (by
    intro _ n r d ds hw hq m hm _ _ _
    obtain ⟨rfl, rfl⟩ := Prod.mk.inj (Option.some.inj hw)
    obtain ⟨rfl, -⟩ := List.cons.inj hq
    have hfirst : decisive (newsa 202 7) = some ⟨.of (newsa 202 7), newsa 202 7⟩ := by
      rw [decisive, messages_newsa]
      rfl
    obtain rfl := Option.some.inj (hfirst.symm.trans hm)
    exact ⟨rfl, by decide⟩)
  exact ⟨_, rfl, rfl, netlink_spi_matches h3⟩

set_option maxRecDepth 2000 in
/-- The first call gives up on a datagram that is too short, and its reply is the answer to the
    second. -/
theorem late_reply_taken :
    ¬ ∀ (getpid : Nat) (s : State xfrmKernelNetlink Nlmsghdr (List UInt8) Nat),
    (client getpid).sys.Reachable s → ∀ e ∈ s.log, Matched e := by
  intro hall
  have h0 : (client 4242).sys.Reachable _ := .init
  have h1 := h0.step (e := ClientEvent.call ()) rfl trivial
  have h2 := h1.step (e := ClientEvent.deliver [0]) rfl trivial
  have h3 := h2.step (e := ClientEvent.receive) rfl trivial
  have h4 := h3.step (e := ClientEvent.deliver (newsa 202 7)) rfl trivial
  have h5 := h4.step (e := ClientEvent.call ()) rfl trivial
  have h6 := h5.step (e := ClientEvent.receive) rfl trivial
  obtain ⟨m, hmem, -, hseq⟩ := hall 4242 _ h6 _ (List.mem_singleton.mpr rfl)
  change m ∈ messages (newsa 202 7) at hmem
  rw [messages_newsa] at hmem
  obtain rfl := List.mem_singleton.mp hmem
  exact absurd hseq (by decide)

end Netlink

end StevenProgram
