/-
  Requests and replies on a PF_KEY socket (`xfrmKernelPfkey.cpp`).

  `sendPfkeySocket` sends a request and then takes messages off the socket until one is the reply.
  A message that is too short, or shorter than it says, ends the call; one for another process is
  passed over; the sequence number has to be `mSequence`, or 0.  What has another type is logged as
  ignored, and is returned.  `mSequence` is 0 from the constructor on, so every request has that
  number.

  A datagram comes with the number of the request it is a reply to, if it is one.  The program does
  not see that number.  `getSpi` and `RegisterPfkeySocket` use a socket each; the system here has
  one socket on which both calls can be made, so that the runs of either socket are among its runs.

  1. **The program** — the messages, a turn of the receive loop (`received`), and the client it
     makes.
  2. **Which messages are returned** (`received_answers`).
  3. **Headline** (`pfkey_replies_match`) — a step keeps all replies matched exactly if the message
     it takes, should it pass the checks, has the type of the request, and is no late reply to a
     `getSpi`.
-/
import StevenProgram.Lib.RequestReply
import StevenProgram.Common.Mem

namespace StevenProgram

open Bytes RequestReply

namespace Pfkey

/-! ## The program

  The reply that `sendPfkeySocket` returns is the first message that passes its checks, and the
  checks are these. -/

abbrev PFKEY_BUFFER_SIZE : Nat := 4096
abbrev PFKEY_ALIGNMENT : Nat := 8

/-- Aligns to 64 bits. -/
def PFKEY_ALIGN (len : Nat) : Nat := (len + PFKEY_ALIGNMENT - 1) / PFKEY_ALIGNMENT * PFKEY_ALIGNMENT

/-- In 64-bit words. -/
def PFKEY_LEN (len : Nat) : Nat := PFKEY_ALIGN len / PFKEY_ALIGNMENT

abbrev SADB_GETSPI : Nat := 1
abbrev SADB_REGISTER : Nat := 7

/-- `struct sadb_msg`, as far as it is looked at. -/
structure SadbMsg where
  sadb_msg_type : Nat
  sadb_msg_errno : Nat
  sadb_msg_len : Nat
  sadb_msg_seq : Nat
  sadb_msg_pid : Nat

abbrev SADB_MSG_SIZE : Nat := 16

/-- `(struct sadb_msg *)buf`. -/
def SadbMsg.of (buf : List UInt8) : SadbMsg :=
  ⟨leAt buf 1 1, leAt buf 2 1, leAt buf 4 2, leAt buf 8 4, leAt buf 12 4⟩

/-- A message that is as long as it says. -/
structure WellFormed (buf : List UInt8) : Prop where
  header : SADB_MSG_SIZE ≤ buf.length
  len_ge : PFKEY_LEN SADB_MSG_SIZE ≤ (SadbMsg.of buf).sadb_msg_len
  len_le : (SadbMsg.of buf).sadb_msg_len ≤ buf.length / PFKEY_ALIGNMENT

/-- `*out`, with `*out_len` bytes. -/
structure Reply where
  bytes : List UInt8
  wellFormed : WellFormed bytes

/-- What `sendPfkeySocket` looks at in `in`. -/
structure Request where
  sadb_msg_type : Nat
  sadb_msg_seq : Nat
  sadb_msg_pid : Nat

/-- The member that numbers the requests. -/
structure xfrmKernelPfkey where
  mSequence : Nat

namespace xfrmKernelPfkey

/-- `xfrmKernelPfkey()`. -/
def new : xfrmKernelPfkey := ⟨0⟩

/-- A turn of the receive loop of `sendPfkeySocket`, on the bytes in `buf`. -/
def received (k : xfrmKernelPfkey) (in_ : Request) (buf : List UInt8) : Reaction Reply :=
  let msg := SadbMsg.of buf
  if hcorrupt : buf.length < SADB_MSG_SIZE ∨ msg.sadb_msg_len < PFKEY_LEN SADB_MSG_SIZE then .fails
  else if hsmall : buf.length / PFKEY_ALIGNMENT < msg.sadb_msg_len then .fails
  else if msg.sadb_msg_pid ≠ in_.sadb_msg_pid then .again
  else if msg.sadb_msg_seq ≠ k.mSequence ∧ msg.sadb_msg_seq ≠ 0 then
    if msg.sadb_msg_seq < k.mSequence then .again else .fails
  else
    -- another type is logged, and nothing else
    .answers ⟨buf, Nat.le_of_not_lt (not_or.mp hcorrupt).1, Nat.le_of_not_lt (not_or.mp hcorrupt).2,
      Nat.le_of_not_lt hsmall⟩

end xfrmKernelPfkey

/-- The two calls that send a request. -/
inductive Call where
  | getSpi
  | RegisterPfkeySocket

/-- A datagram on the socket, and which request it is a reply to. -/
structure Datagram where
  bytes : List UInt8
  answersTo : Option Nat

/-- What `recv` puts into `buf`. -/
def Datagram.buf (d : Datagram) : List UInt8 := d.bytes.take PFKEY_BUFFER_SIZE

/-- The header of a request; the rest of a registration's is zero. -/
def Call.request (getpid : Nat) (k : xfrmKernelPfkey) : Call → Request
  | getSpi => ⟨SADB_GETSPI, k.mSequence, getpid⟩
  | RegisterPfkeySocket => ⟨SADB_REGISTER, 0, 0⟩

/-- The client: the process, its calls, and what they do with a datagram. -/
def client (getpid : Nat) : Client xfrmKernelPfkey Call Request Datagram Reply where
  init := .new
  request k c := (c.request getpid k, k)
  react k r d := some (k.received r d.buf)

/-! ## Which messages are returned

  `received` is read the other way round: what is known of a message that was returned. -/

/-- What the checks ask of a message before its type. -/
structure Passes (r : Request) (buf : List UInt8) : Prop where
  wellFormed : WellFormed buf
  pid : (SadbMsg.of buf).sadb_msg_pid = r.sadb_msg_pid
  seq : (SadbMsg.of buf).sadb_msg_seq = r.sadb_msg_seq

/-- **A message that passes is returned**, and no other, when all numbers are 0. -/
theorem received_answers {k : xfrmKernelPfkey} {r : Request} {buf : List UInt8} {a : Reply}
    (hk : k.mSequence = 0)
    (hr : r.sadb_msg_seq = 0) : k.received r buf = .answers a ↔ Passes r buf ∧ a.bytes = buf := by
  simp only [xfrmKernelPfkey.received]
  constructor
  · -- the tests one by one; a message that passes them all is returned
    intro h
    split at h
    · cases h
    · next hcorrupt =>
      rw [not_or] at hcorrupt
      split at h
      · cases h
      · next hsmall =>
        split at h
        · cases h
        · next hpid =>
          split at h
          · split at h <;> cases h
          · next hseq =>
            have hzero : (SadbMsg.of buf).sadb_msg_seq = 0 := by
              rw [hk, and_self] at hseq
              exact Decidable.not_not.mp hseq
            obtain rfl := Reaction.answers.inj h
            exact ⟨⟨⟨Nat.le_of_not_lt hcorrupt.1, Nat.le_of_not_lt hcorrupt.2,
              Nat.le_of_not_lt hsmall⟩,
              Decidable.not_not.mp hpid, hzero.trans hr.symm⟩, rfl⟩
  · rintro ⟨hp, ha⟩
    obtain ⟨bytes, hbytes⟩ := a
    subst ha
    have hcorrupt :
      ¬ (bytes.length < SADB_MSG_SIZE ∨ (SadbMsg.of bytes).sadb_msg_len <
      PFKEY_LEN SADB_MSG_SIZE) :=
      not_or.mpr ⟨Nat.not_lt.mpr hbytes.header, Nat.not_lt.mpr hbytes.len_ge⟩
    have hseq :
      ¬ ((SadbMsg.of bytes).sadb_msg_seq ≠ k.mSequence ∧ (SadbMsg.of bytes).sadb_msg_seq ≠ 0) := by
      rintro ⟨-, hne⟩
      exact hne (hp.seq.trans hr)
    rw [dif_neg hcorrupt, dif_neg (Nat.not_lt.mpr hbytes.len_le),
      if_neg (Decidable.not_not.mpr hp.pid), if_neg hseq]

/-! ## Headline

  A run may have any number of calls, and the kernel may answer late, twice or not at all. -/

/-- The reply is the datagram's message, it has the identifiers of the request, and no late reply is
    an SPI. -/
structure Matched (e : Entry Request Datagram Reply) : Prop where
  bytes : e.answer.bytes = e.datagram.buf
  pid : (SadbMsg.of e.answer.bytes).sadb_msg_pid = e.request.sadb_msg_pid
  seq : (SadbMsg.of e.answer.bytes).sadb_msg_seq = e.request.sadb_msg_seq
  type : (SadbMsg.of e.answer.bytes).sadb_msg_type = e.request.sadb_msg_type
  fresh : e.request.sadb_msg_type = SADB_GETSPI → ∀ m, e.datagram.answersTo = some m →
    ¬ m < e.number

/-- A datagram that passes the checks has the type of the request, and is no late reply to a
    `getSpi`. -/
def Genuine (n : Nat) (r : Request) (d : Datagram) : Prop :=
  Passes r d.buf → (SadbMsg.of d.buf).sadb_msg_type = r.sadb_msg_type ∧
    (r.sadb_msg_type = SADB_GETSPI → ∀ m, d.answersTo = some m → ¬ m < n)

/-- The datagram that the step takes is genuine. -/
def TakesGenuine (s : State xfrmKernelPfkey Request Datagram Reply)
    (e : ClientEvent Call Datagram) : Prop :=
  e = .receive → ∀ n r d ds, s.waiting = some (n, r) → s.queue = d :: ds → Genuine n r d

variable {getpid : Nat} {s s' : State xfrmKernelPfkey Request Datagram Reply}
  {e : ClientEvent Call Datagram}

/-- Nothing changes the sequence number. -/
theorem sequence_zero (h : (client getpid).sys.Reachable s) :
    s.client.mSequence = 0 ∧ ∀ n r, s.waiting = some (n, r) → r.sadb_msg_seq = 0 := by
  refine Client.inv_reachable (I := fun k : xfrmKernelPfkey => k.mSequence = 0)
    (R := fun r : Request => r.sadb_msg_seq = 0) rfl ?_ h
  intro k c hk
  refine ⟨?_, hk⟩
  cases c with
  | getSpi => exact hk
  | RegisterPfkeySocket => rfl

/-- A reply matches when the kernel sent it for the request. -/
theorem matched_iff_genuine {n : Nat} {r : Request} {d : Datagram} {a : Reply} (hp : Passes r d.buf)
    (ha : a.bytes = d.buf) : Matched ⟨n, r, d, a⟩ ↔ Genuine n r d := by
  constructor
  · rintro ⟨-, -, -, htype, hfresh⟩ -
    rw [ha] at htype
    exact ⟨htype, hfresh⟩
  · intro hg
    obtain ⟨htype, hfresh⟩ := hg hp
    exact ⟨ha, by rw [ha]; exact hp.pid, by rw [ha]; exact hp.seq, by rw [ha]; exact htype, hfresh⟩

/-- **Step lemma**: the reply a step adds is matched exactly if the datagram is genuine. -/
theorem adds_iff (h : (client getpid).sys.Reachable s) :
    (client getpid).Adds Matched s e ↔ TakesGenuine s e := by
  obtain ⟨hk, hr⟩ := sequence_zero h
  constructor
  · intro hadds he n r d ds hw hq hp
    obtain ⟨a, ha⟩ : ∃ a : Reply, a.bytes = d.buf := ⟨⟨d.buf, hp.wellFormed⟩, rfl⟩
    have hreact := (received_answers hk (hr n r hw)).mpr ⟨hp, ha⟩
    exact (matched_iff_genuine hp ha).mp (hadds he n r d ds a hw hq (congrArg some hreact)) hp
  · intro htakes he n r d ds a hw hq hreact
    obtain ⟨hp, ha⟩ := (received_answers hk (hr n r hw)).mp (Option.some.inj hreact)
    exact (matched_iff_genuine hp ha).mpr (htakes he n r d ds hw hq)

/-- **Replies match their requests as long as every datagram taken is genuine**, and not after a
    step that takes another. -/
theorem pfkey_replies_match (h : (client getpid).sys.Runs (fun s e _ => TakesGenuine s e) s) :
    (∀ e ∈ s.log, Matched e) ∧
    ∀ e s', (client getpid).sys.step s e = some s' →
      ((∀ e ∈ s'.log, Matched e) ↔ TakesGenuine s e) := by
  have hsound :
    Client.Sound Matched s := Client.sound_of_runs (fun hr _ hg => (adds_iff hr).mpr hg) h
  refine ⟨hsound, ?_⟩
  intro e s' hs
  exact (Client.sound_step_iff hsound hs).trans (adds_iff h.reachable)

/-- A header without extensions, to process 4242. -/
def bareMessage (type : UInt8) : List UInt8 :=
  [2, type, 0, 3, 2, 0, 0, 0, 0, 0, 0, 0, 0x92, 0x10, 0, 0]

/-- A `getSpi`, and its reply. -/
theorem pfkey_replies_match_getSpi : ∃ s, (client 4242).sys.exec (client 4242).sys.init
      [.call .getSpi, .deliver ⟨bareMessage 1, some 0⟩, .receive] = some s ∧
    s.log.map (fun e => e.answer.bytes) = [bareMessage 1] ∧ ∀ e ∈ s.log, Matched e := by
  have h0 : (client 4242).sys.Runs (fun s e _ => TakesGenuine s e) _ := .init
  have h1 := h0.step (e := ClientEvent.call Call.getSpi) rfl (by intro h; cases h)
  have h2 := h1.step (e := ClientEvent.deliver ⟨bareMessage 1, some 0⟩) rfl (by intro h; cases h)
  have h3 := h2.step (e := ClientEvent.receive) rfl (by
    intro _ n r d ds hw hq _
    obtain ⟨rfl, rfl⟩ := Prod.mk.inj (Option.some.inj hw)
    obtain ⟨rfl, -⟩ := List.cons.inj hq
    refine ⟨rfl, ?_⟩
    intro _ m _ hlt
    exact absurd hlt (Nat.not_lt_zero m))
  exact ⟨_, rfl, rfl, (pfkey_replies_match h3).1⟩

/-- The reply to a `getSpi` is a registration's. -/
theorem wrong_type_returned : ¬ ∀ (getpid : Nat) (s : State xfrmKernelPfkey Request Datagram Reply),
    (client getpid).sys.Reachable s → ∀ e ∈ s.log, Matched e := by
  intro hall
  have h0 : (client 4242).sys.Reachable _ := .init
  have h1 := h0.step (e := ClientEvent.call Call.getSpi) rfl trivial
  have h2 := h1.step (e := ClientEvent.deliver ⟨bareMessage 7, none⟩) rfl trivial
  have h3 := h2.step (e := ClientEvent.receive) rfl trivial
  exact absurd (hall 4242 _ h3 _ (List.mem_singleton.mpr rfl)).type (by decide)

end Pfkey

end StevenProgram
