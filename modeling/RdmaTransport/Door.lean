import RdmaTransport.SessionRing
import RdmaTransport.SessionGather
import RdmaTransport.SlotTable
import RdmaTransport.Lib.Progress
import Mathlib.Data.Bool.Basic

/-!
# Two sessions open the door

The constructor of `rdma_session` ends with `door`, which exchanges the tables of slots of
the two sides over the queue pair. A side whose `flag` is 1 sends its table first, waits
until the adapter has completed the send, and then waits for the table of the peer; any
other side first waits for the table and then sends its own. `flag` is 1 on the side that
accepted the connection. The other constructor never sets it.

The two sides run in any interleaving. The connection is reliable: what a side has sent
arrives in order, each message in the next posted buffer, and a send is completed when its
message has arrived. A constructed session may send further messages and use its receive
side at any time, also while the peer is still in `door`.

`door` looks at neither the result of the two polls nor at that of `send`. A poll that
fails leaves in `wc[0]` what was there before.
-/

namespace RdmaTransport

open Runs

/-- What a session brings to `door`. -/
structure DoorConfig where
  /-- The field `flag`. -/
  flag : ℤ
  /-- The addresses and keys of the own slots. -/
  table : List (UInt64 × UInt32)
  /-- What the array `data` of `start_rw` holds at first. -/
  data : List UInt8
  /-- What the variables of `start_remote` hold at first. -/
  vars : RemoteTable
  /-- What the receive block holds at first. -/
  rbuf : ℕ → UInt8
  /-- The number of receive work requests the adapter takes. -/
  accepted : ℕ

/-- Where a session stands in its constructor. -/
inductive DoorPoint
  /-- `init` has still to post the receive buffers. -/
  | init
  /-- `start_rw` has still to send the table. -/
  | startRw
  /-- The poll of the send completion queue by which `start_rw` ends. -/
  | pollSent
  /-- The poll of the receive completion queue. -/
  | pollTable
  /-- `start_remote` is called with `wc[0].byte_len`. -/
  | startRemote (byteLen : UInt32)
  /-- The session is constructed. -/
  | done
  deriving DecidableEq

/-- One of the two sessions. -/
structure DoorSide where
  /-- Where the constructor stands. -/
  point : DoorPoint
  /-- The receive side. -/
  session : Session
  /-- The messages handed to the adapter, in order. -/
  sent : List (List UInt8)
  /-- What `start_remote` left in its variables, unless its behaviour was undefined. -/
  remote : Option RemoteTable

/-- What follows the posting of the receive buffers. -/
def DoorConfig.afterInit (c : DoorConfig) : DoorPoint := if c.flag = 1 then .startRw else .pollTable

/-- What follows `start_rw`. -/
def DoorConfig.afterSent (c : DoorConfig) : DoorPoint := if c.flag = 1 then .pollTable else .done

/-- What follows `start_remote`. -/
def DoorConfig.afterRemote (c : DoorConfig) : DoorPoint := if c.flag = 1 then .done else .startRw

/-- A session before its buffers are posted. -/
def DoorConfig.start (c : DoorConfig) : DoorSide :=
  ⟨.init, ⟨[], [], c.rbuf, 0, 0, 0, false, [], [], []⟩, [], none⟩

/-- The two sessions before their constructors run. -/
def doorStart (c : Bool → DoorConfig) (i : Bool) : DoorSide := (c i).start

/-- What can happen while two sessions are opened. The first argument is the side. -/
inductive DoorAction
  /-- `init` posts the receive buffers. -/
  | init (i : Bool)
  /-- `start_rw` prints the table and calls `send`, whose work request is taken or refused. -/
  | startRw (i : Bool) (ok : Bool)
  /-- The poll of the send completion queue returns or fails. -/
  | pollSent (i : Bool) (ok : Bool)
  /-- The poll of the receive completion queue returns `j` completions. -/
  | pollTable (i : Bool) (j : ℕ)
  /-- The poll of the receive completion queue fails, with `wc[0].byte_len` as it was. -/
  | pollFails (i : Bool) (byteLen : UInt32)
  /-- `start_remote` runs. -/
  | startRemote (i : Bool)
  /-- The next message of the peer arrives at the side. -/
  | deliver (i : Bool)
  /-- The constructed session sends a message. -/
  | send (i : Bool) (message : List UInt8)
  /-- An operation of the receive side is called on the constructed session. -/
  | call (i : Bool) (a : SessionAction)

/-- The operations the user of a session can call on its receive side. -/
def SessionAction.IsCall : SessionAction → Bool
  | .arrive _ | .door _ => false
  | .read _ | .querySr _ | .postRecv _ _ => true

/-- What an action does to its own side; the peer is only looked at. -/
def DoorSide.step (c : DoorConfig) (d peer : DoorSide) : DoorAction → Option DoorSide
  | .init _ =>
      if d.point = .init then
        some { d with point := c.afterInit, session := d.session.postRecv 16000 c.accepted }
      else none
  | .startRw _ ok =>
      if d.point = .startRw then
        (startRwBytes c.table c.data).map fun bytes =>
          { d with point := .pollSent, sent := if ok then d.sent ++ [bytes] else d.sent }
      else none
  | .pollSent _ ok =>
      -- The table is the first message of its side.
      if d.point = .pollSent ∧ (ok → d.sent ≠ [] ∧ 0 < peer.session.arrived) then
        some { d with point := c.afterSent }
      else none
  | .pollTable _ j =>
      if d.point = .pollTable then
        (d.session.door j).map fun session =>
          { d with
            point := .startRemote (UInt32.ofNat ((d.session.byteLens j).headD 0))
            session }
      else none
  | .pollFails _ byteLen =>
      if d.point = .pollTable then
        let session := { d.session with recvIndex := d.session.recvIndex + 1, started := true }
        some { d with point := .startRemote byteLen, session }
      else none
  | .startRemote _ =>
      match d.point with
      | .startRemote byteLen =>
          let block := bytesAt d.session.rbuf 0 (recvNums * gap)
          some { d with point := c.afterRemote, remote := startRemote byteLen block c.vars }
      | _ => none
  | .deliver _ =>
      peer.sent[d.session.arrived]?.bind fun message =>
        (d.session.arrive message).map fun session => { d with session }
  | .send _ message =>
      if d.point = .done ∧ message.length ≤ gap then some { d with sent := d.sent ++ [message] }
      else none
  | .call _ a =>
      if d.point = .done ∧ a.IsCall then (d.session.step a).map fun session => { d with session }
      else none

/-- The side an action belongs to. -/
def DoorAction.side : DoorAction → Bool
  | .init i | .startRw i _ | .pollSent i _ | .pollTable i _ | .pollFails i _ | .startRemote i
  | .deliver i | .send i _ | .call i _ => i

/-- One action of the two sessions. -/
def doorStep (c : Bool → DoorConfig) (s : Bool → DoorSide) (a : DoorAction) :
    Option (Bool → DoorSide) :=
  ((s a.side).step (c a.side) (s !a.side) a).map fun d => Function.update s a.side d

/-- No work request is refused and no poll fails. -/
def DoorAction.Succeeds : DoorAction → Bool
  | .startRw _ ok | .pollSent _ ok => ok
  | .pollFails _ _ => false
  | _ => true

/-- What `door` relies on: the table can be printed and scanned as far as the addresses and
the arrays are concerned, and fits a buffer. The arrays of the source are one byte too short
for this, so that what is derived from it is about `door` with room for the NULs. -/
structure DoorConfig.Fits (c : DoorConfig) : Prop where
  /-- The addresses have at most 16 digits. -/
  addr_lt : ∀ slot ∈ c.table, slot.1.toNat < 10 ^ 16
  /-- There is room for the last NUL in `data`. -/
  data_lt : 25 * c.table.length < c.data.length
  /-- There is room for the NUL in `tmp`. -/
  tmp_lt : 25 < c.vars.tmp.length
  /-- The table fits the send buffer. -/
  table_le : 25 * c.table.length ≤ gap

/-- The bytes of the table. -/
def DoorConfig.text (c : DoorConfig) : List UInt8 := c.table.flatMap slotText

/-- The table that `start_remote` has stored is that of the peer. -/
def DoorConfig.Received (peer : DoorConfig) (remote : Option RemoteTable) : Prop :=
  ∃ u, remote = some u ∧
    (List.range peer.table.length).map (fun k => (u.raddrs k, u.rkeys k)) = peer.table

/-- What the actions that succeed do to a side. -/
inductive DoorMove (c : DoorConfig) (peer d : DoorSide) : DoorAction → DoorSide → Prop
  | init {i : Bool} (hpoint : d.point = .init) : DoorMove c peer d (.init i)
      { d with point := c.afterInit, session := d.session.postRecv 16000 c.accepted }
  | startRw {i : Bool} (hpoint : d.point = .startRw) : DoorMove c peer d (.startRw i true)
      { d with point := .pollSent, sent := d.sent ++ [c.text] }
  | pollSent {i : Bool} (hpoint : d.point = .pollSent) (hsent : d.sent ≠ [])
      (harrived : 0 < peer.session.arrived) :
      DoorMove c peer d (.pollSent i true) { d with point := c.afterSent }
  | pollTable {i : Bool} {j : ℕ} {session : Session} (hpoint : d.point = .pollTable)
      (hdoor : d.session.door j = some session) : DoorMove c peer d (.pollTable i j)
      { d with
        point := .startRemote (UInt32.ofNat ((d.session.byteLens j).headD 0))
        session }
  | startRemote {i : Bool} {byteLen : UInt32} (hpoint : d.point = .startRemote byteLen) :
      DoorMove c peer d (.startRemote i)
      { d with
        point := c.afterRemote
        remote := startRemote byteLen (bytesAt d.session.rbuf 0 (recvNums * gap)) c.vars }
  | deliver {i : Bool} {message : List UInt8} {session : Session}
      (hmessage : peer.sent[d.session.arrived]? = some message)
      (harrive : d.session.arrive message = some session) :
      DoorMove c peer d (.deliver i) { d with session }
  | send {i : Bool} {message : List UInt8} (hpoint : d.point = .done)
      (hfits : message.length ≤ gap) :
      DoorMove c peer d (.send i message) { d with sent := d.sent ++ [message] }
  | call {i : Bool} {a : SessionAction} {session : Session} (hpoint : d.point = .done)
      (hcall : a.IsCall) (hstep : d.session.step a = some session) :
      DoorMove c peer d (.call i a) { d with session }

/-- With room for the NUL `start_rw` sends the text of the table. -/
theorem DoorConfig.Fits.startRwBytes_eq {c : DoorConfig} (h : c.Fits) :
    startRwBytes c.table c.data = some c.text := by
  have hint : 25 * c.table.length < 2 ^ 31 := h.table_le.trans_lt (by decide)
  rw [RdmaTransport.startRwBytes_eq h.addr_lt h.data_lt, if_pos hint, DoorConfig.text]

/-- The text of the table has 25 bytes for a slot. -/
theorem DoorConfig.Fits.length_text {c : DoorConfig} (h : c.Fits) :
    c.text.length = 25 * c.table.length :=
  Memory.length_flatMap_records slotText fun slot hslot =>
    (slotText_plain (h.addr_lt slot hslot)).1

/-- `start_remote` on a receive block that begins with the table of the peer. -/
theorem DoorConfig.Fits.received {c peer : DoorConfig} (h : c.Fits) (hpeer : peer.Fits)
    (rest : List UInt8) :
    peer.Received (startRemote (UInt32.ofNat peer.text.length) (peer.text ++ rest) c.vars) := by
  have hint : 25 * peer.table.length < 2 ^ 31 := hpeer.table_le.trans_lt (by decide)
  have hnum : (UInt32.ofNat peer.text.length).toNat / 25 = peer.table.length := by
    rw [hpeer.length_text, UInt32.toNat_ofNat_of_lt' (hint.trans (by decide))]
    omega
  obtain ⟨u, hrun, _, hslots⟩ := foldlM_round rest hpeer.addr_lt h.tmp_lt le_rfl
  refine ⟨u, ?_, by rw [hslots, List.take_length]⟩
  rw [startRemote, hnum, if_pos hint, DoorConfig.text, hrun]

/-- An action that succeeds makes one of the moves. -/
theorem DoorSide.move_of_step {c : DoorConfig} {peer d e : DoorSide} {a : DoorAction}
    (hfits : c.Fits) (hok : a.Succeeds) (h : d.step c peer a = some e) : DoorMove c peer d a e := by
  cases a with
  | init i =>
    simp only [DoorSide.step, Option.ite_none_right_eq_some, Option.some.injEq] at h
    obtain ⟨hpoint, rfl⟩ := h
    exact .init hpoint
  | startRw i ok =>
    obtain rfl : ok = true := hok
    simp only [DoorSide.step, Option.ite_none_right_eq_some, hfits.startRwBytes_eq, Option.map_some,
      Option.some.injEq, if_true] at h
    obtain ⟨hpoint, rfl⟩ := h
    exact .startRw hpoint
  | pollSent i ok =>
    obtain rfl : ok = true := hok
    simp only [DoorSide.step, Option.ite_none_right_eq_some, Option.some.injEq, forall_const] at h
    obtain ⟨⟨hpoint, hsent, harrived⟩, rfl⟩ := h
    exact .pollSent hpoint hsent harrived
  | pollTable i j =>
    simp only [DoorSide.step, Option.ite_none_right_eq_some, Option.map_eq_some_iff] at h
    obtain ⟨hpoint, session, hdoor, rfl⟩ := h
    exact .pollTable hpoint hdoor
  | pollFails i byteLen => exact absurd hok (by simp [DoorAction.Succeeds])
  | startRemote i =>
    simp only [DoorSide.step] at h
    split at h
    next byteLen hpoint =>
      obtain rfl := Option.some.inj h
      exact .startRemote hpoint
    next => simp at h
  | deliver i =>
    simp only [DoorSide.step, Option.bind_eq_some_iff, Option.map_eq_some_iff] at h
    obtain ⟨message, hmessage, session, harrive, rfl⟩ := h
    exact .deliver hmessage harrive
  | send i message =>
    simp only [DoorSide.step, Option.ite_none_right_eq_some, Option.some.injEq] at h
    obtain ⟨⟨hpoint, hlength⟩, rfl⟩ := h
    exact .send hpoint hlength
  | call i a =>
    simp only [DoorSide.step, Option.ite_none_right_eq_some, Option.map_eq_some_iff] at h
    obtain ⟨⟨hpoint, hcall⟩, session, hstep, rfl⟩ := h
    exact .call hpoint hcall hstep

/-- Whether the table has been handed to the adapter. -/
def DoorConfig.hasSent (c : DoorConfig) : DoorPoint → Bool
  | .init | .startRw => false
  | .pollSent | .done => true
  | .pollTable | .startRemote _ => c.flag = 1

/-- Whether the receive completion queue has been polled. -/
def DoorConfig.hasPolled (c : DoorConfig) : DoorPoint → Bool
  | .init | .pollTable => false
  | .startRemote _ | .done => true
  | .startRw | .pollSent => c.flag ≠ 1

/-- What holds of the messages a side has sent. -/
structure DoorSide.Sends (c : DoorConfig) (d : DoorSide) : Prop where
  /-- Nothing is sent before the table. -/
  sent_nil : c.hasSent d.point = false → d.sent = []
  /-- The table is the first message. -/
  sent_head : c.hasSent d.point = true → d.sent.head? = some c.text
  /-- A session under construction sends nothing else. -/
  sent_le : d.point ≠ .done → d.sent.length ≤ 1
  /-- All messages fit a receive buffer. -/
  sent_fits : ∀ message ∈ d.sent, message.length ≤ gap

/-- What holds of the receive side of a session. -/
structure DoorSide.Polls (c : DoorConfig) (d : DoorSide) : Prop where
  /-- The session is well formed. -/
  wellFormed : d.session.WellFormed
  /-- Before `init` the session is as it was allocated. -/
  unposted : d.point = .init → d.session = c.start.session
  /-- A session under construction has posted its buffers once. -/
  posted : d.point ≠ .init → d.point ≠ .done →
    d.session.posted = (List.range (postCount 16000 c.accepted)).map (· % recvNums)
  /-- The session counts as started from the poll on. -/
  started_eq : d.session.started = c.hasPolled d.point
  /-- From the poll on a completion has been taken. -/
  polled_pos : d.session.started = true → 0 < d.session.polled
  /-- The first message stays in the first buffer until the buffers have been gone round. -/
  block : d.point ≠ .done → d.session.arrived ≤ recvNums →
    ∀ message, d.session.messages.head? = some message →
      bytesAt d.session.rbuf 0 message.length = message
  /-- Messages arrive only where a buffer was posted. -/
  accepted_pos : 0 < d.session.arrived → 0 < c.accepted

/-- What holds of both sides in every state. -/
structure DoorsReached (c : Bool → DoorConfig) (s : Bool → DoorSide) : Prop where
  /-- The messages sent. -/
  sends : ∀ i, (s i).Sends (c i)
  /-- The receive sides. -/
  polls : ∀ i, (s i).Polls (c i)
  /-- What has arrived at a side was sent by the other one. -/
  linked : ∀ i, (s i).session.messages <+: (s !i).sent
  /-- The length handed to `start_remote` is that of the table of the peer. -/
  byteLen_eq : ∀ i n, (s i).point = .startRemote n → n = UInt32.ofNat (c !i).text.length

section Steps

variable {c : DoorConfig} {peer d e : DoorSide} {a : DoorAction}

/-- Moves keep what holds of the messages sent. -/
theorem DoorSide.Sends.move (hfits : c.Fits) (hd : d.Sends c) (hmove : DoorMove c peer d a e) :
    e.Sends c := by
  obtain ⟨hnil, hhead, hle, hsmall⟩ := hd
  cases hmove with
  | init hpoint =>
    have hsent : d.sent = [] := hnil (by rw [hpoint]; rfl)
    have hafter : c.hasSent c.afterInit = false := by
      unfold DoorConfig.afterInit
      split_ifs with h <;> simp [DoorConfig.hasSent, h]
    exact ⟨fun _ => hsent, by simp [hafter], by simp [hsent], hsmall⟩
  | startRw hpoint =>
    have hsent : d.sent = [] := hnil (by rw [hpoint]; rfl)
    refine ⟨by simp [DoorConfig.hasSent], by simp [hsent], by simp [hsent], ?_⟩
    simp only [hsent, List.nil_append, List.forall_mem_singleton, hfits.length_text]
    exact hfits.table_le
  | pollSent hpoint hsent harrived =>
    have hfirst := hhead (by rw [hpoint]; rfl)
    have hafter : c.hasSent c.afterSent = true := by
      unfold DoorConfig.afterSent
      split_ifs with h <;> simp [DoorConfig.hasSent, h]
    exact ⟨by simp [hafter], fun _ => hfirst, fun _ => hle (by simp [hpoint]), hsmall⟩
  | pollTable hpoint hdoor =>
    rw [hpoint] at hnil hhead
    exact ⟨hnil, hhead, fun _ => hle (by simp [hpoint]), hsmall⟩
  | startRemote hpoint =>
    rw [hpoint] at hnil hhead
    have hafter : ∀ n, c.hasSent c.afterRemote = c.hasSent (.startRemote n) := by
      intro n
      unfold DoorConfig.afterRemote
      split_ifs with h <;> simp [DoorConfig.hasSent, h]
    refine ⟨fun h => hnil (hafter _ ▸ h), fun h => hhead (hafter _ ▸ h), ?_, hsmall⟩
    exact fun _ => hle (by simp [hpoint])
  | deliver hmessage harrive => exact ⟨hnil, hhead, hle, hsmall⟩
  | send hpoint hlength =>
    have hfirst := hhead (by rw [hpoint]; rfl)
    refine ⟨by simp [hpoint, DoorConfig.hasSent], ?_, by simp [hpoint], ?_⟩
    · intro _
      simp [List.head?_append, hfirst]
    · simpa [or_imp, forall_and, hlength] using hsmall
  | call hpoint hcall hstep => exact ⟨hnil, hhead, hle, hsmall⟩

/-- The operations of the receive side leave the messages and take completions only. -/
theorem Session.of_isCall {s t : Session} {a : SessionAction} (hwf : s.WellFormed)
    (hcall : a.IsCall) (h : s.step a = some t) :
    t.messages = s.messages ∧ t.started = s.started ∧ s.polled ≤ t.polled := by
  cases a with
  | arrive data => simp [SessionAction.IsCall] at hcall
  | door j => simp [SessionAction.IsCall] at hcall
  | read done =>
    cases done with
    | none =>
      obtain rfl := read_none_cases hwf.index_lt h
      exact ⟨rfl, rfl, le_rfl⟩
    | some j =>
      obtain ⟨_, _, rfl⟩ := read_some_cases h
      exact ⟨rfl, rfl, Nat.le_add_right _ _⟩
  | querySr j =>
    obtain ⟨_, _, rfl⟩ := querySr_cases h
    exact ⟨rfl, rfl, Nat.le_add_right _ _⟩
  | postRecv nums accepted =>
    obtain ⟨_, _, rfl⟩ := postRecv_cases h
    exact ⟨rfl, rfl, le_rfl⟩

/-- A message that arrives in a buffer other than the first one leaves the first message
where it is, and the first message fills the first buffer. -/
theorem Session.block_of_arrive {s t : Session} {data : List UInt8} {posts : ℕ}
    (hposted : s.posted = (List.range posts).map (· % recvNums)) (hround : t.arrived ≤ recvNums)
    (hblock : ∀ message, s.messages.head? = some message →
      bytesAt s.rbuf 0 message.length = message)
    (hfits : ∀ message ∈ s.messages, message.length ≤ gap) (h : s.arrive data = some t)
    (message : List UInt8) (hmessage : t.messages.head? = some message) :
    bytesAt t.rbuf 0 message.length = message := by
  simp only [Session.arrive, Option.ite_none_right_eq_some, Option.map_eq_some_iff] at h
  obtain ⟨hdata, buffer, hbuffer, rfl⟩ := h
  have hindex : buffer = s.arrived := by
    rw [hposted, List.getElem?_map, Option.map_eq_some_iff] at hbuffer
    obtain ⟨k, hk, rfl⟩ := hbuffer
    obtain ⟨_, rfl⟩ := List.getElem?_eq_some_iff.mp hk
    simp only [Session.arrived, List.length_append, List.length_singleton] at hround
    rw [List.getElem_range]
    exact Nat.mod_eq_of_lt (by rw [Session.arrived]; omega)
  cases hfirst : s.messages with
  | nil =>
    obtain rfl : data = message := by simpa [hfirst] using hmessage
    apply List.ext_getElem (length_bytesAt _ _ _)
    intro k hk hk'
    simp [bytesAt, hindex, Session.arrived, hfirst, hk']
  | cons first rest =>
    obtain rfl : first = message := by simpa [hfirst] using hmessage
    have hlength : first.length ≤ gap := hfits first (by simp [hfirst])
    refine Eq.trans (List.map_congr_left fun k hk => ?_) (hblock first (by simp [hfirst]))
    have hbefore : ¬buffer * gap ≤ 0 + k := by
      have hk' := List.mem_range.mp hk
      have hone : 1 ≤ buffer := by simp [hindex, Session.arrived, hfirst]
      have hgap := Nat.mul_le_mul_right gap hone
      omega
    simp only [hbefore, if_false]

/-- Moves keep what holds of the receive side. -/
theorem DoorSide.Polls.move (hd : d.Polls c)
    (hsmall : ∀ message ∈ d.session.messages, message.length ≤ gap)
    (hmove : DoorMove c peer d a e) : e.Polls c := by
  obtain ⟨hwf, hunposted, hposted, hstarted, hpolled, hblock, haccepted⟩ := hd
  cases hmove with
  | init hpoint =>
    obtain ⟨point, session, sent, remote⟩ := d
    obtain rfl : point = .init := hpoint
    obtain rfl : session = c.start.session := hunposted rfl
    have hafter : c.hasPolled c.afterInit = false ∧ c.afterInit ≠ .init := by
      unfold DoorConfig.afterInit
      split_ifs with h <;> simp [DoorConfig.hasPolled, h]
    refine ⟨Session.wellFormed_initial c.rbuf c.accepted, fun h => absurd h hafter.2, ?_,
      hafter.1.symm, by simp [Session.postRecv, DoorConfig.start], ?_, haccepted⟩
    · exact fun _ _ => Session.posted_initial c.rbuf c.accepted
    · simp [Session.postRecv, DoorConfig.start]
  | startRw hpoint =>
    rw [hpoint] at hstarted
    exact ⟨hwf, by simp, fun _ _ => hposted (by simp [hpoint]) (by simp [hpoint]), hstarted,
      hpolled, fun _ => hblock (by simp [hpoint]), haccepted⟩
  | pollSent hpoint hsent harrived =>
    rw [hpoint] at hstarted
    have hafter : c.hasPolled c.afterSent = c.hasPolled .pollSent ∧ c.afterSent ≠ .init := by
      unfold DoorConfig.afterSent
      split_ifs with h <;> simp [DoorConfig.hasPolled, h]
    exact ⟨hwf, fun h => absurd h hafter.2,
      fun _ _ => hposted (by simp [hpoint]) (by simp [hpoint]), hstarted.trans hafter.1.symm,
      hpolled, fun _ => hblock (by simp [hpoint]), haccepted⟩
  | @pollTable _ j session hpoint hdoor =>
    rw [hpoint] at hstarted
    have hstep : d.session.step (.door j) = some session := by
      simpa [Session.step, hstarted, DoorConfig.hasPolled] using hdoor
    have hwf' := hwf.step hstep
    obtain ⟨_, ⟨hone, _, _⟩, rfl⟩ := Session.door_cases hstep
    exact ⟨hwf', by simp, fun _ _ => hposted (by simp [hpoint]) (by simp [hpoint]), rfl,
      fun _ => Nat.add_pos_right _ hone, fun _ => hblock (by simp [hpoint]), haccepted⟩
  | startRemote hpoint =>
    rw [hpoint] at hstarted
    have hafter : c.hasPolled c.afterRemote = true ∧ c.afterRemote ≠ .init := by
      unfold DoorConfig.afterRemote
      split_ifs with h <;> simp [DoorConfig.hasPolled, h]
    exact ⟨hwf, fun h => absurd h hafter.2,
      fun _ _ => hposted (by simp [hpoint]) (by simp [hpoint]), hstarted.trans hafter.1.symm,
      hpolled, fun _ => hblock (by simp [hpoint]), haccepted⟩
  | @deliver _ message session hmessage harrive =>
    have hstep : d.session.step (.arrive message) = some session := harrive
    obtain ⟨buffer, hbuffer, hsame, hmore, hpolled', _, hstarted', _⟩ := Session.arrive_cases hstep
    have hinit : d.point ≠ .init := by
      intro hpoint
      simp [hunposted hpoint, DoorConfig.start] at hbuffer
    refine ⟨hwf.step hstep, fun h => absurd h hinit, ?_, hstarted'.trans hstarted, ?_, ?_, ?_⟩
    · exact fun _ hdone => hsame.trans (hposted hinit hdone)
    · rwa [hstarted', hpolled']
    · intro hdone hround
      have hless : d.session.arrived ≤ recvNums :=
        (Nat.le_succ _).trans (hmore.symm.trans_le hround)
      exact Session.block_of_arrive (hposted hinit hdone) hround (hblock hdone hless) hsmall harrive
    · intro _
      by_cases hdone : d.point = .done
      · have hstarted'' : d.session.started = true := by
          rw [hstarted, hdone]
          rfl
        exact haccepted ((hpolled hstarted'').trans_le hwf.polled_le)
      · rw [hposted hinit hdone] at hbuffer
        obtain ⟨hlt, _⟩ := List.getElem?_eq_some_iff.mp hbuffer
        simp only [List.length_map, List.length_range, postCount] at hlt
        omega
  | send hpoint hlength =>
    exact ⟨hwf, hunposted, hposted, hstarted, hpolled, hblock, haccepted⟩
  | call hpoint hcall hstep =>
    obtain ⟨hmessages, hsame, hle⟩ := Session.of_isCall hwf hcall hstep
    refine ⟨hwf.step hstep, by simp [hpoint], fun _ h => absurd hpoint h, hsame.trans hstarted, ?_,
      fun h => absurd hpoint h, ?_⟩
    · rw [hsame]
      exact fun h => (hpolled h).trans_le hle
    · rwa [Session.arrived, hmessages]

/-- A move leaves the messages that have arrived, or adds the next one of the peer. -/
theorem DoorMove.messages_prefix (hwf : d.session.WellFormed)
    (hlink : d.session.messages <+: peer.sent) (hmove : DoorMove c peer d a e) :
    e.session.messages <+: peer.sent := by
  cases hmove with
  | init hpoint => exact hlink
  | startRw hpoint => exact hlink
  | pollSent hpoint hsent harrived => exact hlink
  | @pollTable _ j session hpoint hdoor =>
    simp only [Session.door, Option.map_eq_some_iff] at hdoor
    obtain ⟨t, hpoll, rfl⟩ := hdoor
    obtain ⟨_, rfl⟩ := Session.poll_eq_some.mp hpoll
    exact hlink
  | startRemote hpoint => exact hlink
  | @deliver _ message session hmessage harrive =>
    simp only [Session.arrive, Option.ite_none_right_eq_some, Option.map_eq_some_iff] at harrive
    obtain ⟨_, buffer, _, rfl⟩ := harrive
    obtain ⟨rest, hrest⟩ := hlink
    cases rest with
    | nil => simp [← hrest, Session.arrived] at hmessage
    | cons next rest =>
      obtain rfl : next = message := by simpa [← hrest, Session.arrived] using hmessage
      exact ⟨rest, by rw [← hrest, List.append_assoc, List.singleton_append]⟩
  | send hpoint hlength => exact hlink
  | @call _ a session hpoint hcall hstep =>
    have hsame := (Session.of_isCall hwf hcall hstep).1
    exact hsame ▸ hlink

/-- A move takes nothing back that was sent. -/
theorem DoorMove.sent_prefix (hmove : DoorMove c peer d a e) : d.sent <+: e.sent := by
  cases hmove with
  | startRw hpoint => exact List.prefix_append _ _
  | send hpoint hlength => exact List.prefix_append _ _
  | _ => exact List.prefix_rfl

end Steps

namespace DoorsReached

variable {c : Bool → DoorConfig} {s t : Bool → DoorSide} {a : DoorAction}

/-- An action moves its side and leaves the peer. -/
theorem move_of_doorStep (hfits : ∀ i, (c i).Fits) (hok : a.Succeeds)
    (h : doorStep c s a = some t) :
    ∃ i e, i = a.side ∧ DoorMove (c i) (s !i) (s i) a e ∧ t = Function.update s i e := by
  simp only [doorStep, Option.map_eq_some_iff] at h
  obtain ⟨e, hstep, rfl⟩ := h
  exact ⟨a.side, e, rfl, DoorSide.move_of_step (hfits _) hok hstep, rfl⟩

/-- The first message that arrives is the table of the peer. -/
theorem head_messages (hs : DoorsReached c s) {i : Bool} {message : List UInt8}
    (hmessage : (s i).session.messages.head? = some message) : message = (c !i).text := by
  obtain ⟨rest, hrest⟩ := hs.linked i
  have hhead : (s !i).sent.head? = some message := by
    rw [← hrest, List.head?_append, hmessage]
    rfl
  cases hsent : (c !i).hasSent (s !i).point with
  | false => simp [(hs.sends !i).sent_nil hsent] at hhead
  | true =>
    rw [(hs.sends !i).sent_head hsent] at hhead
    exact (Option.some.inj hhead).symm

/-- A message that has arrived was sent. -/
theorem arrived_le (hs : DoorsReached c s) (i : Bool) :
    (s i).session.arrived ≤ (s !i).sent.length :=
  (hs.linked i).length_le

/-- The completion that `door` looks at is that of the table. -/
theorem headD_byteLens (hs : DoorsReached c s) {i : Bool} {j : ℕ} {session : Session}
    (hpoint : (s i).point = .pollTable) (hdoor : (s i).session.door j = some session) :
    ((s i).session.byteLens j).headD 0 = (c !i).text.length := by
  have hstarted := (hs.polls i).started_eq
  rw [hpoint] at hstarted
  have hzero := ((hs.polls i).wellFormed.fresh hstarted).1
  simp only [Session.door, Option.map_eq_some_iff] at hdoor
  obtain ⟨u, hpoll, _⟩ := hdoor
  obtain ⟨⟨hone, _, hle⟩, _⟩ := Session.poll_eq_some.mp hpoll
  cases hmessages : (s i).session.messages with
  | nil =>
    simp only [Session.arrived, hmessages, List.length_nil] at hle
    omega
  | cons message rest =>
    have hhead : (s i).session.messages.head? = some message := by rw [hmessages]; rfl
    obtain rfl := hs.head_messages hhead
    obtain ⟨j, rfl⟩ : ∃ k, j = k + 1 := ⟨j - 1, by omega⟩
    simp [Session.byteLens, hzero, hmessages]

/-- Before their constructors run, nothing has happened. -/
theorem start (c : Bool → DoorConfig) : DoorsReached c (doorStart c) where
  sends := fun i => ⟨fun _ => rfl, by simp [doorStart, DoorConfig.start, DoorConfig.hasSent],
    by simp [doorStart, DoorConfig.start], by simp [doorStart, DoorConfig.start]⟩
  polls := fun i => ⟨⟨le_rfl, le_rfl, by simp [doorStart, DoorConfig.start], Nat.zero_lt_succ 1023,
    fun _ => rfl, by simp [doorStart, DoorConfig.start]⟩, fun _ => rfl, fun h => absurd rfl h, rfl,
    by simp [doorStart, DoorConfig.start], by simp [doorStart, DoorConfig.start],
    fun h => absurd h (by simp [doorStart, DoorConfig.start, Session.arrived])⟩
  linked := fun i => List.prefix_rfl
  byteLen_eq := by simp [doorStart, DoorConfig.start]

/-- Every successful action keeps what holds of both sides. -/
theorem step (hfits : ∀ i, (c i).Fits) (hs : DoorsReached c s) (hok : a.Succeeds)
    (h : doorStep c s a = some t) : DoorsReached c t := by
  obtain ⟨i, e, _, hmove, rfl⟩ := move_of_doorStep hfits hok h
  have hsmall : ∀ message ∈ (s i).session.messages, message.length ≤ gap := fun message hmem =>
    (hs.sends !i).sent_fits message ((hs.linked i).subset hmem)
  -- A property of one side is checked at the side that moved and carried over to the other.
  have hsides : ∀ {P : Bool → DoorSide → Prop}, P i e → (∀ k, P k (s k)) →
      ∀ k, P k (Function.update s i e k) := by
    intro P hi hrest k
    by_cases hk : k = i
    · subst hk
      simpa using hi
    · simpa [Function.update_of_ne hk] using hrest k
  refine ⟨hsides (P := fun k d => d.Sends (c k)) ((hs.sends i).move (hfits i) hmove) hs.sends,
    hsides (P := fun k d => d.Polls (c k)) ((hs.polls i).move hsmall hmove) hs.polls, ?_, ?_⟩
  · intro k
    by_cases hk : k = i
    · subst hk
      simpa using hmove.messages_prefix (hs.polls k).wellFormed (hs.linked k)
    · obtain rfl : i = !k := by simpa using Bool.eq_not_of_ne (Ne.symm hk)
      simpa [Function.update_of_ne hk] using (hs.linked k).trans hmove.sent_prefix
  · refine hsides (P := fun k d => ∀ n, d.point = .startRemote n →
      n = UInt32.ofNat (c !k).text.length) ?_ hs.byteLen_eq
    intro n hn
    cases hmove with
    | pollTable hpoint hdoor =>
      rw [← DoorPoint.startRemote.inj hn, hs.headD_byteLens hpoint hdoor]
    | init hpoint =>
      simp only [DoorConfig.afterInit] at hn
      split_ifs at hn
    | startRw hpoint => simp at hn
    | pollSent hpoint hsent harrived =>
      simp only [DoorConfig.afterSent] at hn
      split_ifs at hn
    | startRemote hpoint =>
      simp only [DoorConfig.afterRemote] at hn
      split_ifs at hn
    | deliver hmessage harrive => exact hs.byteLen_eq i n hn
    | send hpoint hlength => exact hs.byteLen_eq i n hn
    | call hpoint hcall hstep => exact hs.byteLen_eq i n hn

/-- A side that has polled its receive completion queue has received a message. -/
theorem arrived_pos_of_started (hs : DoorsReached c s) {i : Bool}
    (hstarted : (s i).session.started = true) : 0 < (s i).session.arrived :=
  ((hs.polls i).polled_pos hstarted).trans_le (hs.polls i).wellFormed.polled_le

/-- So has a constructed session. -/
theorem arrived_pos (hs : DoorsReached c s) {i : Bool} (hdone : (s i).point = .done) :
    0 < (s i).session.arrived := by
  refine hs.arrived_pos_of_started ?_
  rw [(hs.polls i).started_eq, hdone]
  rfl

/-- A side that waits for the table before it sends its own has no other message of the
peer when it scans the table. -/
theorem arrived_le_one (hs : DoorsReached c s) {i : Bool} {n : UInt32}
    (hpoint : (s i).point = .startRemote n) (hflag : (c i).flag ≠ 1) :
    (s i).session.arrived ≤ 1 := by
  have hnil : (s i).sent = [] := (hs.sends i).sent_nil (by simp [hpoint, DoorConfig.hasSent, hflag])
  have hpeer : (s !i).point ≠ .done := by
    intro hdone
    have hsent := hs.arrived_le !i
    rw [Bool.not_not, hnil] at hsent
    exact absurd hsent (Nat.not_le.mpr (hs.arrived_pos hdone))
  exact (hs.arrived_le i).trans ((hs.sends !i).sent_le hpeer)

/-- `start_remote` finds the table of the peer in the first buffer, unless the buffers have
been gone round. -/
theorem received (hfits : ∀ i, (c i).Fits) (hs : DoorsReached c s) {i : Bool} {n : UInt32}
    (hpoint : (s i).point = .startRemote n)
    (hearly : (c i).flag = 1 → (s i).session.arrived ≤ recvNums) :
    (c !i).Received
      (startRemote n (bytesAt (s i).session.rbuf 0 (recvNums * gap)) (c i).vars) := by
  have hround : (s i).session.arrived ≤ recvNums := by
    by_cases hflag : (c i).flag = 1
    · exact hearly hflag
    · exact (hs.arrived_le_one hpoint hflag).trans (by decide)
  have hstarted : (s i).session.started = true := by
    rw [(hs.polls i).started_eq, hpoint]
    rfl
  obtain ⟨message, rest, hmessages⟩ : ∃ message rest, (s i).session.messages = message :: rest :=
    List.exists_cons_of_length_pos (hs.arrived_pos_of_started hstarted)
  have hhead : (s i).session.messages.head? = some message := by rw [hmessages]; rfl
  obtain rfl := hs.head_messages hhead
  have hfirst := (hs.polls i).block (by simp [hpoint]) hround _ hhead
  have hlength : (c !i).text.length ≤ recvNums * gap := by
    rw [(hfits !i).length_text]
    exact (hfits !i).table_le.trans (Nat.le_mul_of_pos_left _ (by decide))
  obtain ⟨more, hmore⟩ := Nat.exists_eq_add_of_le hlength
  rw [hs.byteLen_eq i n hpoint, hmore, bytesAt_add, hfirst]
  exact (hfits i).received (hfits !i) _

end DoorsReached

/-- No work request is refused and no poll fails, and a side that sent its table first scans
that of the peer before more messages have arrived than there are buffers. -/
def DoorGoesWell (c : Bool → DoorConfig) (s : Bool → DoorSide) (a : DoorAction) : Prop :=
  a.Succeeds ∧ ∀ i, a = .startRemote i → (c i).flag = 1 → (s i).session.arrived ≤ recvNums

deriving instance DecidableEq for SessionAction

deriving instance DecidableEq for DoorAction

instance (c : Bool → DoorConfig) (s : Bool → DoorSide) (a : DoorAction) :
    Decidable (DoorGoesWell c s a) :=
  inferInstanceAs (Decidable (_ ∧ _))

/-- Whether the table of the peer has been scanned. -/
def DoorConfig.hasParsed (c : DoorConfig) : DoorPoint → Bool
  | .init | .pollTable | .startRemote _ => false
  | .startRw | .pollSent => c.flag ≠ 1
  | .done => true

/-- Both sides that have scanned a table have that of the peer. -/
def DoorsAgree (c : Bool → DoorConfig) (s : Bool → DoorSide) : Prop :=
  ∀ i, (c i).hasParsed (s i).point → (c !i).Received (s i).remote

/-- Every action that goes well keeps the agreement. -/
theorem DoorsAgree.step {c : Bool → DoorConfig} {s t : Bool → DoorSide} {a : DoorAction}
    (hfits : ∀ i, (c i).Fits) (hs : DoorsReached c s) (hagree : DoorsAgree c s)
    (hwell : DoorGoesWell c s a) (h : doorStep c s a = some t) : DoorsAgree c t := by
  obtain ⟨i, e, hi, hmove, rfl⟩ := DoorsReached.move_of_doorStep hfits hwell.1 h
  intro k hk
  by_cases hne : k = i
  · subst hne
    rw [Function.update_self] at hk ⊢
    have hbefore := hagree k
    cases hmove with
    | init hpoint =>
      simp only [DoorConfig.afterInit] at hk
      split_ifs at hk with hflag <;> simp [DoorConfig.hasParsed, hflag] at hk
    | startRw hpoint => exact hbefore (by simpa [hpoint, DoorConfig.hasParsed] using hk)
    | pollSent hpoint hsent harrived =>
      simp only [DoorConfig.afterSent] at hk
      split_ifs at hk with hflag
      · simp [DoorConfig.hasParsed] at hk
      · exact hbefore (by simp [hpoint, DoorConfig.hasParsed, hflag])
    | pollTable hpoint hdoor => simp [DoorConfig.hasParsed] at hk
    | startRemote hpoint =>
      refine hs.received hfits hpoint fun hflag => hwell.2 k ?_ hflag
      rw [hi]
      rfl
    | deliver hmessage harrive => exact hbefore hk
    | send hpoint hlength => exact hbefore hk
    | call hpoint hcall hstep => exact hbefore hk
  · rw [Function.update_of_ne hne] at hk ⊢
    exact hagree k hk

/-- **Agreement of the doors.** Two sessions are opened in any interleaving, with any further
messages and calls on a session that is already constructed. The addresses have at most 16
digits, the tables fit a buffer, and `data` and `tmp` have room for the NULs, which the
arrays of the source lack. If no work request is refused
and no poll fails, every side that has passed `start_remote` holds the table of slots of its
peer. A side that waits for the table before it sends its own needs nothing else. One that
sends first must scan the table before the peer, which may be constructed already, has sent
more messages than there are buffers. -/
theorem doors_agree {c : Bool → DoorConfig} (hfits : ∀ i, (c i).Fits) {acts : List DoorAction}
    {s : Bool → DoorSide} (hrun : exec (doorStep c) (doorStart c) acts = some s)
    (hwell : Meets (doorStep c) (DoorGoesWell c) (doorStart c) acts) : DoorsAgree c s := by
  have hstart : DoorsReached c (doorStart c) ∧ DoorsAgree c (doorStart c) := by
    refine ⟨DoorsReached.start c, fun i hi => ?_⟩
    simp [doorStart, DoorConfig.start, DoorConfig.hasParsed] at hi
  have hend := hwell.invariant (fun s => DoorsReached c s ∧ DoorsAgree c s) ?_ hstart hrun
  · exact hend.2
  · rintro s a t ⟨hreached, hagree⟩ hwell h
    exact ⟨hreached.step hfits hwell.1 h, hagree.step hfits hreached hwell h⟩

/-- Two sessions with two slots each. Only the first one has set `flag`. -/
def sampleDoors (i : Bool) : DoorConfig :=
  ⟨if i then 1 else 0, if i then [(5, 7), (6, 8)] else [(9, 3), (2097161, 4)],
    List.replicate 51 0, ⟨List.replicate 26 0, fun _ => 0, fun _ => 0⟩, fun _ => 0, 1⟩

/-- The first session sends its table, the second one answers. -/
def sampleDoorActions : List DoorAction :=
  [.init true, .init false, .startRw true true, .deliver false, .pollSent true true,
    .pollTable false 1, .startRemote false, .startRw false true, .deliver true,
    .pollSent false true, .pollTable true 1, .startRemote true]

/-- Both are constructed and hold the slots of the other. -/
theorem doors_agree_two_slots :
    ∃ s, exec (doorStep sampleDoors) (doorStart sampleDoors) sampleDoorActions = some s ∧
      (s true).point = .done ∧ (s false).point = .done ∧ DoorsAgree sampleDoors s := by
  have hfits : ∀ i, (sampleDoors i).Fits := by
    intro i
    cases i <;> exact ⟨by simp [sampleDoors], by decide, by decide, by decide⟩
  exact ⟨_, rfl, rfl, rfl, @doors_agree sampleDoors hfits sampleDoorActions _ rfl (by decide)⟩

end RdmaTransport
