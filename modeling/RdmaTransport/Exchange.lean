import RdmaTransport.QpAttributes
import RdmaTransport.Lib.Runs

/-!
# The exchange of connection data

A client and a server run `create_context` over one stream connection. The client writes
its data and reads that of the server; the server reads, connects its queue pair, and only
then writes. Either side takes one call of `read` or `write` for a whole message: a call
that transfers fewer bytes ends the exchange on its side, and neither side tells the other.
The last word, `"done"`, is written and read without looking at the result.

The stream delivers the bytes in order and cuts them anywhere. The two sides run in any
interleaving. This file shows what the client may conclude from its own success, and in
which runs it succeeds.
-/

namespace RdmaTransport

open Runs Format Memory

/-- What a side brings to the exchange. -/
structure ExchParty where
  /-- The own connection data, `my_info`. -/
  info : InfoCon
  /-- The byte order of the machine. -/
  endian : Endian
  /-- The uninitialised arrays of the exchange function. -/
  frame : ExchFrame
  /-- The parameters handed to `rdma_connect_ctx`. -/
  params : ConnectParams
  /-- The own queue pair. -/
  qp : QpAttr

/-- Where the client stands. -/
inductive ClientPoint
  /-- The own data is printed and written. -/
  | write
  /-- The data of the server is read. -/
  | read
  /-- `"done"` is written. -/
  | done
  /-- The data of the server is scanned into an allocated structure. -/
  | scan
  /-- `rdma_connect_ctx` is called. -/
  | connect
  /-- `create_context` has returned, with a context or with `NULL`. -/
  | returned (ok : Bool)
  deriving DecidableEq

/-- Where the server stands. -/
inductive ServerPoint
  /-- The data of the client is read. -/
  | read
  /-- The data of the client is scanned into an allocated structure. -/
  | scan
  /-- `rdma_connect_ctx` is called. -/
  | connect
  /-- The own data is printed and written. -/
  | write
  /-- The last word of the client is read. -/
  | await
  /-- `create_context` has returned, with a context or with `NULL`. -/
  | returned (ok : Bool)
  deriving DecidableEq

/-- The data of one side. -/
structure ExchSide where
  /-- The arrays of the exchange function. -/
  frame : ExchFrame
  /-- The returned structure, `remote_info`. -/
  remote : Option InfoCon
  /-- The queue pair. -/
  qp : QpAttr

/-- The two sides and the two directions of the connection. -/
structure Exchange where
  /-- Where the client stands. -/
  clientPoint : ClientPoint
  /-- Where the server stands. -/
  serverPoint : ServerPoint
  /-- The data of the client. -/
  client : ExchSide
  /-- The data of the server. -/
  server : ExchSide
  /-- The bytes on their way to the server. -/
  toServer : List UInt8
  /-- The bytes on their way to the client. -/
  toClient : List UInt8

/-- What can happen in an exchange. A call that fails transfers no byte. -/
inductive ExchangeAction
  /-- The client's `write` takes `n` bytes of its message. -/
  | clientWrite (n : ℕ)
  /-- The client's `read` returns `n` bytes. -/
  | clientRead (n : ℕ)
  /-- The client's second `write` takes `n` bytes of `"done"`. -/
  | clientDone (n : ℕ)
  /-- The client allocates memory that holds `heap` and scans. -/
  | clientScan (allocates : Bool) (heap : InfoCon) (v32 : UInt32)
  /-- The client connects its queue pair. -/
  | clientConnect (rtr rts : Bool)
  /-- The server's `read` returns `n` bytes. -/
  | serverRead (n : ℕ)
  /-- The server allocates memory that holds `heap` and scans. -/
  | serverScan (allocates : Bool) (heap : InfoCon) (v32 : UInt32)
  /-- The server connects its queue pair. -/
  | serverConnect (rtr rts : Bool)
  /-- The server's `write` takes `n` bytes of its message. -/
  | serverWrite (n : ℕ)
  /-- The server's second `read` returns `n` bytes. -/
  | serverAwait (n : ℕ)

/-- The bytes of `"done"`, with the NUL. -/
def doneWord : List UInt8 := [100, 111, 110, 101, 0]

/-- The own data is printed into `msg`. -/
def ExchSide.print (p : ExchParty) (d : ExchSide) : Option ExchSide :=
  (printInfo p.endian d.frame p.info).map fun frame => { d with frame }

/-- `read` has stored bytes to `msg`. This is the side if it got a whole message. -/
def ExchSide.fill (d : ExchSide) (data : List UInt8) : Option ExchSide :=
  if h : data.length = infoSize then some { d with frame := d.frame.read data h } else none

/-- The data of the peer is scanned from `msg`. -/
def ExchSide.scan (p : ExchParty) (d : ExchSide) (heap : InfoCon) (v32 : UInt32) :
    Option ExchSide :=
  (scanInfo p.endian v32 d.frame heap).map fun scanned =>
    { d with frame := scanned.2, remote := some scanned.1 }

/-- The queue pair is connected to the peer, with the result of `rdma_connect_ctx`. -/
def ExchSide.connect (p : ExchParty) (d : ExchSide) (rtr rts : Bool) : Option (ExchSide × ℤ) :=
  d.remote.map fun remote =>
    let (qp, r) := rdmaConnectCtx d.qp p.params p.info.psn remote rtr rts
    ({ d with qp }, r)

/-- `NULL` is returned. -/
def ExchSide.fail (d : ExchSide) : ExchSide := { d with remote := none }

variable (client server : ExchParty)

/-- Before the first call. -/
def Exchange.start : Exchange :=
  ⟨.write, .read, ⟨client.frame, none, client.qp⟩, ⟨server.frame, none, server.qp⟩, [], []⟩

/-- One call of either side. -/
def Exchange.step (s : Exchange) : ExchangeAction → Option Exchange
  | .clientWrite n =>
      if s.clientPoint = .write ∧ n ≤ infoSize then
        (s.client.print client).map fun d => { s with
          clientPoint := if n = infoSize then .read else .returned false
          client := d
          toServer := s.toServer ++ d.frame.msg.take n }
      else none
  | .clientRead n =>
      if s.clientPoint = .read ∧ n ≤ infoSize ∧ n ≤ s.toClient.length then
        let toClient := s.toClient.drop n
        match s.client.fill (s.toClient.take n) with
        | none => some { s with clientPoint := .returned false, toClient }
        | some d => some { s with clientPoint := .done, client := d, toClient }
      else none
  | .clientDone n =>
      if s.clientPoint = .done then
        some { s with clientPoint := .scan, toServer := s.toServer ++ doneWord.take n }
      else none
  | .clientScan allocates heap v32 =>
      if s.clientPoint = .scan then
        if allocates then
          (s.client.scan client heap v32).map fun d =>
            { s with clientPoint := .connect, client := d }
        else some { s with clientPoint := .returned false }
      else none
  | .clientConnect rtr rts =>
      if s.clientPoint = .connect then
        (s.client.connect client rtr rts).map fun out =>
          { s with clientPoint := .returned (out.2 == (0 : ℤ)), client := out.1 }
      else none
  | .serverRead n =>
      if s.serverPoint = .read ∧ n ≤ infoSize ∧ n ≤ s.toServer.length then
        let toServer := s.toServer.drop n
        match s.server.fill (s.toServer.take n) with
        | none => some { s with serverPoint := .returned false, toServer }
        | some d => some { s with serverPoint := .scan, server := d, toServer }
      else none
  | .serverScan allocates heap v32 =>
      if s.serverPoint = .scan then
        if allocates then
          (s.server.scan server heap v32).map fun d =>
            { s with serverPoint := .connect, server := d }
        else some { s with serverPoint := .returned false }
      else none
  | .serverConnect rtr rts =>
      if s.serverPoint = .connect then
        (s.server.connect server rtr rts).map fun out =>
          if out.2 = 0 then { s with serverPoint := .write, server := out.1 }
          else { s with serverPoint := .returned false, server := out.1.fail }
      else none
  | .serverWrite n =>
      if s.serverPoint = .write ∧ n ≤ infoSize then
        (s.server.print server).map fun d =>
          let toClient := s.toClient ++ d.frame.msg.take n
          if n = infoSize then { s with serverPoint := .await, server := d, toClient }
          else { s with serverPoint := .returned false, server := d.fail, toClient }
      else none
  | .serverAwait n =>
      if s.serverPoint = .await ∧ n ≤ infoSize ∧ n ≤ s.toServer.length then
        some { s with serverPoint := .returned true, toServer := s.toServer.drop n }
      else none

/-- The message of a side: its data as text, with the NUL. -/
def ExchParty.message (p : ExchParty) : List UInt8 := infoBody p.info ++ [0]

/-- The server has written its data. -/
def ServerPoint.HasWritten (p : ServerPoint) : Prop := p = .await ∨ p = .returned true

/-- The client has read a whole message. -/
def ClientPoint.HasRead (p : ClientPoint) : Prop :=
  p = .done ∨ p = .scan ∨ p = .connect ∨ p = .returned true

/-- A side whose queue pair is wired to the peer. -/
def ExchSide.Wired (p peer : ExchParty) (d : ExchSide) : Prop :=
  d.qp.WiredTo p.info.psn peer.info.lid.toUInt16 peer.info.qpn peer.info.psn ∧
    d.qp.ahAttr = connectAh p.params.port p.params.sl peer.info p.params.sgidIdx

/-- What holds in every state of an exchange. -/
structure Exchange.Reached (s : Exchange) : Prop where
  /-- Before the client writes nothing has happened. -/
  silent : s.clientPoint = .write → s.toServer = [] ∧
    (s.serverPoint = .read ∨ s.serverPoint = .returned false)
  /-- The server reads from what the client has written of its message. -/
  request : s.serverPoint = .read → ∃ n, s.toServer = client.message.take n
  /-- The server scans the message of the client. -/
  received : s.serverPoint = .scan → s.server.frame.msg = client.message
  /-- From then on it has the data of the client. -/
  serverRemote : s.serverPoint = .connect ∨ s.serverPoint = .write ∨ s.serverPoint.HasWritten →
    s.server.remote = some client.info
  /-- Before it writes, its queue pair is connected. -/
  serverWired : s.serverPoint = .write ∨ s.serverPoint.HasWritten → s.server.Wired server client
  /-- Until the server writes, or if it fails to, the client gets no whole message. -/
  unanswered : ¬s.serverPoint.HasWritten → s.toClient.length < infoSize ∧
    (s.serverPoint ≠ .returned false → s.toClient = [])
  /-- Once the server has written, its message is there. -/
  answered : s.serverPoint.HasWritten → s.clientPoint = .read → s.toClient = server.message
  /-- The client is never ahead of the server. -/
  behind : s.clientPoint.HasRead → s.serverPoint.HasWritten
  /-- The client scans the message of the server. -/
  replied : s.clientPoint = .done ∨ s.clientPoint = .scan → s.client.frame.msg = server.message
  /-- From then on it has the data of the server. -/
  clientRemote : s.clientPoint = .connect ∨ s.clientPoint = .returned true →
    s.client.remote = some server.info
  /-- When it returns, its queue pair is connected. -/
  clientWired : s.clientPoint = .returned true → s.client.Wired client server

section Sides

variable {p peer : ExchParty} {d d' : ExchSide}

/-- Printing fills `msg` with the message of the side. -/
theorem ExchSide.print_eq (d : ExchSide) (haddr : p.info.addr.toNat < 10 ^ 16) :
    ∃ d', d.print p = some d' ∧ d'.frame.msg = p.message ∧ d'.remote = d.remote ∧ d'.qp = d.qp := by
  obtain ⟨frame, hprint, hmsg⟩ := printInfo_eq p.endian d.frame haddr
  exact ⟨{ d with frame }, by rw [ExchSide.print, hprint]; rfl, hmsg, rfl, rfl⟩

/-- A message has the size of `msg`. -/
theorem ExchParty.length_message (haddr : p.info.addr.toNat < 10 ^ 16) :
    p.message.length = infoSize :=
  infoBody_fills haddr

/-- A side that got a whole message has it in `msg`. -/
theorem ExchSide.fill_eq_some {data : List UInt8} (h : d.fill data = some d') :
    data.length = infoSize ∧ d'.frame.msg = data ∧ d'.remote = d.remote ∧ d'.qp = d.qp := by
  unfold ExchSide.fill at h
  split_ifs at h with hlength
  obtain rfl := Option.some.inj h
  exact ⟨hlength, rfl, rfl, rfl⟩

/-- Scanning the message of the peer yields its data. -/
theorem ExchSide.scan_eq (p : ExchParty) (heap : InfoCon) (v32 : UInt32)
    (haddr : peer.info.addr.toNat < 10 ^ 16) (hmsg : d.frame.msg = peer.message) :
    ∃ d', d.scan p heap v32 = some d' ∧ d'.remote = some peer.info ∧ d'.qp = d.qp := by
  obtain ⟨frame, hscan⟩ := scanInfo_eq p.endian v32 heap haddr hmsg
  exact ⟨{ d with frame := frame, remote := some peer.info }, by rw [ExchSide.scan, hscan]; rfl,
    rfl, rfl⟩

/-- Connecting to the data of the peer wires the queue pair to it. -/
theorem ExchSide.connect_eq (p : ExchParty) (rtr rts : Bool) (hremote : d.remote = some peer.info) :
    ∃ d' r, d.connect p rtr rts = some (d', r) ∧ d'.remote = some peer.info ∧
      (r = 0 ↔ rtr = true ∧ rts = true) ∧ (r = 0 → d'.Wired p peer) := by
  obtain ⟨hcode, hwired⟩ := rdmaConnectCtx_spec d.qp p.params p.info.psn peer.info rtr rts
  exact ⟨{ d with qp := (rdmaConnectCtx d.qp p.params p.info.psn peer.info rtr rts).1 }, _,
    by rw [ExchSide.connect, hremote]; rfl, hremote, hcode, hwired⟩

end Sides

namespace Exchange

variable {client server} {s t : Exchange}

/-- Before the first call. -/
theorem Reached.start : (start client server).Reached client server where
  silent := fun _ => ⟨rfl, .inl rfl⟩
  request := fun _ => ⟨0, rfl⟩
  received := fun h => by simp [Exchange.start] at h
  serverRemote := fun h => by simp [Exchange.start, ServerPoint.HasWritten] at h
  serverWired := fun h => by simp [Exchange.start, ServerPoint.HasWritten] at h
  unanswered := fun _ => ⟨Nat.zero_lt_succ 85, fun _ => rfl⟩
  answered := fun h => by simp [Exchange.start, ServerPoint.HasWritten] at h
  behind := fun h => by simp [Exchange.start, ClientPoint.HasRead] at h
  replied := fun h => by simp [Exchange.start] at h
  clientRemote := fun h => by simp [Exchange.start] at h
  clientWired := fun h => by simp [Exchange.start] at h

/-- A client that fails leaves a state in which the server reads no more than the message. -/
theorem Reached.clientFails (hs : s.Reached client server) {d : ExchSide}
    {toServer toClient : List UInt8}
    (hrequest : s.serverPoint = .read → ∃ n, toServer = client.message.take n)
    (hanswer : ¬s.serverPoint.HasWritten → toClient.length < infoSize ∧
      (s.serverPoint ≠ .returned false → toClient = [])) :
    ({ s with clientPoint := .returned false, client := d, toServer, toClient } :
      Exchange).Reached client server where
  silent := by simp
  request := hrequest
  received := hs.received
  serverRemote := hs.serverRemote
  serverWired := hs.serverWired
  unanswered := hanswer
  answered := by simp
  behind := by simp [ClientPoint.HasRead]
  replied := by simp
  clientRemote := by simp
  clientWired := by simp

/-- A server that fails leaves a state in which the client gets no whole message. -/
theorem Reached.serverFails (hs : s.Reached client server) (hpoint : ¬s.serverPoint.HasWritten)
    {d : ExchSide} {toServer toClient : List UInt8}
    (hsilent : s.clientPoint = .write → toServer = []) (hshort : toClient.length < infoSize) :
    ({ s with serverPoint := .returned false, server := d, toServer, toClient } :
      Exchange).Reached client server where
  silent := fun h => ⟨hsilent h, .inr rfl⟩
  request := by simp
  received := by simp
  serverRemote := by simp [ServerPoint.HasWritten]
  serverWired := by simp [ServerPoint.HasWritten]
  unanswered := fun _ => ⟨hshort, by simp⟩
  answered := by simp [ServerPoint.HasWritten]
  behind := fun h => absurd (hs.behind h) hpoint
  replied := hs.replied
  clientRemote := hs.clientRemote
  clientWired := hs.clientWired

section Calls

variable (hclient : client.info.addr.toNat < 10 ^ 16) (hserver : server.info.addr.toNat < 10 ^ 16)

include hclient in
/-- The client writes its message, or a part of it. -/
theorem Reached.clientWrite (hs : s.Reached client server) {n : ℕ}
    (h : s.step client server (.clientWrite n) = some t) : t.Reached client server := by
  obtain ⟨d, hprint, hmsg, hremote, hqp⟩ := s.client.print_eq hclient
  simp only [Exchange.step, hprint, Option.map_some, Option.ite_none_right_eq_some,
    Option.some.injEq] at h
  obtain ⟨⟨hpoint, hn⟩, rfl⟩ := h
  obtain ⟨hnil, hwaits⟩ := hs.silent hpoint
  have hrequest : ∃ n', s.toServer ++ d.frame.msg.take n = client.message.take n' :=
    ⟨n, by rw [hnil, List.nil_append, hmsg]⟩
  split_ifs with hwhole
  · have hnot : ¬s.serverPoint.HasWritten := by
      rcases hwaits with h | h <;> simp [h, ServerPoint.HasWritten]
    exact
      { silent := by simp
        request := fun _ => hrequest
        received := hs.received
        serverRemote := hs.serverRemote
        serverWired := hs.serverWired
        unanswered := hs.unanswered
        answered := fun h => absurd h hnot
        behind := by simp [ClientPoint.HasRead]
        replied := by simp
        clientRemote := by simp
        clientWired := by simp }
  · exact hs.clientFails (fun _ => hrequest) hs.unanswered

include hserver in
/-- The client reads a whole message only after the server has written one. -/
theorem Reached.clientRead (hs : s.Reached client server) {n : ℕ}
    (h : s.step client server (.clientRead n) = some t) : t.Reached client server := by
  simp only [Exchange.step, Option.ite_none_right_eq_some] at h
  obtain ⟨⟨hpoint, hsize, hn⟩, h⟩ := h
  split at h
  · obtain rfl := Option.some.inj h
    refine hs.clientFails hs.request fun hnot => ?_
    obtain ⟨hshort, hnil⟩ := hs.unanswered hnot
    refine ⟨?_, fun hne => by rw [hnil hne, List.drop_nil]⟩
    rw [List.length_drop]
    omega
  next d hfill =>
    obtain rfl := Option.some.inj h
    obtain ⟨hlength, hmsg, _, _⟩ := ExchSide.fill_eq_some hfill
    rw [List.length_take] at hlength
    have hwritten : s.serverPoint.HasWritten := by
      by_contra hnot
      have hshort := (hs.unanswered hnot).1
      omega
    have hmessage : d.frame.msg = server.message := by
      have hwhole := ExchParty.length_message hserver
      rw [hs.answered hwritten hpoint] at hmsg hlength
      rw [hmsg, List.take_of_length_le (by omega)]
    exact
      { silent := by simp
        request := hs.request
        received := hs.received
        serverRemote := hs.serverRemote
        serverWired := hs.serverWired
        unanswered := fun hnot => absurd hwritten hnot
        answered := by simp
        behind := fun _ => hwritten
        replied := fun _ => hmessage
        clientRemote := by simp
        clientWired := by simp }

/-- The last word of the client comes after the server has read its message. -/
theorem Reached.clientDone (hs : s.Reached client server) {n : ℕ}
    (h : s.step client server (.clientDone n) = some t) : t.Reached client server := by
  simp only [Exchange.step, Option.ite_none_right_eq_some, Option.some.injEq] at h
  obtain ⟨hpoint, rfl⟩ := h
  have hwritten : s.serverPoint.HasWritten := hs.behind (.inl hpoint)
  have hread : s.serverPoint ≠ .read := by
    rintro h
    simp [h, ServerPoint.HasWritten] at hwritten
  exact
    { silent := by simp
      request := fun h => absurd h hread
      received := hs.received
      serverRemote := hs.serverRemote
      serverWired := hs.serverWired
      unanswered := hs.unanswered
      answered := by simp
      behind := fun _ => hwritten
      replied := fun _ => hs.replied (.inl hpoint)
      clientRemote := by simp
      clientWired := by simp }

include hserver in
/-- The client scans the data of the server. -/
theorem Reached.clientScan (hs : s.Reached client server) {allocates : Bool} {heap : InfoCon}
    {v32 : UInt32} (h : s.step client server (.clientScan allocates heap v32) = some t) :
    t.Reached client server := by
  simp only [Exchange.step, Option.ite_none_right_eq_some] at h
  obtain ⟨hpoint, h⟩ := h
  split_ifs at h with hallocates
  · obtain ⟨d, hscan, hremote, _⟩ :=
      ExchSide.scan_eq client heap v32 hserver (hs.replied (.inr hpoint))
    rw [hscan] at h
    obtain rfl := Option.some.inj h
    exact
      { silent := by simp
        request := hs.request
        received := hs.received
        serverRemote := hs.serverRemote
        serverWired := hs.serverWired
        unanswered := hs.unanswered
        answered := by simp
        behind := fun _ => hs.behind (.inr (.inl hpoint))
        replied := by simp
        clientRemote := fun _ => hremote
        clientWired := by simp }
  · obtain rfl := Option.some.inj h
    exact hs.clientFails hs.request hs.unanswered

/-- The client connects its queue pair to the server. -/
theorem Reached.clientConnect (hs : s.Reached client server) {rtr rts : Bool}
    (h : s.step client server (.clientConnect rtr rts) = some t) : t.Reached client server := by
  simp only [Exchange.step, Option.ite_none_right_eq_some] at h
  obtain ⟨hpoint, h⟩ := h
  obtain ⟨d, r, hconnect, hremote, _, hwired⟩ :=
    ExchSide.connect_eq client rtr rts (hs.clientRemote (.inl hpoint))
  rw [hconnect] at h
  obtain rfl := Option.some.inj h
  have hwritten : s.serverPoint.HasWritten := hs.behind (.inr (.inr (.inl hpoint)))
  exact
    { silent := by simp
      request := hs.request
      received := hs.received
      serverRemote := hs.serverRemote
      serverWired := hs.serverWired
      unanswered := hs.unanswered
      answered := by simp
      behind := fun _ => hwritten
      replied := by simp
      clientRemote := fun _ => hremote
      clientWired := fun h => hwired (by simpa using h) }

include hclient in
/-- The server reads a whole message only if it is that of the client. -/
theorem Reached.serverRead (hs : s.Reached client server) {n : ℕ}
    (h : s.step client server (.serverRead n) = some t) : t.Reached client server := by
  simp only [Exchange.step, Option.ite_none_right_eq_some] at h
  obtain ⟨⟨hpoint, hsize, hn⟩, h⟩ := h
  have hnot : ¬s.serverPoint.HasWritten := by simp [hpoint, ServerPoint.HasWritten]
  obtain ⟨hshort, hempty⟩ := hs.unanswered hnot
  split at h
  · obtain rfl := Option.some.inj h
    refine hs.serverFails hnot (fun hwrite => ?_) hshort
    rw [(hs.silent hwrite).1, List.drop_nil]
  next d hfill =>
    obtain rfl := Option.some.inj h
    obtain ⟨hlength, hmsg, _, _⟩ := ExchSide.fill_eq_some hfill
    obtain ⟨m, hrequest⟩ := hs.request hpoint
    have hmessage : d.frame.msg = client.message := by
      have hwhole := ExchParty.length_message hclient
      rw [hrequest, List.take_take] at hmsg hlength
      rw [List.length_take] at hlength
      rw [hmsg, List.take_of_length_le (by omega)]
    have hwrite : s.clientPoint ≠ .write := by
      intro hwrite
      rw [(hs.silent hwrite).1, List.take_nil, List.length_nil] at hlength
      exact absurd hlength (by decide)
    exact
      { silent := fun h => absurd h hwrite
        request := by simp
        received := fun _ => hmessage
        serverRemote := by simp [ServerPoint.HasWritten]
        serverWired := by simp [ServerPoint.HasWritten]
        unanswered := fun _ => ⟨hshort, fun _ => hempty (by simp [hpoint])⟩
        answered := by simp [ServerPoint.HasWritten]
        behind := fun h => absurd (hs.behind h) hnot
        replied := hs.replied
        clientRemote := hs.clientRemote
        clientWired := hs.clientWired }

include hclient in
/-- The server scans the data of the client. -/
theorem Reached.serverScan (hs : s.Reached client server) {allocates : Bool} {heap : InfoCon}
    {v32 : UInt32} (h : s.step client server (.serverScan allocates heap v32) = some t) :
    t.Reached client server := by
  simp only [Exchange.step, Option.ite_none_right_eq_some] at h
  obtain ⟨hpoint, h⟩ := h
  have hnot : ¬s.serverPoint.HasWritten := by simp [hpoint, ServerPoint.HasWritten]
  obtain ⟨hshort, hempty⟩ := hs.unanswered hnot
  split_ifs at h with hallocates
  · obtain ⟨d, hscan, hremote, _⟩ := ExchSide.scan_eq server heap v32 hclient (hs.received hpoint)
    rw [hscan] at h
    obtain rfl := Option.some.inj h
    exact
      { silent := fun h => absurd (hs.silent h).2 (by simp [hpoint])
        request := by simp
        received := by simp
        serverRemote := fun _ => hremote
        serverWired := by simp [ServerPoint.HasWritten]
        unanswered := fun _ => ⟨hshort, fun _ => hempty (by simp [hpoint])⟩
        answered := by simp [ServerPoint.HasWritten]
        behind := fun h => absurd (hs.behind h) hnot
        replied := hs.replied
        clientRemote := hs.clientRemote
        clientWired := hs.clientWired }
  · obtain rfl := Option.some.inj h
    exact hs.serverFails hnot (fun h => (hs.silent h).1) hshort

/-- The server connects its queue pair to the client before it answers. -/
theorem Reached.serverConnect (hs : s.Reached client server) {rtr rts : Bool}
    (h : s.step client server (.serverConnect rtr rts) = some t) : t.Reached client server := by
  simp only [Exchange.step, Option.ite_none_right_eq_some] at h
  obtain ⟨hpoint, h⟩ := h
  have hnot : ¬s.serverPoint.HasWritten := by simp [hpoint, ServerPoint.HasWritten]
  obtain ⟨hshort, hempty⟩ := hs.unanswered hnot
  obtain ⟨d, r, hconnect, hremote, _, hwired⟩ :=
    ExchSide.connect_eq server rtr rts (hs.serverRemote (.inl hpoint))
  rw [hconnect, Option.map_some] at h
  obtain rfl := Option.some.inj h
  split_ifs with hzero
  · exact
      { silent := fun h => absurd (hs.silent h).2 (by simp [hpoint])
        request := by simp
        received := by simp
        serverRemote := fun _ => hremote
        serverWired := fun _ => hwired hzero
        unanswered := fun _ => ⟨hshort, fun _ => hempty (by simp [hpoint])⟩
        answered := by simp [ServerPoint.HasWritten]
        behind := fun h => absurd (hs.behind h) hnot
        replied := hs.replied
        clientRemote := hs.clientRemote
        clientWired := hs.clientWired }
  · exact hs.serverFails hnot (fun h => (hs.silent h).1) hshort

include hserver in
/-- The server writes its message, or a part of it. -/
theorem Reached.serverWrite (hs : s.Reached client server) {n : ℕ}
    (h : s.step client server (.serverWrite n) = some t) : t.Reached client server := by
  obtain ⟨d, hprint, hmsg, hremote, hqp⟩ := s.server.print_eq hserver
  simp only [Exchange.step, hprint, Option.map_some, Option.ite_none_right_eq_some,
    Option.some.injEq] at h
  obtain ⟨⟨hpoint, hn⟩, rfl⟩ := h
  have hnot : ¬s.serverPoint.HasWritten := by simp [hpoint, ServerPoint.HasWritten]
  have hempty := (hs.unanswered hnot).2 (by simp [hpoint])
  have hwhole := ExchParty.length_message hserver
  split_ifs with hsize
  · have hanswer : s.toClient ++ d.frame.msg.take n = server.message := by
      rw [hempty, List.nil_append, hmsg, List.take_of_length_le (by omega)]
    exact
      { silent := fun h => absurd (hs.silent h).2 (by simp [hpoint])
        request := by simp
        received := by simp
        serverRemote := fun _ => hremote.trans (hs.serverRemote (.inr (.inl hpoint)))
        serverWired := fun _ => by
          have hwired := hs.serverWired (.inl hpoint)
          rwa [ExchSide.Wired, hqp]
        unanswered := fun h => absurd (.inl rfl) h
        answered := fun _ _ => hanswer
        behind := fun _ => .inl rfl
        replied := hs.replied
        clientRemote := hs.clientRemote
        clientWired := hs.clientWired }
  · refine hs.serverFails hnot (fun h => (hs.silent h).1) ?_
    rw [hempty, List.nil_append, List.length_take]
    omega

/-- The server returns whatever the last word of the client is. -/
theorem Reached.serverAwait (hs : s.Reached client server) {n : ℕ}
    (h : s.step client server (.serverAwait n) = some t) : t.Reached client server := by
  simp only [Exchange.step, Option.ite_none_right_eq_some, Option.some.injEq] at h
  obtain ⟨⟨hpoint, _⟩, rfl⟩ := h
  have hwritten : s.serverPoint.HasWritten := .inl hpoint
  exact
    { silent := fun h => absurd (hs.silent h).2 (by simp [hpoint])
      request := by simp
      received := by simp
      serverRemote := fun _ => hs.serverRemote (.inr (.inr hwritten))
      serverWired := fun _ => hs.serverWired (.inr hwritten)
      unanswered := fun h => absurd (.inr rfl) h
      answered := fun _ => hs.answered hwritten
      behind := fun _ => .inr rfl
      replied := hs.replied
      clientRemote := hs.clientRemote
      clientWired := hs.clientWired }

include hclient hserver in
/-- Every call keeps what holds in every state. -/
theorem Reached.step (hs : s.Reached client server) {a : ExchangeAction}
    (h : s.step client server a = some t) : t.Reached client server := by
  cases a with
  | clientWrite n => exact hs.clientWrite hclient h
  | clientRead n => exact hs.clientRead hserver h
  | clientDone n => exact hs.clientDone h
  | clientScan allocates heap v32 => exact hs.clientScan hserver h
  | clientConnect rtr rts => exact hs.clientConnect h
  | serverRead n => exact hs.serverRead hclient h
  | serverScan allocates heap v32 => exact hs.serverScan hclient h
  | serverConnect rtr rts => exact hs.serverConnect h
  | serverWrite n => exact hs.serverWrite hserver h
  | serverAwait n => exact hs.serverAwait h

end Calls

/-- Neither side has returned `NULL`. -/
def Unbroken (s : Exchange) : Prop :=
  s.clientPoint ≠ .returned false ∧ s.serverPoint ≠ .returned false

end Exchange

/-- The call transfers a whole message, or succeeds. The last word may be cut. -/
def ExchangeAction.Whole : ExchangeAction → Prop
  | .clientWrite n | .clientRead n | .serverRead n | .serverWrite n => n = infoSize
  | .clientScan allocates _ _ | .serverScan allocates _ _ => allocates = true
  | .clientConnect rtr rts | .serverConnect rtr rts => rtr = true ∧ rts = true
  | .clientDone _ | .serverAwait _ => True

/-- A call of `read` that returns the number of bytes asked for fills the array. -/
theorem ExchSide.fill_isSome_iff {d : ExchSide} {data : List UInt8} {n : ℕ}
    (hn : n ≤ data.length) : (d.fill (data.take n)).isSome ↔ n = infoSize := by
  have hlength : (data.take n).length = n := by
    rw [List.length_take]
    omega
  unfold ExchSide.fill
  split_ifs with h
  · exact ⟨fun _ => hlength ▸ h, fun _ => rfl⟩
  · exact ⟨fun h' => by simp at h', fun h' => absurd (hlength.trans h') h⟩

namespace Exchange

variable {client server} {s t : Exchange}

/-- A call breaks the exchange exactly if it is not whole. -/
theorem Reached.unbroken_step_iff (hclient : client.info.addr.toNat < 10 ^ 16)
    (hserver : server.info.addr.toNat < 10 ^ 16) (hs : s.Reached client server) {a : ExchangeAction}
    (h : s.step client server a = some t) : t.Unbroken ↔ s.Unbroken ∧ a.Whole := by
  cases a with
  | clientWrite n =>
    obtain ⟨d, hprint, _⟩ := s.client.print_eq hclient
    simp only [Exchange.step, hprint, Option.map_some, Option.ite_none_right_eq_some,
      Option.some.injEq] at h
    obtain ⟨⟨hpoint, _⟩, rfl⟩ := h
    by_cases hn : n = infoSize <;> simp [Unbroken, ExchangeAction.Whole, hpoint, hn]
  | clientRead n =>
    simp only [Exchange.step, Option.ite_none_right_eq_some] at h
    obtain ⟨⟨hpoint, _, hn⟩, h⟩ := h
    have hwhole := ExchSide.fill_isSome_iff (d := s.client) hn
    split at h <;> obtain rfl := Option.some.inj h <;>
      simp_all [Unbroken, ExchangeAction.Whole]
  | clientDone n =>
    simp only [Exchange.step, Option.ite_none_right_eq_some, Option.some.injEq] at h
    obtain ⟨hpoint, rfl⟩ := h
    simp [Unbroken, ExchangeAction.Whole, hpoint]
  | clientScan allocates heap v32 =>
    simp only [Exchange.step, Option.ite_none_right_eq_some] at h
    obtain ⟨hpoint, h⟩ := h
    obtain ⟨d, hscan, _⟩ := ExchSide.scan_eq client heap v32 hserver (hs.replied (.inr hpoint))
    rw [hscan] at h
    cases allocates <;> obtain rfl := Option.some.inj h <;>
      simp [Unbroken, ExchangeAction.Whole, hpoint]
  | clientConnect rtr rts =>
    simp only [Exchange.step, Option.ite_none_right_eq_some] at h
    obtain ⟨hpoint, h⟩ := h
    obtain ⟨d, r, hconnect, _, hcode, _⟩ :=
      ExchSide.connect_eq client rtr rts (hs.clientRemote (.inl hpoint))
    rw [hconnect] at h
    obtain rfl := Option.some.inj h
    simp [Unbroken, ExchangeAction.Whole, hpoint, hcode, and_comm]
  | serverRead n =>
    simp only [Exchange.step, Option.ite_none_right_eq_some] at h
    obtain ⟨⟨hpoint, _, hn⟩, h⟩ := h
    have hwhole := ExchSide.fill_isSome_iff (d := s.server) hn
    split at h <;> obtain rfl := Option.some.inj h <;>
      simp_all [Unbroken, ExchangeAction.Whole]
  | serverScan allocates heap v32 =>
    simp only [Exchange.step, Option.ite_none_right_eq_some] at h
    obtain ⟨hpoint, h⟩ := h
    obtain ⟨d, hscan, _⟩ := ExchSide.scan_eq server heap v32 hclient (hs.received hpoint)
    rw [hscan] at h
    cases allocates <;> obtain rfl := Option.some.inj h <;>
      simp [Unbroken, ExchangeAction.Whole, hpoint]
  | serverConnect rtr rts =>
    simp only [Exchange.step, Option.ite_none_right_eq_some] at h
    obtain ⟨hpoint, h⟩ := h
    obtain ⟨d, r, hconnect, _, hcode, _⟩ :=
      ExchSide.connect_eq server rtr rts (hs.serverRemote (.inl hpoint))
    rw [hconnect, Option.map_some] at h
    obtain rfl := Option.some.inj h
    have hwhole : (ExchangeAction.serverConnect rtr rts).Whole ↔ r = 0 := hcode.symm
    rw [hwhole]
    by_cases hzero : r = 0 <;> simp [Unbroken, hpoint, hzero]
  | serverWrite n =>
    obtain ⟨d, hprint, _⟩ := s.server.print_eq hserver
    simp only [Exchange.step, hprint, Option.map_some, Option.ite_none_right_eq_some,
      Option.some.injEq] at h
    obtain ⟨⟨hpoint, _⟩, rfl⟩ := h
    split_ifs with hn <;> simp [Unbroken, ExchangeAction.Whole, hpoint, hn]
  | serverAwait n =>
    simp only [Exchange.step, Option.ite_none_right_eq_some, Option.some.injEq] at h
    obtain ⟨⟨hpoint, _⟩, rfl⟩ := h
    simp [Unbroken, ExchangeAction.Whole, hpoint]

end Exchange

section Runs

variable {client server} {s : Exchange} {acts : List ExchangeAction}

/-- What holds in every state holds after every run. -/
theorem Exchange.reached_of_exec (hclient : client.info.addr.toNat < 10 ^ 16)
    (hserver : server.info.addr.toNat < 10 ^ 16)
    (hrun : exec (Exchange.step client server) (Exchange.start client server) acts = some s) :
    s.Reached client server :=
  invariant_of_exec (Exchange.Reached client server)
    (fun _ _ _ hs h => hs.step hclient hserver h) Exchange.Reached.start hrun

/-- **Safety of the exchange.** Let the two addresses have at most 16 digits, so that the texts
fit their arrays. However the stream is cut and the calls of the two sides are interleaved: if
`create_context` returns a context to the client, the server has written its data, either side
has the data of the other, and the two queue pairs are ready to send and wired to each other.
If it returns one to the server, the server has the data of the client and its queue pair is
wired to the client, but the client need not have succeeded. -/
theorem exchange_wires (hclient : client.info.addr.toNat < 10 ^ 16)
    (hserver : server.info.addr.toNat < 10 ^ 16)
    (hrun : exec (Exchange.step client server) (Exchange.start client server) acts = some s) :
    (s.clientPoint = .returned true → s.serverPoint.HasWritten ∧
      s.client.remote = some server.info ∧ s.client.Wired client server) ∧
    (s.serverPoint.HasWritten →
      s.server.remote = some client.info ∧ s.server.Wired server client) := by
  have hs := Exchange.reached_of_exec hclient hserver hrun
  refine ⟨fun h => ⟨?_, hs.clientRemote (.inr h), hs.clientWired h⟩, fun h => ?_⟩
  · exact hs.behind (.inr (.inr (.inr h)))
  · exact ⟨hs.serverRemote (.inr (.inr h)), hs.serverWired (.inr h)⟩

/-- Connection data with the given numbers. -/
def sampleInfo (lid qpn psn : UInt32) : InfoCon := ⟨lid, qpn, psn, 9, 4096, fun _ => 0⟩

/-- The size of a blank array `msg`. -/
theorem length_blankMsg : (List.replicate infoSize (0 : UInt8)).length = infoSize :=
  List.length_replicate

/-- The size of a blank array `gid`. -/
theorem length_blankGid : (List.replicate 33 (0 : UInt8)).length = 33 := List.length_replicate

/-- A side with blank arrays. -/
def sampleParty (info : InfoCon) : ExchParty where
  info := info
  endian := .little
  frame := ⟨List.replicate infoSize 0, List.replicate 33 0, length_blankMsg, length_blankGid⟩
  params := ⟨1, 1024, 0, 0⟩
  qp := { QpAttr.zero with qpState := .init }

/-- The calls of an exchange without failures. -/
def sampleExchange : List ExchangeAction :=
  [.clientWrite 86, .serverRead 86, .serverScan true (sampleInfo 0 0 0) 0,
    .serverConnect true true, .serverWrite 86, .clientRead 86, .clientDone 5,
    .clientScan true (sampleInfo 0 0 0) 0, .clientConnect true true, .serverAwait 5]

/-- After these calls both sides have returned a context. -/
theorem exec_sampleExchange :
    (exec (Exchange.step (sampleParty (sampleInfo 1 2 3)) (sampleParty (sampleInfo 4 5 6)))
      (Exchange.start (sampleParty (sampleInfo 1 2 3)) (sampleParty (sampleInfo 4 5 6)))
      sampleExchange).map (fun s => (s.clientPoint, s.serverPoint)) =
      some (.returned true, .returned true) := by
  decide

/-- Two sample sides are wired to each other. -/
theorem exchange_wires_sample :
    ∃ s, exec (Exchange.step (sampleParty (sampleInfo 1 2 3)) (sampleParty (sampleInfo 4 5 6)))
        (Exchange.start (sampleParty (sampleInfo 1 2 3)) (sampleParty (sampleInfo 4 5 6)))
        sampleExchange = some s ∧
      s.client.qp.destQpNum = 5 ∧ s.client.qp.rqPsn = 6 ∧ s.server.qp.destQpNum = 2 ∧
      s.server.qp.rqPsn = 3 := by
  obtain ⟨s, hrun, hpoints⟩ := Option.map_eq_some_iff.mp exec_sampleExchange
  obtain ⟨hclient, hserver⟩ := Prod.mk.inj hpoints
  obtain ⟨hfirst, hsecond⟩ := exchange_wires (by decide) (by decide) hrun
  obtain ⟨_, _, hwired, _⟩ := hfirst hclient
  obtain ⟨_, hwired', _⟩ := hsecond (.inr hserver)
  exact ⟨s, hrun, hwired.dest, hwired.receives, hwired'.dest, hwired'.receives⟩

/-- **Success of the exchange.** Let the two addresses have at most 16 digits. In a run after
which both sides have returned, the client got a context exactly if every call of either side
was whole: no `read` or `write` of a message was cut, no allocation failed and both queue pairs
could be connected. Then the server got one too. -/
theorem exchange_succeeds_iff (hclient : client.info.addr.toNat < 10 ^ 16)
    (hserver : server.info.addr.toNat < 10 ^ 16)
    (hrun : exec (Exchange.step client server) (Exchange.start client server) acts = some s)
    {ok ok' : Bool} (hreturned : s.clientPoint = .returned ok)
    (hreturned' : s.serverPoint = .returned ok') :
    (ok = true ↔ ∀ a ∈ acts, a.Whole) ∧ (ok = true → ok' = true) := by
  have hs := Exchange.reached_of_exec hclient hserver hrun
  have hserverToo : ok = true → ok' = true := by
    rintro rfl
    have hwritten := hs.behind (.inr (.inr (.inr hreturned)))
    simpa [ServerPoint.HasWritten, hreturned'] using hwritten
  have hunbroken : s.Unbroken ↔ ok = true := by
    rw [Exchange.Unbroken, hreturned, hreturned']
    cases ok <;> simp [hserverToo]
  refine ⟨?_, hserverToo⟩
  rw [← hunbroken, ← meets_iff_forall hrun]
  constructor
  · intro hend
    refine (meets_of_exec (Exchange.Reached client server) Exchange.Unbroken
      (fun _ _ _ hs h => hs.step hclient hserver h) (fun _ _ _ hs h hgood => ?_)
      Exchange.Reached.start hrun hend).2
    exact (hs.unbroken_step_iff hclient hserver h).mp hgood
  · intro hmeets
    refine (hmeets.invariant (fun s => s.Reached client server ∧ s.Unbroken) ?_
      ⟨Exchange.Reached.start, by simp [Exchange.Unbroken, Exchange.start]⟩ hrun).2
    rintro s a t ⟨hreached, hgood⟩ hwhole h
    exact ⟨hreached.step hclient hserver h,
      (hreached.unbroken_step_iff hclient hserver h).mpr ⟨hgood, hwhole⟩⟩

/-- A cut `read` of the server ends the sample exchange without a context for the client. -/
def cutExchange : List ExchangeAction :=
  [.clientWrite 86, .serverRead 40, .clientRead 0]

/-- After these calls neither side has a context. -/
theorem exec_cutExchange :
    (exec (Exchange.step (sampleParty (sampleInfo 1 2 3)) (sampleParty (sampleInfo 4 5 6)))
      (Exchange.start (sampleParty (sampleInfo 1 2 3)) (sampleParty (sampleInfo 4 5 6)))
      cutExchange).map (fun s => (s.clientPoint, s.serverPoint)) =
      some (.returned false, .returned false) := by
  decide

/-- The calls of the sample exchange are whole; those of the cut one are not. -/
theorem exchange_succeeds_iff_sample :
    (∀ a ∈ sampleExchange, a.Whole) ∧ ¬ ∀ a ∈ cutExchange, a.Whole := by
  constructor
  · obtain ⟨s, hrun, hpoints⟩ := Option.map_eq_some_iff.mp exec_sampleExchange
    obtain ⟨hclient, hserver⟩ := Prod.mk.inj hpoints
    exact (exchange_succeeds_iff (by decide) (by decide) hrun hclient hserver).1.mp rfl
  · obtain ⟨s, hrun, hpoints⟩ := Option.map_eq_some_iff.mp exec_cutExchange
    obtain ⟨hclient, hserver⟩ := Prod.mk.inj hpoints
    intro hwhole
    exact nomatch (exchange_succeeds_iff (by decide) (by decide) hrun hclient hserver).1.mpr hwhole

end Runs

end RdmaTransport
