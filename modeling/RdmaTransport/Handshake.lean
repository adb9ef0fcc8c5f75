import RdmaTransport.Lib.Runs
import RdmaTransport.SynMsg

/-!
# The connection handshake

Any number of connection attempts run `RDMAWorker::connect` against one server that
runs `RDMAServerSocketImpl::accept` again and again. Every attempt opens a socket of its
own that is never closed, so that an attempt stands for its address. Datagrams may be
lost, duplicated and reordered: the network is the collection of all datagrams ever
sent, and a call of `recvfrom` returns any of them that was sent to its socket, or
fails. The machines are little-endian.

`recv_udp_msg` returns 1 when no valid message was read. `accept` then tries again, but
`connect` goes on as if it had received one, with a peer message made up of its own and
of what the stack held. Agreement is proved for the runs in which this does not happen.
-/

namespace RdmaTransport

open Memory Runs

/-- What the environment decides in one round of `send_udp_msg`. -/
structure SendAttempt where
  /-- The number of bytes sent, or `none` when `sendto` returns -1. -/
  sent : Option ℕ
  /-- The value of `errno` when it is tested. -/
  errno : Errno
  /-- Whether a socket failure is injected. -/
  injected : Bool

/-- The value `r` of the round, with `none` for -1. -/
def SendAttempt.result (attempt : SendAttempt) : Option ℕ :=
  if attempt.injected then none else attempt.sent

/-- `send_udp_msg` with the number of retries left: the datagrams sent and the returned
value. A round beyond the given outcomes is not enabled. -/
def sendUdpMsg (e : Endian) (frame : Frame) (im : IBSYNMsg) :
    ℕ → List SendAttempt → Option (List (List UInt8) × ℤ)
  | _, [] => none
  | retries, attempt :: rest =>
      let out := (attempt.sent.map fun n => (synDatagram e frame im).take n).toList
      if attempt.result = some msgSize then some (out, 0)
      else if attempt.result = none ∧ attempt.errno ≠ .other then
        match retries with
        | 0 => some (out, -1)
        | retries + 1 =>
            (sendUdpMsg e frame im retries rest).map fun (more, code) => (out ++ more, code)
      else some (out, -1)

/-- How far a connection attempt has come. -/
inductive Attempt
  /-- `connect` has not been called. -/
  | idle
  /-- The request is sent and the reply awaited. -/
  | waiting
  /-- `connect` has returned; on success the socket has this peer message. -/
  | returned (code : ℤ) (peer : Option IBSYNMsg)
  deriving DecidableEq

/-- The state of all parties and of the network. -/
structure Handshake (ι : Type*) where
  /-- The connection attempts. -/
  client : ι → Attempt
  /-- The datagrams sent to the server, with the address they came from. -/
  toServer : List (ι × List UInt8)
  /-- The datagrams sent by the server, with the address they went to. -/
  toClient : List (ι × List UInt8)
  /-- The sockets `accept` has created: their own message and their peer message. -/
  sockets : List (IBSYNMsg × IBSYNMsg)

/-- What can happen in the handshake. -/
inductive HandshakeAction (ι : Type*)
  /-- Attempt `i` calls `connect`, which sends its request. -/
  | request (i : ι) (frame : Frame) (attempts : List SendAttempt)
  /-- Attempt `i` receives and returns; `activated` tells whether `activate` succeeds. -/
  | reply (i : ι) (frame : Frame) (input : Received Unit) (activated : Bool)
  /-- The server makes a round of the loop of `accept`: the uninitialised `msg` is `im`
  and a socket created in this round gets the message `my`. -/
  | serve (frame : Frame) (im : IBSYNMsg) (input : Received ι) (my : IBSYNMsg)
      (sendFrame : Frame) (attempts : List SendAttempt)

variable {ι : Type*} [DecidableEq ι]

/-- Before any attempt. -/
def Handshake.start : Handshake ι := ⟨fun _ => .idle, [], [], []⟩

/-- The first part of `connect`: `my` is the message of the attempt's socket. -/
def Handshake.request (my : ι → IBSYNMsg) (s : Handshake ι) (i : ι) (frame : Frame)
    (attempts : List SendAttempt) : Option (Handshake ι) :=
  if s.client i = .idle then
    (sendUdpMsg .little frame (my i) 3 attempts).map fun (out, code) => { s with
      toServer := s.toServer ++ out.map (i, ·)
      client := Function.update s.client i (if code < 0 then .returned code none else .waiting) }
  else none

/-- The second part of `connect`. The variable `msg` still holds the attempt's own
message when `recv_udp_msg` is called, and a failed `activate` ends the process. -/
def Handshake.reply (my : ι → IBSYNMsg) (s : Handshake ι) (i : ι) (frame : Frame)
    (input : Received Unit) (activated : Bool) : Option (Handshake ι) :=
  if s.client i = .waiting ∧ ∀ d ∈ input.datagram, (i, d.2) ∈ s.toClient then
    (recvUdpMsg .little frame (my i) input).bind fun res =>
      if res.code < 0 then
        some { s with client := Function.update s.client i (.returned res.code none) }
      else if activated then
        some { s with client := Function.update s.client i (.returned 0 (some res.im)) }
      else none
  else none

/-- A round of the loop of `accept`: a hard error ends the call, a reception without a
valid message is repeated, and a valid one creates a socket and is answered. -/
def Handshake.serve (s : Handshake ι) (frame : Frame) (im : IBSYNMsg) (input : Received ι)
    (my : IBSYNMsg) (sendFrame : Frame) (attempts : List SendAttempt) : Option (Handshake ι) :=
  if ∀ d ∈ input.datagram, d ∈ s.toServer then
    (recvUdpMsg .little frame im input).bind fun res =>
      if res.code < 0 then some s
      else if 0 < res.code then some s
      else
        res.addr.bind fun i =>
          (sendUdpMsg .little sendFrame my 3 attempts).map fun (out, _) => { s with
            toClient := s.toClient ++ out.map (i, ·)
            sockets := s.sockets ++ [(my, res.im)] }
  else none

/-- One action of the handshake. -/
def Handshake.step (my : ι → IBSYNMsg) (s : Handshake ι) :
    HandshakeAction ι → Option (Handshake ι)
  | .request i frame attempts => s.request my i frame attempts
  | .reply i frame input activated => s.reply my i frame input activated
  | .serve frame im input my' sendFrame attempts => s.serve frame im input my' sendFrame attempts

/-- A call of `recvfrom` settles the matter: it returns a complete datagram, or it fails, or
is made to, and `errno` is neither `EINTR` nor `EAGAIN` when it is tested. -/
def Received.Conclusive {α : Type*} (input : Received α) : Prop :=
  match input.datagram, input.injected with
  | some (_, data), false => msgSize ≤ data.length
  | _, _ => input.errno = .other

/-- The condition on a step: `recvfrom` in `connect` settles the matter. -/
def HandshakeAction.Conclusive : HandshakeAction ι → Prop
  | .reply _ _ input _ => input.Conclusive
  | _ => True

/-- A datagram is what `send_udp_msg` may put on the wire for a message: its text with
the NUL, or a part of it. -/
def Carries (data : List UInt8) (m : IBSYNMsg) : Prop := ∃ n, data = (synBody m ++ [0]).take n

/-- Every datagram `send_udp_msg` sends carries its message. -/
theorem sendUdpMsg_carries {e : Endian} {frame : Frame} {im : IBSYNMsg} {retries : ℕ}
    {attempts : List SendAttempt} {out : List (List UInt8)} {code : ℤ}
    (h : sendUdpMsg e frame im retries attempts = some (out, code)) : ∀ d ∈ out, Carries d im := by
  have hround : ∀ attempt : SendAttempt,
      ∀ d ∈ (attempt.sent.map fun n => (synDatagram e frame im).take n).toList, Carries d im := by
    intro attempt d hd
    obtain ⟨n, _, rfl⟩ := Option.map_eq_some_iff.mp (Option.mem_toList.mp hd)
    exact ⟨n, by rw [synDatagram_eq]⟩
  induction attempts generalizing retries out code with
  | nil => simp [sendUdpMsg] at h
  | cons attempt rest ih =>
    rw [sendUdpMsg.eq_def] at h
    dsimp only at h
    split_ifs at h
    · simp only [Option.some.injEq, Prod.mk.injEq] at h
      rw [← h.1]
      exact hround attempt
    · cases retries with
      | zero =>
        simp only [Option.some.injEq, Prod.mk.injEq] at h
        rw [← h.1]
        exact hround attempt
      | succ retries =>
        obtain ⟨⟨more, code'⟩, hmore, hout⟩ := Option.map_eq_some_iff.mp h
        simp only [Prod.mk.injEq] at hout
        rw [← hout.1]
        intro d hd
        rcases List.mem_append.mp hd with hd | hd
        · exact hround attempt d hd
        · exact ih hmore d hd
    · simp only [Option.some.injEq, Prod.mk.injEq] at h
      rw [← h.1]
      exact hround attempt

/-- A complete datagram that carries a message is its whole text. -/
theorem Carries.eq_of_le {data : List UInt8} {m : IBSYNMsg} (h : Carries data m)
    (hlength : msgSize ≤ data.length) : data = synBody m ++ [0] := by
  obtain ⟨n, rfl⟩ := h
  apply List.take_of_length_le
  rw [List.length_take] at hlength
  rw [synBody_nul_length]
  omega

/-- All that `recv_udp_msg` can return: 0 for a complete datagram, -1 for a hard error,
and 1 for everything else. -/
theorem recvUdpMsg_cases {α : Type*} {e : Endian} {frame : Frame} {im : IBSYNMsg}
    {input : Received α} {res : RecvResult α} (h : recvUdpMsg e frame im input = some res) :
    (∃ source data, input = ⟨some (source, data), input.errno, false⟩ ∧ msgSize ≤ data.length ∧
      res.code = 0) ∨
    (res.code = 1 ∧ ¬input.Conclusive) ∨ (res.code = -1 ∧ input.Conclusive) := by
  obtain ⟨datagram, errno, injected⟩ := input
  obtain ⟨im', _, hres⟩ := Option.map_eq_some_iff.mp h
  rcases datagram with _ | ⟨source, data⟩
  · dsimp only at hres
    split_ifs at hres with herrno
    · exact .inr (.inr ⟨by rw [← hres], herrno⟩)
    · exact .inr (.inl ⟨by rw [← hres], herrno⟩)
  · cases injected with
    | true =>
      dsimp only at hres
      split_ifs at hres with herrno
      · exact .inr (.inr ⟨by rw [← hres], herrno⟩)
      · exact .inr (.inl ⟨by rw [← hres], herrno⟩)
    | false =>
      dsimp only at hres
      split_ifs at hres with hlength
      · exact .inl ⟨source, data, rfl, by omega, by rw [← hres]⟩
      · refine .inr (.inl ⟨by rw [← hres], fun hconclusive => hlength ?_⟩)
        exact min_eq_right hconclusive

/-- A datagram that carries a message, received with result 0, yields the message. -/
theorem recvUdpMsg_carries {α : Type*} {frame : Frame} {im m : IBSYNMsg} {input : Received α}
    {res : RecvResult α} (h : recvUdpMsg .little frame im input = some res) (hcode : res.code = 0)
    (hcarries : ∀ d ∈ input.datagram, Carries d.2 m) :
    ∃ source data, (source, data) ∈ input.datagram ∧ res = ⟨0, m, some source⟩ := by
  rcases recvUdpMsg_cases h with ⟨source, data, hinput, hlength, _⟩ | ⟨hone, _⟩ | ⟨hneg, _⟩
  · rw [hinput] at h hcarries ⊢
    have hdata : data = synBody m ++ [0] := (hcarries (source, data) rfl).eq_of_le hlength
    rw [hdata, recvUdpMsg_synBody] at h
    exact ⟨source, data, rfl, (Option.some.inj h).symm⟩
  · omega
  · omega

/-- What holds in every state: requests carry the message of their attempt, replies
carry the message of a socket that has the attempt's message as its peer, and an attempt
that succeeded has such a socket. -/
structure Handshake.Agrees (my : ι → IBSYNMsg) (s : Handshake ι) : Prop where
  /-- Requests carry the message of their attempt. -/
  requests : ∀ d ∈ s.toServer, Carries d.2 (my d.1)
  /-- Replies carry the message of a matching socket. -/
  replies : ∀ d ∈ s.toClient, ∃ m, Carries d.2 m ∧ (m, my d.1) ∈ s.sockets
  /-- A successful attempt has a matching socket. -/
  agreed : ∀ i m, s.client i = .returned 0 (some m) → (m, my i) ∈ s.sockets

omit [DecidableEq ι] in
/-- Before any attempt everything agrees. -/
theorem Handshake.agrees_start (my : ι → IBSYNMsg) : (Handshake.start : Handshake ι).Agrees my where
  requests := by simp [start]
  replies := by simp [start]
  agreed := by simp [start]

/-- Sending a request keeps agreement. -/
theorem Handshake.Agrees.request {my : ι → IBSYNMsg} {s t : Handshake ι} {i : ι} {frame : Frame}
    {attempts : List SendAttempt} (h : s.Agrees my)
    (hstep : s.request my i frame attempts = some t) : t.Agrees my := by
  unfold Handshake.request at hstep
  split_ifs at hstep
  obtain ⟨⟨out, code⟩, hsend, rfl⟩ := Option.map_eq_some_iff.mp hstep
  refine ⟨fun d hd => ?_, h.replies, fun j m hj => ?_⟩
  · rcases List.mem_append.mp hd with hd | hd
    · exact h.requests d hd
    · obtain ⟨data, hdata, rfl⟩ := List.mem_map.mp hd
      exact sendUdpMsg_carries hsend data hdata
  · apply h.agreed
    by_cases hji : j = i
    · subst hji
      simp only [Function.update_self] at hj
      split_ifs at hj
      simp at hj
    · simpa only [Function.update_of_ne hji] using hj

/-- A conclusive reception keeps agreement. -/
theorem Handshake.Agrees.reply {my : ι → IBSYNMsg} {s t : Handshake ι} {i : ι} {frame : Frame}
    {input : Received Unit} {activated : Bool} (h : s.Agrees my) (hinput : input.Conclusive)
    (hstep : s.reply my i frame input activated = some t) : t.Agrees my := by
  unfold Handshake.reply at hstep
  split at hstep
  case isFalse => cases hstep
  rename_i hready
  obtain ⟨_, hnetwork⟩ := hready
  obtain ⟨res, hrecv, hres⟩ := Option.bind_eq_some_iff.mp hstep
  have hothers : ∀ {result : Attempt},
      (∀ m, result = .returned 0 (some m) → (m, my i) ∈ s.sockets) →
      ({ s with client := Function.update s.client i result } : Handshake ι).Agrees my := by
    intro result hresult
    refine ⟨h.requests, h.replies, fun j m hj => ?_⟩
    by_cases hji : j = i
    · subst hji
      exact hresult m (by simpa only [Function.update_self] using hj)
    · exact h.agreed j m (by simpa only [Function.update_of_ne hji] using hj)
  split_ifs at hres with hneg
  · obtain rfl := Option.some.inj hres
    exact hothers (by simp)
  · obtain rfl := Option.some.inj hres
    apply hothers
    intro m hm
    rcases recvUdpMsg_cases hrecv with ⟨source, data, heq, _, hcode⟩ | ⟨_, hnot⟩ | ⟨hcode, _⟩
    · have hdata : (source, data) ∈ input.datagram := by rw [heq]; rfl
      obtain ⟨m', hcarries, hsocket⟩ := h.replies _ (hnetwork _ hdata)
      obtain ⟨_, _, _, hres'⟩ := recvUdpMsg_carries hrecv hcode fun d hd => by
        obtain rfl := Option.mem_unique hdata hd
        exact hcarries
      rw [hres'] at hm
      simp only [Attempt.returned.injEq, Option.some.injEq, true_and] at hm
      exact hm ▸ hsocket
    · exact absurd hinput hnot
    · omega

/-- A round of `accept` keeps agreement. -/
theorem Handshake.Agrees.serve {my : ι → IBSYNMsg} {s t : Handshake ι} {frame sendFrame : Frame}
    {im my' : IBSYNMsg} {input : Received ι} {attempts : List SendAttempt} (h : s.Agrees my)
    (hstep : s.serve frame im input my' sendFrame attempts = some t) : t.Agrees my := by
  unfold Handshake.serve at hstep
  split_ifs at hstep with hnetwork
  obtain ⟨res, hrecv, hres⟩ := Option.bind_eq_some_iff.mp hstep
  split_ifs at hres with hneg hpos
  · rwa [← Option.some.inj hres]
  · rwa [← Option.some.inj hres]
  · obtain ⟨i, haddr, hreply⟩ := Option.bind_eq_some_iff.mp hres
    obtain ⟨⟨out, code⟩, hsend, rfl⟩ := Option.map_eq_some_iff.mp hreply
    have hcode : res.code = 0 := by omega
    rcases recvUdpMsg_cases hrecv with ⟨source, data, heq, _, _⟩ | ⟨hone, _⟩ | ⟨hminus, _⟩
    · have hdata : (source, data) ∈ input.datagram := by rw [heq]; rfl
      obtain ⟨source', data', hdata', hres'⟩ := recvUdpMsg_carries hrecv hcode fun d hd => by
        obtain rfl := Option.mem_unique hdata hd
        exact h.requests _ (hnetwork _ hdata)
      obtain ⟨rfl, rfl⟩ := Prod.mk.inj (Option.mem_unique hdata hdata')
      rw [hres'] at haddr
      obtain rfl := Option.some.inj haddr
      rw [hres']
      refine ⟨h.requests, fun d hd => ?_, fun j m hj => ?_⟩
      · rcases List.mem_append.mp hd with hd | hd
        · obtain ⟨m, hcarries, hsocket⟩ := h.replies d hd
          exact ⟨m, hcarries, List.mem_append_left _ hsocket⟩
        · obtain ⟨data', hdata', rfl⟩ := List.mem_map.mp hd
          exact ⟨my', sendUdpMsg_carries hsend data' hdata', by simp⟩
      · exact List.mem_append_left _ (h.agreed j m hj)
    · omega
    · omega

/-- Everything agrees after every run with conclusive receptions. -/
theorem Handshake.agrees_of_exec {my : ι → IBSYNMsg} {s : Handshake ι}
    {acts : List (HandshakeAction ι)} (hconclusive : ∀ a ∈ acts, a.Conclusive)
    (hrun : exec (Handshake.step my) Handshake.start acts = some s) : s.Agrees my := by
  refine ((meets_iff_forall hrun).mpr hconclusive).invariant (Handshake.Agrees my) ?_
    (Handshake.agrees_start my) hrun
  intro s a t h ha hstep
  cases a with
  | request i frame attempts => exact h.request hstep
  | reply i frame input activated => exact h.reply ha hstep
  | serve frame im input my' sendFrame attempts => exact h.serve hstep

/-- **Agreement of the handshake.** In every run in which each `recvfrom` of `connect`
returns a complete datagram or is found to have failed for good, a connection attempt that
returned 0 with the peer message `m` has a server socket with the message `m` and the
attempt's message as its peer message. -/
theorem connect_agrees_with_accept {my : ι → IBSYNMsg} {s : Handshake ι}
    {acts : List (HandshakeAction ι)} (hconclusive : ∀ a ∈ acts, a.Conclusive)
    (hrun : exec (Handshake.step my) Handshake.start acts = some s) (i : ι) {m : IBSYNMsg}
    (hreturned : s.client i = .returned 0 (some m)) : (m, my i) ∈ s.sockets := by
  have hagrees := Handshake.agrees_of_exec hconclusive hrun
  exact hagrees.agreed i m hreturned

/-- A round of `send_udp_msg` that sends everything. -/
def sentInFull : List SendAttempt := [⟨some msgSize, .other, false⟩]

/-- A message with recognisable fields. -/
def sampleMsg (n : ℕ) : IBSYNMsg := ⟨UInt16.ofNat n, UInt32.ofNat n, UInt32.ofNat n, fun _ => 0⟩

/-- Such a round sends the text of the message. -/
theorem sendUdpMsg_sentInFull (e : Endian) (frame : Frame) (im : IBSYNMsg) (retries : ℕ) :
    sendUdpMsg e frame im retries sentInFull = some ([synBody im ++ [0]], 0) := by
  have htake : (synDatagram e frame im).take msgSize = synBody im ++ [0] := by
    rw [synDatagram_eq, List.take_of_length_le (synBody_nul_length im).le]
  rw [sendUdpMsg.eq_def]
  simp [sentInFull, SendAttempt.result, htake]

/-- The messages of two attempts. -/
def clientMsg : Bool → IBSYNMsg
  | false => sampleMsg 1
  | true => sampleMsg 3

/-- The messages of the sockets that `accept` creates for them. -/
def serverMsg : Bool → IBSYNMsg
  | false => sampleMsg 2
  | true => sampleMsg 4

/-- The server receives the request of attempt `i` and answers it. -/
def serveInFull (i : Bool) : HandshakeAction Bool :=
  .serve blankFrame (sampleMsg 0) ⟨some (i, synBody (clientMsg i) ++ [0]), .other, false⟩
    (serverMsg i) blankFrame sentInFull

/-- Attempt `i` receives the answer of its socket. -/
def replyInFull (i : Bool) : HandshakeAction Bool :=
  .reply i blankFrame ⟨some ((), synBody (serverMsg i) ++ [0]), .other, false⟩ true

/-- A handshake of two attempts without trouble: both send their requests, and the one that
came second is accepted first. -/
def cleanHandshake : List (HandshakeAction Bool) :=
  [.request false blankFrame sentInFull, .request true blankFrame sentInFull, serveInFull true,
    serveInFull false, replyInFull false, replyInFull true]

/-- All its receptions are conclusive. -/
theorem cleanHandshake_conclusive : ∀ a ∈ cleanHandshake, a.Conclusive := by
  intro a ha
  simp only [cleanHandshake, List.mem_cons, List.not_mem_nil, or_false] at ha
  rcases ha with rfl | rfl | rfl | rfl | rfl | rfl
  · trivial
  · trivial
  · trivial
  · trivial
  · exact (synBody_nul_length (serverMsg false)).ge
  · exact (synBody_nul_length (serverMsg true)).ge

/-- Each attempt ends with the message of the socket created for it. -/
theorem exec_cleanHandshake : ∃ s : Handshake Bool,
    exec (Handshake.step clientMsg) Handshake.start cleanHandshake = some s ∧
    (∀ i, s.client i = .returned 0 (some (serverMsg i))) ∧
    s.sockets = [(serverMsg true, clientMsg true), (serverMsg false, clientMsg false)] := by
  simp [exec, cleanHandshake, serveInFull, replyInFull, Handshake.step, Handshake.request,
    Handshake.serve, Handshake.reply, Handshake.start, sendUdpMsg_sentInFull, recvUdpMsg_synBody]

/-- The condition is satisfiable: both attempts end with the message of their socket. -/
theorem connect_agrees_with_accept_clean :
    ∃ s : Handshake Bool,
      exec (Handshake.step clientMsg) Handshake.start cleanHandshake = some s ∧
      ∀ i, s.client i = .returned 0 (some (serverMsg i)) ∧
        (serverMsg i, clientMsg i) ∈ s.sockets := by
  obtain ⟨s, hrun, hreturned, _⟩ := exec_cleanHandshake
  exact ⟨s, hrun, fun i => ⟨hreturned i,
    connect_agrees_with_accept cleanHandshake_conclusive hrun i (hreturned i)⟩⟩

/-- Locals whose array `msg` still holds the text of a message, as an earlier call left it. -/
def textFrame (m : IBSYNMsg) : Frame :=
  { blankFrame with msg := synBody m ++ [0], msg_length := synBody_nul_length m }

/-- With the text of a message in `msg`, an interrupted reception yields that message. -/
theorem recvUdpMsg_interrupted (m im : IBSYNMsg) :
    recvUdpMsg (α := Unit) .little (textFrame m) im ⟨none, .eintr, false⟩ =
      some ⟨1, m, none⟩ := by
  simp [recvUdpMsg, textFrame, parseSyn_synBody]

/-- A request whose reply is awaited in vain: the reception is interrupted, with the text of
the request still in `msg`. Scanning a complete text leaves `errno` alone. -/
def interruptedHandshake : List (HandshakeAction Unit) :=
  [.request () blankFrame sentInFull,
    .reply () (textFrame (sampleMsg 1)) ⟨none, .eintr, false⟩ true]

/-- Without the condition agreement is lost: `connect` returns 0 with the attempt's own
message as the peer message, although no server took part. -/
theorem connect_returns_without_accept :
    ∃ (s : Handshake Unit) (m : IBSYNMsg),
      exec (Handshake.step fun _ => sampleMsg 1) Handshake.start interruptedHandshake = some s ∧
      s.client () = .returned 0 (some m) ∧ m = sampleMsg 1 ∧ s.sockets = [] ∧
      (m, sampleMsg 1) ∉ s.sockets := by
  have hrun : ∃ s : Handshake Unit,
      exec (Handshake.step fun _ => sampleMsg 1) Handshake.start interruptedHandshake = some s ∧
      s.client () = .returned 0 (some (sampleMsg 1)) ∧ s.sockets = [] := by
    simp [exec, interruptedHandshake, Handshake.step, Handshake.request, Handshake.reply,
      Handshake.start, sendUdpMsg_sentInFull, recvUdpMsg_interrupted]
  obtain ⟨s, hrun, hreturned, hnone⟩ := hrun
  exact ⟨s, sampleMsg 1, hrun, hreturned, rfl, hnone, by rw [hnone]; exact List.not_mem_nil⟩

end RdmaTransport
