import RdmaTransport.Handshake
import RdmaTransport.SynAccept

/-!
# What a call of `accept` leaves

`RDMAServerSocketImpl::accept` receives until a valid request or a hard error. For a
request it creates a socket, answers with the message of its queue pair and activates
it. Three things go wrong on the way out: the result of `activate` is dropped, so that 0
is returned for a queue pair that is not ready to send; the socket is handed over even
when the reply could not be sent; and `*out` becomes the address of the server itself.
This file determines in which calls none of that shows.
-/

namespace RdmaTransport

open Memory Runs

/-- An `RDMAConnectedSocketImpl`, as far as `accept` decides about it. -/
structure RdmaConnectedSocket where
  /-- The message of its own queue pair. -/
  myMsg : IBSYNMsg
  /-- The message of the peer. -/
  peerMsg : IBSYNMsg
  /-- The flag `connected`, which the constructor does not initialise. -/
  connected : ℤ

/-- What the environment decides in one round of the loop of `accept`. -/
structure AcceptRound (α : Type*) where
  /-- The uninitialised locals of `recv_udp_msg`. -/
  frame : Frame
  /-- The uninitialised `msg`. -/
  im : IBSYNMsg
  /-- What `recvfrom` does. -/
  input : Received α

/-- What the environment decides once a request has been received. -/
structure AcceptEnv where
  /-- The message of the new queue pair, or `none` when `create_queue_pair` returns `NULL`. -/
  created : Option IBSYNMsg
  /-- The memory of `connected` in the new socket. -/
  garbage : ℤ
  /-- The uninitialised locals of `send_udp_msg`. -/
  sendFrame : Frame
  /-- The first round of `send_udp_msg` and its three retries. -/
  attempts : Fin 4 → SendAttempt
  /-- Whether `ibv_modify_qp` to RTR succeeds. -/
  rtr : Bool
  /-- Whether `ibv_modify_qp` to RTS succeeds. -/
  rts : Bool

/-- What a call of `accept` that has returned leaves. -/
structure AcceptResult (α : Type*) where
  /-- The returned value. -/
  code : ℤ
  /-- The socket stored to `*sock`, or `none` when `*sock` is unchanged. -/
  sock : Option RdmaConnectedSocket
  /-- The address stored to `*out`, or `none` when `*out` is unchanged. -/
  out : Option α
  /-- The datagrams sent. -/
  replies : List (List UInt8)

/-- How far a call of `accept` has come. -/
inductive AcceptOutcome (α : Type*)
  /-- The call is still receiving. -/
  | waiting
  /-- The call has returned. -/
  | returned (result : AcceptResult α)

/-- The constructor of `RDMAConnectedSocketImpl`, which uses the queue pair at once. -/
def RdmaConnectedSocket.new (env : AcceptEnv) (im : IBSYNMsg) : Option RdmaConnectedSocket :=
  env.created.map fun my => ⟨my, im, env.garbage⟩

/-- `activate`: the socket after the call and the returned value. -/
def RdmaConnectedSocket.activate (server : RdmaConnectedSocket) (rtr rts : Bool) :
    RdmaConnectedSocket × ℤ :=
  if rtr = false then (server, -1)
  else if rts = false then (server, -1)
  else ({ server with connected := 1 }, 0)

/-- `accept` of a server with the address `sa`; `out` tells whether its parameter `out` is
given. -/
def accept {α : Type*} (e : Endian) (sa : α) (out : Bool) (env : AcceptEnv) :
    List (AcceptRound α) → Option (AcceptOutcome α)
  | [] => some .waiting
  | round :: rounds =>
      (recvUdpMsg e round.frame round.im round.input).bind fun res =>
        if res.code < 0 then some (.returned ⟨-1, none, none, []⟩)
        else if 0 < res.code then accept e sa out env rounds
        else
          (RdmaConnectedSocket.new env res.im).bind fun server =>
            (sendUdpMsg e env.sendFrame server.myMsg 3 (List.ofFn env.attempts)).map
              fun (replies, r) =>
                let (server, _) := server.activate env.rtr env.rts
                .returned ⟨r, some server, if out then some sa else none, replies⟩

/-- Activating a socket keeps its messages. -/
@[simp] theorem RdmaConnectedSocket.activate_msgs (server : RdmaConnectedSocket) (rtr rts : Bool) :
    (server.activate rtr rts).1.myMsg = server.myMsg ∧
      (server.activate rtr rts).1.peerMsg = server.peerMsg := by
  unfold activate
  split_ifs <;> exact ⟨rfl, rfl⟩

section Statement

variable {α : Type*} (e : Endian) (sa : α) (out : Bool) (env : AcceptEnv)
  (rounds : List (AcceptRound α))

/-- A request is received: `recv_udp_msg` returns 0 after rounds in which it returned 1. -/
def SynReceived (res : RecvResult α) : Prop :=
  Until (fun round => ∃ res', recvUdpMsg e round.frame round.im round.input = some res' ∧
      0 < res'.code)
    (fun round => recvUdpMsg e round.frame round.im round.input = some res ∧ res.code = 0) rounds

/-- The new queue pair reaches RTS. -/
def AcceptEnv.ReachesRts : Prop := env.rtr = true ∧ env.rts = true

/-- The reply, the message of the new queue pair, is sent in full. -/
def AcceptResult.RepliedInFull (result : AcceptResult α) : Prop :=
  ∃ my ∈ env.created, synBody my ++ [0] ∈ result.replies

/-- What `accept` ought to leave: it returns 0 exactly for a request that was answered in
full and whose queue pair reached RTS; then the socket is connected to the peer of the
request and `*out` is where the request came from; with a negative value nothing is
stored. -/
@[mk_iff] structure AcceptResult.Right (result : AcceptResult α) : Prop where
  /-- When 0 is returned. -/
  zero : result.code = 0 ↔
    (∃ res, SynReceived e rounds res) ∧ result.RepliedInFull env ∧ env.ReachesRts
  /-- What is stored then. -/
  stored : result.code = 0 → ∃ res server, SynReceived e rounds res ∧
    result.sock = some server ∧ server.peerMsg = res.im ∧ server.connected = 1 ∧
    (out = true → result.out = res.addr)
  /-- What is left alone otherwise. -/
  unchanged : result.code < 0 → result.sock = none ∧ result.out = none

/-- The call runs without undefined behaviour, and if it returns it leaves what it ought
to. -/
def AcceptsRight : Prop :=
  ∃ outcome, accept e sa out env rounds = some outcome ∧
    ∀ result, outcome = .returned result → result.Right e out env rounds

end Statement

/-- `sscanf` stays inside its arrays in this round. -/
def AcceptRound.Inside {α : Type*} (round : AcceptRound α) : Prop :=
  ScansInside round.frame ((round.input.datagram.map Prod.snd).getD [])

/-- A request is received from the given address in this round. -/
def AcceptRound.SynFrom {α : Type*} (round : AcceptRound α) (source : α) : Prop :=
  round.input.injected = false ∧
    ∃ data, round.input.datagram = some (source, data) ∧ msgSize ≤ data.length

/-- `send_udp_msg` repeats the round. -/
def SendAttempt.Repeated (attempt : SendAttempt) : Prop :=
  attempt.result = none ∧ attempt.errno ≠ .other

/-- Some round sends the whole message, after rounds that are repeated. -/
def AnsweredInFull (attempts : List SendAttempt) : Prop :=
  Until SendAttempt.Repeated (fun attempt => attempt.result = some msgSize) attempts

/-- The call makes this round: the rounds before it bring neither a request nor a hard
error. -/
def AcceptRound.Made {α : Type*} (rounds : List (AcceptRound α)) (round : AcceptRound α) : Prop :=
  Until (fun r => ¬r.input.Conclusive) (· = round) rounds

/-- The condition on a round: `sscanf` stays inside its arrays, and if a request is received
then a queue pair is created, the reply is sent in full, the queue pair reaches RTS, and
the request comes from the address that is stored to `*out`. -/
def AcceptRound.Sound {α : Type*} (sa : α) (out : Bool) (env : AcceptEnv) (round : AcceptRound α) :
    Prop :=
  round.Inside ∧ ∀ source, round.SynFrom source →
    env.created.isSome ∧ AnsweredInFull (List.ofFn env.attempts) ∧ env.ReachesRts ∧
      (out = true → source = sa)

/-- A request settles the matter. -/
theorem AcceptRound.SynFrom.conclusive {α : Type*} {round : AcceptRound α} {source : α}
    (h : round.SynFrom source) : round.input.Conclusive := by
  obtain ⟨frame, im, datagram, errno, injected⟩ := round
  obtain ⟨rfl, data, rfl, hlength⟩ := h
  exact hlength

/-- The reception is defined exactly when `sscanf` stays inside its arrays. -/
theorem AcceptRound.exists_recv_iff {α : Type*} (e : Endian) (round : AcceptRound α) :
    (∃ res, recvUdpMsg e round.frame round.im round.input = some res) ↔ round.Inside := by
  obtain ⟨frame, im, datagram, errno, injected⟩ := round
  rw [Inside, ← exists_parseSyn_iff e frame im]
  rcases datagram with _ | ⟨source, data⟩
  · have hempty : overwrite frame.msg 0 [] = frame.msg := by simp [overwrite]
    simp [recvUdpMsg, hempty]
  · simp [recvUdpMsg]

/-- All that can happen in a round: a request is received, the round is skipped, or the
call ends. -/
theorem AcceptRound.recv_cases {α : Type*} {e : Endian} {round : AcceptRound α}
    {res : RecvResult α} (h : recvUdpMsg e round.frame round.im round.input = some res) :
    (∃ source, round.SynFrom source ∧ res.code = 0 ∧ res.addr = some source) ∨
    (res.code = 1 ∧ ¬round.input.Conclusive) ∨
    (res.code = -1 ∧ round.input.Conclusive ∧ ∀ source, ¬round.SynFrom source) := by
  have haddr : ∀ source, round.SynFrom source → res.code = 0 ∧ res.addr = some source := by
    obtain ⟨frame, im, datagram, errno, injected⟩ := round
    rintro source ⟨rfl, data, rfl, hlength⟩
    obtain ⟨im', _, rfl⟩ := recvUdpMsg_eq_some_iff.mp h
    simp [hlength]
  rcases recvUdpMsg_cases h with ⟨source, data, hinput, hlength, _⟩ | hskip | ⟨hcode, hend⟩
  · have hsyn : round.SynFrom source := by
      rw [SynFrom, hinput]
      exact ⟨rfl, data, rfl, hlength⟩
    exact .inl ⟨source, hsyn, haddr source hsyn⟩
  · exact .inr (.inl hskip)
  · refine .inr (.inr ⟨hcode, hend, fun source hsyn => ?_⟩)
    have hzero := (haddr source hsyn).1
    omega

/-- What `send_udp_msg` does with all its rounds: it returns 0 or -1, and 0 exactly if some
round sends the whole message after rounds that are repeated. -/
theorem sendUdpMsg_spec (e : Endian) (frame : Frame) (im : IBSYNMsg) {retries : ℕ}
    {attempts : List SendAttempt} (hlength : attempts.length = retries + 1) :
    ∃ replies r, sendUdpMsg e frame im retries attempts = some (replies, r) ∧
      (r = 0 ∨ r = -1) ∧ (r = 0 ↔ AnsweredInFull attempts) ∧
      (r = 0 → synBody im ++ [0] ∈ replies) := by
  induction attempts generalizing retries with
  | nil => simp at hlength
  | cons attempt rest ih =>
    rw [sendUdpMsg.eq_def, AnsweredInFull, until_cons_iff]
    by_cases hfull : attempt.result = some msgSize
    · have hsent : attempt.sent = some msgSize := by
        rw [SendAttempt.result] at hfull
        split_ifs at hfull
        exact hfull
      have htake : (synDatagram e frame im).take msgSize = synBody im ++ [0] := by
        rw [synDatagram_eq, List.take_of_length_le (synBody_nul_length im).le]
      simp [hfull, hsent, htake]
    · by_cases hrepeat : attempt.Repeated
      · cases retries with
        | zero =>
          obtain rfl : rest = [] := List.length_eq_zero_iff.mp (by simpa using hlength)
          simp [hrepeat.1, hrepeat.2]
        | succ retries =>
          obtain ⟨replies, r, hsend, hvalue, hzero, hreply⟩ := ih (by simpa using hlength)
          refine ⟨(attempt.sent.map fun n => (synDatagram e frame im).take n).toList ++ replies, r,
            ?_, hvalue, ?_, ?_⟩
          · simp [hrepeat.1, hrepeat.2, hsend]
          · simpa [hfull, hrepeat, AnsweredInFull] using hzero
          · intro h
            exact List.mem_append_right _ (hreply h)
      · have hend : ¬(attempt.result = none ∧ attempt.errno ≠ .other) := hrepeat
        refine ⟨(attempt.sent.map fun n => (synDatagram e frame im).take n).toList, -1, ?_,
          .inr rfl, ?_, by simp⟩
        · dsimp only
          rw [if_neg hfull, if_neg hend]
        · simp [hfull, hrepeat]

section Call

variable {α : Type*} {e : Endian} {sa : α} {out : Bool} {env : AcceptEnv} {round : AcceptRound α}
  {rounds : List (AcceptRound α)} {res : RecvResult α}

/-- After a round that is skipped the call is the call without that round. -/
theorem acceptsRight_cons_of_skip (hrecv : recvUdpMsg e round.frame round.im round.input = some res)
    (hcode : res.code = 1) :
    AcceptsRight e sa out env (round :: rounds) ↔ AcceptsRight e sa out env rounds := by
  have hcall : accept e sa out env (round :: rounds) = accept e sa out env rounds := by
    simp [accept, hrecv, hcode]
  have hsyn : ∀ res', SynReceived e (round :: rounds) res' ↔ SynReceived e rounds res' := by
    intro res'
    rw [SynReceived, until_cons_iff]
    constructor
    · rintro (⟨hsame, hzero⟩ | ⟨_, hmore⟩)
      · obtain rfl := Option.some.inj (hrecv.symm.trans hsame)
        omega
      · exact hmore
    · intro hmore
      exact .inr ⟨⟨res, hrecv, by omega⟩, hmore⟩
  have hright : ∀ result : AcceptResult α,
      result.Right e out env (round :: rounds) ↔ result.Right e out env rounds := by
    intro result
    simp only [AcceptResult.right_iff, hsyn]
  simp only [AcceptsRight, hcall, hright]

/-- A hard error is reported and nothing is stored. -/
theorem acceptsRight_cons_of_error
    (hrecv : recvUdpMsg e round.frame round.im round.input = some res) (hcode : res.code = -1) :
    AcceptsRight e sa out env (round :: rounds) := by
  refine ⟨.returned ⟨-1, none, none, []⟩, by simp [accept, hrecv, hcode], ?_⟩
  rintro result hresult
  obtain rfl := AcceptOutcome.returned.inj hresult
  refine ⟨?_, by simp, by simp⟩
  simp [AcceptResult.RepliedInFull]

/-- What a call leaves that has received a request and created a socket. -/
theorem accept_cons_of_syn (sa : α) (out : Bool) (rounds : List (AcceptRound α))
    (hrecv : recvUdpMsg e round.frame round.im round.input = some res) (hcode : res.code = 0)
    {my : IBSYNMsg} (hcreated : env.created = some my) :
    ∃ replies r, accept e sa out env (round :: rounds) = some (.returned
        ⟨r, some ((⟨my, res.im, env.garbage⟩ : RdmaConnectedSocket).activate env.rtr env.rts).1,
          if out then some sa else none, replies⟩) ∧
      (r = 0 ∨ r = -1) ∧ (r = 0 ↔ AnsweredInFull (List.ofFn env.attempts)) ∧
      (r = 0 → synBody my ++ [0] ∈ replies) := by
  obtain ⟨replies, r, hsend, hspec⟩ :=
    sendUdpMsg_spec e env.sendFrame my (by simp : (List.ofFn env.attempts).length = 3 + 1)
  refine ⟨replies, r, ?_, hspec⟩
  simp [accept, hrecv, hcode, RdmaConnectedSocket.new, hcreated, hsend, -List.ofFn_succ]

/-- The request of the first round is the one that is received. -/
theorem synReceived_cons_of_syn
    (hrecv : recvUdpMsg e round.frame round.im round.input = some res) (hcode : res.code = 0)
    {res' : RecvResult α} : SynReceived e (round :: rounds) res' ↔ res' = res := by
  rw [SynReceived, until_cons_of_not]
  · rw [hrecv, Option.some.injEq]
    exact ⟨fun h => h.1.symm, fun h => ⟨h.symm, h ▸ hcode⟩⟩
  · rintro ⟨res'', hsame, hpos⟩
    obtain rfl := Option.some.inj (hrecv.symm.trans hsame)
    omega

/-- If nothing goes wrong after a request, the call leaves what it ought to. -/
theorem acceptsRight_of_syn (hrecv : recvUdpMsg e round.frame round.im round.input = some res)
    (hcode : res.code = 0) {source : α} (haddr : res.addr = some source) {my : IBSYNMsg}
    (hcreated : env.created = some my) (hanswered : AnsweredInFull (List.ofFn env.attempts))
    (hrts : env.ReachesRts) (hout : out = true → source = sa) :
    AcceptsRight e sa out env (round :: rounds) := by
  obtain ⟨replies, r, hcall, _, hzero, hreply⟩ :=
    accept_cons_of_syn sa out rounds hrecv hcode hcreated
  have hsyn : SynReceived e (round :: rounds) res := (synReceived_cons_of_syn hrecv hcode).mpr rfl
  have hdone : r = 0 := hzero.mpr hanswered
  refine ⟨_, hcall, ?_⟩
  rintro result hresult
  obtain rfl := AcceptOutcome.returned.inj hresult
  refine ⟨⟨fun _ => ⟨⟨res, hsyn⟩, ⟨my, hcreated, hreply hdone⟩, hrts⟩, fun _ => hdone⟩, ?_, ?_⟩
  · intro _
    refine ⟨res, _, hsyn, rfl, ?_, ?_, ?_⟩
    · simp
    · simp [RdmaConnectedSocket.activate, hrts.1, hrts.2]
    · intro hgiven
      simp [hgiven, haddr, hout hgiven]
  · intro hneg
    simp only at hneg
    omega

/-- A request is dealt with as it ought to be exactly if nothing goes wrong afterwards: the
socket is stored in any case, so that no failure may be reported. -/
theorem acceptsRight_cons_of_syn
    (hrecv : recvUdpMsg e round.frame round.im round.input = some res) (hcode : res.code = 0)
    {source : α} (haddr : res.addr = some source) :
    AcceptsRight e sa out env (round :: rounds) ↔
      env.created.isSome ∧ AnsweredInFull (List.ofFn env.attempts) ∧ env.ReachesRts ∧
        (out = true → source = sa) := by
  cases hcreated : env.created with
  | none =>
    have hcall : accept e sa out env (round :: rounds) = none := by
      simp [accept, hrecv, hcode, RdmaConnectedSocket.new, hcreated]
    simp [AcceptsRight, hcall]
  | some my =>
    constructor
    · rintro ⟨outcome, houtcome, hright⟩
      obtain ⟨replies, r, hcall, hvalue, hzero, _⟩ :=
        accept_cons_of_syn sa out rounds hrecv hcode hcreated
      obtain rfl := Option.some.inj (hcall.symm.trans houtcome)
      have hr := hright _ rfl
      have hdone : r = 0 := by
        rcases hvalue with hdone | hfailed
        · exact hdone
        · have hneg : r < 0 := by omega
          exact absurd (hr.unchanged hneg).1 (by simp)
      refine ⟨rfl, hzero.mp hdone, (hr.zero.mp hdone).2.2, ?_⟩
      intro hout
      obtain ⟨res', _, hres', _, _, _, hstored⟩ := hr.stored hdone
      rw [(synReceived_cons_of_syn hrecv hcode).mp hres'] at hstored
      have hsame := hstored hout
      rw [haddr] at hsame
      simpa [hout, eq_comm] using hsame
    · rintro ⟨_, hanswered, hrts, hout⟩
      exact acceptsRight_of_syn hrecv hcode haddr hcreated hanswered hrts hout

end Call

/-- **The outcome of `accept`.** A call leaves what it ought to exactly when, in every round
it makes, `sscanf` stays inside its arrays and a request that is received meets with no
trouble: the queue pair is created, the reply sent in full, the queue pair reaches RTS,
and, if `out` is given, the request comes from the server's own address. -/
theorem acceptsRight_iff {α : Type*} (e : Endian) (sa : α) (out : Bool) (env : AcceptEnv)
    (rounds : List (AcceptRound α)) :
    AcceptsRight e sa out env rounds ↔
      ∀ round, AcceptRound.Made rounds round → round.Sound sa out env := by
  induction rounds with
  | nil =>
    refine ⟨fun _ round hmade => absurd hmade not_until_nil, fun _ => ⟨.waiting, rfl, ?_⟩⟩
    intro result hresult
    cases hresult
  | cons round rounds ih =>
    have hmade : (∀ r, AcceptRound.Made (round :: rounds) r → r.Sound sa out env) ↔
        round.Sound sa out env ∧ (¬round.input.Conclusive →
          ∀ r, AcceptRound.Made rounds r → r.Sound sa out env) := by
      simp only [AcceptRound.Made, until_cons_iff]
      constructor
      · intro h
        exact ⟨h round (.inl rfl), fun hskip r hr => h r (.inr ⟨hskip, hr⟩)⟩
      · rintro ⟨hround, hmore⟩ r (rfl | ⟨hskip, hr⟩)
        · exact hround
        · exact hmore hskip r hr
    rw [hmade, AcceptRound.Sound]
    by_cases hinside : round.Inside
    · obtain ⟨res, hrecv⟩ := (round.exists_recv_iff e).mpr hinside
      rcases round.recv_cases hrecv with ⟨source, hsyn, hcode, haddr⟩ | ⟨hcode, hskip⟩ |
        ⟨hcode, hend, hnone⟩
      · have hsource : ∀ s, round.SynFrom s ↔ s = source := by
          intro s
          refine ⟨fun hs => ?_, fun hs => hs ▸ hsyn⟩
          obtain ⟨_, data, hdata, _⟩ := hs
          obtain ⟨_, data', hdata', _⟩ := hsyn
          rw [hdata] at hdata'
          exact (Prod.mk.inj (Option.some.inj hdata')).1
        rw [acceptsRight_cons_of_syn hrecv hcode haddr]
        simp [hinside, hsource, hsyn.conclusive]
      · have hsource : ∀ s, ¬round.SynFrom s := fun s hs => hskip hs.conclusive
        rw [acceptsRight_cons_of_skip hrecv hcode, ih]
        simp [hinside, hsource, hskip]
      · have hright : AcceptsRight e sa out env (round :: rounds) :=
          acceptsRight_cons_of_error hrecv hcode
        simp [hright, hinside, hend, hnone]
    · have hcall : accept e sa out env (round :: rounds) = none := by
        have hnone : recvUdpMsg e round.frame round.im round.input = none := by
          rw [Option.eq_none_iff_forall_ne_some]
          intro res hrecv
          exact hinside ((round.exists_recv_iff e).mp ⟨res, hrecv⟩)
        simp [accept, hnone]
      simp [AcceptsRight, hcall, hinside]

/-- An environment in which everything succeeds but the move to RTR. -/
def rtrRefused : AcceptEnv :=
  ⟨some (sampleMsg 2), 0, blankFrame, fun _ => ⟨some msgSize, .other, false⟩, false, true⟩

/-- A round in which a request is received from address 1. -/
def sampleSyn : AcceptRound ℕ :=
  ⟨blankFrame, sampleMsg 0, ⟨some (1, synBody (sampleMsg 1) ++ [0]), .other, false⟩⟩

/-- A request is received and answered in full, and the move to RTR is refused: `accept`
returns 0 and hands over a socket that is not connected. -/
theorem accept_returns_unconnected :
    (∃ result, accept .little 0 false rtrRefused [sampleSyn] = some (.returned result) ∧
      result.code = 0 ∧ result.sock = some ⟨sampleMsg 2, sampleMsg 1, 0⟩) ∧
    ¬AcceptsRight .little 0 false rtrRefused [sampleSyn] := by
  have hrecv : recvUdpMsg .little sampleSyn.frame sampleSyn.im sampleSyn.input =
      some ⟨0, sampleMsg 1, some 1⟩ := recvUdpMsg_synBody blankFrame _ _ _ _
  constructor
  · have hcreated : rtrRefused.created = some (sampleMsg 2) := rfl
    obtain ⟨replies, r, hcall, _, hzero, _⟩ := accept_cons_of_syn 0 false [] hrecv rfl hcreated
    exact ⟨_, hcall, hzero.mpr ⟨[], _, _, rfl, by simp, rfl⟩, rfl⟩
  · rw [acceptsRight_cons_of_syn hrecv rfl rfl]
    rintro ⟨_, _, hrts, _⟩
    exact absurd hrts.1 (by decide)

/-- A call of `accept` is a run of the server in the handshake: it adds the datagrams the
call sends and the socket it stores, and nothing else. -/
theorem accept_serves {ι : Type*} [DecidableEq ι] (my : ι → IBSYNMsg) {s : Handshake ι} {sa : ι}
    {out : Bool} {env : AcceptEnv} {rounds : List (AcceptRound ι)} {result : AcceptResult ι}
    (hnetwork : ∀ round ∈ rounds, ∀ d ∈ round.input.datagram, d ∈ s.toServer)
    (hcall : accept .little sa out env rounds = some (.returned result)) :
    ∃ acts t, exec (Handshake.step my) s acts = some t ∧ t.client = s.client ∧
      t.toServer = s.toServer ∧
      t.toClient.map Prod.snd = s.toClient.map Prod.snd ++ result.replies ∧
      t.sockets = s.sockets ++ (result.sock.map fun c => (c.myMsg, c.peerMsg)).toList := by
  induction rounds with
  | nil => cases hcall
  | cons round rounds ih =>
    rw [List.forall_mem_cons] at hnetwork
    rw [accept] at hcall
    obtain ⟨res, hrecv, hcall⟩ := Option.bind_eq_some_iff.mp hcall
    rcases round.recv_cases hrecv with ⟨source, _, hcode, haddr⟩ | ⟨hcode, _⟩ | ⟨hcode, _⟩
    · rw [if_neg (by omega), if_neg (by omega)] at hcall
      obtain ⟨server, hserver, hcall⟩ := Option.bind_eq_some_iff.mp hcall
      obtain ⟨⟨replies, r⟩, hsend, hresult⟩ := Option.map_eq_some_iff.mp hcall
      obtain ⟨own, _, rfl⟩ := Option.map_eq_some_iff.mp hserver
      have hsock : result.sock = some ((⟨own, res.im, env.garbage⟩ :
          RdmaConnectedSocket).activate env.rtr env.rts).1 :=
        congrArg AcceptResult.sock (AcceptOutcome.returned.inj hresult).symm
      have hreplies : result.replies = replies :=
        congrArg AcceptResult.replies (AcceptOutcome.returned.inj hresult).symm
      refine ⟨[.serve round.frame round.im round.input own env.sendFrame (List.ofFn env.attempts)],
        { s with
          toClient := s.toClient ++ replies.map (source, ·)
          sockets := s.sockets ++ [(own, res.im)] }, ?_, rfl, rfl, by simp [hreplies],
        by simp [hsock]⟩
      simp only [exec, Handshake.step, Handshake.serve, if_pos hnetwork.1, hrecv,
        Option.bind_some, hcode, lt_irrefl, if_false, haddr]
      simp [hsend, -List.ofFn_succ]
    · rw [if_neg (by omega), if_pos (by omega)] at hcall
      exact ih hnetwork.2 hcall
    · rw [if_pos (by omega)] at hcall
      obtain rfl := AcceptOutcome.returned.inj (Option.some.inj hcall)
      exact ⟨[], s, rfl, by simp⟩

end RdmaTransport
