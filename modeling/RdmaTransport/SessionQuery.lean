import RdmaTransport.Session

/-!
# Polling the completion queues of a session

`rdma_query_cq` polls one of two completion queues, selected by a flag: 1 for sending, 2
for receiving. Its callers in `rdma_session` are `door` and `query_sr`, which pass 2, and
`query`, which passes 3. The completions carry their status, and `rdma_query_cq` returns
-1 for a whole batch when one of them failed.

Two things follow from the selector and from who keeps the counter `posted_recv`. `read`,
which calls `query`, never removes a completion; and `posted_recv` differs from the number
of outstanding receives as soon as `door` or `query_sr` polls, or `post_recv` fails midway.
-/

namespace RdmaTransport

/-- The two completion queues of a session. -/
inductive Cq
  | send
  | recv
  deriving DecidableEq

/-- The queue that `rdma_query_cq` polls for a flag, or `none` when it returns -1 at
once. -/
def selectCq (flag : ℕ) : Option Cq :=
  if flag = 1 then some .send else if flag = 2 then some .recv else none

/-- A completion, with the bytes its receive work request was filled with. -/
structure CqEntry where
  /-- The field `wr_id`. -/
  wrId : ℕ
  /-- Whether `status` is `IBV_WC_SUCCESS`. -/
  success : Bool
  /-- The message; its length is `byte_len`. -/
  payload : List UInt8
  deriving DecidableEq

/-- How the polling loop of `rdma_query_cq` ends. -/
inductive PollCq
  /-- `ibv_poll_cq` returns a negative number. -/
  | error
  /-- It returns `n` completions. -/
  | got (n : ℕ)
  deriving DecidableEq

/-- How far a session has come. -/
inductive Phase
  /-- The constructor has not called `init` yet. -/
  | constructed
  /-- `init` has called `post_recv` and will call `door`. -/
  | opening
  /-- `init` has returned. -/
  | running
  deriving DecidableEq

/-- A session, its two completion queues and the receive work requests of its queue
pair. -/
structure CqState where
  /-- The buffers of the receive work requests the adapter has taken, in order. -/
  posted : List ℕ
  /-- The send completion queue. -/
  sendCq : List CqEntry
  /-- The receive completion queue. -/
  recvCq : List CqEntry
  /-- The number of completions taken from the receive completion queue. -/
  polled : ℕ
  /-- The block the receive buffers are cut from. -/
  rbuf : ℕ → UInt8
  /-- The field `recv_index`. -/
  recvIndex : ℕ
  /-- The field `posted_recv`. -/
  postedRecv : ℤ
  /-- How far `init` has come. -/
  phase : Phase

/-- A session before `init`, with `posted_recv` taken as zero. -/
def CqState.constructed (rbuf : ℕ → UInt8) : CqState := ⟨[], [], [], 0, rbuf, 0, 0, .constructed⟩

/-- The value `rdma_query_cq` returns for the completions it took. -/
def batchResult (wc : List CqEntry) : ℤ := if wc.all (·.success) then wc.length else -1

/-- `rdma_query_cq`: the returned value and the completions stored to `wc`. The loop goes
on while there is no completion, so a successful poll has one. -/
def CqState.rdmaQueryCq (s : CqState) (flag : ℕ) (poll : PollCq) :
    Option (CqState × ℤ × List CqEntry) :=
  match selectCq flag, poll with
  | none, _ => some (s, -1, [])
  | some _, .error => some (s, -1, [])
  | some .send, .got n =>
      if 1 ≤ n ∧ n ≤ maxCqe ∧ n ≤ s.sendCq.length then
        some ({ s with sendCq := s.sendCq.drop n }, batchResult (s.sendCq.take n), s.sendCq.take n)
      else none
  | some .recv, .got n =>
      if 1 ≤ n ∧ n ≤ maxCqe ∧ n ≤ s.recvCq.length then
        some ({ s with recvCq := s.recvCq.drop n, polled := s.polled + n },
          batchResult (s.recvCq.take n), s.recvCq.take n)
      else none

/-- The completions of receive work requests in a batch. -/
def receives (wc : List CqEntry) : ℕ := wc.countP fun c => c.wrId == 666

/-- `query`. -/
def CqState.query (s : CqState) (poll : PollCq) : Option (CqState × ℤ × List CqEntry) :=
  (s.rdmaQueryCq 3 poll).map fun (t, r, wc) =>
    (if 0 < r then { t with postedRecv := t.postedRecv - receives wc } else t, r, wc)

/-- `read`, with the bytes it stores to `dest`; their number is the returned value. -/
def CqState.read (s : CqState) (poll : PollCq) : Option (CqState × List UInt8) :=
  (s.query poll).map fun (t, r, wc) =>
    let g := gather recvNums gap t.rbuf t.recvIndex
      ((wc.take r.toNat).map fun c => c.payload.length)
    ({ t with recvIndex := g.recvIndex }, g.dest)

/-- `query_sr`, with the number it returns. -/
def CqState.querySr (s : CqState) (poll : PollCq) : Option (CqState × ℕ) :=
  (s.rdmaQueryCq 2 poll).map fun (t, r, wc) => (t, if 0 < r then receives wc else 0)

/-- `post_recv(nums)`, with `accepted` work requests taken by the adapter. -/
def CqState.postRecv (s : CqState) (nums : ℤ) (accepted : ℕ) : CqState :=
  let loop := postRecvLoop nums postLimit 0 accepted
  { s with posted := s.posted ++ loop.1, postedRecv := s.postedRecv + loop.2.getD 0 }

/-- The receive side of `door`: the completions are polled whatever their status, and
`start_remote` passes one buffer. -/
def CqState.door (s : CqState) (poll : PollCq) : Option CqState :=
  (s.rdmaQueryCq 2 poll).map fun (t, _, _) =>
    { t with recvIndex := t.recvIndex + 1, phase := .running }

/-- The number of receive work requests the adapter has taken. -/
def CqState.accepted (s : CqState) : ℕ := s.posted.length

/-- A receive work request completes with any status: the message is written to its buffer
and the completion joins the queue. -/
def CqState.arrive (s : CqState) (success : Bool) (payload : List UInt8) : Option CqState :=
  if payload.length ≤ gap then
    s.posted[s.polled + s.recvCq.length]?.map fun buffer =>
      { s with
        recvCq := s.recvCq ++ [⟨666, success, payload⟩]
        rbuf := fun a =>
          if buffer * gap ≤ a then (payload[a - buffer * gap]?).getD (s.rbuf a) else s.rbuf a }
  else none

/-- What can happen to a session. -/
inductive CqAction
  /-- A receive work request completes. -/
  | arrive (success : Bool) (payload : List UInt8)
  /-- `init` starts, and its `post_recv` gets `accepted` work requests taken. -/
  | init (accepted : ℕ)
  /-- `init` ends with `door`. -/
  | door (poll : PollCq)
  /-- `post_recv` is called. -/
  | postRecv (nums : ℤ) (accepted : ℕ)
  /-- `query` is called. -/
  | query (poll : PollCq)
  /-- `read` is called. -/
  | read (poll : PollCq)
  /-- `query_sr` is called. -/
  | querySr (poll : PollCq)
  deriving DecidableEq

/-- One action. Messages arrive at any time, the operations are called in order. -/
def CqState.step (s : CqState) : CqAction → Option CqState
  | .arrive success payload => s.arrive success payload
  | .init accepted =>
      if s.phase = .constructed then some { s.postRecv 16000 accepted with phase := .opening }
      else none
  | .door poll => if s.phase = .opening then s.door poll else none
  | .postRecv nums accepted =>
      if s.phase = .running then some (s.postRecv nums accepted) else none
  | .query poll => if s.phase = .running then (s.query poll).map Prod.fst else none
  | .read poll => if s.phase = .running then (s.read poll).map Prod.fst else none
  | .querySr poll => if s.phase = .running then (s.querySr poll).map Prod.fst else none

namespace CqState

variable {s t : CqState}

/-- The selector 3 is that of no queue: `query` returns -1 and takes nothing. -/
theorem query_eq (s : CqState) (poll : PollCq) : s.query poll = some (s, -1, []) := by
  simp [query, rdmaQueryCq, selectCq]

/-- `read` therefore gathers an empty batch. -/
theorem read_eq (s : CqState) (poll : PollCq) :
    s.read poll = some ({ s with recvIndex := s.recvIndex % recvNums }, []) := by
  simp [read, query_eq, gather, Gather.rest]

/-- What `read` ought to do when receive completions are waiting: take some of them, as
many as one poll can, count them off `posted_recv` and store their messages. -/
def Delivers (s t : CqState) (dest : List UInt8) : Prop :=
  ∃ j, 1 ≤ j ∧ j ≤ min s.recvCq.length maxCqe ∧ t.recvCq = s.recvCq.drop j ∧
    t.postedRecv = s.postedRecv - j ∧ dest = (s.recvCq.take j).flatMap CqEntry.payload

end CqState

/-- **`read` delivers nothing.** In every state with completions waiting in the receive
queue, and whatever the poll would return, `read` returns 0, leaves the queue and
`posted_recv` as they are, and so never does what it ought to. -/
theorem read_delivers_nothing (s : CqState) (poll : PollCq) (hwaiting : s.recvCq ≠ []) :
    ∃ t dest, s.read poll = some (t, dest) ∧ dest = [] ∧ t.recvCq = s.recvCq ∧
      t.postedRecv = s.postedRecv ∧ ¬s.Delivers t dest := by
  refine ⟨_, _, s.read_eq poll, rfl, rfl, rfl, ?_⟩
  rintro ⟨j, hj, hle, hqueue, -⟩
  have hlength := congrArg List.length hqueue
  have hpos := List.length_pos_of_ne_nil hwaiting
  rw [List.length_drop] at hlength
  dsimp only at hlength
  omega

/-- A running session with one message of one byte waiting. -/
def oneWaiting : CqState := ⟨[0], [], [⟨666, true, [7]⟩], 0, fun _ => 7, 0, 1, .running⟩

/-- The message of a single completion is not delivered. -/
theorem read_delivers_nothing_of_one :
    ∃ t dest, oneWaiting.read (.got 1) = some (t, dest) ∧ dest = [] ∧
      t.recvCq = oneWaiting.recvCq ∧ t.postedRecv = oneWaiting.postedRecv ∧
      ¬oneWaiting.Delivers t dest :=
  read_delivers_nothing oneWaiting (.got 1) (by decide)

/-- With one successful completion waiting, `read` does not remove it. -/
theorem read_leaves_completion :
    ¬∀ (s : CqState) (poll : PollCq), 1 ≤ s.recvCq.length →
      (∀ c ∈ s.recvCq, c.success = true ∧ c.wrId = 666) →
      ∃ t dest, s.read poll = some (t, dest) ∧ s.Delivers t dest := by
  intro h
  obtain ⟨t, dest, hread, j, hj, -, hqueue, -⟩ := h oneWaiting (.got 1) (by decide) (by decide)
  rw [CqState.read_eq] at hread
  obtain ⟨rfl, -⟩ := Prod.mk.inj (Option.some.inj hread)
  have hlength := congrArg List.length hqueue
  rw [List.length_drop] at hlength
  have hone : oneWaiting.recvCq.length = 1 := rfl
  dsimp only at hlength
  omega

/-- The counter is right: it is the number of receive work requests taken by the adapter
minus the number of completions polled from the receive queue. -/
def CqState.Counted (s : CqState) : Prop := s.postedRecv = s.accepted - s.polled

/-- Between operations the counter is right. While `init` runs nothing is asked of it. -/
def CqState.CountedBetween (s : CqState) : Prop := s.phase ≠ .opening → s.Counted

/-- The number of completions a poll of the receive queue takes. -/
def PollCq.taken : PollCq → ℕ
  | .error => 0
  | .got n => n

/-- The condition under which an action keeps the counter right. `door` does so only if
its poll fails after all work requests of `init` were taken, or takes as many completions
as there were work requests taken before one was refused; `post_recv` if it is not
stopped midway; `query_sr` if its poll fails. -/
def CqState.KeepsCount (s : CqState) : CqAction → Prop
  | .arrive _ _ => True
  | .init _ => True
  | .door poll => poll.taken = if s.accepted = 16000 then 0 else s.accepted
  | .postRecv nums accepted => min postLimit nums.toNat ≤ accepted ∨ accepted = 0
  | .query _ => True
  | .read _ => True
  | .querySr poll => poll = .error

/-- What holds while `init` runs: `post_recv` has counted all work requests or none. -/
def CqState.Opened (s : CqState) : Prop :=
  (s.phase = .constructed → s.posted = [] ∧ s.polled = 0 ∧ s.postedRecv = 0) ∧
  (s.phase = .opening → s.polled = 0 ∧ s.accepted ≤ 16000 ∧
    s.postedRecv = if s.accepted = 16000 then 16000 else 0)

/-- The final index of the loop of `post_recv`, unless a work request was refused. -/
theorem postRecvLoop_snd (nums : ℤ) (fuel i accepted : ℕ)
    (hfuel : min (postLimit - i) (nums.toNat - i) ≤ fuel) :
    (postRecvLoop nums fuel i accepted).2 =
      if min (postLimit - i) (nums.toNat - i) ≤ accepted then
        some (i + min (postLimit - i) (nums.toNat - i))
      else none := by
  induction fuel generalizing i accepted with
  | zero =>
    have hzero : min (postLimit - i) (nums.toNat - i) = 0 := by omega
    simp [postRecvLoop, hzero]
  | succ fuel ih =>
    by_cases h : i < postLimit ∧ (i : ℤ) < nums
    · cases accepted with
      | zero =>
        rw [if_neg (by omega)]
        simp [postRecvLoop, h]
      | succ accepted =>
        have hnext : min (postLimit - i) (nums.toNat - i) =
            min (postLimit - (i + 1)) (nums.toNat - (i + 1)) + 1 := by omega
        simp only [postRecvLoop, h, and_self, if_true]
        rw [ih (i + 1) accepted (by omega), hnext]
        simp only [Nat.add_le_add_iff_right]
        split_ifs
        · congr 1
          omega
        · rfl
    · have hzero : min (postLimit - i) (nums.toNat - i) = 0 := by omega
      cases accepted <;> simp [postRecvLoop, h, hzero]

namespace CqState

variable {s t : CqState}

/-- A call of `post_recv` adds the work requests taken, and counts them unless one was
refused. -/
theorem postRecv_count (s : CqState) (nums : ℤ) (accepted : ℕ) :
    (s.postRecv nums accepted).accepted = s.accepted + postCount nums accepted ∧
      (s.postRecv nums accepted).postedRecv = s.postedRecv +
        (if min postLimit nums.toNat ≤ accepted then (min postLimit nums.toNat : ℕ)
          else 0 : ℤ) := by
  have hfst := postRecvLoop_fst nums postLimit 0 accepted
  have hsnd := postRecvLoop_snd nums postLimit 0 accepted (by omega)
  simp only [Nat.sub_zero, Nat.zero_add] at hfst hsnd
  constructor
  · simp only [postRecv, CqState.accepted, List.length_append, hfst, List.length_map,
      List.length_range', postCount]
    omega
  · simp only [postRecv, hsnd]
    split_ifs <;> simp

/-- What a poll of the receive queue does. -/
theorem rdmaQueryCq_recv {poll : PollCq} {r : ℤ} {wc : List CqEntry}
    (h : s.rdmaQueryCq 2 poll = some (t, r, wc)) :
    (1 ≤ poll.taken ∨ poll = .error) ∧
      t = { s with recvCq := s.recvCq.drop poll.taken, polled := s.polled + poll.taken } := by
  have hselect : selectCq 2 = some .recv := rfl
  cases poll with
  | error =>
    simp only [rdmaQueryCq, hselect, Option.some.injEq, Prod.mk.injEq] at h
    exact ⟨.inr rfl, h.1.symm⟩
  | got n =>
    simp only [rdmaQueryCq, hselect, Option.ite_none_right_eq_some, Option.some.injEq,
      Prod.mk.injEq] at h
    exact ⟨.inl h.1.1, h.2.1.symm⟩

/-- All that an action can do to the numbers the counter is about. -/
theorem step_count {a : CqAction} (h : s.step a = some t) :
    match a with
    | .arrive _ _ => t.phase = s.phase ∧ t.posted = s.posted ∧ t.polled = s.polled ∧
        t.postedRecv = s.postedRecv
    | .init accepted => s.phase = .constructed ∧
        t = { s.postRecv 16000 accepted with phase := .opening }
    | .door poll => s.phase = .opening ∧ t.phase = .running ∧ t.posted = s.posted ∧
        t.polled = s.polled + poll.taken ∧ t.postedRecv = s.postedRecv
    | .postRecv nums accepted => s.phase = .running ∧ t = s.postRecv nums accepted
    | .query _ => s.phase = .running ∧ t = s
    | .read _ => s.phase = .running ∧ t = { s with recvIndex := s.recvIndex % recvNums }
    | .querySr poll => s.phase = .running ∧ (1 ≤ poll.taken ∨ poll = .error) ∧
        t = { s with recvCq := s.recvCq.drop poll.taken, polled := s.polled + poll.taken } := by
  cases a with
  | arrive success payload =>
    simp only [step, arrive, Option.ite_none_right_eq_some, Option.map_eq_some_iff] at h
    obtain ⟨_, _, _, rfl⟩ := h
    exact ⟨rfl, rfl, rfl, rfl⟩
  | init accepted =>
    simp only [step, Option.ite_none_right_eq_some, Option.some.injEq] at h
    exact ⟨h.1, h.2.symm⟩
  | door poll =>
    simp only [step, door, Option.ite_none_right_eq_some, Option.map_eq_some_iff] at h
    obtain ⟨hphase, ⟨u, r, wc⟩, hpoll, rfl⟩ := h
    obtain ⟨_, rfl⟩ := rdmaQueryCq_recv hpoll
    exact ⟨hphase, rfl, rfl, rfl, rfl⟩
  | postRecv nums accepted =>
    simp only [step, Option.ite_none_right_eq_some, Option.some.injEq] at h
    exact ⟨h.1, h.2.symm⟩
  | query poll =>
    simp only [step, Option.ite_none_right_eq_some, query_eq, Option.map_some,
      Option.some.injEq] at h
    exact ⟨h.1, h.2.symm⟩
  | read poll =>
    simp only [step, Option.ite_none_right_eq_some, read_eq, Option.map_some,
      Option.some.injEq] at h
    exact ⟨h.1, h.2.symm⟩
  | querySr poll =>
    simp only [step, querySr, Option.ite_none_right_eq_some, Option.map_map,
      Option.map_eq_some_iff] at h
    obtain ⟨hphase, ⟨u, r, wc⟩, hpoll, rfl⟩ := h
    exact ⟨hphase, rdmaQueryCq_recv hpoll⟩

/-- Every action keeps what is known while `init` runs. -/
theorem Opened.step {a : CqAction} (hs : s.Opened) (h : s.step a = some t) : t.Opened := by
  have hcount := step_count h
  cases a with
  | arrive success payload =>
    obtain ⟨hphase, hposted, hpolled, hrecv⟩ := hcount
    simp only [Opened, CqState.accepted, hphase, hposted, hpolled, hrecv]
    exact hs
  | init accepted =>
    obtain ⟨hphase, rfl⟩ := hcount
    obtain ⟨hnil, hzero, hrecv⟩ := hs.1 hphase
    obtain ⟨htaken, hcounted⟩ := s.postRecv_count 16000 accepted
    have hlimit : min postLimit (16000 : ℤ).toNat = 16000 := rfl
    have hnone : s.accepted = 0 := by
      rw [CqState.accepted, hnil]
      rfl
    rw [hlimit, hrecv] at hcounted
    rw [hnone, postCount, hlimit] at htaken
    refine ⟨by simp, fun _ => ⟨hzero, ?_, ?_⟩⟩
    · change (s.postRecv 16000 accepted).accepted ≤ 16000
      omega
    · change (s.postRecv 16000 accepted).postedRecv =
        if (s.postRecv 16000 accepted).accepted = 16000 then 16000 else 0
      rw [hcounted, htaken]
      split_ifs <;> omega
  | door poll =>
    obtain ⟨_, hphase, _⟩ := hcount
    simp [Opened, hphase]
  | postRecv nums accepted =>
    obtain ⟨hphase, rfl⟩ := hcount
    have hkept : (s.postRecv nums accepted).phase = .running := hphase
    simp [Opened, hkept]
  | query poll =>
    obtain ⟨_, rfl⟩ := hcount
    exact hs
  | read poll =>
    obtain ⟨_, rfl⟩ := hcount
    exact hs
  | querySr poll =>
    obtain ⟨hphase, _, rfl⟩ := hcount
    simp [Opened, hphase]

/-- An action from a state with the right counter keeps it exactly under the condition. -/
theorem countedBetween_step_iff {a : CqAction} (hopen : s.Opened) (hs : s.CountedBetween)
    (h : s.step a = some t) : t.CountedBetween ↔ s.KeepsCount a := by
  have hcount := step_count h
  cases a with
  | arrive success payload =>
    obtain ⟨hphase, hposted, hpolled, hrecv⟩ := hcount
    simp only [CountedBetween, Counted, CqState.accepted, hphase, hposted, hpolled, hrecv,
      KeepsCount, iff_true]
    exact hs
  | init accepted =>
    obtain ⟨_, rfl⟩ := hcount
    simp [CountedBetween, KeepsCount]
  | door poll =>
    obtain ⟨hopening, hphase, hposted, hpolled, hrecv⟩ := hcount
    obtain ⟨hzero, hle, hbefore⟩ := hopen.2 hopening
    have haccepted : t.accepted = s.accepted := by
      rw [CqState.accepted, hposted]
      rfl
    simp only [CountedBetween, hphase, ne_eq, reduceCtorEq, not_false_eq_true, forall_const,
      Counted, haccepted, hpolled, hrecv, hbefore, hzero, KeepsCount]
    split_ifs <;> omega
  | postRecv nums accepted =>
    obtain ⟨hphase, rfl⟩ := hcount
    have hkept : (s.postRecv nums accepted).phase = .running := hphase
    have hpolled : (s.postRecv nums accepted).polled = s.polled := rfl
    have hright : s.postedRecv = s.accepted - s.polled := hs (by simp [hphase])
    obtain ⟨htaken, hcounted⟩ := s.postRecv_count nums accepted
    simp only [CountedBetween, hkept, ne_eq, reduceCtorEq, not_false_eq_true, forall_const,
      Counted, htaken, hcounted, hpolled, hright, postCount, KeepsCount]
    split_ifs <;> omega
  | query poll =>
    obtain ⟨_, rfl⟩ := hcount
    simpa [KeepsCount] using hs
  | read poll =>
    obtain ⟨_, rfl⟩ := hcount
    simp only [KeepsCount, iff_true]
    exact hs
  | querySr poll =>
    obtain ⟨hphase, hpoll, rfl⟩ := hcount
    have hright : s.postedRecv = s.accepted - s.polled := hs (by simp [hphase])
    have herror : poll = .error ↔ poll.taken = 0 := by
      constructor
      · rintro rfl
        rfl
      · intro hzero
        rcases hpoll with htaken | herror
        · omega
        · exact herror
    rw [KeepsCount, herror]
    simp only [CountedBetween, hphase, ne_eq, reduceCtorEq, not_false_eq_true, forall_const,
      Counted, CqState.accepted] at hright ⊢
    omega

end CqState

/-- **The counter of posted receives.** Along a run from construction, in every state
between operations, `posted_recv` is the number of outstanding receives exactly when every
action of the run meets the condition `KeepsCount` in the state it is taken in. -/
theorem countedBetween_along_iff {rbuf : ℕ → UInt8} {s : CqState} {acts : List CqAction}
    (hrun : Runs.exec CqState.step (.constructed rbuf) acts = some s) :
    Runs.Along CqState.step CqState.CountedBetween (.constructed rbuf) acts ↔
      Runs.Meets CqState.step CqState.KeepsCount (.constructed rbuf) acts := by
  have hopen : (CqState.constructed rbuf).Opened := by
    simp [CqState.Opened, CqState.constructed]
  have hcounted : (CqState.constructed rbuf).CountedBetween := by
    simp [CqState.CountedBetween, CqState.Counted, CqState.constructed, CqState.accepted]
  refine Runs.along_iff_meets CqState.Opened (fun s a t hi h => hi.step h) ?_ ?_ hopen hcounted hrun
  · intro s a t hi hs hkeeps h
    exact (CqState.countedBetween_step_iff hi hs h).mpr hkeeps
  · intro s a t hi hs hkeeps h
    exact fun ht => hkeeps ((CqState.countedBetween_step_iff hi hs h).mp ht)

/-- When `init` gets all receives taken and a message arrives, nothing has been polled yet and
the counter is right. -/
theorem CqState.count_of_init_of_arrive {rbuf : ℕ → UInt8} {s t : CqState} {success : Bool}
    {payload : List UInt8} (hinit : (CqState.constructed rbuf).step (.init 16000) = some s)
    (harrive : s.step (.arrive success payload) = some t) :
    t.accepted = 16000 ∧ t.postedRecv = 16000 ∧ t.polled = 0 := by
  obtain ⟨_, rfl⟩ := CqState.step_count hinit
  obtain ⟨_, hposted, hpolled, hrecv⟩ := CqState.step_count harrive
  obtain ⟨htaken, hcounted⟩ := (CqState.constructed rbuf).postRecv_count 16000 16000
  have hempty : (CqState.constructed rbuf).accepted = 0 := rfl
  have hzero : (CqState.constructed rbuf).postedRecv = 0 := rfl
  have hlimit : min postLimit (16000 : ℤ).toNat = 16000 := rfl
  rw [hempty, postCount, hlimit, min_self, Nat.zero_add] at htaken
  rw [hzero, hlimit, if_pos le_rfl, Int.zero_add] at hcounted
  exact ⟨(congrArg List.length hposted).trans htaken, hrecv.trans hcounted, hpolled⟩

/-- A session that gets all receives taken and a message before `door`, whose poll fails, and
that then posts five further receives and reads. -/
def failedDoor : List CqAction :=
  [.init 16000, .arrive true [7], .door .error, .postRecv 5 5, .read (.got 1)]

/-- Its counter is right throughout: 16005 receives are outstanding at the end. -/
theorem countedBetween_along_iff_failed_door :
    ∃ s, Runs.exec CqState.step (.constructed fun _ => 0) failedDoor = some s ∧
      Runs.Along CqState.step CqState.CountedBetween (.constructed fun _ => 0) failedDoor ∧
      s.postedRecv = 16005 ∧ s.accepted = 16005 ∧ s.polled = 0 := by
  obtain ⟨s, hs⟩ : ∃ s, Runs.exec CqState.step (.constructed fun _ => 0) failedDoor = some s :=
    Option.isSome_iff_exists.mp (by decide +kernel)
  have hmeets :
      Runs.Meets CqState.step CqState.KeepsCount (.constructed fun _ => 0) failedDoor := by
    refine ⟨trivial, fun s₁ hinit => ⟨trivial, fun s₂ harrive => ⟨?_, fun _ _ =>
      ⟨.inl (by decide), fun _ _ => ⟨trivial, fun _ _ => trivial⟩⟩⟩⟩⟩
    rw [CqState.KeepsCount, if_pos (CqState.count_of_init_of_arrive hinit harrive).1]
    rfl
  refine ⟨s, hs, (countedBetween_along_iff hs).mpr hmeets, ?_⟩
  obtain ⟨s₁, hinit, hrest⟩ := Runs.exec_cons_eq_some.mp hs
  obtain ⟨s₂, harrive, hrest⟩ := Runs.exec_cons_eq_some.mp hrest
  obtain ⟨s₃, hdoor, hrest⟩ := Runs.exec_cons_eq_some.mp hrest
  obtain ⟨s₄, hpost, hrest⟩ := Runs.exec_cons_eq_some.mp hrest
  obtain ⟨s₅, hread, hend⟩ := Runs.exec_cons_eq_some.mp hrest
  obtain rfl : s₅ = s := by simpa using hend
  obtain ⟨haccepted, hcounter, hnone⟩ := CqState.count_of_init_of_arrive hinit harrive
  obtain ⟨_, _, hposted, hpolled, hrecv⟩ := CqState.step_count hdoor
  obtain ⟨_, rfl⟩ := CqState.step_count hpost
  obtain ⟨_, rfl⟩ := CqState.step_count hread
  obtain ⟨htaken, hcounted⟩ := s₃.postRecv_count 5 5
  refine ⟨?_, ?_, hpolled.trans hnone⟩
  · exact hcounted.trans (by rw [hrecv, hcounter]; rfl)
  · exact htaken.trans (by rw [CqState.accepted, hposted, ← CqState.accepted, haccepted]; rfl)

/-- A session that opens as intended: all 16000 receives are taken, the table of the peer
arrives and `door` polls its completion. Then 15999 receives are outstanding, and the
counter says 16000. -/
theorem counter_wrong_after_door :
    ∃ s, Runs.exec CqState.step (.constructed fun _ => 0)
        [.init 16000, .arrive true [7], .door (.got 1)] = some s ∧
      s.phase = .running ∧ s.postedRecv = 16000 ∧ s.accepted = 16000 ∧ s.polled = 1 ∧
      ¬s.Counted := by
  obtain ⟨s, hs⟩ : ∃ s, Runs.exec CqState.step (.constructed fun _ => 0)
      [.init 16000, .arrive true [7], .door (.got 1)] = some s :=
    Option.isSome_iff_exists.mp (by decide +kernel)
  obtain ⟨s₁, hinit, hrest⟩ := Runs.exec_cons_eq_some.mp hs
  obtain ⟨s₂, harrive, hlast⟩ := Runs.exec_cons_eq_some.mp hrest
  obtain ⟨s₃, hdoor, hend⟩ := Runs.exec_cons_eq_some.mp hlast
  obtain rfl : s₃ = s := by simpa using hend
  obtain ⟨haccepted, hcounter, hnone⟩ := CqState.count_of_init_of_arrive hinit harrive
  obtain ⟨_, hphase, hposted, hpolled, hrecv⟩ := CqState.step_count hdoor
  rw [← hrecv] at hcounter
  have hall : s₃.accepted = 16000 := by
    rw [CqState.accepted, hposted]
    exact haccepted
  have hone : s₃.polled = 1 := by
    rw [hpolled, hnone]
    rfl
  refine ⟨s₃, hs, hphase, hcounter, hall, hone, ?_⟩
  rw [CqState.Counted, hcounter, hall, hone]
  decide

end RdmaTransport
