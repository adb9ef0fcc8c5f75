import RdmaTransport.Lib.Runs
import Mathlib.Data.List.Range

/-!
# The receive side of a session

`rdma_session` receives into `recv_nums` buffers of `gap` bytes each, cut from one
block. `post_recv` posts them as receive work requests, going round the buffers from
the first one on every call. The adapter fills the work requests in posting order.
`door` consumes the first message, the table of the peer, and `read` gathers further
messages from the buffers, starting at `recv_index`.

The constants are those set by `init`. The result of `rdma_query_cq` is a parameter of
the operations that call it: any number of the waiting completions between one and
`maxCQE`.
-/

namespace RdmaTransport

/-- The number of receive buffers, `recv_nums`. -/
def recvNums : ℕ := 1024

/-- The number of completions one poll can return, `maxCQE`. -/
def maxCqe : ℕ := recvNums

/-- The number of bytes of one receive buffer. -/
def gap : ℕ := 32 * 1024

/-- The number of work requests one call of `post_recv` posts at most. -/
def postLimit : ℕ := 16000

/-- The loop of `post_recv` from index `i` on. The adapter takes the next `accepted`
work requests and refuses the one after them. The result is the list of the buffers
posted, and the final index unless a work request was refused. -/
def postRecvLoop (nums : ℤ) : (fuel i accepted : ℕ) → List ℕ × Option ℕ
  | 0, i, _ => ([], some i)
  | fuel + 1, i, accepted =>
      if i < postLimit ∧ (i : ℤ) < nums then
        match accepted with
        | 0 => ([], none)
        | accepted + 1 =>
            let rest := postRecvLoop nums fuel (i + 1) accepted
            ((i % recvNums) :: rest.1, rest.2)
      else ([], some i)

/-- The local variables of the gathering loop of `read`. -/
structure Gather where
  /-- The field `recv_index` of the session. -/
  recvIndex : ℕ
  /-- The place in the receive block that `start` points to. -/
  start : ℕ
  /-- The number of full buffers seen and not yet copied. -/
  full : ℕ
  /-- The bytes stored to `dest`; their number is `size`. -/
  dest : List UInt8

/-- The `len` bytes that `memcpy` reads from a place of the receive block. -/
def bytesAt (rbuf : ℕ → UInt8) (start len : ℕ) : List UInt8 :=
  (List.range len).map fun i => rbuf (start + i)

/-- The body of the gathering loop of `read` for a completion of `byteLen` bytes. -/
def Gather.one (nums gap : ℕ) (rbuf : ℕ → UInt8) (g : Gather) (byteLen : ℕ) : Gather :=
  if byteLen < gap then
    let len := g.full * gap + byteLen
    let copied :=
      if g.recvIndex + g.full < nums then bytesAt rbuf g.start len
      else
        let tlen := (nums - g.recvIndex) * gap
        bytesAt rbuf g.start tlen ++ bytesAt rbuf 0 (len - tlen)
    let recvIndex := (g.recvIndex + g.full + 1) % nums
    ⟨recvIndex, recvIndex * gap, 0, g.dest ++ copied⟩
  else { g with full := g.full + 1 }

/-- What `read` does after the gathering loop: the full buffers still waiting are
copied, and `recv_index` passes them. -/
def Gather.rest (nums gap : ℕ) (rbuf : ℕ → UInt8) (g : Gather) : Gather :=
  let copied :=
    if g.full = 0 then []
    else if g.recvIndex + g.full < nums then bytesAt rbuf g.start (g.full * gap)
    else
      let front := (g.full + g.recvIndex) % nums
      bytesAt rbuf g.start ((nums - g.recvIndex) * gap) ++
        (if front ≠ 0 then bytesAt rbuf 0 (front * gap) else [])
  { g with dest := g.dest ++ copied, recvIndex := (g.recvIndex + g.full) % nums }

/-- The part of `read` after the query, for completions with the given lengths. -/
def gather (nums gap : ℕ) (rbuf : ℕ → UInt8) (recvIndex : ℕ) (byteLens : List ℕ) : Gather :=
  (byteLens.foldl (Gather.one nums gap rbuf) ⟨recvIndex, recvIndex * gap, 0, []⟩).rest nums gap rbuf

/-- The receive side of a session with its queue pair and its completion queue. The
last three fields are not data of the program: they record what became of messages. -/
structure Session where
  /-- The buffers of the receive work requests the adapter has taken, in order. -/
  posted : List ℕ
  /-- The messages that have arrived, in order; the `m`-th fills the `m`-th work request. -/
  messages : List (List UInt8)
  /-- The block the receive buffers are cut from. -/
  rbuf : ℕ → UInt8
  /-- The number of completions taken from the receive completion queue. -/
  polled : ℕ
  /-- The field `recv_index`. -/
  recvIndex : ℕ
  /-- The field `posted_recv`. -/
  postedRecv : ℤ
  /-- Whether `init` has passed `door`. -/
  started : Bool
  /-- The messages whose completions were polled and that nobody looked at. -/
  dropped : List ℕ
  /-- The messages that have arrived and were neither parsed by `start_remote` nor
  copied out of their buffers by `read`. -/
  held : List ℕ
  /-- The held messages over which a later one was written. -/
  overwritten : List ℕ

/-- The number of messages that have arrived. -/
def Session.arrived (s : Session) : ℕ := s.messages.length

/-- The messages that have arrived and were consumed neither by `start_remote` nor by
the copy loop of `read`: those dropped by a poll and those not polled. -/
def Session.unread (s : Session) : List ℕ :=
  s.dropped ++ List.range' s.polled (s.arrived - s.polled)

/-- The oldest message not consumed. It may still have to arrive. -/
def Session.oldest (s : Session) : ℕ := s.unread.head?.getD s.arrived

/-- `post_recv(nums)`, with `accepted` work requests taken by the adapter. -/
def Session.postRecv (s : Session) (nums : ℤ) (accepted : ℕ) : Session :=
  let (buffers, final) := postRecvLoop nums postLimit 0 accepted
  { s with posted := s.posted ++ buffers, postedRecv := s.postedRecv + final.getD 0 }

/-- `init` up to the call of `door`: the buffers are registered and posted. -/
def Session.initial (rbuf : ℕ → UInt8) (accepted : ℕ) : Session :=
  Session.postRecv ⟨[], [], rbuf, 0, 0, 0, false, [], [], []⟩ 16000 accepted

/-- A message arrives: it is written to the buffer of the oldest work request not yet
filled. A message longer than the buffer would be an error of the queue pair. -/
def Session.arrive (s : Session) (data : List UInt8) : Option Session :=
  if data.length ≤ gap then
    s.posted[s.arrived]?.map fun buffer =>
      { s with
        messages := s.messages ++ [data]
        rbuf := fun a =>
          if buffer * gap ≤ a then (data[a - buffer * gap]?).getD (s.rbuf a) else s.rbuf a
        held := s.held ++ [s.arrived]
        overwritten := s.overwritten ++ s.held.filter fun m => s.posted[m]? = some buffer }
  else none

/-- `rdma_query_cq` on the receive completion queue returns `j` completions. -/
def Session.poll (s : Session) (j : ℕ) : Option Session :=
  if 1 ≤ j ∧ j ≤ maxCqe ∧ s.polled + j ≤ s.arrived then some { s with polled := s.polled + j }
  else none

/-- `door` with `start_remote`. Only the first completion of the poll is looked at. -/
def Session.door (s : Session) (j : ℕ) : Option Session :=
  (s.poll j).map fun t =>
    { t with
      recvIndex := t.recvIndex + 1
      started := true
      dropped := t.dropped ++ List.range' (s.polled + 1) (j - 1)
      held := t.held.erase s.polled }

/-- The lengths of the next `j` completions of the receive completion queue. -/
def Session.byteLens (s : Session) (j : ℕ) : List ℕ :=
  ((s.messages.drop s.polled).take j).map List.length

/-- A read of `j` completions copies message `m` out of its buffer: the message of the
`i`-th completion is looked for in the `i`-th buffer from the read index on. -/
def Session.copies (s : Session) (j m : ℕ) : Bool :=
  s.polled ≤ m && m < s.polled + j &&
    s.posted[m]? == some ((s.recvIndex + (m - s.polled)) % recvNums)

/-- `read`, with the bytes it stores to `dest`. The query returns `-1`, as it always
does for the selector 3 that `query` hands to `rdma_query_cq`, or `j` completions. -/
def Session.read (s : Session) : (done : Option ℕ) → Option (Session × List UInt8)
  | none =>
      let g := gather recvNums gap s.rbuf s.recvIndex []
      some ({ s with recvIndex := g.recvIndex }, g.dest)
  | some j =>
      (s.poll j).map fun t =>
        let g := gather recvNums gap s.rbuf s.recvIndex (s.byteLens j)
        ({ t with
            recvIndex := g.recvIndex
            postedRecv := t.postedRecv - j
            held := t.held.filter fun m => !s.copies j m }, g.dest)

/-- `query_sr`: completions are polled and only their lengths are reported. -/
def Session.querySr (s : Session) (j : ℕ) : Option Session :=
  (s.poll j).map fun t => { t with dropped := t.dropped ++ List.range' s.polled j }

/-- What can happen on the receive side of a session. -/
inductive SessionAction
  /-- A message arrives. -/
  | arrive (data : List UInt8)
  /-- `init` runs `door`, whose poll returns `j` completions. -/
  | door (j : ℕ)
  /-- `read` is called; its query returns `-1` or a number of completions. -/
  | read (done : Option ℕ)
  /-- `query_sr` is called and polls `j` completions. -/
  | querySr (j : ℕ)
  /-- `post_recv` is called and the adapter takes `accepted` work requests. -/
  | postRecv (nums : ℤ) (accepted : ℕ)

/-- One action of the receive side. Messages arrive at any time; the operations are
called on a session that has been constructed. -/
def Session.step (s : Session) : SessionAction → Option Session
  | .arrive data => s.arrive data
  | .door j => if s.started then none else s.door j
  | .read done => if s.started then (s.read done).map Prod.fst else none
  | .querySr j => if s.started then s.querySr j else none
  | .postRecv nums accepted => if s.started then some (s.postRecv nums accepted) else none

/-- The number of work requests a call of `post_recv` posts. -/
def postCount (nums : ℤ) (accepted : ℕ) : ℕ := min (min postLimit nums.toNat) accepted

/-- The loop of `post_recv` posts consecutive buffers, modulo their number. -/
theorem postRecvLoop_fst (nums : ℤ) (fuel i accepted : ℕ) :
    (postRecvLoop nums fuel i accepted).1 =
      (List.range' i (min fuel (min (min (postLimit - i) (nums.toNat - i)) accepted))).map
        (· % recvNums) := by
  induction fuel generalizing i accepted with
  | zero => simp [postRecvLoop]
  | succ fuel ih =>
    by_cases h : i < postLimit ∧ (i : ℤ) < nums
    · cases accepted with
      | zero => simp [postRecvLoop, h]
      | succ accepted =>
        have hcount : min (fuel + 1) (min (min (postLimit - i) (nums.toNat - i)) (accepted + 1)) =
            min fuel (min (min (postLimit - (i + 1)) (nums.toNat - (i + 1))) accepted) + 1 := by
          omega
        rw [hcount, List.range'_succ, List.map_cons, ← ih]
        simp [postRecvLoop, h]
    · have hcount : min (postLimit - i) (nums.toNat - i) = 0 := by
        omega
      rw [hcount]
      cases accepted <;> simp [postRecvLoop, h]

/-- A call of `post_recv` adds the buffers from the first one on, in order. -/
theorem Session.posted_postRecv (s : Session) (nums : ℤ) (accepted : ℕ) :
    (s.postRecv nums accepted).posted =
      s.posted ++ (List.range (postCount nums accepted)).map (· % recvNums) := by
  have hcount : min postLimit (min (min (postLimit - 0) (nums.toNat - 0)) accepted) =
      postCount nums accepted := by
    rw [postCount]
    omega
  rw [List.range_eq_range', ← hcount, ← postRecvLoop_fst]
  rfl

/-- In the gathering loop the read index and the full buffers waiting behind it advance
by one with every completion. -/
theorem foldl_gatherOne_position (nums gap : ℕ) (rbuf : ℕ → UInt8) (byteLens : List ℕ)
    (g : Gather) :
    ((byteLens.foldl (Gather.one nums gap rbuf) g).recvIndex +
        (byteLens.foldl (Gather.one nums gap rbuf) g).full) % nums =
      (g.recvIndex + g.full + byteLens.length) % nums := by
  induction byteLens generalizing g with
  | nil => rfl
  | cons byteLen byteLens ih =>
    rw [List.foldl_cons, ih, List.length_cons]
    by_cases hfull : byteLen < gap
    · simp only [Gather.one, hfull, if_true, Nat.add_zero, Nat.mod_add_mod]
      congr 1
      omega
    · simp only [Gather.one, hfull, if_false]
      congr 1
      omega

/-- `read` moves the read index by the number of completions it was given. -/
theorem gather_recvIndex (nums gap : ℕ) (rbuf : ℕ → UInt8) (recvIndex : ℕ)
    (byteLens : List ℕ) :
    (gather nums gap rbuf recvIndex byteLens).recvIndex =
      (recvIndex + byteLens.length) % nums := by
  simpa [gather, Gather.rest] using
    foldl_gatherOne_position nums gap rbuf byteLens ⟨recvIndex, recvIndex * gap, 0, []⟩

/-- A poll takes between one and `maxCQE` of the waiting completions. -/
theorem Session.poll_eq_some {s t : Session} {j : ℕ} :
    s.poll j = some t ↔ (1 ≤ j ∧ j ≤ maxCqe ∧ s.polled + j ≤ s.arrived) ∧
      t = { s with polled := s.polled + j } := by
  rw [Session.poll, Option.ite_none_right_eq_some, Option.some.injEq, eq_comm (a := t)]

/-- As many completions are handed to the gathering loop as were polled. -/
theorem Session.length_byteLens {s : Session} {j : ℕ} (h : s.polled + j ≤ s.arrived) :
    (s.byteLens j).length = j := by
  simp only [Session.arrived] at h
  simp only [Session.byteLens, List.length_map, List.length_take, List.length_drop]
  omega

/-- The oldest message not consumed is the first one dropped, or the next to be
polled. -/
theorem Session.oldest_eq (s : Session) (h : s.polled ≤ s.arrived) :
    s.oldest = s.dropped.head?.getD s.polled := by
  rw [Session.oldest, Session.unread]
  cases s.dropped with
  | cons m rest => rfl
  | nil =>
    rcases Nat.eq_or_lt_of_le h with heq | hlt
    · simp [heq]
    · obtain ⟨n, hn⟩ : ∃ n, s.arrived - s.polled = n + 1 := ⟨s.arrived - s.polled - 1, by omega⟩
      simp [hn, List.range'_succ]

namespace Session

variable {s t : Session}

/-- What the arrival of a message does. -/
theorem arrive_cases {data : List UInt8} (h : s.step (.arrive data) = some t) :
    ∃ buffer, s.posted[s.arrived]? = some buffer ∧ t.posted = s.posted ∧
      t.arrived = s.arrived + 1 ∧ t.polled = s.polled ∧ t.recvIndex = s.recvIndex ∧
      t.started = s.started ∧ t.dropped = s.dropped ∧ t.held = s.held ++ [s.arrived] ∧
      t.overwritten = s.overwritten ++ s.held.filter fun m => s.posted[m]? = some buffer := by
  simp only [Session.step, Session.arrive, Option.ite_none_right_eq_some,
    Option.map_eq_some_iff] at h
  obtain ⟨_, buffer, hbuffer, rfl⟩ := h
  exact ⟨buffer, hbuffer, rfl, by simp [Session.arrived], rfl, rfl, rfl, rfl, rfl, rfl⟩

/-- What `door` does. -/
theorem door_cases {j : ℕ} (h : s.step (.door j) = some t) :
    s.started = false ∧ (1 ≤ j ∧ j ≤ maxCqe ∧ s.polled + j ≤ s.arrived) ∧
      t = { s with
        polled := s.polled + j
        recvIndex := s.recvIndex + 1
        started := true
        dropped := s.dropped ++ List.range' (s.polled + 1) (j - 1)
        held := s.held.erase s.polled } := by
  simp only [Session.step, Option.ite_none_left_eq_some, Session.door,
    Option.map_eq_some_iff] at h
  obtain ⟨hstarted, u, hpoll, rfl⟩ := h
  obtain ⟨hj, rfl⟩ := poll_eq_some.mp hpoll
  exact ⟨by simpa using hstarted, hj, rfl⟩

/-- What `read` does when its query fails, on a read index in range. -/
theorem read_none_cases (hindex : s.recvIndex < recvNums) (h : s.step (.read none) = some t) :
    t = s := by
  simp only [Session.step, Session.read, Option.ite_none_right_eq_some, Option.map_some,
    Option.some.injEq, gather_recvIndex, List.length_nil, Nat.add_zero,
    Nat.mod_eq_of_lt hindex] at h
  exact h.2.symm

/-- What `read` does when its query returns `j` completions. -/
theorem read_some_cases {j : ℕ} (h : s.step (.read (some j)) = some t) :
    s.started = true ∧ (1 ≤ j ∧ j ≤ maxCqe ∧ s.polled + j ≤ s.arrived) ∧
      t = { s with
        polled := s.polled + j
        recvIndex := (s.recvIndex + j) % recvNums
        postedRecv := s.postedRecv - j
        held := s.held.filter fun m => !s.copies j m } := by
  simp only [Session.step, Session.read, Option.ite_none_right_eq_some, Option.map_eq_some_iff,
    Prod.exists] at h
  obtain ⟨hstarted, u, dest, ⟨v, hpoll, hpair⟩, rfl⟩ := h
  obtain ⟨hj, rfl⟩ := poll_eq_some.mp hpoll
  simp only [Prod.mk.injEq, gather_recvIndex, length_byteLens hj.2.2] at hpair
  exact ⟨hstarted, hj, hpair.1.symm⟩

/-- What `query_sr` does. -/
theorem querySr_cases {j : ℕ} (h : s.step (.querySr j) = some t) :
    s.started = true ∧ (1 ≤ j ∧ j ≤ maxCqe ∧ s.polled + j ≤ s.arrived) ∧
      t = { s with
        polled := s.polled + j
        dropped := s.dropped ++ List.range' s.polled j } := by
  simp only [Session.step, Option.ite_none_right_eq_some, Session.querySr,
    Option.map_eq_some_iff] at h
  obtain ⟨hstarted, u, hpoll, rfl⟩ := h
  obtain ⟨hj, rfl⟩ := poll_eq_some.mp hpoll
  exact ⟨hstarted, hj, rfl⟩

/-- What a further call of `post_recv` does. -/
theorem postRecv_cases {nums : ℤ} {accepted : ℕ} (h : s.step (.postRecv nums accepted) = some t) :
    s.started = true ∧ ∃ postedRecv, t = { s with
      posted := s.posted ++ (List.range (postCount nums accepted)).map (· % recvNums)
      postedRecv } := by
  simp only [Session.step, Option.ite_none_right_eq_some, Option.some.injEq] at h
  obtain ⟨hstarted, rfl⟩ := h
  refine ⟨hstarted, (s.postRecv nums accepted).postedRecv, ?_⟩
  rw [← posted_postRecv]
  rfl

end Session

end RdmaTransport
