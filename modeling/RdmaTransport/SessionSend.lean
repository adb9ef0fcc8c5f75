import RdmaTransport.Session
import Mathlib.Algebra.Group.Nat.Defs

/-!
# The send side of a session

All operations of `rdma_session` that send put their work requests on one queue pair
and take completions from one send completion queue. The work requests complete in
posting order, so the completions taken so far are those of the first work requests
posted. `bulk` registers a block piece by piece, writes the pieces to the slots of the
peer, counts completions until it has as many as it posted, and deregisters the pieces.

What the adapter answers is a parameter of every operation. Memory regions are told
apart by number, which also stands for their local key.
-/

namespace RdmaTransport

/-- The value `rdma_gap` is given by `init`. -/
def rdmaGapInit : ℕ := 2 * 1024 * 1024

/-- `struct rdma_mem`. -/
structure RdmaMem where
  /-- The memory region. -/
  mr : ℕ
  /-- The address of the first byte. -/
  buf : ℕ
  /-- The number of bytes. -/
  size : ℕ
  deriving DecidableEq

/-- `enum ibv_wr_opcode`. -/
inductive WrOpcode
  /-- `IBV_WR_RDMA_WRITE`. -/
  | rdmaWrite
  /-- `IBV_WR_RDMA_WRITE_WITH_IMM`. -/
  | rdmaWriteWithImm
  /-- `IBV_WR_SEND`. -/
  | send
  /-- `IBV_WR_SEND_WITH_IMM`. -/
  | sendWithImm
  /-- `IBV_WR_RDMA_READ`. -/
  | rdmaRead
  /-- `IBV_WR_ATOMIC_CMP_AND_SWP`. -/
  | atomicCmpAndSwp
  /-- `IBV_WR_ATOMIC_FETCH_AND_ADD`. -/
  | atomicFetchAndAdd
  deriving DecidableEq

/-- `struct rdma_task`. -/
structure RdmaTask where
  /-- The registered memory. -/
  mem : RdmaMem
  /-- The kind of work request. -/
  opcode : WrOpcode
  /-- The number of bytes. -/
  size : ℕ
  /-- The key of the remote region, 0 if not set. -/
  rkey : ℕ
  /-- The remote address, 0 if not set. -/
  remoteAddr : ℕ
  /-- The identifier handed back with the completion. -/
  id : ℕ

/-- The fields of a posted work request that `rdma_post_send` fills in. -/
structure PostedWr where
  /-- The identifier of the task. -/
  wrId : ℕ
  /-- The address of the first byte. -/
  addr : ℕ
  /-- The number of bytes, of type `uint32_t`. -/
  length : ℕ
  /-- The memory region. -/
  lkey : ℕ
  /-- The kind of work request. -/
  opcode : WrOpcode
  /-- The remote address, for all but sends. -/
  remoteAddr : ℕ
  /-- The remote key, for all but sends. -/
  rkey : ℕ

/-- The send side of a session with its queue pair and its completion queue. -/
structure SendSide where
  /-- The registered send buffer. -/
  sendMem : RdmaMem
  /-- The address and the key in `remote_info` of the context. -/
  remoteInfo : ℕ × ℕ
  /-- The array `raddrs`. -/
  raddrs : ℕ → ℕ
  /-- The array `rkeys`. -/
  rkeys : ℕ → ℕ
  /-- The number of slots, `slices`. -/
  slices : ℕ
  /-- The field `rdma_gap`. -/
  rdmaGap : ℕ
  /-- The field `rdma_index`. -/
  rdmaIndex : ℕ
  /-- The memory regions that are registered. -/
  regions : List RdmaMem
  /-- The next memory region the adapter hands out. -/
  nextMr : ℕ
  /-- The work requests the adapter has taken, in order. -/
  posted : List PostedWr
  /-- The number of completions taken from the send completion queue. -/
  polled : ℕ

/-- What a call of `rdma_query_cq` on the send completion queue meets. -/
inductive Poll
  /-- The poll returns `n` completions, all of them successful. -/
  | got (n : ℕ)
  /-- The poll fails, or one of the `n` completions it took is not successful. -/
  | failed (n : ℕ)

/-- `rdma_query_cq` on the send completion queue. Its result is `none` for `-1`. As long
as nothing has completed it goes on polling, so a successful poll has a completion. -/
def SendSide.queryCq (s : SendSide) : Poll → Option (SendSide × Option ℕ)
  | .got n =>
      if 1 ≤ n ∧ n ≤ maxCqe ∧ s.polled + n ≤ s.posted.length then
        some ({ s with polled := s.polled + n }, some n)
      else none
  | .failed n =>
      if n ≤ maxCqe ∧ s.polled + n ≤ s.posted.length then
        some ({ s with polled := s.polled + n }, none)
      else none

/-- The work request `rdma_post_send` makes of a task. -/
def SendSide.postedWr (s : SendSide) (task : RdmaTask) : PostedWr :=
  let remote :=
    if task.opcode = .send then (0, 0)
    else if task.rkey = 0 ∧ task.remoteAddr = 0 then s.remoteInfo
    else (task.remoteAddr, task.rkey)
  ⟨task.id, task.mem.buf, task.size % 2 ^ 32, task.mem.mr, task.opcode, remote.1, remote.2⟩

/-- `send(task)`, which is `rdma_post_send`: the adapter takes the work request, and the
result is 0, or it does not, and the result is -1. -/
def SendSide.sendTask (s : SendSide) (task : RdmaTask) (ok : Bool) : SendSide × Bool :=
  if ok then ({ s with posted := s.posted ++ [s.postedWr task] }, true) else (s, false)

/-- `send(size)`. -/
def SendSide.sendSize (s : SendSide) (size : ℕ) (ok : Bool) : SendSide × Bool :=
  if size = 0 then (s, true) else s.sendTask ⟨s.sendMem, .send, size, 0, 0, 222⟩ ok

/-- `send(buf,size)`. The copy to the send buffer is not represented. -/
def SendSide.sendBuf (s : SendSide) (size : ℕ) (ok : Bool) : SendSide × Bool :=
  s.sendTask ⟨s.sendMem, .send, size, 0, 0, 65⟩ ok

/-- `latency(size)`: one message is sent and one poll waits for its completion. -/
def SendSide.latency (s : SendSide) (size : ℕ) (ok : Bool) (poll : Poll) :
    Option (SendSide × Bool) :=
  if gap < size then some (s, false)
  else
    let (t, sent) := s.sendSize size ok
    if sent then (t.queryCq poll).map fun (u, ack) => (u, ack.isSome) else some (t, false)

/-- `rdma(mem)`: the index of the slot moves on before the work request is posted. -/
def SendSide.rdma (s : SendSide) (mem : RdmaMem) (ok : Bool) : SendSide × Bool :=
  { s with rdmaIndex := (s.rdmaIndex + 1) % s.slices }.sendTask
    ⟨mem, .rdmaWrite, mem.size, s.rkeys s.rdmaIndex, s.raddrs s.rdmaIndex, 233⟩ ok

/-- `reg_mem(buf,size)`. -/
def SendSide.regMem (s : SendSide) (buf size : ℕ) (ok : Bool) : SendSide × Option RdmaMem :=
  if ok then
    let mem : RdmaMem := ⟨s.nextMr, buf, size⟩
    ({ s with regions := s.regions ++ [mem], nextMr := s.nextMr + 1 }, some mem)
  else (s, none)

/-- The adapter's answers during a call of `bulk`. -/
structure BulkEnv where
  /-- Whether the `i`-th registration succeeds. -/
  registers : ℕ → Bool
  /-- Whether the `i`-th work request is taken. -/
  posts : ℕ → Bool
  /-- What the polls of the send completion queue meet, as far as the call has come. -/
  polls : List Poll
  /-- Whether the `i`-th deregistration succeeds. -/
  deregisters : ℕ → Bool

/-- The number of pieces as `bulk` computes it. -/
def bulkNum (rdmaGap size : ℕ) : ℕ :=
  let num := size / rdmaGap + 1
  if size % rdmaGap = 0 then num - 1 else num

/-- The first loop of `bulk`: the rest of the block from `cursor` on is registered piece
by piece. It ends with `none` when a registration fails. -/
def SendSide.registerLoop (ptr size : ℕ) (registers : ℕ → Bool) :
    (fuel cursor : ℕ) → SendSide → List RdmaMem → SendSide × Option (List RdmaMem)
  | 0, _, s, mems => (s, some mems)
  | fuel + 1, cursor, s, mems =>
      if cursor < size then
        let len := if s.rdmaGap ≤ size - cursor then s.rdmaGap else size - cursor
        match s.regMem (ptr + cursor) len (registers mems.length) with
        | (t, some mem) => registerLoop ptr size registers fuel (cursor + len) t (mems ++ [mem])
        | (t, none) => (t, none)
      else (s, some mems)

/-- The second loop of `bulk`: the pieces from index `i` on are written to the peer. The
result tells whether all of them were posted; using a piece that was not registered is
`none`. -/
def SendSide.postLoop (mems : List RdmaMem) (posts : ℕ → Bool) :
    (left i : ℕ) → SendSide → Option (SendSide × Bool)
  | 0, _, s => some (s, true)
  | left + 1, i, s =>
      mems[i]?.bind fun mem =>
        let (t, ok) := s.rdma mem (posts i)
        if ok then postLoop mems posts left (i + 1) t else some (t, false)

/-- How far the third loop of `bulk` has come. -/
structure AckOutcome where
  /-- The send side. -/
  state : SendSide
  /-- The values `ack` had when the loop condition was tested. -/
  acks : List ℕ
  /-- Whether the loop ended by its condition or by a failed poll, if it did. -/
  ended : Option Bool

/-- The third loop of `bulk`: completions are counted until there are `num`. -/
def SendSide.ackLoop (num : ℕ) : List Poll → (ack : ℕ) → SendSide → Option AckOutcome
  | [], ack, s => some ⟨s, [ack], if ack = num then some true else none⟩
  | poll :: polls, ack, s =>
      if ack = num then some ⟨s, [ack], some true⟩
      else
        (s.queryCq poll).bind fun (t, result) =>
          match result with
          | none => some ⟨t, [ack], some false⟩
          | some n =>
              (ackLoop num polls (ack + n) t).map fun out => { out with acks := ack :: out.acks }

/-- The fourth loop of `bulk`: the pieces from index `i` on are deregistered. -/
def SendSide.deregLoop (mems : List RdmaMem) (deregisters : ℕ → Bool) :
    (left i : ℕ) → SendSide → Option (SendSide × Bool)
  | 0, _, s => some (s, true)
  | left + 1, i, s =>
      mems[i]?.bind fun mem =>
        if deregisters i then
          deregLoop mems deregisters left (i + 1) { s with regions := s.regions.erase mem }
        else some (s, false)

/-- What a call of `bulk` has done. -/
structure BulkOutcome where
  /-- The send side. -/
  state : SendSide
  /-- The value returned, if the call has returned. -/
  result : Option ℤ
  /-- The number of pieces. -/
  num : ℕ
  /-- The values `ack` had when the condition of its loop was tested. -/
  acks : List ℕ
  /-- The send side before the first deregistration, if the call has come there. -/
  beforeDereg : Option SendSide

/-- `bulk(ptr,size)`. -/
def SendSide.bulk (s : SendSide) (ptr size : ℕ) (env : BulkEnv) : Option BulkOutcome :=
  let num := bulkNum s.rdmaGap size
  match SendSide.registerLoop ptr size env.registers size 0 s [] with
  | (t, none) => some ⟨t, some (-1), num, [], none⟩
  | (t, some mems) =>
      (SendSide.postLoop mems env.posts num 0 t).bind fun (u, ok) =>
        if ok then
          (SendSide.ackLoop num env.polls 0 u).bind fun out =>
            match out.ended with
            | none => some ⟨out.state, none, num, out.acks, none⟩
            | some false => some ⟨out.state, some (-1), num, out.acks, none⟩
            | some true =>
                (SendSide.deregLoop mems env.deregisters num 0 out.state).map fun (v, ok) =>
                  ⟨v, some (if ok then 0 else -1), num, out.acks, some out.state⟩
        else some ⟨u, some (-1), num, [], none⟩

/-- The operations of a session that send. -/
inductive SendOp
  /-- `send(task)`. -/
  | sendTask (task : RdmaTask) (ok : Bool)
  /-- `send(size)`. -/
  | sendSize (size : ℕ) (ok : Bool)
  /-- `send(buf,size)`. -/
  | sendBuf (size : ℕ) (ok : Bool)
  /-- `latency(size)`. -/
  | latency (size : ℕ) (ok : Bool) (poll : Poll)
  /-- `bulk(ptr,size)`. -/
  | bulk (ptr size : ℕ) (env : BulkEnv)

/-- One operation. The next one can only be called when it has returned. -/
def SendSide.step (s : SendSide) : SendOp → Option SendSide
  | .sendTask task ok => some (s.sendTask task ok).1
  | .sendSize size ok => some (s.sendSize size ok).1
  | .sendBuf size ok => some (s.sendBuf size ok).1
  | .latency size ok poll => (s.latency size ok poll).map Prod.fst
  | .bulk ptr size env =>
      (s.bulk ptr size env).bind fun out => if out.result.isSome then some out.state else none

/-- The send side before `door`, with the tables the peer will send. -/
def SendSide.fresh (sendMem : RdmaMem) (remoteInfo : ℕ × ℕ) (raddrs rkeys : ℕ → ℕ)
    (slices : ℕ) : SendSide :=
  ⟨sendMem, remoteInfo, raddrs, rkeys, slices, rdmaGapInit, 0, [sendMem], sendMem.mr + 1, [], 0⟩

/-- `start_rw` sends the table of slots and polls once; neither result is looked at. -/
def SendSide.startRw (s : SendSide) (ok : Bool) (poll : Poll) : Option SendSide :=
  ((s.sendBuf (s.slices * 25) ok).1.queryCq poll).map Prod.fst

end RdmaTransport
