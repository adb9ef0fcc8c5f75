import RdmaTransport.Chunk
import RdmaTransport.Lib.DrainLoop
import RdmaTransport.Lib.Runs
import Mathlib.Data.Finset.Lattice.Basic
import Mathlib.Order.Interval.Finset.Nat

/-!
# The receive side of the messenger

Any number of connected sockets share one receive queue. The adapter fills a posted
chunk with a message and appends a completion to the queue of the receiving socket;
`RDMAConnectedSocketImpl::read` drains that queue with the loop of
`Lib.DrainLoop`, at the granularity of its single calls, so that arrivals fall
between any two of them. Besides the program's own variables the state records,
for the statements of later files only, which message positions have been copied
out, which chunks were polled, what arrived and what the finished calls returned.
-/

namespace RdmaTransport

open DrainLoop Memory

/-- `enum ibv_wc_status`, reduced to the distinction the code makes. -/
inductive WcStatus
  | success
  | failure
  deriving DecidableEq

/-- The fields of `struct ibv_wc` that the code reads. -/
structure Wc where
  /-- The chunk whose pointer was stashed in the work request. -/
  wrId : ChunkId
  /-- The number of bytes received. -/
  byteLen : ℕ
  /-- Whether the work request succeeded. -/
  status : WcStatus
  deriving DecidableEq

/-- `MAX_COMPLETIONS`. -/
def maxCompletions : ℕ := 16

/-- The chunks, with a record of what was received into them and copied out. -/
structure ChunkStore where
  /-- The chunk objects. -/
  chunk : ChunkId → Chunk
  /-- The length of the message last received into a chunk. -/
  message : ChunkId → ℕ
  /-- The positions of that message copied out so far. -/
  copied : ChunkId → Finset ℕ

/-- Every position of the chunk's message has been copied out. -/
def ChunkStore.Spent (store : ChunkStore) (c : ChunkId) : Prop :=
  Finset.range (store.message c) ⊆ store.copied c

instance (store : ChunkStore) (c : ChunkId) : Decidable (store.Spent c) :=
  inferInstanceAs (Decidable (Finset.range (store.message c) ⊆ store.copied c))

/-- The adapter writes a message to the start of a chunk. -/
def ChunkStore.fill (store : ChunkStore) (c : ChunkId) (payload : List UInt8) : ChunkStore where
  chunk := Function.update store.chunk c
    { store.chunk c with buffer := overwrite (store.chunk c).buffer 0 payload }
  message := Function.update store.message c payload.length
  copied := Function.update store.copied c ∅

/-- `chunk->read(buf, len)`: the bytes copied out and the returned count. -/
def ChunkStore.readChunk (store : ChunkStore) (c : ChunkId) (len : ℕ) :
    ChunkStore × List UInt8 × ℕ :=
  let (chunk, data, count) := (store.chunk c).read len
  ({ store with
    chunk := Function.update store.chunk c chunk
    copied := Function.update store.copied c (store.copied c ∪
      Finset.Ico (store.chunk c).offset ((store.chunk c).offset + count)) }, data, count)

/-- `RDMAConnectedSocketImpl::read_buffers`, from the chunk under the iterator on.
The bytes copied so far and their number are passed along. -/
def readBuffers (len : ℕ) : ChunkStore → List ChunkId → ℕ → List UInt8 →
    ChunkStore × ℕ × List UInt8
  | store, [], read, buf => (store, read, buf)
  | store, c :: rest, read, buf =>
      let (store, data, count) := store.readChunk c (len - read)
      if read + count = len then (store, read + count, buf ++ data)
      else readBuffers len store rest (read + count) (buf ++ data)

/-- The part of `RDMAConnectedSocketImpl` that receiving uses. -/
structure Sock where
  /-- The receive completion queue and the point `read` has reached. -/
  control : Control Wc
  /-- Chunks polled with payload left over. -/
  rxBuffers : List ChunkId
  /-- The argument `len` of the running `read` call. -/
  len : ℕ
  /-- Its local variable `read`. -/
  read : ℕ
  /-- The bytes it has stored to `buf`. -/
  buf : List UInt8
  /-- Record: the chunks whose completion was processed, in order. -/
  polled : List ChunkId
  /-- Record: the message payloads in completion order. -/
  payloads : List (List UInt8)
  /-- Record: what the finished calls returned. -/
  returned : List (List UInt8)

/-- A connected socket: its queue is armed by `CompletionQueue::init`. -/
def Sock.connected : Sock := ⟨⟨⟨[], true, 0⟩, .idle⟩, [], 0, 0, [], [], [], []⟩

/-- The completions polled or queued that `read` has not processed. -/
def Sock.pending (sock : Sock) : List Wc := sock.control.polled ++ sock.control.queue.entries

/-- The chunks of all completions the socket ever got, in order. -/
def Sock.chunks (sock : Sock) : List ChunkId := sock.polled ++ sock.pending.map Wc.wrId

/-- The body of the loop of `read` over the polled completions. A failed completion
ends the process. -/
def handleCompletion (store : ChunkStore) (sock : Sock) (wc : Wc) : Option (ChunkStore × Sock) :=
  if wc.status = .success then
    if sock.read = sock.len then
      some (store, { sock with
        rxBuffers := sock.rxBuffers ++ [wc.wrId]
        polled := sock.polled ++ [wc.wrId] })
    else if sock.len ≤ sock.read + wc.byteLen then
      let (store, data, count) := store.readChunk wc.wrId (sock.len - sock.read)
      some (store, { sock with
        read := sock.read + count
        buf := sock.buf ++ data
        rxBuffers := sock.rxBuffers ++ [wc.wrId]
        polled := sock.polled ++ [wc.wrId] })
    else
      let (store, data, count) := store.readChunk wc.wrId wc.byteLen
      some (store, { sock with
        read := sock.read + count
        buf := sock.buf ++ data
        polled := sock.polled ++ [wc.wrId] })
  else none

/-- The receive side: the chunks, the shared receive queue and the sockets. -/
structure RxState (ι : Type*) where
  /-- The chunks. -/
  store : ChunkStore
  /-- The chunks posted to the shared receive queue. -/
  srq : List ChunkId
  /-- The connected sockets. -/
  sock : ι → Sock

/-- What can happen on the receive side. -/
inductive RxAction (ι : Type*)
  /-- A message for socket `i` is stored in the `k`-th posted chunk. -/
  | arrive (i : ι) (k : ℕ) (payload : List UInt8)
  /-- `read(buf, len)` is called, takes its event and runs `read_buffers`. -/
  | readEnter (i : ι) (len : ℕ)
  /-- The running call makes its next step; a poll returns `n` entries. -/
  | readAdvance (i : ι) (n : ℕ)

variable {ι : Type*} [DecidableEq ι]

/-- Replace the state of one socket. -/
def RxState.setSock (s : RxState ι) (store : ChunkStore) (i : ι) (sock : Sock) : RxState ι :=
  { s with store, sock := Function.update s.sock i sock }

/-- The store after replacing a socket. -/
@[simp] theorem RxState.setSock_store (s : RxState ι) (store : ChunkStore) (i : ι) (sock : Sock) :
    (s.setSock store i sock).store = store := rfl

/-- The receive queue after replacing a socket. -/
@[simp] theorem RxState.setSock_srq (s : RxState ι) (store : ChunkStore) (i : ι) (sock : Sock) :
    (s.setSock store i sock).srq = s.srq := rfl

/-- The replaced socket. -/
@[simp] theorem RxState.setSock_self (s : RxState ι) (store : ChunkStore) (i : ι) (sock : Sock) :
    (s.setSock store i sock).sock i = sock := by
  simp [setSock]

/-- The other sockets. -/
theorem RxState.setSock_of_ne (s : RxState ι) (store : ChunkStore) {i j : ι} (sock : Sock)
    (hj : j ≠ i) : (s.setSock store i sock).sock j = s.sock j := by
  simp [setSock, Function.update_of_ne hj]

/-- A message arrives: the adapter takes a posted chunk that is large enough, fills
it and completes the work request on the queue of the socket. -/
def RxState.arrive (s : RxState ι) (i : ι) (k : ℕ) (payload : List UInt8) : Option (RxState ι) :=
  match s.srq[k]? with
  | none => none
  | some c =>
      if payload.length ≤ (s.store.chunk c).bytes then
        some ⟨s.store.fill c payload, s.srq.eraseIdx k, Function.update s.sock i { s.sock i with
          control := (s.sock i).control.arrive ⟨c, payload.length, .success⟩
          payloads := (s.sock i).payloads ++ [payload] }⟩
      else none

/-- The beginning of `read`: wait for an event, then copy from `rx_buffers`. -/
def RxState.readEnter (s : RxState ι) (i : ι) (len : ℕ) : Option (RxState ι) :=
  (s.sock i).control.enter.map fun control =>
    let (store, read, buf) := readBuffers len s.store (s.sock i).rxBuffers 0 []
    s.setSock store i { s.sock i with control, len, read, buf }

/-- One step of the completion loop of `read`. The locals end with the call. -/
def RxState.readAdvance (s : RxState ι) (i : ι) (n : ℕ) : Option (RxState ι) :=
  match (s.sock i).control.advance maxCompletions n with
  | none => none
  | some (control, .silent) => some (s.setSock s.store i { s.sock i with control })
  | some (control, .handle wc) =>
      (handleCompletion s.store { s.sock i with control } wc).map fun (store, sock) =>
        s.setSock store i sock
  | some (control, .leave) =>
      some (s.setSock s.store i { s.sock i with
        control, len := 0, read := 0, buf := []
        returned := (s.sock i).returned ++ [(s.sock i).buf] })

/-- One action of the receive side. -/
def RxState.step (s : RxState ι) : RxAction ι → Option (RxState ι)
  | .arrive i k payload => s.arrive i k payload
  | .readEnter i len => s.readEnter i len
  | .readAdvance i n => s.readAdvance i n

/-- The chunks that `Infiniband::post_channel_cluster` posts, when `post_chunk`
succeeds for the first `accepted` of them and fails for the next. -/
def postChannelCluster (manager : MemoryManager) (accepted : ℕ) : List ChunkId :=
  ((manager.getChannelBuffers 0).map fun (free, _) => free.take accepted).getD []

/-- The receive side after start-up: the chunks are as created and the sockets are
connected. -/
def RxState.start (pool : Pool) (srq : List ChunkId) : RxState ι :=
  ⟨⟨pool.chunk, fun _ => 0, fun _ => ∅⟩, srq, fun _ => Sock.connected⟩

/-- The receive side as the constructor of `Infiniband` sets it up: `register_rx_tx`
followed by `post_channel_cluster`. -/
def RxState.startUp (host : Host) (size rxNum txNum : UInt32) (accepted : ℕ) :
    Option (RxState ι) :=
  (MemoryManager.registerRxTx host size rxNum txNum).map fun (pool, manager) =>
    RxState.start pool (postChannelCluster manager accepted)

/-- A complete `read` call that finds one completion in the queue. -/
def readOne (len : ℕ) : List (RxAction Unit) :=
  [.readEnter () len, .readAdvance () 1, .readAdvance () 0, .readAdvance () 0, .readAdvance () 0,
    .readAdvance () 0, .readAdvance () 0]

end RdmaTransport
