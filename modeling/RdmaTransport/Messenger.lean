import RdmaTransport.ReceiveSteps
import RdmaTransport.Send
import RdmaTransport.TxEvent

/-!
# The messenger and its transmit pool

Sockets, worker and memory manager are put together: messages arrive in posted
chunks and are read, buffer lists are sent, and send completions arrive in any order
and are handled. `get_tx_buffers` allocates from the cluster declared for receiving,
while `return_channel` gives chunks back to the cluster declared for sending. What
follows is stated exactly: the transmit pool is intact as long as nothing was sent.
-/

namespace RdmaTransport

open DrainLoop Runs

/-- The state of the messenger. -/
structure Messenger (ι : Type*) where
  /-- The chunks, the shared receive queue and the sockets. -/
  rx : RxState ι
  /-- The worker that handles send completions, with the memory manager. -/
  worker : TxWorker
  /-- The accepted send work requests that have not completed. -/
  inflight : List SendWr
  /-- The work requests that failed posts did not hand to the adapter. -/
  refused : List SendWr

/-- What can happen in the messenger. -/
inductive Action (ι : Type*)
  /-- A step of the receive side. -/
  | receive (a : RxAction ι)
  /-- A socket sends a buffer list; `fails` tells what `ibv_post_send` accepts. -/
  | send (bl : List (List UInt8)) (fails : Option ℕ)
  /-- The `k`-th outstanding work request completes. -/
  | complete (k : ℕ) (status : WcStatus)
  /-- `handle_tx_event` is called and gets no event. -/
  | txMiss
  /-- `handle_tx_event` is called and takes an event. -/
  | txEnter
  /-- The running handler makes its next step; a poll returns `n` entries. -/
  | txAdvance (n : ℕ)

variable {ι : Type*} [DecidableEq ι]

/-- A socket sends a buffer list. -/
def Messenger.send (s : Messenger ι) (bl : List (List UInt8)) (fails : Option ℕ) :
    Option (Messenger ι) :=
  (RdmaTransport.send s.rx.store.chunk s.worker.manager bl fails).map fun out =>
    { rx := { s.rx with store := { s.rx.store with chunk := out.chunk } }
      worker := { s.worker with manager := out.manager }
      inflight := s.inflight ++ out.accepted
      refused := s.refused ++ out.refused }

/-- An outstanding send work request completes. -/
def Messenger.complete (s : Messenger ι) (k : ℕ) (status : WcStatus) : Option (Messenger ι) :=
  s.inflight[k]?.bind fun wr =>
    (s.worker.step (.arrive ⟨wr.wrId, wr.length, status⟩)).map fun worker =>
      { s with worker, inflight := s.inflight.eraseIdx k }

/-- One action of the messenger. -/
def Messenger.step (s : Messenger ι) : Action ι → Option (Messenger ι)
  | .receive a => (s.rx.step a).map fun rx => { s with rx }
  | .send bl fails => s.send bl fails
  | .complete k status => s.complete k status
  | .txMiss => (s.worker.step .miss).map fun worker => { s with worker }
  | .txEnter => (s.worker.step .enter).map fun worker => { s with worker }
  | .txAdvance n => (s.worker.step (.advance n)).map fun worker => { s with worker }

/-- The messenger as the constructor of `Infiniband` and the initialisation of the
worker leave it. -/
def Messenger.startUp (host : Host) (size rxNum txNum : UInt32) (accepted : ℕ) :
    Option (Messenger ι) :=
  (MemoryManager.registerRxTx host size rxNum txNum).map fun (pool, manager) =>
    ⟨RxState.start pool (postChannelCluster manager accepted), TxWorker.initialized manager, [], []⟩

/-- The action sends at least one byte. -/
def Action.SendsBytes : Action ι → Prop
  | .send bl _ => totalLength bl ≠ 0
  | _ => False

/-- The free list `get_tx_buffers` allocates from. -/
def Messenger.txPool (s : Messenger ι) : List ChunkId := s.worker.manager.channel.freeChunks

/-- The handler gives chunks to the other cluster. -/
theorem TxWorker.channel_step {w w' : TxWorker} {a : TxAction} (h : w.step a = some w') :
    w'.manager.channel = w.manager.channel := by
  obtain ⟨handled, hmanager, _⟩ := pending_step h
  rw [hmanager, MemoryManager.foldl_returnChannel]

/-- All that an action can do to the transmit pool: a send of at least one byte takes
chunks from its back, and nothing else changes it. -/
theorem Messenger.txPool_step {s t : Messenger ι} {a : Action ι} (h : s.step a = some t) :
    (¬a.SendsBytes ∧ t.txPool = s.txPool) ∨
      (a.SendsBytes ∧ ∃ n < s.txPool.length, t.txPool = s.txPool.take n) := by
  cases a with
  | receive a =>
    obtain ⟨rx, _, rfl⟩ := Option.map_eq_some_iff.mp h
    exact .inl ⟨id, rfl⟩
  | send bl fails =>
    obtain ⟨out, hout, rfl⟩ := Option.map_eq_some_iff.mp h
    obtain ⟨_, _, ⟨hzero, hchannel⟩ | ⟨hbytes, hpos, hle, hchannel⟩⟩ := send_cases hout
    · exact .inl ⟨fun hne => hne hzero, congrArg Cluster.freeChunks hchannel⟩
    · refine .inr ⟨hbytes, _, ?_, congrArg Cluster.freeChunks hchannel⟩
      simp only [txPool]
      omega
  | complete k status =>
    obtain ⟨wr, _, hmap⟩ := Option.bind_eq_some_iff.mp h
    obtain ⟨worker, hworker, rfl⟩ := Option.map_eq_some_iff.mp hmap
    exact .inl ⟨id, congrArg Cluster.freeChunks (TxWorker.channel_step hworker)⟩
  | txMiss =>
    obtain ⟨worker, hworker, rfl⟩ := Option.map_eq_some_iff.mp h
    exact .inl ⟨id, congrArg Cluster.freeChunks (TxWorker.channel_step hworker)⟩
  | txEnter =>
    obtain ⟨worker, hworker, rfl⟩ := Option.map_eq_some_iff.mp h
    exact .inl ⟨id, congrArg Cluster.freeChunks (TxWorker.channel_step hworker)⟩
  | txAdvance n =>
    obtain ⟨worker, hworker, rfl⟩ := Option.map_eq_some_iff.mp h
    exact .inl ⟨id, congrArg Cluster.freeChunks (TxWorker.channel_step hworker)⟩

omit [DecidableEq ι] in
/-- After start-up the transmit pool has distinct chunks and nothing is outstanding. -/
theorem Messenger.startUp_spec {host : Host} {size rxNum txNum : UInt32} {accepted : ℕ}
    {s : Messenger ι} (h : Messenger.startUp host size rxNum txNum accepted = some s) :
    s.txPool.Nodup ∧ s.inflight = [] ∧ s.refused = [] ∧ s.worker.pending = [] := by
  obtain ⟨pool, manager, hreg, _, _, _, hnodup⟩ :=
    MemoryManager.registerRxTx_spec host size rxNum txNum
  rw [Messenger.startUp, hreg, Option.map_some, Option.some.injEq] at h
  subst h
  exact ⟨(List.nodup_append.mp hnodup).1, rfl, rfl, rfl⟩

/-- **The transmit pool.** In every state of every run, whatever has completed and
been handled, the transmit pool holds the chunks it held at start-up exactly when the
run has sent no byte. -/
theorem txPool_intact_iff {host : Host} {size rxNum txNum : UInt32} {accepted : ℕ}
    {start s : Messenger ι} {acts : List (Action ι)}
    (hstart : Messenger.startUp host size rxNum txNum accepted = some start)
    (hrun : exec Messenger.step start acts = some s) :
    (∀ c, c ∈ s.txPool ↔ c ∈ start.txPool) ↔ ∀ a ∈ acts, ¬a.SendsBytes := by
  obtain ⟨hnodup, _⟩ := Messenger.startUp_spec hstart
  have hsub : s.txPool <+: start.txPool := by
    refine invariant_of_exec (fun s => s.txPool <+: start.txPool) ?_ List.prefix_rfl hrun
    intro s a t hs hstep
    rcases Messenger.txPool_step hstep with ⟨_, heq⟩ | ⟨_, n, _, heq⟩
    · rwa [heq]
    · rw [heq]
      exact (List.take_prefix n _).trans hs
  have hlength : (∀ c, c ∈ s.txPool ↔ c ∈ start.txPool) ↔
      s.txPool.length = start.txPool.length := by
    constructor
    · intro hsame
      exact ((List.perm_ext_iff_of_nodup (hsub.sublist.nodup hnodup) hnodup).mpr
        hsame).length_eq
    · intro heq c
      rw [hsub.eq_of_length heq]
  rw [hlength, ← meets_iff_forall hrun]
  refine amount_eq_iff_meets (fun _ => True) (fun _ => True) (fun s => s.txPool.length) ?_ ?_ ?_
    trivial trivial hrun
  · intro s a t _ hstep
    refine ⟨trivial, ?_⟩
    rcases Messenger.txPool_step hstep with ⟨_, heq⟩ | ⟨_, n, hn, heq⟩
    · rw [heq]
    · rw [heq, List.length_take]
      exact min_le_right _ _
  · intro s a t _ _ hnone hstep
    refine ⟨trivial, ?_⟩
    rcases Messenger.txPool_step hstep with ⟨_, heq⟩ | ⟨hsends, _⟩
    · rw [heq]
    · exact absurd hsends hnone
  · intro s a t _ _ hsends hstep
    rcases Messenger.txPool_step hstep with ⟨hnone, _⟩ | ⟨_, n, hn, heq⟩
    · exact absurd hnone hsends
    · rw [heq, List.length_take]
      omega

/-- One byte is sent, its completion arrives and is handled. -/
def sendAndHandle : List (Action Unit) :=
  [.send [[7]] none, .complete 0 .success, .txEnter, .txAdvance 1, .txAdvance 0, .txAdvance 0,
    .txAdvance 0, .txAdvance 0, .txAdvance 0]

/-- Nothing outstanding, nothing pending and no handler running. -/
def Messenger.Quiet (s : Messenger ι) : Prop :=
  s.inflight.length = 0 ∧ s.worker.control = ⟨⟨[], s.worker.control.queue.armed, 0⟩, .idle⟩

/-- Without sends the pool is intact: a message is received while the handler has
nothing to do. -/
theorem txPool_intact_without_sends :
    ∃ start s : Messenger Unit, Messenger.startUp plainHost 8192 256 256 256 = some start ∧
      exec Messenger.step start [.receive (.arrive () 0 [1]), .txMiss] = some s ∧
      ∀ c, c ∈ s.txPool ↔ c ∈ start.txPool := by
  have hrun : ((Messenger.startUp (ι := Unit) plainHost 8192 256 256 256).bind fun start =>
      exec Messenger.step start [.receive (.arrive () 0 [1]), .txMiss]).isSome := by decide +kernel
  obtain ⟨s, hs⟩ := Option.isSome_iff_exists.mp hrun
  obtain ⟨start, hstart, hexec⟩ := Option.bind_eq_some_iff.mp hs
  refine ⟨start, s, hstart, hexec, (txPool_intact_iff hstart hexec).mpr ?_⟩
  intro a ha
  simp only [List.mem_cons, List.not_mem_nil, or_false] at ha
  rcases ha with rfl | rfl <;> exact id

/-- A single send consumes the pool: when it has completed and been handled, its chunk
is missing from the pool it was taken from. -/
theorem txPool_consumed_by_send :
    ∃ start s : Messenger Unit, Messenger.startUp plainHost 8192 256 256 0 = some start ∧
      exec Messenger.step start sendAndHandle = some s ∧ s.Quiet ∧
      255 ∈ start.txPool ∧ 255 ∉ s.txPool := by
  have hpool : ∀ start ∈ Messenger.startUp (ι := Unit) plainHost 8192 256 256 0,
      255 ∈ start.txPool := by decide +kernel
  have hrun : ((Messenger.startUp (ι := Unit) plainHost 8192 256 256 0).bind fun start =>
      exec Messenger.step start sendAndHandle).map
        (fun s => (s.inflight.length, s.worker.control, decide (255 ∈ s.txPool))) =
        some (0, ⟨⟨[], true, 0⟩, .idle⟩, false) := by decide +kernel
  obtain ⟨s, hs, hobserved⟩ := Option.map_eq_some_iff.mp hrun
  obtain ⟨start, hstart, hexec⟩ := Option.bind_eq_some_iff.mp hs
  obtain ⟨hinflight, hrest⟩ := Prod.mk.inj hobserved
  obtain ⟨hcontrol, hmissing⟩ := Prod.mk.inj hrest
  exact ⟨start, s, hstart, hexec, ⟨hinflight, by rw [hcontrol]⟩, hpool start hstart,
    of_decide_eq_false hmissing⟩

end RdmaTransport
