import RdmaTransport.FreeChunks
import RdmaTransport.Ownership
import RdmaTransport.ReceiveStream

/-!
# The bytes between two machines

Two messengers are connected by any number of reliable connections. A `send` on one side
fills chunks and posts work requests. The adapter transmits these in the order of a
connection, at any later time, and reads the memory of the chunk only then; the message is
stored in a chunk posted on the other side, whose sockets read. Both machines send and
receive. Nothing in the program keeps the memory of an outstanding request from being
written to, so that the conditions under which the bytes read are the bytes sent concern
the sends and the reads of both sides.
-/

namespace RdmaTransport

open DrainLoop Memory Runs

/-- The bytes a work request refers to. -/
def SendWr.bytes (chunk : ChunkId → Chunk) (wr : SendWr) : List UInt8 :=
  (chunk wr.wrId).buffer.take wr.length

/-- Two machines. Socket `i` of one is connected to socket `i` of the other. -/
structure Network (ι : Type*) where
  /-- The two machines. -/
  machine : Bool → Messenger ι
  /-- The accepted work requests of a connection that were not transmitted, in order. -/
  wire : Bool → ι → List SendWr
  /-- Record: the bytes that were sent on a connection. -/
  sent : Bool → ι → List UInt8

/-- What can happen between the machines. -/
inductive NetworkAction (ι : Type*)
  /-- Machine `x` sends a bufferlist on connection `i`. -/
  | send (x : Bool) (i : ι) (bl : List (List UInt8)) (fails : Option ℕ)
  /-- The next work request of machine `x` on connection `i` is transmitted. The message is
  stored in the `k`-th chunk posted by the other machine. -/
  | transmit (x : Bool) (i : ι) (k : ℕ)
  /-- Machine `x` reads, or a send of it completes, or it handles completions. -/
  | own (x : Bool) (a : Action ι)

variable {ι : Type*} [DecidableEq ι]

/-- The action concerns its machine only. -/
def Action.Own : Action ι → Prop
  | .send .. | .receive (.arrive ..) => False
  | _ => True

instance : ∀ a : Action ι, Decidable a.Own
  | .send .. | .receive (.arrive ..) => inferInstanceAs (Decidable False)
  | .receive (.readEnter ..) | .receive (.readAdvance ..) | .complete .. | .txMiss | .txEnter
  | .txAdvance _ => inferInstanceAs (Decidable True)

/-- Replace the state of one machine. -/
def Network.setMachine (s : Network ι) (x : Bool) (m : Messenger ι) : Network ι :=
  { s with machine := Function.update s.machine x m }

/-- `send` on a connection: the accepted work requests are left to the adapter. -/
def Network.send (s : Network ι) (x : Bool) (i : ι) (bl : List (List UInt8)) (fails : Option ℕ) :
    Option (Network ι) :=
  (RdmaTransport.send (s.machine x).rx.store.chunk (s.machine x).worker.manager bl fails).bind
    fun out => ((s.machine x).send bl fails).map fun m =>
      { s.setMachine x m with
        wire := Function.update s.wire x
          (Function.update (s.wire x) i (s.wire x i ++ out.accepted))
        sent := Function.update s.sent x
          (Function.update (s.sent x) i
            (s.sent x i ++ if out.result = -1 then [] else bl.flatten)) }

/-- The adapter reads the memory of the oldest work request and the message arrives. -/
def Network.transmit (s : Network ι) (x : Bool) (i : ι) (k : ℕ) : Option (Network ι) :=
  match s.wire x i with
  | [] => none
  | wr :: rest =>
      ((s.machine !x).rx.arrive i k (wr.bytes (s.machine x).rx.store.chunk)).map fun rx =>
        { s.setMachine (!x) { s.machine !x with rx } with
          wire := Function.update s.wire x (Function.update (s.wire x) i rest) }

/-- One action. -/
def Network.step (s : Network ι) : NetworkAction ι → Option (Network ι)
  | .send x i bl fails => s.send x i bl fails
  | .transmit x i k => s.transmit x i k
  | .own x a => if a.Own then ((s.machine x).step a).map (s.setMachine x) else none

/-- Two machines after start-up, with their connections. -/
def Network.start (machine : Bool → Messenger ι) : Network ι :=
  ⟨machine, fun _ _ => [], fun _ _ => []⟩

/-- The condition on a step. A send has bytes, its work requests are accepted, and the
chunks it is given are at their beginning and not needed by the receive side. A `read`
takes only undelivered payload from the chunks kept. -/
def Network.GoesWell (s : Network ι) : NetworkAction ι → Prop
  | .send x _ bl fails =>
      fails = none ∧ totalLength bl ≠ 0 ∧
        ∀ c ∈ (s.machine x).worker.manager.channel.nextChunks (totalLength bl),
          ¬(s.machine x).rx.Holds c ∧ ((s.machine x).rx.store.chunk c).offset = 0
  | .own x (.receive a) => (s.machine x).rx.ReadFits a
  | _ => True

instance [Fintype ι] (s : Network ι) : ∀ a, Decidable (s.GoesWell a)
  | .send x _ bl fails => inferInstanceAs (Decidable (fails = none ∧ totalLength bl ≠ 0 ∧
      ∀ c ∈ (s.machine x).worker.manager.channel.nextChunks (totalLength bl),
        ¬(s.machine x).rx.Holds c ∧ ((s.machine x).rx.store.chunk c).offset = 0))
  | .own x (.receive a) => inferInstanceAs (Decidable ((s.machine x).rx.ReadFits a))
  | .transmit .. | .own _ (.send ..) | .own _ (.complete ..) | .own _ .txMiss | .own _ .txEnter
  | .own _ (.txAdvance _) => inferInstanceAs (Decidable True)

section Machine

variable {s t : Messenger ι}

omit [DecidableEq ι] in
/-- Writing to chunks that the receive side does not need keeps its ownership invariant. -/
theorem RxState.Sound.of_writesOnly {rx : RxState ι} (h : rx.Sound) {chunk : ChunkId → Chunk}
    {touched : List ChunkId} (hwrites : WritesOnly rx.store.chunk chunk touched)
    (hfree : ∀ c ∈ touched, ¬rx.Holds c) :
    (⟨⟨chunk, rx.store.message, rx.store.copied⟩, rx.srq, rx.sock⟩ : RxState ι).Sound := by
  have hframe : ∀ c, rx.Holds c → chunk c = rx.store.chunk c := fun c hc =>
    hwrites.frame c fun hmem => hfree c hmem hc
  refine ⟨hwrites.valid h.valid, fun c => ?_, h.srq_nodup, fun c hc => ?_, h.chunks_nodup,
    h.chunks_disjoint, h.srq_disjoint, h.rx_sublist, fun i wc hwc => ?_, h.buf_length, h.read_le⟩
  · rw [hwrites.bytes_eq]
    exact h.message_le c
  · change (chunk c).offset = 0
    rw [hframe c (.inl hc)]
    exact h.srq_offset c hc
  · have hfresh := h.pending_fresh i wc hwc
    refine ⟨?_, hfresh.copied_eq, hfresh.message_eq, hfresh.status_eq⟩
    change (chunk wc.wrId).offset = 0
    rw [hframe wc.wrId (.inr ⟨i, .inl (List.mem_map_of_mem hwc)⟩)]
    exact hfresh.offset_eq

omit [DecidableEq ι] in
/-- It also keeps the stream invariant: a kept chunk that is written to has been delivered. -/
theorem RxState.Streams.of_writesOnly {rx : RxState ι} (h : rx.Streams) (hsound : rx.Sound)
    {chunk : ChunkId → Chunk} {touched : List ChunkId}
    (hwrites : WritesOnly rx.store.chunk chunk touched) (hfree : ∀ c ∈ touched, ¬rx.Holds c) :
    (⟨⟨chunk, rx.store.message, rx.store.copied⟩, rx.srq, rx.sock⟩ : RxState ι).Streams := by
  intro i
  have hrest : ∀ c ∈ (rx.sock i).rxBuffers,
      (⟨chunk, rx.store.message, rx.store.copied⟩ : ChunkStore).rest c = rx.store.rest c ∧
        (rx.store.Tracked c →
          (⟨chunk, rx.store.message, rx.store.copied⟩ : ChunkStore).Tracked c) := by
    intro c hc
    by_cases hspent : rx.store.Spent c
    · exact ⟨(if_pos hspent).trans (if_pos hspent).symm, fun _ => .inl hspent⟩
    · have hheld : rx.Holds c := .inr ⟨i, .inr ⟨(hsound.rx_sublist i).subset hc, hspent⟩⟩
      have hchunk : chunk c = rx.store.chunk c :=
        hwrites.frame c fun hmem => hfree c hmem hheld
      simp only [ChunkStore.rest, ChunkStore.Tracked, ChunkStore.Spent, hchunk]
      exact ⟨rfl, id⟩
  have hpayload : ∀ wc ∈ (rx.sock i).pending,
      (⟨chunk, rx.store.message, rx.store.copied⟩ : ChunkStore).payload wc =
        rx.store.payload wc := by
    intro wc hwc
    have hheld : rx.Holds wc.wrId := .inr ⟨i, .inl (List.mem_map_of_mem hwc)⟩
    have hchunk : chunk wc.wrId = rx.store.chunk wc.wrId :=
      hwrites.frame wc.wrId fun hmem => hfree _ hmem hheld
    simp only [ChunkStore.payload, hchunk]
  refine ⟨fun c hc => (hrest c hc).2 ((h i).tracked c hc), ?_, fun hread c hc => ?_, (h i).idle⟩
  · rw [List.flatMap_congr fun c hc => (hrest c hc).1, List.flatMap_congr hpayload]
    exact (h i).stream
  · rw [(hrest c hc).1]
    exact (h i).short hread c hc

/-- The chunks `get_buffers` would hand out are free ones. -/
theorem Cluster.nextChunks_subset {cluster : Cluster} {bytes : ℕ} :
    cluster.nextChunks bytes ⊆ cluster.freeChunks := by
  intro c hc
  unfold Cluster.nextChunks at hc
  split_ifs at hc
  · exact hc
  · exact List.mem_reverse.mp (List.mem_of_mem_take hc)

/-- When the whole chain is accepted, there is one work request for each chunk. -/
theorem accepted_of_send {chunk : ChunkId → Chunk} {manager : MemoryManager}
    {bl : List (List UInt8)} {out : SendOutcome} (h : send chunk manager bl none = some out) :
    out.accepted = (manager.channel.nextChunks (totalLength bl)).map (sendWr out.chunk) ∧
      out.result ≠ -1 := by
  obtain ⟨hnext, _⟩ := send_cases h
  obtain ⟨⟨tx, manager'⟩, _, hrest⟩ := Option.bind_eq_some_iff.mp h
  obtain ⟨chunk', _, hpost⟩ := Option.bind_eq_some_iff.mp hrest
  dsimp only at hpost
  split_ifs at hpost
  obtain rfl := Option.some.inj hpost
  simp only [List.append_nil, List.map_map] at hnext
  have hids : tx.map (SendWr.wrId ∘ sendWr chunk') = tx := List.map_id tx
  rw [hids] at hnext
  exact ⟨by rw [hnext], by simp⟩

/-- A chunk given to a send is no longer free. -/
theorem not_mem_freeChunks_of_send {chunk : ChunkId → Chunk} {manager : MemoryManager}
    {bl : List (List UInt8)} {fails : Option ℕ} {out : SendOutcome}
    (h : send chunk manager bl fails = some out) (hbytes : totalLength bl ≠ 0)
    (hnodup : manager.channel.freeChunks.Nodup) {c : ChunkId}
    (hc : c ∈ manager.channel.nextChunks (totalLength bl)) :
    c ∉ out.manager.channel.freeChunks := by
  obtain ⟨_, _, ⟨hzero, _⟩ | ⟨_, _, _, hchannel⟩⟩ := send_cases h
  · exact absurd hzero hbytes
  rw [Cluster.nextChunks, if_neg hbytes, List.take_reverse, List.mem_reverse] at hc
  rw [hchannel]
  rw [← List.take_append_drop (manager.channel.freeChunks.length -
    manager.channel.chunkCount (totalLength bl)) manager.channel.freeChunks] at hnodup
  exact fun hfree => (List.nodup_append.mp hnodup).2.2 c hfree c hc rfl

omit [DecidableEq ι] in
/-- The work requests of a send refer to the bytes of the bufferlist, if the chunks it is
given are at their beginning. -/
theorem Messenger.Regular.send_bytes (h : s.Regular) {bl : List (List UInt8)} {out : SendOutcome}
    (hout : RdmaTransport.send s.rx.store.chunk s.worker.manager bl none = some out)
    (hbytes : totalLength bl ≠ 0)
    (hclean : ∀ c ∈ s.worker.manager.channel.nextChunks (totalLength bl),
      (s.rx.store.chunk c).offset = 0) :
    out.accepted.flatMap (SendWr.bytes out.chunk) = bl.flatten := by
  have hsize := chunkSize_pos_of_send hout hbytes
  have hcopy := copyBuffers_of_send hout
  obtain ⟨hchain, _⟩ := accepted_of_send hout
  generalize htx : s.worker.manager.channel.nextChunks (totalLength bl) = tx at hclean hcopy hchain
  have hsub : ∀ c ∈ tx, c ∈ s.txPool := by
    intro c hc
    exact Cluster.nextChunks_subset (htx ▸ hc)
  rw [Cluster.nextChunks, if_neg hbytes] at htx
  have hpacking : Packing s.worker.manager.channel.chunkSize s.rx.store.chunk tx := by
    refine ⟨?_, fun c _ => h.valid c, fun c hc => h.pool_bytes c (hsub c hc), ?_, ?_⟩
    · rw [← htx]
      exact (List.take_sublist _ _).nodup (List.nodup_reverse.mpr h.pool_nodup)
    · intro c hc
      rw [hclean c (List.mem_of_mem_head? hc)]
      exact hsize
    · exact fun c hc => hclean c (List.mem_of_mem_tail hc)
  rcases hpacking.copyBuffers_cases hsize bl with ⟨chunk', rest, hsome, hpacks⟩ | ⟨hnone, _⟩
  · obtain rfl : out.chunk = chunk' := Option.some.inj (hcopy.symm.trans hsome)
    have hempty : content s.rx.store.chunk tx = [] := content_eq_nil hclean
    have hcontent := (sendWr_of_valid hpacks.valid).2
    rw [hpacks.content_eq, hempty, List.nil_append] at hcontent
    rw [hchain]
    exact hcontent
  · rw [hnone] at hcopy
    cases hcopy

/-- The payloads an action brings to a socket. -/
def Action.arrivals (i : ι) : Action ι → List (List UInt8)
  | .receive (.arrive j _ payload) => if j = i then [payload] else []
  | _ => []

/-- The payloads received grow by the messages that arrive. -/
theorem Messenger.payloads_step {a : Action ι} (h : s.step a = some t) (i : ι) :
    (t.rx.sock i).payloads = (s.rx.sock i).payloads ++ a.arrivals i := by
  have hmove : ∀ {rx : RxState ι} {j : ι}, s.rx.SockMove rx j →
      (rx.sock i).payloads = (s.rx.sock i).payloads := by
    intro rx j hmove
    by_cases hi : i = j
    · rw [hi, hmove.payloads_eq]
    · rw [hmove.others i hi]
  cases a with
  | receive a =>
    obtain ⟨rx, hrx, rfl⟩ := Option.map_eq_some_iff.mp h
    cases a with
    | arrive j k payload =>
      obtain ⟨c, hc⟩ := RxState.arrive_cases hrx
      by_cases hi : j = i
      · subst hi
        simp [Action.arrivals, hc.sock_eq]
      · simp [Action.arrivals, hi, hc.others i fun heq => hi heq.symm]
    | readEnter j len =>
      exact (hmove (RxState.sockMove_readEnter hrx)).trans (List.append_nil _).symm
    | readAdvance j n =>
      exact (hmove (RxState.sockMove_readAdvance hrx)).trans (List.append_nil _).symm
  | send bl fails =>
    obtain ⟨out, _, rfl⟩ := Option.map_eq_some_iff.mp h
    exact (List.append_nil _).symm
  | complete k status =>
    obtain ⟨wr, _, hmap⟩ := Option.bind_eq_some_iff.mp h
    obtain ⟨worker, _, rfl⟩ := Option.map_eq_some_iff.mp hmap
    exact (List.append_nil _).symm
  | txMiss | txEnter | txAdvance _ =>
    obtain ⟨worker, _, rfl⟩ := Option.map_eq_some_iff.mp h
    exact (List.append_nil _).symm

/-- No chunk is posted or becomes free for sending, and the memory of a chunk that is
neither is not written to. -/
structure Messenger.Spares (s t : Messenger ι) : Prop where
  /-- Nothing is posted. -/
  srq_subset : t.rx.srq ⊆ s.rx.srq
  /-- Nothing becomes free for sending. -/
  pool_subset : t.txPool ⊆ s.txPool
  /-- The memory of other chunks stays. -/
  buffer_eq : ∀ c, c ∉ s.rx.srq → c ∉ s.txPool →
    (t.rx.store.chunk c).buffer = (s.rx.store.chunk c).buffer

omit [DecidableEq ι] in
/-- Nothing happens. -/
theorem Messenger.Spares.refl (s : Messenger ι) : s.Spares s :=
  ⟨List.Subset.refl _, List.Subset.refl _, fun _ _ _ => rfl⟩

/-- Every step of a machine spares the chunks that are neither posted nor free: a message
is stored in a posted chunk, and `send` writes to free ones. -/
theorem Messenger.spares_step {a : Action ι} (h : s.step a = some t) : s.Spares t := by
  have hpool : t.txPool ⊆ s.txPool := by
    rcases Messenger.txPool_step h with ⟨_, heq⟩ | ⟨_, n, _, heq⟩
    · rw [heq]
      exact List.Subset.refl _
    · rw [heq]
      exact List.take_subset n _
  have hmove : ∀ {rx : RxState ι} {j : ι}, s.rx.SockMove rx j → rx.srq ⊆ s.rx.srq ∧
      ∀ c, (rx.store.chunk c).buffer = (s.rx.store.chunk c).buffer := by
    intro rx j hmove
    obtain ⟨_, hreads⟩ := hmove.reads_only
    exact ⟨hmove.srq_eq ▸ List.Subset.refl _, hreads.buffer_eq⟩
  cases a with
  | receive a =>
    obtain ⟨rx, hrx, rfl⟩ := Option.map_eq_some_iff.mp h
    cases a with
    | arrive j k payload =>
      obtain ⟨c, hc⟩ := RxState.arrive_cases hrx
      obtain ⟨k', hk, hsrq⟩ := hc.srq_eq
      refine ⟨?_, hpool, fun d hd _ => ?_⟩
      · dsimp only
        rw [hsrq]
        exact List.eraseIdx_subset
      · have hne : d ≠ c := fun heq => hd (heq ▸ List.mem_of_getElem? hk)
        dsimp only
        rw [hc.store_eq, (s.rx.store.fill_of_ne payload hne).1]
    | readEnter j len =>
      obtain ⟨hsrq, hbuffer⟩ := hmove (RxState.sockMove_readEnter hrx)
      exact ⟨hsrq, hpool, fun c _ _ => hbuffer c⟩
    | readAdvance j n =>
      obtain ⟨hsrq, hbuffer⟩ := hmove (RxState.sockMove_readAdvance hrx)
      exact ⟨hsrq, hpool, fun c _ _ => hbuffer c⟩
  | send bl fails =>
    obtain ⟨out, hout, rfl⟩ := Option.map_eq_some_iff.mp h
    have hwrites := copyBuffers_writesOnly (copyBuffers_of_send hout)
    refine ⟨List.Subset.refl _, hpool, fun c _ hc => ?_⟩
    dsimp only
    rw [hwrites.frame c fun hnext => hc (Cluster.nextChunks_subset hnext)]
  | complete k status =>
    obtain ⟨wr, _, hmap⟩ := Option.bind_eq_some_iff.mp h
    obtain ⟨worker, _, rfl⟩ := Option.map_eq_some_iff.mp hmap
    exact ⟨List.Subset.refl _, hpool, fun _ _ _ => rfl⟩
  | txMiss | txEnter | txAdvance _ =>
    obtain ⟨worker, _, rfl⟩ := Option.map_eq_some_iff.mp h
    exact ⟨List.Subset.refl _, hpool, fun _ _ _ => rfl⟩

/-- What holds of a machine in the runs considered. -/
structure Messenger.InOrder (s : Messenger ι) : Prop where
  /-- The free lists are in order. -/
  regular : s.Regular
  /-- The chunks of the receive side are. -/
  sound : s.rx.Sound
  /-- The sockets return what they received. -/
  streams : s.rx.Streams

/-- A step keeps a machine in order if a `read` takes only undelivered payload and a `send`
is given only chunks that are not needed. -/
theorem Messenger.InOrder.step {a : Action ι} (h : s.InOrder)
    (hread : ∀ a', a = .receive a' → s.rx.ReadFits a') (hsend : s.TakesUnheld a)
    (hstep : s.step a = some t) : t.InOrder := by
  have hregular := h.regular.step hstep
  cases a with
  | receive a =>
    obtain ⟨rx, hrx, rfl⟩ := Option.map_eq_some_iff.mp hstep
    exact ⟨hregular, h.sound.step hrx, h.streams.step h.sound (hread a rfl) hrx⟩
  | send bl fails =>
    obtain ⟨out, hout, rfl⟩ := Option.map_eq_some_iff.mp hstep
    have hwrites := copyBuffers_writesOnly (copyBuffers_of_send hout)
    exact ⟨hregular, h.sound.of_writesOnly hwrites hsend,
      h.streams.of_writesOnly h.sound hwrites hsend⟩
  | complete k status =>
    obtain ⟨wr, _, hmap⟩ := Option.bind_eq_some_iff.mp hstep
    obtain ⟨worker, _, rfl⟩ := Option.map_eq_some_iff.mp hmap
    exact ⟨hregular, h.sound, h.streams⟩
  | txMiss | txEnter | txAdvance _ =>
    obtain ⟨worker, _, rfl⟩ := Option.map_eq_some_iff.mp hstep
    exact ⟨hregular, h.sound, h.streams⟩

end Machine

namespace Network

variable {s t : Network ι} {x : Bool}

/-- What machine `x` has sent on its connections is what the other machine received, followed
by what the outstanding work requests refer to. The chunks of these are out of reach: they
are neither posted nor free. -/
structure Carries (s : Network ι) (x : Bool) : Prop where
  /-- The chunks of outstanding work requests are not posted and not free. -/
  apart : ∀ i, ∀ wr ∈ s.wire x i, wr.wrId ∉ (s.machine x).rx.srq ∧ wr.wrId ∉ (s.machine x).txPool
  /-- No byte is lost, repeated or moved. -/
  stream : ∀ i, ((s.machine !x).rx.sock i).payloads.flatten ++
    (s.wire x i).flatMap (SendWr.bytes (s.machine x).rx.store.chunk) = s.sent x i

/-- How the work requests of a connection move on: some are transmitted, some are posted. -/
structure Advances (s t : Network ι) (x : Bool) (i : ι) (gone kept new : List SendWr) : Prop where
  /-- The oldest ones are transmitted. -/
  wire_before : s.wire x i = gone ++ kept
  /-- New ones join the end. -/
  wire_after : t.wire x i = kept ++ new
  /-- The other machine receives what those transmitted refer to. -/
  payloads_eq : ((t.machine !x).rx.sock i).payloads = ((s.machine !x).rx.sock i).payloads ++
    gone.map (SendWr.bytes (s.machine x).rx.store.chunk)
  /-- The chunks of the new ones are out of reach. -/
  apart : ∀ wr ∈ new, wr.wrId ∉ (t.machine x).rx.srq ∧ wr.wrId ∉ (t.machine x).txPool
  /-- The new ones refer to what was sent. -/
  sent_eq : t.sent x i = s.sent x i ++ new.flatMap (SendWr.bytes (t.machine x).rx.store.chunk)

omit [DecidableEq ι] in
/-- A connection on which nothing happens. -/
theorem Advances.still {i : ι} (hwire : t.wire x i = s.wire x i) (hsent : t.sent x i = s.sent x i)
    (hpayloads : ((t.machine !x).rx.sock i).payloads = ((s.machine !x).rx.sock i).payloads) :
    s.Advances t x i [] (s.wire x i) [] :=
  ⟨rfl, by rw [hwire, List.append_nil], by rw [hpayloads, List.map_nil, List.append_nil], by simp,
    by rw [hsent, List.flatMap_nil, List.append_nil]⟩

omit [DecidableEq ι] in
/-- Work requests that move on keep the stream, as the memory of the outstanding ones is not
written to. -/
theorem Carries.of_advances (h : s.Carries x) (hspares : (s.machine x).Spares (t.machine x))
    (hmoves : ∀ i, ∃ gone kept new, s.Advances t x i gone kept new) : t.Carries x := by
  have hbytes : ∀ i, ∀ wr ∈ s.wire x i, wr.bytes (t.machine x).rx.store.chunk =
      wr.bytes (s.machine x).rx.store.chunk := by
    intro i wr hwr
    obtain ⟨hsrq, hpool⟩ := h.apart i wr hwr
    rw [SendWr.bytes, SendWr.bytes, hspares.buffer_eq _ hsrq hpool]
  constructor
  · intro i wr hwr
    obtain ⟨gone, kept, new, hadvances⟩ := hmoves i
    rw [hadvances.wire_after] at hwr
    rcases List.mem_append.mp hwr with hkept | hnew
    · have hmem : wr ∈ s.wire x i := by
        rw [hadvances.wire_before]
        exact List.mem_append_right _ hkept
      obtain ⟨hsrq, hpool⟩ := h.apart i wr hmem
      exact ⟨fun hc => hsrq (hspares.srq_subset hc), fun hc => hpool (hspares.pool_subset hc)⟩
    · exact hadvances.apart wr hnew
  · intro i
    obtain ⟨gone, kept, new, hadvances⟩ := hmoves i
    have hkept : kept.flatMap (SendWr.bytes (t.machine x).rx.store.chunk) =
        kept.flatMap (SendWr.bytes (s.machine x).rx.store.chunk) := by
      apply List.flatMap_congr
      intro wr hwr
      apply hbytes i
      rw [hadvances.wire_before]
      exact List.mem_append_right _ hwr
    rw [hadvances.payloads_eq, hadvances.wire_after, hadvances.sent_eq, ← h.stream i,
      hadvances.wire_before, List.flatten_append, List.flatMap_append, List.flatMap_append, hkept,
      ← List.flatMap_def]
    simp only [List.append_assoc]

/-- The invariant of the network. -/
structure InOrder (s : Network ι) : Prop where
  /-- Both machines are in order. -/
  machines : ∀ x, (s.machine x).InOrder
  /-- Both directions carry what is sent. -/
  carries : ∀ x, s.Carries x

/-- A step of one machine keeps both of them in order. -/
theorem InOrder.machine_step (h : s.InOrder) {y : Bool} {a : Action ι} {m : Messenger ι}
    (hstep : (s.machine y).step a = some m) (hmachine : t.machine = Function.update s.machine y m)
    (hread : ∀ a', a = .receive a' → (s.machine y).rx.ReadFits a')
    (hsend : (s.machine y).TakesUnheld a) (x : Bool) :
    (t.machine x).InOrder ∧ (s.machine x).Spares (t.machine x) ∧
      ∀ i, ((t.machine x).rx.sock i).payloads =
        ((s.machine x).rx.sock i).payloads ++ if x = y then a.arrivals i else [] := by
  rw [hmachine]
  by_cases hx : x = y
  · subst hx
    rw [Function.update_self]
    refine ⟨(h.machines x).step hread hsend hstep, Messenger.spares_step hstep, fun i => ?_⟩
    rw [if_pos rfl]
    exact Messenger.payloads_step hstep i
  · rw [Function.update_of_ne hx]
    refine ⟨h.machines x, .refl _, fun i => ?_⟩
    rw [if_neg hx, List.append_nil]

/-- An action inside one machine keeps the invariant. -/
theorem InOrder.own (h : s.InOrder) {y : Bool} {a : Action ι} (hgood : s.GoesWell (.own y a))
    (hstep : s.step (.own y a) = some t) : t.InOrder := by
  simp only [Network.step] at hstep
  split_ifs at hstep with hown
  obtain ⟨m, hm, rfl⟩ := Option.map_eq_some_iff.mp hstep
  have hmachine : (s.setMachine y m).machine = Function.update s.machine y m := rfl
  have hread : ∀ a', a = .receive a' → (s.machine y).rx.ReadFits a' := by
    rintro a' rfl
    exact hgood
  have hsend : (s.machine y).TakesUnheld a := by
    cases a with
    | send bl fails => exact hown.elim
    | receive _ | complete _ _ | txMiss | txEnter | txAdvance _ => trivial
  have hnone : ∀ i, a.arrivals i = [] := by
    intro i
    cases a with
    | receive a =>
      cases a with
      | arrive j k payload => exact hown.elim
      | readEnter j len | readAdvance j n => rfl
    | send _ _ | complete _ _ | txMiss | txEnter | txAdvance _ => rfl
  have hmachines := h.machine_step hm hmachine hread hsend
  refine ⟨fun x => (hmachines x).1, fun x => ?_⟩
  refine (h.carries x).of_advances (hmachines x).2.1 fun i => ⟨_, _, _, .still rfl rfl ?_⟩
  rw [(hmachines !x).2.2 i, hnone i, ite_self, List.append_nil]

/-- A send keeps the invariant: its work requests refer to the bufferlist, and their chunks
leave the free list. -/
theorem InOrder.send (h : s.InOrder) {y : Bool} {i : ι} {bl : List (List UInt8)}
    {fails : Option ℕ} (hgood : s.GoesWell (.send y i bl fails))
    (hstep : s.send y i bl fails = some t) : t.InOrder := by
  obtain ⟨rfl, hbytes, hnext⟩ := hgood
  obtain ⟨out, hout, hmap⟩ := Option.bind_eq_some_iff.mp hstep
  obtain ⟨m, hm, ht⟩ := Option.map_eq_some_iff.mp hmap
  have hmachine : t.machine = Function.update s.machine y m := by rw [← ht]; rfl
  have hwire : t.wire = Function.update s.wire y
      (Function.update (s.wire y) i (s.wire y i ++ out.accepted)) := by rw [← ht]
  obtain ⟨hchain, hresult⟩ := accepted_of_send hout
  have hsent : t.sent = Function.update s.sent y
      (Function.update (s.sent y) i (s.sent y i ++ bl.flatten)) := by
    rw [← ht]
    simp only [if_neg hresult]
  have hunheld : (s.machine y).TakesUnheld (.send bl none) := fun c hc => (hnext c hc).1
  have hmachine_step : (s.machine y).step (.send bl none) = some m := hm
  have hmachines := h.machine_step hmachine_step hmachine (fun a' heq => by cases heq) hunheld
  obtain ⟨out', hout', rfl⟩ := Option.map_eq_some_iff.mp hm
  obtain rfl : out = out' := Option.some.inj (hout.symm.trans hout')
  have hregular := (h.machines y).regular
  have hapart : ∀ wr ∈ out.accepted, wr.wrId ∉ (s.machine y).rx.srq ∧
      wr.wrId ∉ out.manager.channel.freeChunks := by
    intro wr hwr
    rw [hchain] at hwr
    obtain ⟨c, hc, rfl⟩ := List.mem_map.mp hwr
    exact ⟨fun hsrq => (hnext c hc).1 (.inl hsrq),
      not_mem_freeChunks_of_send hout hbytes hregular.pool_nodup hc⟩
  refine ⟨fun x => (hmachines x).1, fun x => ?_⟩
  have hpayloads : ∀ j, ((t.machine !x).rx.sock j).payloads =
      ((s.machine !x).rx.sock j).payloads := by
    intro j
    have hnone : (Action.send bl none).arrivals j = [] := rfl
    rw [(hmachines !x).2.2 j, hnone, ite_self, List.append_nil]
  refine (h.carries x).of_advances (hmachines x).2.1 fun j => ?_
  by_cases hxy : x = y
  · subst hxy
    by_cases hj : j = i
    · subst hj
      refine ⟨[], s.wire x j, out.accepted, rfl, by simp [hwire], ?_, ?_, ?_⟩
      · rw [hpayloads, List.map_nil, List.append_nil]
      · rw [hmachine, Function.update_self]
        exact hapart
      · rw [hsent, hmachine, Function.update_self, Function.update_self, Function.update_self,
          hregular.send_bytes hout hbytes fun c hc => (hnext c hc).2]
    · exact ⟨_, _, _, .still (by simp [hwire, Function.update_of_ne hj])
        (by simp [hsent, Function.update_of_ne hj]) (hpayloads j)⟩
  · exact ⟨_, _, _, .still (by simp [hwire, Function.update_of_ne hxy])
      (by simp [hsent, Function.update_of_ne hxy]) (hpayloads j)⟩

/-- Transmitting keeps the invariant: the message is what the work request referred to when
it was posted. -/
theorem InOrder.transmit (h : s.InOrder) {y : Bool} {i : ι} {k : ℕ}
    (hstep : s.transmit y i k = some t) : t.InOrder := by
  unfold Network.transmit at hstep
  split at hstep
  case h_1 => cases hstep
  case h_2 wr rest hwire =>
    obtain ⟨rx, hrx, ht⟩ := Option.map_eq_some_iff.mp hstep
    have hm : (s.machine !y).step
        (.receive (.arrive i k (wr.bytes (s.machine y).rx.store.chunk))) =
        some { s.machine !y with rx } := by
      rw [Messenger.step, RxState.step, hrx, Option.map_some]
    have hmachine : t.machine = Function.update s.machine (!y) { s.machine !y with rx } := by
      rw [← ht]
      rfl
    have htwire : t.wire = Function.update s.wire y (Function.update (s.wire y) i rest) := by
      rw [← ht]
    have hsent : t.sent = s.sent := by rw [← ht]; rfl
    have hmachines := h.machine_step hm hmachine (fun a' heq => by cases heq; trivial) trivial
    refine ⟨fun x => (hmachines x).1, fun x => ?_⟩
    have hpayloads := (hmachines !x).2.2
    refine (h.carries x).of_advances (hmachines x).2.1 fun j => ?_
    by_cases hxy : x = y
    · subst hxy
      simp only [if_true] at hpayloads
      by_cases hj : j = i
      · subst hj
        refine ⟨[wr], rest, [], hwire, by simp [htwire], ?_, by simp, by simp [hsent]⟩
        rw [hpayloads, Action.arrivals, if_pos rfl]
        rfl
      · refine ⟨_, _, _, .still (by simp [htwire, Function.update_of_ne hj]) (by rw [hsent]) ?_⟩
        rw [hpayloads, Action.arrivals, if_neg fun heq => hj heq.symm, List.append_nil]
    · have hother : (!x) ≠ !y := fun heq => hxy (Bool.not_inj heq)
      refine ⟨_, _, _, .still (by simp [htwire, Function.update_of_ne hxy]) (by rw [hsent]) ?_⟩
      rw [hpayloads, if_neg hother, List.append_nil]

/-- Every step that goes well keeps the invariant. -/
theorem InOrder.step {a : NetworkAction ι} (h : s.InOrder) (hgood : s.GoesWell a)
    (hstep : s.step a = some t) : t.InOrder := by
  cases a with
  | send x i bl fails => exact h.send hgood hstep
  | transmit x i k => exact h.transmit hstep
  | own x a => exact h.own hgood hstep

end Network

end RdmaTransport
