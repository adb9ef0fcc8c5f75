import RdmaTransport.Packing
import RdmaTransport.Messenger

/-!
# The positions of free chunks

The packing loop of `send` writes from the position of each chunk it is given, so a chunk
in a free list should be at its beginning. `take_back` does not set the position back. A
chunk that was sent returns at the position `send` left it at, and a chunk that was posted
for receiving stays in its free list while `read` moves its position. This file determines
in which runs the free chunks are at their beginning all the time.
-/

namespace RdmaTransport

open DrainLoop Runs

/-- A request for so many bytes ends inside the chunk: bytes are copied out, and the
position is not set back. -/
def Chunk.EndsInside (c : Chunk) (asked : ℕ) : Prop := 0 < asked ∧ asked ≤ c.bytes - c.offset

instance (c : Chunk) (asked : ℕ) : Decidable (c.EndsInside asked) :=
  inferInstanceAs (Decidable (_ ∧ _))

/-- The number of bytes after the position of a chunk. -/
def ChunkStore.left (store : ChunkStore) (c : ChunkId) : ℕ :=
  (store.chunk c).bytes - (store.chunk c).offset

variable {ι : Type*}

/-- What a call of `read` asks the `k`-th chunk kept by the socket for: what the chunks
before it do not hold. -/
def RxState.askedKept (s : RxState ι) (i : ι) (len k : ℕ) : ℕ :=
  len - (((s.sock i).rxBuffers.take k).map s.store.left).sum

/-- What a running `read` asks the chunk of a completion for. -/
def Sock.askedNew (sock : Sock) (wc : Wc) : ℕ := min (sock.len - sock.read) wc.byteLen

/-- A chunk is in one of the two free lists. -/
def Messenger.Free (s : Messenger ι) (c : ChunkId) : Prop :=
  c ∈ s.worker.manager.channel.freeChunks ∨ c ∈ s.worker.manager.send.freeChunks

instance (s : Messenger ι) (c : ChunkId) : Decidable (s.Free c) :=
  inferInstanceAs (Decidable (_ ∨ _))

/-- Every free chunk is at its beginning. -/
def Messenger.FreeClean (s : Messenger ι) : Prop :=
  ∀ c, s.Free c → (s.rx.store.chunk c).offset = 0

/-- Then the packing loop of `send` starts every chunk it is given at its beginning. -/
theorem Messenger.FreeClean.offset_nextChunks {s : Messenger ι} (h : s.FreeClean) {bytes : ℕ}
    {c : ChunkId} (hc : c ∈ s.worker.manager.channel.nextChunks bytes) :
    (s.rx.store.chunk c).offset = 0 := by
  apply h c
  unfold Cluster.nextChunks at hc
  split_ifs at hc
  · exact .inl hc
  · exact .inl (List.mem_reverse.mp (List.mem_of_mem_take hc))

/-- The condition on a step: a request of `read` does not end inside a free chunk, `send`
is given no chunk that is in the free list for sending, and `handle_tx_event` returns a
chunk that is at its beginning. -/
def Messenger.KeepsClean (s : Messenger ι) : Action ι → Prop
  | .receive (.readEnter i len) =>
      ∀ k < (s.rx.sock i).rxBuffers.length, ∀ c ∈ (s.rx.sock i).rxBuffers[k]?, s.Free c →
        ¬(s.rx.store.chunk c).EndsInside (s.rx.askedKept i len k)
  | .receive (.readAdvance i _) =>
      ∀ wc ∈ (s.rx.sock i).control.polled.head?, s.Free wc.wrId →
        ¬(s.rx.store.chunk wc.wrId).EndsInside ((s.rx.sock i).askedNew wc)
  | .send bl _ =>
      totalLength bl = 0 ∨ ∀ c ∈ s.worker.manager.channel.nextChunks (totalLength bl),
        c ∉ s.worker.manager.send.freeChunks
  | .txAdvance _ =>
      ∀ wc ∈ s.worker.control.polled.head?, (s.rx.store.chunk wc.wrId).offset = 0
  | _ => True

/-- Whether a step meets the condition can be evaluated. -/
instance Messenger.KeepsClean.decidable (s : Messenger ι) : ∀ a, Decidable (s.KeepsClean a)
  | .receive (.readEnter i len) => inferInstanceAs (Decidable
      (∀ k < (s.rx.sock i).rxBuffers.length, ∀ c ∈ (s.rx.sock i).rxBuffers[k]?, s.Free c →
        ¬(s.rx.store.chunk c).EndsInside (s.rx.askedKept i len k)))
  | .receive (.readAdvance i _) => inferInstanceAs (Decidable
      (∀ wc ∈ (s.rx.sock i).control.polled.head?, s.Free wc.wrId →
        ¬(s.rx.store.chunk wc.wrId).EndsInside ((s.rx.sock i).askedNew wc)))
  | .send bl _ => inferInstanceAs (Decidable
      (totalLength bl = 0 ∨ ∀ c ∈ s.worker.manager.channel.nextChunks (totalLength bl),
        c ∉ s.worker.manager.send.freeChunks))
  | .txAdvance _ => inferInstanceAs (Decidable
      (∀ wc ∈ s.worker.control.polled.head?, (s.rx.store.chunk wc.wrId).offset = 0))
  | .receive (.arrive ..) | .complete .. | .txMiss | .txEnter => inferInstanceAs (Decidable True)

/-- A request for nothing leaves a chunk as it is. -/
theorem Chunk.Valid.read_zero {c : Chunk} (h : c.Valid) : (c.read 0).1 = c := by
  rw [h.read_eq]
  simp

/-- A chunk at its beginning stays there exactly when the request does not end inside it. -/
theorem Chunk.Valid.read_offset_eq_zero_iff {c : Chunk} (h : c.Valid) (hzero : c.offset = 0)
    (asked : ℕ) : (c.read asked).1.offset = 0 ↔ ¬c.EndsInside asked := by
  rw [h.read_eq]
  unfold EndsInside
  dsimp only
  split_ifs <;> omega

/-- Reading a chunk. -/
theorem ChunkStore.chunk_readChunk (store : ChunkStore) (c : ChunkId) (len : ℕ) :
    (store.readChunk c len).1.chunk = Function.update store.chunk c ((store.chunk c).read len).1 :=
  rfl

/-- `read_buffers` leaves every chunk of its list as if the chunk had been read once, with a
request for what the chunks before it do not hold. The induction is on the list; a chunk
after the one in which the call ends is asked for nothing. -/
theorem readBuffers_chunk {len : ℕ} {store : ChunkStore} {rx : List ChunkId} {read : ℕ}
    {buf : List UInt8} (hvalid : ∀ c, (store.chunk c).Valid) (hnodup : rx.Nodup)
    (hread : read ≤ len) {k : ℕ} {c : ChunkId} (hk : rx[k]? = some c) :
    (readBuffers len store rx read buf).1.chunk c =
      ((store.chunk c).read (len - read - ((rx.take k).map store.left).sum)).1 := by
  induction rx generalizing store read buf k with
  | nil => cases hk
  | cons d rest ih =>
    obtain ⟨hd, hrest⟩ := List.nodup_cons.mp hnodup
    have hcount : (store.readChunk d (len - read)).2.2 = min (len - read) (store.left d) :=
      congrArg (fun out => out.2.2) ((hvalid d).read_eq (len - read))
    have hchunk := store.chunk_readChunk d (len - read)
    have hother : ∀ e, e ≠ d → (store.readChunk d (len - read)).1.chunk e = store.chunk e := by
      intro e he
      rw [hchunk, Function.update_of_ne he]
    rw [readBuffers_cons, hcount]
    cases k with
    | zero =>
      obtain rfl : d = c := by simpa using hk
      simp only [List.take_zero, List.map_nil, List.sum_nil, Nat.sub_zero]
      split_ifs with hstop
      · rw [hchunk, Function.update_self]
      · have honly := readBuffers_readsOnly len (store.readChunk d (len - read)).1 rest
          (read + min (len - read) (store.left d)) (buf ++ (store.readChunk d (len - read)).2.1)
        have hframe := honly.frame d hd
        rw [hframe.1, hchunk, Function.update_self]
    | succ k =>
      have hmem : c ∈ rest := List.mem_of_getElem? hk
      have hne : c ≠ d := fun heq => hd (heq ▸ hmem)
      simp only [List.take_succ_cons, List.map_cons, List.sum_cons]
      split_ifs with hstop
      · have hnone : len - read - (store.left d + ((rest.take k).map store.left).sum) = 0 := by
          omega
        rw [hother c hne, hnone, (hvalid c).read_zero]
      · have hmin : min (len - read) (store.left d) = store.left d := by omega
        have hleft : (rest.take k).map (store.readChunk d (len - read)).1.left =
            (rest.take k).map store.left := by
          apply List.map_congr_left
          intro e he
          have hed : e ≠ d := fun heq => hd (heq ▸ List.mem_of_mem_take he)
          unfold ChunkStore.left
          rw [hother e hed]
        have hvalid' := (store.readChunk_readsOnly d (len - read)).valid hvalid
        rw [ih hvalid' hrest (by omega) hk, hother c hne, hleft, hmin, Nat.sub_sub, Nat.sub_sub,
          Nat.add_assoc]

/-- A step of `read` leaves the chunk of its completion as if it had been read once. -/
theorem handleCompletion_chunk {store store' : ChunkStore} {sock sock' : Sock} {wc : Wc}
    (h : handleCompletion store sock wc = some (store', sock'))
    (hvalid : ∀ c, (store.chunk c).Valid) :
    store'.chunk =
      Function.update store.chunk wc.wrId ((store.chunk wc.wrId).read (sock.askedNew wc)).1 := by
  unfold Sock.askedNew
  rcases (handleCompletion_cases h).2 with ⟨hall, rfl, _⟩ | ⟨_, hlen, rfl, _⟩ | ⟨_, hlen, rfl, _⟩
  · rw [hall, Nat.sub_self, Nat.zero_min, (hvalid wc.wrId).read_zero, Function.update_eq_self]
  · rw [store.chunk_readChunk, Nat.min_eq_left (by omega)]
  · rw [store.chunk_readChunk, Nat.min_eq_right (by omega)]

/-- What keeps the positions meaningful: chunks are valid, the receive side holds different
chunks, and the free list of the channel has different chunks of its size. -/
structure Messenger.Regular (s : Messenger ι) : Prop where
  /-- Every chunk is valid. -/
  valid : ∀ c, (s.rx.store.chunk c).Valid
  /-- The chunks of the receive side are different. -/
  distinct : s.rx.Distinct
  /-- No chunk is in the free list of the channel twice. -/
  pool_nodup : s.txPool.Nodup
  /-- The free chunks of the channel have its size. -/
  pool_bytes : ∀ c ∈ s.txPool, (s.rx.store.chunk c).bytes = s.worker.manager.channel.chunkSize

/-- At start-up everything is in order. -/
theorem Messenger.startUp_regular {host : Host} {size rxNum txNum : UInt32} {accepted : ℕ}
    {s : Messenger ι} (h : Messenger.startUp host size rxNum txNum accepted = some s) :
    s.Regular ∧ s.FreeClean := by
  obtain ⟨pool, manager, hreg, hclean, _, _, hnodup⟩ :=
    MemoryManager.registerRxTx_spec host size rxNum txNum
  have hsized := (MemoryManager.registerRxTx_sized hreg).1
  have hpool := (List.nodup_append.mp hnodup).1
  rw [Messenger.startUp, hreg, Option.map_some, Option.some.injEq] at h
  subst h
  have hsrq : (postChannelCluster manager accepted).Nodup := by
    rw [postChannelCluster_eq]
    exact (List.take_sublist _ _).nodup hpool
  refine ⟨⟨fun c => (hclean c).1, (RxState.sound_start hsrq hclean).distinct, hpool, ?_⟩, ?_⟩
  · intro c hc
    exact (hsized c hc).2
  · intro c _
    exact (hclean c).2

/-- Between the two chunk objects only some chunks are written to. -/
structure WritesOnly (chunk chunk' : ChunkId → Chunk) (touched : List ChunkId) : Prop where
  /-- Chunks stay valid. -/
  valid : (∀ c, (chunk c).Valid) → ∀ c, (chunk' c).Valid
  /-- Chunks keep their size. -/
  bytes_eq : ∀ c, (chunk' c).bytes = (chunk c).bytes
  /-- The other chunks are left alone. -/
  frame : ∀ c, c ∉ touched → chunk' c = chunk c

/-- Writing nothing. -/
theorem WritesOnly.refl (chunk : ChunkId → Chunk) (touched : List ChunkId) :
    WritesOnly chunk chunk touched := ⟨id, fun _ => rfl, fun _ _ => rfl⟩

/-- Writing twice. -/
theorem WritesOnly.trans {chunk chunk₁ chunk₂ : ChunkId → Chunk} {xs ys : List ChunkId}
    (h₁ : WritesOnly chunk chunk₁ xs) (h₂ : WritesOnly chunk₁ chunk₂ ys) (hsub : ys ⊆ xs) :
    WritesOnly chunk chunk₂ xs := by
  refine ⟨fun hvalid => h₂.valid (h₁.valid hvalid), fun c => ?_, fun c hc => ?_⟩
  · rw [h₂.bytes_eq, h₁.bytes_eq]
  · rw [h₂.frame c fun hmem => hc (hsub hmem), h₁.frame c hc]

/-- Writing to one chunk. -/
theorem WritesOnly.write (chunk : ChunkId → Chunk) (c : ChunkId) (rest : List ChunkId)
    (data : List UInt8) :
    WritesOnly chunk (Function.update chunk c ((chunk c).write data).1) (c :: rest) := by
  refine ⟨fun hvalid d => ?_, fun d => ?_, fun d hd => ?_⟩
  · by_cases hdc : d = c
    · rw [hdc, Function.update_self]
      exact (hvalid c).write data
    · rw [Function.update_of_ne hdc]
      exact hvalid d
  · by_cases hdc : d = c
    · rw [hdc, Function.update_self]
      unfold Chunk.write
      dsimp only
      split_ifs <;> rfl
    · rw [Function.update_of_ne hdc]
  · have hdc : d ≠ c := fun heq => hd (heq ▸ List.mem_cons_self ..)
    rw [Function.update_of_ne hdc]

/-- The inner copy loop of `send` writes to the chunks from the iterator on. -/
theorem copyBuffer_writesOnly {chunk chunk' : ChunkId → Chunk} {current rest : List ChunkId}
    {data : List UInt8} (h : copyBuffer chunk current data = some (chunk', rest)) :
    WritesOnly chunk chunk' current ∧ rest ⊆ current := by
  induction current generalizing chunk data with
  | nil =>
    unfold copyBuffer at h
    split_ifs at h
    obtain ⟨rfl, rfl⟩ := Prod.mk.inj (Option.some.inj h)
    exact ⟨.refl _ _, List.Subset.refl _⟩
  | cons c current ih =>
    by_cases hempty : data = []
    · rw [copyBuffer, if_pos hempty] at h
      obtain ⟨rfl, rfl⟩ := Prod.mk.inj (Option.some.inj h)
      exact ⟨.refl _ _, List.Subset.refl _⟩
    rw [copyBuffer_cons hempty] at h
    have hfirst := WritesOnly.write chunk c current data
    split_ifs at h
    · obtain ⟨hwrites, hsub⟩ := ih h
      exact ⟨hfirst.trans hwrites (List.subset_cons_self ..), List.subset_cons_of_subset _ hsub⟩
    · obtain ⟨rfl, rfl⟩ := Prod.mk.inj (Option.some.inj h)
      exact ⟨hfirst, List.Subset.refl _⟩

/-- The outer copy loop of `send` writes to the chunks it is given. -/
theorem copyBuffers_writesOnly {chunk chunk' : ChunkId → Chunk} {current : List ChunkId}
    {bl : List (List UInt8)} (h : copyBuffers chunk current bl = some chunk') :
    WritesOnly chunk chunk' current := by
  induction bl generalizing chunk current with
  | nil =>
    obtain rfl := Option.some.inj h
    exact .refl _ _
  | cons data bl ih =>
    obtain ⟨⟨chunk₁, rest⟩, hcopy, hloop⟩ := Option.bind_eq_some_iff.mp h
    obtain ⟨hfirst, hsub⟩ := copyBuffer_writesOnly hcopy
    exact hfirst.trans (ih hloop) hsub

/-- A step of the worker leaves the receive side and the channel alone. -/
theorem Messenger.Regular.of_worker {s : Messenger ι} (h : s.Regular) {worker : TxWorker}
    {a : TxAction} (hworker : s.worker.step a = some worker) (inflight : List SendWr) :
    ({ s with worker, inflight } : Messenger ι).Regular := by
  have hchannel := TxWorker.channel_step hworker
  refine ⟨h.valid, h.distinct, ?_, ?_⟩
  · rw [Messenger.txPool, hchannel]
    exact h.pool_nodup
  · intro c hc
    rw [Messenger.txPool, hchannel] at hc
    rw [hchannel]
    exact h.pool_bytes c hc

/-- A send of at least one byte finds chunks that have a size. -/
theorem chunkSize_pos_of_send {chunk : ChunkId → Chunk} {manager : MemoryManager}
    {bl : List (List UInt8)} {fails : Option ℕ} {out : SendOutcome}
    (h : send chunk manager bl fails = some out) (hbytes : totalLength bl ≠ 0) :
    0 < manager.channel.chunkSize := by
  obtain ⟨⟨tx, manager'⟩, htx, _⟩ := Option.bind_eq_some_iff.mp h
  obtain ⟨⟨ret, channel⟩, hget, _⟩ := Option.map_eq_some_iff.mp htx
  exact Nat.pos_of_ne_zero (Cluster.getBuffers_cases hbytes hget).1

/-- `send` writes to every chunk it is given, when these are at their beginning. -/
theorem Messenger.Regular.offset_pos_of_send {s : Messenger ι} (h : s.Regular)
    (hclean : s.FreeClean) {bl : List (List UInt8)} {fails : Option ℕ} {out : SendOutcome}
    (hout : RdmaTransport.send s.rx.store.chunk s.worker.manager bl fails = some out)
    (hbytes : totalLength bl ≠ 0)
    (hcount : s.worker.manager.channel.chunkCount (totalLength bl) ≤ s.txPool.length)
    {c : ChunkId} (hc : c ∈ s.worker.manager.channel.nextChunks (totalLength bl)) :
    0 < (out.chunk c).offset := by
  have hsize := chunkSize_pos_of_send hout hbytes
  have hcopy := copyBuffers_of_send hout
  rw [Cluster.nextChunks, if_neg hbytes] at hc hcopy
  generalize htx : s.worker.manager.channel.freeChunks.reverse.take
    (s.worker.manager.channel.chunkCount (totalLength bl)) = tx at hc hcopy
  have hlength : tx.length = s.worker.manager.channel.chunkCount (totalLength bl) := by
    rw [← htx, List.length_take, List.length_reverse]
    exact Nat.min_eq_left hcount
  have hfresh : s.worker.manager.channel.Fresh s.rx.store.chunk :=
    ⟨h.pool_nodup, fun c hc => ⟨h.valid c, hclean c (.inl hc)⟩, h.pool_bytes⟩
  have hnodup : tx.Nodup := by
    rw [← htx]
    exact (List.take_sublist _ _).nodup (List.nodup_reverse.mpr h.pool_nodup)
  have hsub : ∀ c ∈ tx, c ∈ s.worker.manager.channel.freeChunks := by
    intro c hc
    rw [← htx] at hc
    exact List.mem_reverse.mp (List.mem_of_mem_take hc)
  obtain ⟨hpacking, hempty⟩ := hfresh.packing hsize hnodup hsub
  rcases hpacking.copyBuffers_cases hsize bl with ⟨chunk', rest, hsome, hpacks⟩ | ⟨hnone, _⟩
  · obtain rfl : out.chunk = chunk' := Option.some.inj (hcopy.symm.trans hsome)
    have hneeded : (tx.length - 1) * s.worker.manager.channel.chunkSize < bl.flatten.length := by
      rw [hlength, List.length_flatten]
      exact Cluster.chunkCount_pred_lt hsize (Nat.pos_of_ne_zero hbytes)
    obtain ⟨last, hlast, _, hlengths⟩ := hpacks.lengths hempty hneeded
    have hmem : (out.chunk c).offset ∈ tx.map fun c => (out.chunk c).offset :=
      List.mem_map_of_mem hc
    rw [hlengths, List.mem_append, List.mem_singleton] at hmem
    rcases hmem with hfull | hrest
    · rw [List.eq_of_mem_replicate hfull]
      exact hsize
    · rw [hrest]
      exact hlast
  · rw [hnone] at hcopy
    cases hcopy

variable [DecidableEq ι]

/-- A step of the receive side keeps chunks valid and their sizes. -/
theorem RxState.chunk_step {s t : RxState ι} {a : RxAction ι} (h : s.step a = some t)
    (hvalid : ∀ c, (s.store.chunk c).Valid) :
    (∀ c, (t.store.chunk c).Valid) ∧ ∀ c, (t.store.chunk c).bytes = (s.store.chunk c).bytes := by
  cases a with
  | arrive i k payload =>
    obtain ⟨c, hstep⟩ := RxState.arrive_cases h
    rw [hstep.store_eq]
    refine ⟨ChunkStore.fill_valid hvalid hstep.fit, fun d => ?_⟩
    by_cases hd : d = c
    · simp [ChunkStore.fill, hd]
    · rw [(s.store.fill_of_ne payload hd).1]
  | readEnter i len =>
    obtain ⟨_, hreads⟩ := (sockMove_readEnter h).reads_only
    exact ⟨hreads.valid hvalid, hreads.bytes_eq⟩
  | readAdvance i n =>
    obtain ⟨_, hreads⟩ := (sockMove_readAdvance h).reads_only
    exact ⟨hreads.valid hvalid, hreads.bytes_eq⟩

/-- Every step keeps everything in order. -/
theorem Messenger.Regular.step {s t : Messenger ι} {a : Action ι} (h : s.Regular)
    (hstep : s.step a = some t) : t.Regular := by
  cases a with
  | receive a =>
    obtain ⟨rx, hrx, rfl⟩ := Option.map_eq_some_iff.mp hstep
    obtain ⟨hvalid, hbytes⟩ := RxState.chunk_step hrx h.valid
    refine ⟨hvalid, h.distinct.step hrx, h.pool_nodup, fun c hc => ?_⟩
    rw [hbytes]
    exact h.pool_bytes c hc
  | send bl fails =>
    obtain ⟨out, hout, rfl⟩ := Option.map_eq_some_iff.mp hstep
    have hwrites := copyBuffers_writesOnly (copyBuffers_of_send hout)
    obtain ⟨_, _, hchannel⟩ := send_cases hout
    have hpool : out.manager.channel.chunkSize = s.worker.manager.channel.chunkSize ∧
        out.manager.channel.freeChunks <+: s.worker.manager.channel.freeChunks := by
      rcases hchannel with ⟨_, hsame⟩ | ⟨_, _, _, hless⟩
      · rw [hsame]
        exact ⟨rfl, List.prefix_rfl⟩
      · rw [hless]
        exact ⟨rfl, List.take_prefix ..⟩
    refine ⟨hwrites.valid h.valid, ⟨h.distinct.1, h.distinct.2, h.distinct.3, h.distinct.4,
      h.distinct.5⟩, hpool.2.sublist.nodup h.pool_nodup, fun c hc => ?_⟩
    dsimp only
    rw [hwrites.bytes_eq, hpool.1]
    exact h.pool_bytes c (hpool.2.subset hc)
  | complete k status =>
    obtain ⟨wr, _, hmap⟩ := Option.bind_eq_some_iff.mp hstep
    obtain ⟨worker, hworker, rfl⟩ := Option.map_eq_some_iff.mp hmap
    exact h.of_worker hworker _
  | txMiss =>
    obtain ⟨worker, hworker, rfl⟩ := Option.map_eq_some_iff.mp hstep
    exact h.of_worker hworker _
  | txEnter =>
    obtain ⟨worker, hworker, rfl⟩ := Option.map_eq_some_iff.mp hstep
    exact h.of_worker hworker _
  | txAdvance n =>
    obtain ⟨worker, hworker, rfl⟩ := Option.map_eq_some_iff.mp hstep
    exact h.of_worker hworker _

namespace Messenger

variable {s t : Messenger ι}

/-- Entering `read` leaves the free chunks at their beginning exactly when no request ends
inside one. -/
theorem freeClean_readEnter_iff {i : ι} {len : ℕ} (h : s.Regular) (hclean : s.FreeClean)
    (hstep : s.step (.receive (.readEnter i len)) = some t) :
    t.FreeClean ↔ s.KeepsClean (.receive (.readEnter i len)) := by
  obtain ⟨rx, hrx, rfl⟩ := Option.map_eq_some_iff.mp hstep
  obtain ⟨control, _, rfl⟩ := RxState.readEnter_cases hrx
  have hnodup : (s.rx.sock i).rxBuffers.Nodup :=
    ((h.distinct.rx_sublist i).trans (List.sublist_append_left _ _)).nodup
      (h.distinct.chunks_nodup i)
  have hread : ∀ k c, (s.rx.sock i).rxBuffers[k]? = some c → s.Free c →
      (((readBuffers len s.rx.store (s.rx.sock i).rxBuffers 0 []).1.chunk c).offset = 0 ↔
        ¬(s.rx.store.chunk c).EndsInside (s.rx.askedKept i len k)) := by
    intro k c hk hfree
    rw [readBuffers_chunk h.valid hnodup (Nat.zero_le len) hk, Nat.sub_zero]
    exact (h.valid c).read_offset_eq_zero_iff (hclean c hfree) _
  constructor
  · intro ht k _ c hk hfree
    exact (hread k c hk hfree).mp (ht c hfree)
  · intro hkeeps c hfree
    by_cases hmem : c ∈ (s.rx.sock i).rxBuffers
    · obtain ⟨k, hk⟩ := List.mem_iff_getElem?.mp hmem
      obtain ⟨hlt, _⟩ := List.getElem?_eq_some_iff.mp hk
      exact (hread k c hk hfree).mpr (hkeeps k hlt c hk hfree)
    · have honly := readBuffers_readsOnly len s.rx.store (s.rx.sock i).rxBuffers 0 []
      have hframe := honly.frame c hmem
      simp only [RxState.setSock_store, hframe.1]
      exact hclean c hfree

/-- Advancing a running `read` leaves the free chunks at their beginning exactly when its
request does not end inside one. -/
theorem freeClean_readAdvance_iff {i : ι} {n : ℕ} (h : s.Regular) (hclean : s.FreeClean)
    (hstep : s.step (.receive (.readAdvance i n)) = some t) :
    t.FreeClean ↔ s.KeepsClean (.receive (.readAdvance i n)) := by
  obtain ⟨rx, hrx, rfl⟩ := Option.map_eq_some_iff.mp hstep
  rcases RxState.readAdvance_cases hrx with ⟨control, hadvance, rfl⟩ |
    ⟨control, wc, store, sock, hadvance, hhandle, rfl⟩ | ⟨control, hadvance, rfl⟩
  · have hhead := Control.advance_polled hadvance
    refine iff_of_true hclean ?_
    simp [KeepsClean, hhead, Effect.handled]
  · have hhead : (s.rx.sock i).control.polled.head? = some wc := Control.advance_polled hadvance
    have hchunk := handleCompletion_chunk hhandle h.valid
    have hasked : ({ s.rx.sock i with control } : Sock).askedNew wc = (s.rx.sock i).askedNew wc :=
      rfl
    rw [hasked] at hchunk
    have hread : s.Free wc.wrId → ((store.chunk wc.wrId).offset = 0 ↔
        ¬(s.rx.store.chunk wc.wrId).EndsInside ((s.rx.sock i).askedNew wc)) := by
      intro hfree
      rw [hchunk, Function.update_self]
      exact (h.valid wc.wrId).read_offset_eq_zero_iff (hclean _ hfree) _
    simp only [KeepsClean, hhead, Option.mem_some_iff, forall_eq']
    constructor
    · intro ht hfree
      exact (hread hfree).mp (ht wc.wrId hfree)
    · intro hkeeps c hfree
      by_cases hc : c = wc.wrId
      · subst hc
        exact (hread hfree).mpr (hkeeps hfree)
      · simp only [RxState.setSock_store, hchunk, Function.update_of_ne hc]
        exact hclean c hfree
  · have hhead := Control.advance_polled hadvance
    refine iff_of_true hclean ?_
    simp [KeepsClean, hhead, Effect.handled]

/-- The handler leaves the free chunks at their beginning exactly when it returns such a
chunk. -/
theorem freeClean_txAdvance_iff {n : ℕ} (hclean : s.FreeClean)
    (hstep : s.step (.txAdvance n) = some t) : t.FreeClean ↔ s.KeepsClean (.txAdvance n) := by
  obtain ⟨worker, hworker, rfl⟩ := Option.map_eq_some_iff.mp hstep
  obtain ⟨e, hadvance, hmanager⟩ := TxWorker.advance_cases hworker
  have hhead := Control.advance_polled hadvance
  rw [MemoryManager.foldl_returnChannel] at hmanager
  simp only [KeepsClean, hhead, FreeClean, Free, hmanager, List.mem_append]
  constructor
  · intro ht wc hwc
    apply ht wc.wrId (.inr (.inr ?_))
    exact List.mem_map_of_mem (List.mem_of_mem_head? hwc)
  · rintro hkeeps c (hold | hold | hnew)
    · exact hclean c (.inl hold)
    · exact hclean c (.inr hold)
    · obtain ⟨wc, hwc, rfl⟩ := List.mem_map.mp hnew
      apply hkeeps wc
      cases e with
      | handle a =>
        rw [List.mem_singleton.mp hwc]
        rfl
      | silent => cases hwc
      | leave => cases hwc

/-- `send` leaves the free chunks at their beginning exactly when it is given no chunk that
is also in the free list for sending. -/
theorem freeClean_send_iff {bl : List (List UInt8)} {fails : Option ℕ} (h : s.Regular)
    (hclean : s.FreeClean) (hstep : s.step (.send bl fails) = some t) :
    t.FreeClean ↔ s.KeepsClean (.send bl fails) := by
  obtain ⟨out, hout, rfl⟩ := Option.map_eq_some_iff.mp hstep
  have hcopy := copyBuffers_of_send hout
  obtain ⟨_, hsend, ⟨hzero, hchannel⟩ | ⟨hbytes, _, hcount, hchannel⟩⟩ := send_cases hout
  · rw [copyBuffers_of_empty hzero] at hcopy
    refine iff_of_true ?_ (.inl hzero)
    intro c hfree
    simp only [Free, hsend, hchannel] at hfree
    rw [← Option.some.inj hcopy]
    exact hclean c hfree
  · have hwrites := copyBuffers_writesOnly hcopy
    constructor
    · intro ht
      refine .inr fun c hc hfree => ?_
      have hoffset := ht c (.inr (by rwa [hsend]))
      exact absurd hoffset (Nat.ne_of_gt (h.offset_pos_of_send hclean hout hbytes hcount hc))
    · rintro (hzero | hkeeps) c hfree
      · exact absurd hzero hbytes
      simp only [Free, hsend, hchannel] at hfree
      rcases hfree with hleft | hfree
      · have hnot : c ∉ s.worker.manager.channel.nextChunks (totalLength bl) := by
          rw [Cluster.nextChunks, if_neg hbytes, List.take_reverse, List.mem_reverse]
          exact List.disjoint_take_drop h.pool_nodup (Nat.le_refl _) hleft
        simp only [hwrites.frame c hnot]
        exact hclean c (.inl (List.mem_of_mem_take hleft))
      · have hnot : c ∉ s.worker.manager.channel.nextChunks (totalLength bl) :=
          fun hmem => hkeeps c hmem hfree
        simp only [hwrites.frame c hnot]
        exact hclean c (.inr hfree)

/-- Every step leaves the free chunks at their beginning exactly under the condition. -/
theorem freeClean_step_iff {a : Action ι} (h : s.Regular) (hclean : s.FreeClean)
    (hstep : s.step a = some t) : t.FreeClean ↔ s.KeepsClean a := by
  cases a with
  | receive a =>
    cases a with
    | arrive i k payload =>
      obtain ⟨rx, hrx, rfl⟩ := Option.map_eq_some_iff.mp hstep
      obtain ⟨c, hc⟩ := RxState.arrive_cases hrx
      refine iff_of_true ?_ trivial
      intro d hfree
      simp only [hc.store_eq]
      by_cases hd : d = c
      · simpa [ChunkStore.fill, hd] using hclean c (hd ▸ hfree)
      · rw [(s.rx.store.fill_of_ne payload hd).1]
        exact hclean d hfree
    | readEnter i len => exact freeClean_readEnter_iff h hclean hstep
    | readAdvance i n => exact freeClean_readAdvance_iff h hclean hstep
  | send bl fails => exact freeClean_send_iff h hclean hstep
  | complete k status =>
    obtain ⟨wr, _, hmap⟩ := Option.bind_eq_some_iff.mp hstep
    obtain ⟨worker, hworker, rfl⟩ := Option.map_eq_some_iff.mp hmap
    obtain rfl := Option.some.inj hworker
    exact iff_of_true hclean trivial
  | txMiss =>
    obtain ⟨worker, hworker, rfl⟩ := Option.map_eq_some_iff.mp hstep
    simp only [TxWorker.step] at hworker
    split_ifs at hworker
    obtain rfl := Option.some.inj hworker
    exact iff_of_true hclean trivial
  | txEnter =>
    obtain ⟨worker, hworker, rfl⟩ := Option.map_eq_some_iff.mp hstep
    obtain ⟨control, _, rfl⟩ := Option.map_eq_some_iff.mp hworker
    exact iff_of_true hclean trivial
  | txAdvance n => exact freeClean_txAdvance_iff hclean hstep

end Messenger

/-- **Free chunks are clean.** Along a run from start-up every chunk in the free lists of
the channel and of the send cluster is at its beginning exactly when in every step no
request of `read` ended inside a free chunk, `send` was given no chunk that was also in the
free list for sending, and `handle_tx_event` returned a chunk that was at its beginning. -/
theorem freeClean_along_iff {host : Host} {size rxNum txNum : UInt32} {accepted : ℕ}
    {start s : Messenger ι} {acts : List (Action ι)}
    (hstart : Messenger.startUp host size rxNum txNum accepted = some start)
    (hrun : exec Messenger.step start acts = some s) :
    Along Messenger.step Messenger.FreeClean start acts ↔
      Meets Messenger.step Messenger.KeepsClean start acts := by
  obtain ⟨hregular, hclean⟩ := Messenger.startUp_regular hstart
  refine along_iff_meets Messenger.Regular (fun s a t hs hstep => hs.step hstep) ?_ ?_ hregular
    hclean hrun
  · intro s a t hs hclean hkeeps hstep
    exact (Messenger.freeClean_step_iff hs hclean hstep).mpr hkeeps
  · intro s a t hs hclean hkeeps hstep ht
    exact hkeeps ((Messenger.freeClean_step_iff hs hclean hstep).mp ht)

/-- A message fills the only chunk, one byte is sent from the same chunk, the message is read
with a request that goes beyond the end of the chunk, and the send completes and is
handled. -/
def readBeforeHandling : List (Action Unit) :=
  [.receive (.arrive () 0 [1, 2]), .send [[7]] none] ++ (readOne 3).map .receive ++
    [.complete 0 .success, .txEnter, .txAdvance 1, .txAdvance 0]

/-- The free chunks are at their beginning in that run, which ends with the chunk returned. -/
theorem freeClean_along_readBeforeHandling :
    ∃ start s : Messenger Unit, Messenger.startUp plainHost 2 1 1 1 = some start ∧
      exec Messenger.step start readBeforeHandling = some s ∧
      s.worker.manager.send.freeChunks = [1, 0] ∧
      Along Messenger.step Messenger.FreeClean start readBeforeHandling := by
  have hmeets : ∀ start ∈ Messenger.startUp (ι := Unit) plainHost 2 1 1 1,
      Meets Messenger.step Messenger.KeepsClean start readBeforeHandling := by decide +kernel
  have hrun : ((Messenger.startUp (ι := Unit) plainHost 2 1 1 1).bind fun start =>
      exec Messenger.step start readBeforeHandling).map
        (fun s => s.worker.manager.send.freeChunks) = some [1, 0] := by decide +kernel
  obtain ⟨s, hs, hfree⟩ := Option.map_eq_some_iff.mp hrun
  obtain ⟨start, hstart, hexec⟩ := Option.bind_eq_some_iff.mp hs
  exact ⟨start, s, hstart, hexec, hfree,
    (freeClean_along_iff hstart hexec).mpr (hmeets start hstart)⟩

/-- A chunk from which one byte was sent is returned at position 1. -/
theorem sent_chunk_returned_dirty :
    ∃ start s : Messenger Unit, Messenger.startUp plainHost 8192 2 2 2 = some start ∧
      exec Messenger.step start sendAndHandle = some s ∧
      1 ∈ s.worker.manager.send.freeChunks ∧ (s.rx.store.chunk 1).offset = 1 ∧
      ¬s.FreeClean := by
  have hrun : ((Messenger.startUp (ι := Unit) plainHost 8192 2 2 2).bind fun start =>
      exec Messenger.step start sendAndHandle).map
        (fun s => (decide (1 ∈ s.worker.manager.send.freeChunks),
          (s.rx.store.chunk 1).offset)) = some (true, 1) := by decide +kernel
  obtain ⟨s, hs, hobserved⟩ := Option.map_eq_some_iff.mp hrun
  obtain ⟨start, hstart, hexec⟩ := Option.bind_eq_some_iff.mp hs
  obtain ⟨hmem, hoffset⟩ := Prod.mk.inj hobserved
  have hfree := of_decide_eq_true hmem
  refine ⟨start, s, hstart, hexec, hfree, hoffset, fun hclean => ?_⟩
  have hzero := hclean 1 (.inr hfree)
  rw [hoffset] at hzero
  exact absurd hzero (by decide)

end RdmaTransport
