import RdmaTransport.Receive
import Mathlib.Data.List.Infix

/-!
# What a step of the receive side changes

Reading moves positions and records copied bytes, and only in the chunks it reads.
From that frame condition and one summary of the steps of a `read` call the
ownership invariant `RxState.Sound` follows: posted chunks, chunks of pending
completions and chunks already polled never coincide, across all sockets, and a
chunk is untouched between its arrival and the processing of its completion.
-/

namespace RdmaTransport

open DrainLoop Memory

/-- Going from one store to the other only reads chunks of the given list. -/
structure ChunkStore.ReadsOnly (s t : ChunkStore) (touched : List ChunkId) : Prop where
  /-- No message is received. -/
  message_eq : t.message = s.message
  /-- No chunk memory is written. -/
  buffer_eq : ∀ c, (t.chunk c).buffer = (s.chunk c).buffer
  /-- No chunk is resized. -/
  bytes_eq : ∀ c, (t.chunk c).bytes = (s.chunk c).bytes
  /-- Copied positions are never forgotten. -/
  copied_subset : ∀ c, s.copied c ⊆ t.copied c
  /-- Other chunks are left alone. -/
  frame : ∀ c, c ∉ touched → t.chunk c = s.chunk c ∧ t.copied c = s.copied c
  /-- Chunks stay valid. -/
  valid : (∀ c, (s.chunk c).Valid) → ∀ c, (t.chunk c).Valid

namespace ChunkStore

/-- Reading nothing. -/
theorem ReadsOnly.refl (s : ChunkStore) (touched : List ChunkId) : s.ReadsOnly s touched :=
  ⟨rfl, fun _ => rfl, fun _ => rfl, fun _ => Finset.Subset.refl _, fun _ _ => ⟨rfl, rfl⟩, id⟩

/-- Reading in two steps, seen as reading within a larger list. -/
theorem ReadsOnly.trans {s t u : ChunkStore} {xs ys zs : List ChunkId}
    (h₁ : s.ReadsOnly t xs) (h₂ : t.ReadsOnly u ys) (hxs : xs ⊆ zs) (hys : ys ⊆ zs) :
    s.ReadsOnly u zs where
  message_eq := h₂.message_eq.trans h₁.message_eq
  buffer_eq c := (h₂.buffer_eq c).trans (h₁.buffer_eq c)
  bytes_eq c := (h₂.bytes_eq c).trans (h₁.bytes_eq c)
  copied_subset c := (h₁.copied_subset c).trans (h₂.copied_subset c)
  frame c hc := by
    obtain ⟨hchunk₁, hcopied₁⟩ := h₁.frame c fun h => hc (hxs h)
    obtain ⟨hchunk₂, hcopied₂⟩ := h₂.frame c fun h => hc (hys h)
    exact ⟨hchunk₂.trans hchunk₁, hcopied₂.trans hcopied₁⟩
  valid h := h₂.valid (h₁.valid h)

/-- A spent chunk stays spent. -/
theorem ReadsOnly.spent {s t : ChunkStore} {touched : List ChunkId} (h : s.ReadsOnly t touched)
    {c : ChunkId} (hs : s.Spent c) : t.Spent c := by
  unfold Spent at hs ⊢
  rw [h.message_eq]
  exact hs.trans (h.copied_subset c)

/-- The number of bytes `Chunk::read` takes when `len` are asked for. -/
def taken (s : ChunkStore) (c : ChunkId) (len : ℕ) : ℕ :=
  min len ((s.chunk c).bytes - (s.chunk c).offset)

/-- `chunk->read` on a valid chunk: the position, the record, the bytes and the
count. -/
theorem readChunk_eq {s : ChunkStore} {c : ChunkId} (h : (s.chunk c).Valid) (len : ℕ) :
    s.readChunk c len =
      (⟨Function.update s.chunk c { s.chunk c with
          offset := if len ≤ (s.chunk c).bytes - (s.chunk c).offset
            then (s.chunk c).offset + len else 0 },
        s.message,
        Function.update s.copied c (s.copied c ∪
          Finset.Ico (s.chunk c).offset ((s.chunk c).offset + s.taken c len))⟩,
      ((s.chunk c).buffer.drop (s.chunk c).offset).take (s.taken c len), s.taken c len) := by
  simp only [readChunk, h.read_eq, taken]

/-- Reading a chunk touches that chunk only. -/
theorem readChunk_readsOnly (s : ChunkStore) (c : ChunkId) (len : ℕ) :
    s.ReadsOnly (s.readChunk c len).1 [c] := by
  have hbuffer : ((s.chunk c).read len).1.buffer = (s.chunk c).buffer := by
    unfold Chunk.read
    dsimp only
    split_ifs <;> rfl
  have hbytes : ((s.chunk c).read len).1.bytes = (s.chunk c).bytes := by
    unfold Chunk.read
    dsimp only
    split_ifs <;> rfl
  refine ⟨rfl, fun d => ?_, fun d => ?_, fun d => ?_, fun d hd => ?_, fun hvalid d => ?_⟩
  all_goals simp only [readChunk]
  · by_cases hd : d = c
    · subst hd; simp [hbuffer]
    · simp [Function.update_of_ne hd]
  · by_cases hd : d = c
    · subst hd; simp [hbytes]
    · simp [Function.update_of_ne hd]
  · by_cases hd : d = c
    · subst hd; simp
    · simp [Function.update_of_ne hd]
  · have hne : d ≠ c := by simpa using hd
    simp [Function.update_of_ne hne]
  · by_cases hd : d = c
    · subst hd
      simpa using (hvalid d).read len
    · simpa [Function.update_of_ne hd] using hvalid d

/-- The bytes copied out are as many as the returned count, and no more than asked. -/
theorem readChunk_count {s : ChunkStore} {c : ChunkId} (h : (s.chunk c).Valid) (len : ℕ) :
    (s.readChunk c len).2.1.length = (s.readChunk c len).2.2 ∧ (s.readChunk c len).2.2 ≤ len := by
  rw [readChunk_eq h]
  have hlength := h.length_eq
  refine ⟨?_, min_le_left _ _⟩
  simp only [List.length_take, List.length_drop, taken]
  omega

end ChunkStore

/-- One iteration of `read_buffers`. -/
theorem readBuffers_cons (len : ℕ) (store : ChunkStore) (c : ChunkId) (rest : List ChunkId)
    (read : ℕ) (buf : List UInt8) :
    readBuffers len store (c :: rest) read buf =
      if read + (store.readChunk c (len - read)).2.2 = len then
        ((store.readChunk c (len - read)).1, read + (store.readChunk c (len - read)).2.2,
          buf ++ (store.readChunk c (len - read)).2.1)
      else
        readBuffers len (store.readChunk c (len - read)).1 rest
          (read + (store.readChunk c (len - read)).2.2)
          (buf ++ (store.readChunk c (len - read)).2.1) := rfl

/-- `read_buffers` reads chunks of its list only. -/
theorem readBuffers_readsOnly (len : ℕ) (store : ChunkStore) (rx : List ChunkId) (read : ℕ)
    (buf : List UInt8) : store.ReadsOnly (readBuffers len store rx read buf).1 rx := by
  induction rx generalizing store read buf with
  | nil => exact .refl _ _
  | cons c rest ih =>
    have hreads := store.readChunk_readsOnly c (len - read)
    rw [readBuffers_cons]
    split_ifs
    · exact hreads.trans (.refl _ []) (by simp) (by simp)
    · exact hreads.trans (ih _ _ _) (by simp) (by simp)

/-- `read_buffers` stores as many bytes as it counts, no more than asked. -/
theorem readBuffers_count {len : ℕ} {store : ChunkStore} (rx : List ChunkId) (read : ℕ)
    (buf : List UInt8) (hvalid : ∀ c, (store.chunk c).Valid) (hbuf : buf.length = read)
    (hread : read ≤ len) :
    (readBuffers len store rx read buf).2.2.length = (readBuffers len store rx read buf).2.1 ∧
      (readBuffers len store rx read buf).2.1 ≤ len := by
  induction rx generalizing store read buf with
  | nil => exact ⟨hbuf, hread⟩
  | cons c rest ih =>
    have hreads := store.readChunk_readsOnly c (len - read)
    obtain ⟨hlength, hcount⟩ := ChunkStore.readChunk_count (hvalid c) (len - read)
    have hbuf' : (buf ++ (store.readChunk c (len - read)).2.1).length =
        read + (store.readChunk c (len - read)).2.2 := by
      rw [List.length_append, hbuf, hlength]
    rw [readBuffers_cons]
    split_ifs with hfull
    · exact ⟨hbuf', hfull.le⟩
    · exact ih _ _ (hreads.valid hvalid) hbuf' (by omega)

/-- The chunk of a completion is as the adapter left it. -/
structure ChunkStore.Fresh (store : ChunkStore) (wc : Wc) : Prop where
  /-- Its position is at the start. -/
  offset_eq : (store.chunk wc.wrId).offset = 0
  /-- Nothing has been copied out. -/
  copied_eq : store.copied wc.wrId = ∅
  /-- The completion carries the length of the message. -/
  message_eq : store.message wc.wrId = wc.byteLen
  /-- The completion is a successful one. -/
  status_eq : wc.status = .success

variable {ι : Type*}

/-- The ownership invariant of the receive side. -/
structure RxState.Sound (s : RxState ι) : Prop where
  /-- Positions stay inside their chunks. -/
  valid : ∀ c, (s.store.chunk c).Valid
  /-- A message fits its chunk. -/
  message_le : ∀ c, s.store.message c ≤ (s.store.chunk c).bytes
  /-- No chunk is posted twice. -/
  srq_nodup : s.srq.Nodup
  /-- A posted chunk has its position at the start. -/
  srq_offset : ∀ c ∈ s.srq, (s.store.chunk c).offset = 0
  /-- A socket got each chunk once. -/
  chunks_nodup : ∀ i, (s.sock i).chunks.Nodup
  /-- Two sockets never got the same chunk. -/
  chunks_disjoint : ∀ i j, i ≠ j → (s.sock i).chunks.Disjoint (s.sock j).chunks
  /-- A chunk a socket got is not posted. -/
  srq_disjoint : ∀ i, s.srq.Disjoint (s.sock i).chunks
  /-- The chunks kept by a socket are polled ones, in order. -/
  rx_sublist : ∀ i, (s.sock i).rxBuffers.Sublist (s.sock i).polled
  /-- Chunks of unprocessed completions are untouched. -/
  pending_fresh : ∀ i, ∀ wc ∈ (s.sock i).pending, s.store.Fresh wc
  /-- The local counter of a call is the number of bytes stored. -/
  buf_length : ∀ i, (s.sock i).buf.length = (s.sock i).read
  /-- It does not pass the requested length. -/
  read_le : ∀ i, (s.sock i).read ≤ (s.sock i).len

/-- What one step of a `read` call on socket `i` can change, whatever the state. -/
structure RxState.SockMove (s t : RxState ι) (i : ι) : Prop where
  /-- Nothing is posted or taken from the receive queue. -/
  srq_eq : t.srq = s.srq
  /-- Other sockets are left alone. -/
  others : ∀ j, j ≠ i → t.sock j = s.sock j
  /-- The socket keeps its chunks. -/
  chunks_eq : (t.sock i).chunks = (s.sock i).chunks
  /-- Completions are processed in order. -/
  pending_suffix : (t.sock i).pending <:+ (s.sock i).pending
  /-- Chunks are only read. -/
  reads_only : ∃ touched, s.store.ReadsOnly t.store touched
  /-- No message arrives. -/
  payloads_eq : (t.sock i).payloads = (s.sock i).payloads

/-- What such a step can change in a sound state. -/
structure RxState.SockStep (s t : RxState ι) (i : ι) : Prop extends s.SockMove t i where
  /-- Only polled chunks of the socket are read. -/
  reads : s.store.ReadsOnly t.store (t.sock i).polled
  /-- The chunks kept are polled ones. -/
  rx_sublist : (t.sock i).rxBuffers.Sublist (t.sock i).polled
  /-- The counter is the number of bytes stored. -/
  buf_length : (t.sock i).buf.length = (t.sock i).read
  /-- It does not pass the requested length. -/
  read_le : (t.sock i).read ≤ (t.sock i).len

/-- The chunks posted and those the sockets got are different, and kept chunks are polled
ones. -/
structure RxState.Distinct (s : RxState ι) : Prop where
  /-- No chunk is posted twice. -/
  srq_nodup : s.srq.Nodup
  /-- No socket got a chunk twice. -/
  chunks_nodup : ∀ i, (s.sock i).chunks.Nodup
  /-- No two sockets got the same chunk. -/
  chunks_disjoint : ∀ i j, i ≠ j → (s.sock i).chunks.Disjoint (s.sock j).chunks
  /-- No posted chunk was received. -/
  srq_disjoint : ∀ i, s.srq.Disjoint (s.sock i).chunks
  /-- Kept chunks were polled. -/
  rx_sublist : ∀ i, (s.sock i).rxBuffers.Sublist (s.sock i).polled

/-- Distinctness is part of the ownership invariant. -/
theorem RxState.Sound.distinct {s : RxState ι} (h : s.Sound) : s.Distinct :=
  ⟨h.srq_nodup, h.chunks_nodup, h.chunks_disjoint, h.srq_disjoint, h.rx_sublist⟩

/-- A step of a `read` call leaves every chunk where it is. -/
theorem RxState.SockMove.chunks_all {s t : RxState ι} {i : ι} (hstep : s.SockMove t i) (j : ι) :
    (t.sock j).chunks = (s.sock j).chunks := by
  by_cases hj : j = i
  · rw [hj, hstep.chunks_eq]
  · rw [hstep.others j hj]

/-- A step of a `read` call keeps the chunks different. -/
theorem RxState.Distinct.of_sockMove {s t : RxState ι} {i : ι} (h : s.Distinct)
    (hstep : s.SockMove t i) (hrx : (t.sock i).rxBuffers.Sublist (t.sock i).polled) :
    t.Distinct := by
  refine ⟨?_, fun j => ?_, fun j k hjk => ?_, fun j => ?_, fun j => ?_⟩
  · rw [hstep.srq_eq]
    exact h.srq_nodup
  · rw [hstep.chunks_all]
    exact h.chunks_nodup j
  · rw [hstep.chunks_all, hstep.chunks_all]
    exact h.chunks_disjoint j k hjk
  · rw [hstep.srq_eq, hstep.chunks_all]
    exact h.srq_disjoint j
  · by_cases hj : j = i
    · rw [hj]
      exact hrx
    · rw [hstep.others j hj]
      exact h.rx_sublist j

/-- A step of one socket does not read the chunks of another. -/
theorem RxState.SockStep.not_mem_polled {s t : RxState ι} {i j : ι} (hstep : s.SockStep t i)
    (h : s.Sound) (hj : j ≠ i) {c : ChunkId} (hc : c ∈ (s.sock j).chunks) :
    c ∉ (t.sock i).polled := by
  intro hpolled
  refine h.chunks_disjoint j i hj hc ?_
  rw [← hstep.chunks_eq]
  exact List.mem_append_left _ hpolled

/-- A polled chunk is none of the chunks whose completion is still pending. -/
theorem Sock.not_mem_polled_of_pending {sock : Sock} (h : sock.chunks.Nodup) {wc : Wc}
    (hwc : wc ∈ sock.pending) : wc.wrId ∉ sock.polled := by
  intro hpolled
  exact (List.nodup_append.mp h).2.2 _ hpolled _ (List.mem_map_of_mem hwc) rfl

/-- A chunk not touched by reads stays as the adapter left it. -/
theorem ChunkStore.Fresh.of_readsOnly {s t : ChunkStore} {touched : List ChunkId} {wc : Wc}
    (h : s.Fresh wc) (hreads : s.ReadsOnly t touched) (hwc : wc.wrId ∉ touched) : t.Fresh wc := by
  obtain ⟨hchunk, hcopied⟩ := hreads.frame _ hwc
  refine ⟨?_, hcopied.trans h.copied_eq, ?_, h.status_eq⟩
  · rw [hchunk, h.offset_eq]
  · rw [hreads.message_eq, h.message_eq]

/-- A step of a `read` call keeps the ownership invariant. -/
theorem RxState.Sound.of_sockStep {s t : RxState ι} {i : ι} (h : s.Sound)
    (hstep : s.SockStep t i) : t.Sound := by
  have hdistinct := h.distinct.of_sockMove hstep.toSockMove hstep.rx_sublist
  have hpolled : (t.sock i).polled ⊆ (s.sock i).chunks := by
    rw [← hstep.chunks_eq]
    exact List.subset_append_left _ _
  refine ⟨hstep.reads.valid h.valid, fun c => ?_, hdistinct.srq_nodup, fun c hc => ?_,
    hdistinct.chunks_nodup, hdistinct.chunks_disjoint, hdistinct.srq_disjoint,
    hdistinct.rx_sublist, fun j wc hwc => ?_, fun j => ?_, fun j => ?_⟩
  · rw [hstep.reads.message_eq, hstep.reads.bytes_eq]
    exact h.message_le c
  · rw [hstep.srq_eq] at hc
    rw [(hstep.reads.frame c fun hmem => h.srq_disjoint i hc (hpolled hmem)).1]
    exact h.srq_offset c hc
  · by_cases hj : j = i
    · subst hj
      have hnot : wc.wrId ∉ (t.sock j).polled :=
        Sock.not_mem_polled_of_pending (hdistinct.chunks_nodup j) hwc
      exact (h.pending_fresh j wc (hstep.pending_suffix.subset hwc)).of_readsOnly hstep.reads hnot
    · rw [hstep.others j hj] at hwc
      have hmem : wc.wrId ∈ (s.sock j).chunks :=
        List.mem_append_right _ (List.mem_map_of_mem hwc)
      exact (h.pending_fresh j wc hwc).of_readsOnly hstep.reads (hstep.not_mem_polled h hj hmem)
  · by_cases hj : j = i
    · rw [hj]
      exact hstep.buf_length
    · rw [hstep.others j hj]
      exact h.buf_length j
  · by_cases hj : j = i
    · rw [hj]
      exact hstep.read_le
    · rw [hstep.others j hj]
      exact h.read_le j

/-- All that processing one completion can do: keep the chunk, deliver a part of the
message and keep the chunk, or deliver the message and drop the chunk. -/
theorem handleCompletion_cases {store store' : ChunkStore} {sock sock' : Sock} {wc : Wc}
    (h : handleCompletion store sock wc = some (store', sock')) :
    wc.status = .success ∧
    ((sock.read = sock.len ∧ store' = store ∧ sock' = { sock with
        rxBuffers := sock.rxBuffers ++ [wc.wrId]
        polled := sock.polled ++ [wc.wrId] }) ∨
    (sock.read ≠ sock.len ∧ sock.len ≤ sock.read + wc.byteLen ∧
      store' = (store.readChunk wc.wrId (sock.len - sock.read)).1 ∧ sock' = { sock with
        read := sock.read + (store.readChunk wc.wrId (sock.len - sock.read)).2.2
        buf := sock.buf ++ (store.readChunk wc.wrId (sock.len - sock.read)).2.1
        rxBuffers := sock.rxBuffers ++ [wc.wrId]
        polled := sock.polled ++ [wc.wrId] }) ∨
    (sock.read ≠ sock.len ∧ sock.read + wc.byteLen < sock.len ∧
      store' = (store.readChunk wc.wrId wc.byteLen).1 ∧ sock' = { sock with
        read := sock.read + (store.readChunk wc.wrId wc.byteLen).2.2
        buf := sock.buf ++ (store.readChunk wc.wrId wc.byteLen).2.1
        polled := sock.polled ++ [wc.wrId] })) := by
  unfold handleCompletion at h
  split_ifs at h with hstatus hread hlen
  · simp only [Option.some.injEq, Prod.mk.injEq] at h
    exact ⟨hstatus, .inl ⟨hread, h.1.symm, h.2.symm⟩⟩
  · simp only [Option.some.injEq, Prod.mk.injEq] at h
    exact ⟨hstatus, .inr (.inl ⟨hread, hlen, h.1.symm, h.2.symm⟩)⟩
  · simp only [Option.some.injEq, Prod.mk.injEq] at h
    exact ⟨hstatus, .inr (.inr ⟨hread, by omega, h.1.symm, h.2.symm⟩)⟩

/-- Processing a completion moves its chunk to the polled ones and reads it only. -/
theorem handleCompletion_move {store store' : ChunkStore} {sock sock' : Sock} {wc : Wc}
    (h : handleCompletion store sock wc = some (store', sock')) :
    store.ReadsOnly store' [wc.wrId] ∧ sock'.control = sock.control ∧
      sock'.polled = sock.polled ++ [wc.wrId] ∧ sock'.payloads = sock.payloads ∧
      sock'.rxBuffers.Sublist (sock.rxBuffers ++ [wc.wrId]) := by
  rcases (handleCompletion_cases h).2 with ⟨_, rfl, rfl⟩ | ⟨_, _, rfl, rfl⟩ | ⟨_, _, rfl, rfl⟩
  · exact ⟨.refl _ _, rfl, rfl, rfl, .refl _⟩
  · exact ⟨store.readChunk_readsOnly _ _, rfl, rfl, rfl, .refl _⟩
  · exact ⟨store.readChunk_readsOnly _ _, rfl, rfl, rfl, List.sublist_append_left _ _⟩

/-- Processing a completion stores as many bytes as it counts, no more than asked. -/
theorem handleCompletion_count {store store' : ChunkStore} {sock sock' : Sock} {wc : Wc}
    (h : handleCompletion store sock wc = some (store', sock'))
    (hvalid : ∀ c, (store.chunk c).Valid) (hbuf : sock.buf.length = sock.read)
    (hread : sock.read ≤ sock.len) : sock'.buf.length = sock'.read ∧ sock'.read ≤ sock'.len := by
  rcases (handleCompletion_cases h).2 with ⟨_, rfl, rfl⟩ | ⟨_, _, rfl, rfl⟩ | ⟨_, hlen, rfl, rfl⟩
  · exact ⟨hbuf, hread⟩
  · obtain ⟨hlength, hcount⟩ :=
      ChunkStore.readChunk_count (hvalid wc.wrId) (sock.len - sock.read)
    refine ⟨by simp [hbuf, hlength], ?_⟩
    dsimp only
    omega
  · obtain ⟨hlength, hcount⟩ := ChunkStore.readChunk_count (hvalid wc.wrId) wc.byteLen
    refine ⟨by simp [hbuf, hlength], ?_⟩
    dsimp only
    omega

/-- The ownership invariant holds at start-up. -/
theorem RxState.sound_start {pool : Pool} {srq : List ChunkId} (hsrq : srq.Nodup)
    (hclean : ∀ c, (pool.chunk c).Clean) : (RxState.start pool srq : RxState ι).Sound where
  valid c := (hclean c).1
  message_le _ := Nat.zero_le _
  srq_nodup := hsrq
  srq_offset c _ := (hclean c).2
  chunks_nodup _ := List.nodup_nil
  chunks_disjoint _ _ _ := List.disjoint_nil_left _
  srq_disjoint _ := List.disjoint_nil_right _
  rx_sublist _ := .refl _
  pending_fresh _ _ h := by simp [RxState.start, Sock.connected, Sock.pending, Control.polled] at h
  buf_length _ := rfl
  read_le _ := Nat.le_refl _

/-- At start-up the first free chunks of the channel cluster are posted. -/
theorem postChannelCluster_eq (manager : MemoryManager) (accepted : ℕ) :
    postChannelCluster manager accepted = manager.channel.freeChunks.take accepted := by
  simp [postChannelCluster, MemoryManager.getChannelBuffers, Cluster.getBuffers]

/-- Start-up establishes the ownership invariant, with nothing received yet. -/
theorem RxState.startUp_spec {host : Host} {size rxNum txNum : UInt32} {accepted : ℕ}
    {s : RxState ι} (h : RxState.startUp host size rxNum txNum accepted = some s) :
    s.Sound ∧ ∀ i, s.sock i = Sock.connected := by
  obtain ⟨pool, manager, hreg, hclean, _, _, hnodup⟩ :=
    MemoryManager.registerRxTx_spec host size rxNum txNum
  rw [RxState.startUp, hreg, Option.map_some, Option.some.injEq] at h
  subst h
  refine ⟨sound_start ?_ hclean, fun _ => rfl⟩
  rw [postChannelCluster_eq]
  exact (List.take_sublist _ _).nodup (List.nodup_append.mp hnodup).1

variable [DecidableEq ι]

/-- All that entering `read` can do. -/
theorem RxState.readEnter_cases {s t : RxState ι} {i : ι} {len : ℕ}
    (hstep : s.readEnter i len = some t) :
    ∃ control, (s.sock i).control.enter = some control ∧
      t = s.setSock (readBuffers len s.store (s.sock i).rxBuffers 0 []).1 i { s.sock i with
        control, len
        read := (readBuffers len s.store (s.sock i).rxBuffers 0 []).2.1
        buf := (readBuffers len s.store (s.sock i).rxBuffers 0 []).2.2 } := by
  obtain ⟨control, hcontrol, rfl⟩ := Option.map_eq_some_iff.mp hstep
  exact ⟨control, hcontrol, rfl⟩

/-- All that a step of the completion loop can do. -/
theorem RxState.readAdvance_cases {s t : RxState ι} {i : ι} {n : ℕ}
    (hstep : s.readAdvance i n = some t) :
    (∃ control, (s.sock i).control.advance maxCompletions n = some (control, .silent) ∧
      t = s.setSock s.store i { s.sock i with control }) ∨
    (∃ control wc store sock,
      (s.sock i).control.advance maxCompletions n = some (control, .handle wc) ∧
      handleCompletion s.store { s.sock i with control } wc = some (store, sock) ∧
      t = s.setSock store i sock) ∨
    (∃ control, (s.sock i).control.advance maxCompletions n = some (control, .leave) ∧
      t = s.setSock s.store i { s.sock i with
        control, len := 0, read := 0, buf := []
        returned := (s.sock i).returned ++ [(s.sock i).buf] }) := by
  unfold RxState.readAdvance at hstep
  split at hstep
  case h_1 => cases hstep
  case h_2 control hadvance => exact .inl ⟨control, hadvance, (Option.some.inj hstep).symm⟩
  case h_3 control wc hadvance =>
    obtain ⟨⟨store, sock⟩, hhandle, rfl⟩ := Option.map_eq_some_iff.mp hstep
    exact .inr (.inl ⟨control, wc, store, sock, hadvance, hhandle, rfl⟩)
  case h_4 control hadvance =>
    exact .inr (.inr ⟨control, hadvance, (Option.some.inj hstep).symm⟩)

/-- Entering `read` moves nothing. -/
theorem RxState.sockMove_readEnter {s t : RxState ι} {i : ι} {len : ℕ}
    (hstep : s.readEnter i len = some t) : s.SockMove t i := by
  obtain ⟨control, hcontrol, rfl⟩ := readEnter_cases hstep
  have hpending := Control.enter_pending hcontrol
  refine ⟨rfl, fun j hj => s.setSock_of_ne _ _ hj, ?_, ?_, ⟨_, readBuffers_readsOnly _ _ _ _ _⟩, ?_⟩
  · simp [Sock.chunks, Sock.pending, hpending]
  · simp [Sock.pending, hpending]
  · simp

/-- Advancing a running `read` moves at most one chunk to the polled ones. -/
theorem RxState.sockMove_readAdvance {s t : RxState ι} {i : ι} {n : ℕ}
    (hstep : s.readAdvance i n = some t) : s.SockMove t i := by
  rcases readAdvance_cases hstep with ⟨control, hadvance, rfl⟩ |
    ⟨control, wc, store, sock, hadvance, hhandle, rfl⟩ | ⟨control, hadvance, rfl⟩
  · have hpending := Control.advance_pending hadvance
    simp only [Effect.handled, List.nil_append] at hpending
    refine ⟨rfl, fun j hj => s.setSock_of_ne _ _ hj, ?_, ?_, ⟨[], .refl _ _⟩, ?_⟩
    · simp [Sock.chunks, Sock.pending, hpending]
    · simp [Sock.pending, hpending]
    · simp
  · have hpending := Control.advance_pending hadvance
    simp only [Effect.handled, List.singleton_append] at hpending
    obtain ⟨hreads, hcontrol, hpolled, hpayloads, _⟩ := handleCompletion_move hhandle
    refine ⟨rfl, fun j hj => s.setSock_of_ne _ _ hj, ?_, ?_, ⟨_, hreads⟩, ?_⟩
    · simp only [setSock_self, Sock.chunks, Sock.pending, hcontrol, hpolled, ← hpending,
        List.map_cons, List.append_assoc, List.singleton_append]
    · simp only [setSock_self, Sock.pending, hcontrol, ← hpending]
      exact List.suffix_cons _ _
    · simpa using hpayloads
  · have hpending := Control.advance_pending hadvance
    simp only [Effect.handled, List.nil_append] at hpending
    refine ⟨rfl, fun j hj => s.setSock_of_ne _ _ hj, ?_, ?_, ⟨[], .refl _ _⟩, ?_⟩
    · simp [Sock.chunks, Sock.pending, hpending]
    · simp [Sock.pending, hpending]
    · simp

/-- Entering `read` keeps the chunks different. -/
theorem RxState.Distinct.readEnter {s t : RxState ι} {i : ι} {len : ℕ} (h : s.Distinct)
    (hstep : s.readEnter i len = some t) : t.Distinct := by
  refine h.of_sockMove (sockMove_readEnter hstep) ?_
  obtain ⟨control, _, rfl⟩ := readEnter_cases hstep
  rw [setSock_self]
  exact h.rx_sublist i

/-- Advancing a running `read` keeps the chunks different. -/
theorem RxState.Distinct.readAdvance {s t : RxState ι} {i : ι} {n : ℕ} (h : s.Distinct)
    (hstep : s.readAdvance i n = some t) : t.Distinct := by
  refine h.of_sockMove (sockMove_readAdvance hstep) ?_
  rcases readAdvance_cases hstep with ⟨control, _, rfl⟩ |
    ⟨control, wc, store, sock, _, hhandle, rfl⟩ | ⟨control, _, rfl⟩
  · rw [setSock_self]
    exact h.rx_sublist i
  · obtain ⟨_, _, hpolled, _, hrx⟩ := handleCompletion_move hhandle
    rw [setSock_self, hpolled]
    exact hrx.trans ((h.rx_sublist i).append (.refl _))
  · rw [setSock_self]
    exact h.rx_sublist i

/-- Entering `read` reads kept chunks only. -/
theorem RxState.Sound.readEnter {s t : RxState ι} {i : ι} {len : ℕ} (h : s.Sound)
    (hstep : s.readEnter i len = some t) : s.SockStep t i := by
  have hmove := sockMove_readEnter hstep
  obtain ⟨control, _, rfl⟩ := readEnter_cases hstep
  have hreads := readBuffers_readsOnly len s.store (s.sock i).rxBuffers 0 []
  obtain ⟨hlength, hle⟩ :=
    readBuffers_count (s.sock i).rxBuffers 0 [] h.valid rfl (Nat.zero_le len)
  refine ⟨hmove, ?_, (h.distinct.readEnter hstep).rx_sublist i, ?_, ?_⟩
  all_goals simp only [setSock_self, setSock_store]
  · exact hreads.trans (.refl _ []) (h.rx_sublist i).subset (by simp)
  · exact hlength
  · exact hle

/-- Advancing a running `read` reads the chunk it polls only. -/
theorem RxState.Sound.readAdvance {s t : RxState ι} {i : ι} {n : ℕ} (h : s.Sound)
    (hstep : s.readAdvance i n = some t) : s.SockStep t i := by
  have hmove := sockMove_readAdvance hstep
  have hrx := (h.distinct.readAdvance hstep).rx_sublist i
  rcases readAdvance_cases hstep with ⟨control, _, rfl⟩ |
    ⟨control, wc, store, sock, _, hhandle, rfl⟩ | ⟨control, _, rfl⟩
  · refine ⟨hmove, .refl _ _, hrx, ?_, ?_⟩
    all_goals simp only [setSock_self]
    · exact h.buf_length i
    · exact h.read_le i
  · obtain ⟨hreads, _, hpolled, _, _⟩ := handleCompletion_move hhandle
    obtain ⟨hbuf, hread⟩ :=
      handleCompletion_count hhandle h.valid (h.buf_length i) (h.read_le i)
    refine ⟨hmove, ?_, hrx, ?_, ?_⟩
    all_goals simp only [setSock_self, setSock_store]
    · exact hreads.trans (.refl _ []) (by simp [hpolled]) (by simp)
    · exact hbuf
    · exact hread
  · refine ⟨hmove, .refl _ _, hrx, ?_, ?_⟩
    all_goals simp only [setSock_self]
    · rfl
    · exact le_rfl

/-- What the arrival of a message for socket `i` in chunk `c` changes. -/
structure RxState.ArriveStep (s t : RxState ι) (i : ι) (c : ChunkId) (payload : List UInt8) :
    Prop where
  /-- The chunk is taken from the receive queue. -/
  srq_eq : ∃ k, s.srq[k]? = some c ∧ t.srq = s.srq.eraseIdx k
  /-- The message fits the chunk. -/
  fit : payload.length ≤ (s.store.chunk c).bytes
  /-- The message is stored. -/
  store_eq : t.store = s.store.fill c payload
  /-- The completion is queued. -/
  sock_eq : t.sock i = { s.sock i with
    control := (s.sock i).control.arrive ⟨c, payload.length, .success⟩
    payloads := (s.sock i).payloads ++ [payload] }
  /-- Other sockets are left alone. -/
  others : ∀ j, j ≠ i → t.sock j = s.sock j

/-- All that an arrival can do. -/
theorem RxState.arrive_cases {s t : RxState ι} {i : ι} {k : ℕ} {payload : List UInt8}
    (hstep : s.arrive i k payload = some t) : ∃ c, s.ArriveStep t i c payload := by
  unfold RxState.arrive at hstep
  split at hstep
  case h_1 => cases hstep
  case h_2 c hc =>
    split_ifs at hstep with hfit
    obtain rfl := Option.some.inj hstep
    exact ⟨c, ⟨k, hc, rfl⟩, hfit, rfl, by simp, fun j hj => Function.update_of_ne hj _ _⟩

/-- Filling a chunk leaves its position and size, and every other chunk. -/
theorem ChunkStore.fill_of_ne {s : ChunkStore} {c d : ChunkId} (payload : List UInt8) (hd : d ≠ c) :
    (s.fill c payload).chunk d = s.chunk d ∧ (s.fill c payload).message d = s.message d ∧
      (s.fill c payload).copied d = s.copied d := by
  simp [fill, Function.update_of_ne hd]

/-- Filling a chunk with a message that fits keeps all chunks valid. -/
theorem ChunkStore.fill_valid {s : ChunkStore} (h : ∀ d, (s.chunk d).Valid) {c : ChunkId}
    {payload : List UInt8} (hfit : payload.length ≤ (s.chunk c).bytes) (d : ChunkId) :
    ((s.fill c payload).chunk d).Valid := by
  by_cases hd : d = c
  · subst hd
    have hv := h d
    refine ⟨?_, by simpa [fill] using hv.offset_le, by simpa [fill] using hv.bytes_lt⟩
    simp only [fill, Function.update_self]
    rw [overwrite_length (by rw [hv.length_eq]; omega), hv.length_eq]
  · rw [(fill_of_ne payload hd).1]
    exact h d

omit [DecidableEq ι] in
/-- The chunk taken is a posted one, no longer posted, and new to every socket. -/
theorem RxState.ArriveStep.chunk_new {s t : RxState ι} {i : ι} {c : ChunkId} {payload : List UInt8}
    (hstep : s.ArriveStep t i c payload) (h : s.Distinct) :
    c ∈ s.srq ∧ c ∉ t.srq ∧ ∀ j, c ∉ (s.sock j).chunks := by
  obtain ⟨k, hc, hsrq⟩ := hstep.srq_eq
  have hmem : c ∈ s.srq := List.mem_of_getElem? hc
  refine ⟨hmem, ?_, fun j hj => h.srq_disjoint j hmem hj⟩
  obtain ⟨hk, rfl⟩ := List.getElem?_eq_some_iff.mp hc
  rw [hsrq, ← h.srq_nodup.erase_getElem k hk]
  exact h.srq_nodup.not_mem_erase

omit [DecidableEq ι] in
/-- The completion joins the end of what is pending at the socket. -/
theorem RxState.ArriveStep.pending_eq {s t : RxState ι} {i : ι} {c : ChunkId}
    {payload : List UInt8} (hstep : s.ArriveStep t i c payload) :
    (t.sock i).pending = (s.sock i).pending ++ [⟨c, payload.length, .success⟩] := by
  rw [hstep.sock_eq]
  exact (s.sock i).control.arrive_pending _

omit [DecidableEq ι] in
/-- The chunk joins the end of what the socket got. -/
theorem RxState.ArriveStep.chunks_eq {s t : RxState ι} {i : ι} {c : ChunkId}
    {payload : List UInt8} (hstep : s.ArriveStep t i c payload) :
    (t.sock i).chunks = (s.sock i).chunks ++ [c] := by
  rw [Sock.chunks, hstep.pending_eq, hstep.sock_eq]
  simp [Sock.chunks]

omit [DecidableEq ι] in
/-- No other chunk comes to a socket. -/
theorem RxState.ArriveStep.mem_chunks {s t : RxState ι} {i j : ι} {c d : ChunkId}
    {payload : List UInt8} (hstep : s.ArriveStep t i c payload) (hd : d ∈ (t.sock j).chunks) :
    d ∈ (s.sock j).chunks ∨ (j = i ∧ d = c) := by
  by_cases hj : j = i
  · subst hj
    simpa [hstep.chunks_eq] using hd
  · rw [hstep.others j hj] at hd
    exact .inl hd

omit [DecidableEq ι] in
/-- What a `read` call has of its own is left alone at every socket. -/
theorem RxState.ArriveStep.sock_with {s t : RxState ι} {i : ι} {c : ChunkId}
    {payload : List UInt8} (hstep : s.ArriveStep t i c payload) (j : ι) :
    ∃ control payloads, t.sock j = { s.sock j with control, payloads } := by
  by_cases hj : j = i
  · subst hj
    exact ⟨_, _, hstep.sock_eq⟩
  · exact ⟨_, _, hstep.others j hj⟩

omit [DecidableEq ι] in
/-- Chunks of unprocessed completions stay untouched, and the new one is. -/
theorem RxState.ArriveStep.pending_fresh {s t : RxState ι} {i j : ι} {c : ChunkId}
    {payload : List UInt8} (hstep : s.ArriveStep t i c payload) (h : s.Sound) {wc : Wc}
    (hwc : wc ∈ (t.sock j).pending) : t.store.Fresh wc := by
  obtain ⟨hmem, _, hnew⟩ := hstep.chunk_new h.distinct
  have hold : wc ∈ (s.sock j).pending → t.store.Fresh wc := by
    intro hwc
    have hne : wc.wrId ≠ c := by
      rintro rfl
      exact hnew j (List.mem_append_right _ (List.mem_map_of_mem hwc))
    obtain ⟨hchunk, hmessage, hcopied⟩ := s.store.fill_of_ne payload hne
    obtain ⟨hoffset, hnone, hlen, hstatus⟩ := h.pending_fresh j wc hwc
    rw [hstep.store_eq]
    exact ⟨by rw [hchunk, hoffset], by rw [hcopied, hnone], by rw [hmessage, hlen], hstatus⟩
  by_cases hj : j = i
  · subst hj
    rw [hstep.pending_eq, List.mem_append, List.mem_singleton] at hwc
    rcases hwc with hwc | rfl
    · exact hold hwc
    · rw [hstep.store_eq]
      refine ⟨?_, by simp [ChunkStore.fill], by simp [ChunkStore.fill], rfl⟩
      simpa [ChunkStore.fill] using h.srq_offset c hmem
  · rw [hstep.others j hj] at hwc
    exact hold hwc

omit [DecidableEq ι] in
/-- An arrival keeps the chunks different: the chunk moves from the receive queue to the
end of what the socket got. -/
theorem RxState.Distinct.of_arriveStep {s t : RxState ι} {i : ι} {c : ChunkId}
    {payload : List UInt8} (h : s.Distinct) (hstep : s.ArriveStep t i c payload) : t.Distinct := by
  obtain ⟨_, hnot, hnew⟩ := hstep.chunk_new h
  obtain ⟨k, _, hsrq⟩ := hstep.srq_eq
  refine ⟨?_, fun j => ?_, fun j l hjl d hd hd' => ?_, fun j d hd hd' => ?_, fun j => ?_⟩
  · rw [hsrq]
    exact h.srq_nodup.eraseIdx k
  · by_cases hj : j = i
    · subst hj
      rw [hstep.chunks_eq]
      exact (h.chunks_nodup j).append (by simp) (by simpa using hnew j)
    · rw [hstep.others j hj]
      exact h.chunks_nodup j
  · rcases hstep.mem_chunks hd with hd | ⟨rfl, rfl⟩
    · rcases hstep.mem_chunks hd' with hd' | ⟨rfl, rfl⟩
      · exact h.chunks_disjoint j l hjl hd hd'
      · exact hnew j hd
    · rcases hstep.mem_chunks hd' with hd' | ⟨rfl, _⟩
      · exact hnew l hd'
      · exact hjl rfl
  · rcases hstep.mem_chunks hd' with hd' | ⟨_, rfl⟩
    · rw [hsrq] at hd
      exact h.srq_disjoint j (List.mem_of_mem_eraseIdx hd) hd'
    · exact hnot hd
  · obtain ⟨_, _, hsock⟩ := hstep.sock_with j
    rw [hsock]
    exact h.rx_sublist j

omit [DecidableEq ι] in
/-- An arrival keeps the ownership invariant. -/
theorem RxState.Sound.of_arriveStep {s t : RxState ι} {i : ι} {c : ChunkId} {payload : List UInt8}
    (h : s.Sound) (hstep : s.ArriveStep t i c payload) : t.Sound := by
  obtain ⟨_, hnot, _⟩ := hstep.chunk_new h.distinct
  obtain ⟨k, _, hsrq⟩ := hstep.srq_eq
  have hdistinct := h.distinct.of_arriveStep hstep
  refine ⟨?_, fun d => ?_, hdistinct.srq_nodup, fun d hd => ?_, hdistinct.chunks_nodup,
    hdistinct.chunks_disjoint, hdistinct.srq_disjoint, hdistinct.rx_sublist,
    fun j wc hwc => hstep.pending_fresh h hwc, fun j => ?_, fun j => ?_⟩
  · rw [hstep.store_eq]
    exact ChunkStore.fill_valid h.valid hstep.fit
  · rw [hstep.store_eq]
    by_cases hd : d = c
    · subst hd
      simpa [ChunkStore.fill] using hstep.fit
    · obtain ⟨hchunk, hmessage, _⟩ := s.store.fill_of_ne payload hd
      rw [hchunk, hmessage]
      exact h.message_le d
  · have hne : d ≠ c := fun heq => hnot (heq ▸ hd)
    rw [hstep.store_eq, (s.store.fill_of_ne payload hne).1]
    rw [hsrq] at hd
    exact h.srq_offset d (List.mem_of_mem_eraseIdx hd)
  · obtain ⟨_, _, hsock⟩ := hstep.sock_with j
    rw [hsock]
    exact h.buf_length j
  · obtain ⟨_, _, hsock⟩ := hstep.sock_with j
    rw [hsock]
    exact h.read_le j

/-- Every step of the receive side keeps the chunks different. -/
theorem RxState.Distinct.step {s t : RxState ι} {a : RxAction ι} (h : s.Distinct)
    (hstep : s.step a = some t) : t.Distinct := by
  cases a with
  | arrive i k payload =>
    obtain ⟨c, hc⟩ := RxState.arrive_cases hstep
    exact h.of_arriveStep hc
  | readEnter i len => exact h.readEnter hstep
  | readAdvance i n => exact h.readAdvance hstep

/-- Every step of the receive side keeps the ownership invariant. -/
theorem RxState.Sound.step {s t : RxState ι} {a : RxAction ι} (h : s.Sound)
    (hstep : s.step a = some t) : t.Sound := by
  cases a with
  | arrive i k payload =>
    obtain ⟨c, hc⟩ := RxState.arrive_cases hstep
    exact h.of_arriveStep hc
  | readEnter i len => exact h.of_sockStep (h.readEnter hstep)
  | readAdvance i n => exact h.of_sockStep (h.readAdvance hstep)

end RdmaTransport
