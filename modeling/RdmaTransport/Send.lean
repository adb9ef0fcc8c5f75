import RdmaTransport.Chunk

/-!
# Sending a buffer list

`RDMAConnectedSocketImpl::send` takes chunks from the memory manager, packs the
buffers of a bufferlist into them, and posts one work request per chunk as a chain.
What the adapter accepts is a parameter: the whole chain, or its first `j` requests.
Undefined behaviour, such as using the iterator past the last chunk, is `none`.
-/

namespace RdmaTransport

/-- The fields of `struct ibv_send_wr` and of its only `ibv_sge` that `send` sets to
values of its own. -/
structure SendWr where
  /-- The chunk whose pointer is stashed in the work request. -/
  wrId : ChunkId
  /-- The address of the first byte. -/
  addr : ℕ
  /-- The number of bytes, of type `uint32_t`. -/
  length : ℕ
  /-- The key of the memory region. -/
  lkey : ℕ

/-- The inner copy loop of `send`: one buffer is written to the chunks under the
iterator and behind it. By `Chunk.write_count_of_not_full` a write that does not
fill its chunk has taken all the data, which ends the loop. -/
def copyBuffer : (ChunkId → Chunk) → List ChunkId → List UInt8 →
    Option ((ChunkId → Chunk) × List ChunkId)
  | chunk, [], data => if data = [] then some (chunk, []) else none
  | chunk, c :: rest, data =>
      if data = [] then some (chunk, c :: rest)
      else
        let (written, count) := (chunk c).write data
        if written.full then copyBuffer (Function.update chunk c written) rest (data.drop count)
        else some (Function.update chunk c written, c :: rest)

/-- The outer copy loop of `send`. -/
def copyBuffers : (ChunkId → Chunk) → List ChunkId → List (List UInt8) →
    Option (ChunkId → Chunk)
  | chunk, _, [] => some chunk
  | chunk, current, data :: bl =>
      (copyBuffer chunk current data).bind fun (chunk, current) => copyBuffers chunk current bl

/-- The work request `send` fills in for a chunk. -/
def sendWr (chunk : ChunkId → Chunk) (c : ChunkId) : SendWr :=
  ⟨c, (chunk c).address, (chunk c).offset % 2 ^ 32, (chunk c).lkey⟩

/-- The total length of a bufferlist. -/
def totalLength (bl : List (List UInt8)) : ℕ := (bl.map List.length).sum

/-- What a call of `send` leaves. -/
structure SendOutcome where
  /-- The chunk objects. -/
  chunk : ChunkId → Chunk
  /-- The memory manager. -/
  manager : MemoryManager
  /-- The work requests the adapter accepted. -/
  accepted : List SendWr
  /-- The work requests it did not accept. -/
  refused : List SendWr
  /-- The returned value. -/
  result : ℤ
  /-- The caller's bufferlist. -/
  bl : List (List UInt8)

/-- `RDMAConnectedSocketImpl::send`. With `fails = some j` the call of
`ibv_post_send` accepts `j` requests and fails on the next; an empty chain would be
read past its end. -/
def send (chunk : ChunkId → Chunk) (manager : MemoryManager) (bl : List (List UInt8))
    (fails : Option ℕ) : Option SendOutcome :=
  (manager.getTxBuffers (totalLength bl)).bind fun (tx, manager) =>
    (copyBuffers chunk tx bl).bind fun chunk =>
      let chain := tx.map (sendWr chunk)
      match fails with
      | none =>
          if chain.length = 0 then none
          else some ⟨chunk, manager, chain, [], totalLength bl, []⟩
      | some j =>
          if j < chain.length then some ⟨chunk, manager, chain.take j, chain.drop j, -1, bl⟩
          else none

/-- The chunks `get_buffers` would hand out for a byte count: all of them for zero,
otherwise as many as needed from the back of the free list. -/
def Cluster.nextChunks (cluster : Cluster) (bytes : ℕ) : List ChunkId :=
  if bytes = 0 then cluster.freeChunks
  else cluster.freeChunks.reverse.take (cluster.chunkCount bytes)

/-- All that a call of `send` can do to the free lists: the chunks of its work
requests are the next ones of the channel cluster, and unless there was nothing to
send they are taken from its free list. -/
theorem send_cases {chunk : ChunkId → Chunk} {manager : MemoryManager} {bl : List (List UInt8)}
    {fails : Option ℕ} {out : SendOutcome} (h : send chunk manager bl fails = some out) :
    (out.accepted ++ out.refused).map SendWr.wrId =
        manager.channel.nextChunks (totalLength bl) ∧
      out.manager.send = manager.send ∧
      ((totalLength bl = 0 ∧ out.manager.channel = manager.channel) ∨
        (totalLength bl ≠ 0 ∧ 0 < manager.channel.chunkCount (totalLength bl) ∧
          manager.channel.chunkCount (totalLength bl) ≤ manager.channel.freeChunks.length ∧
          out.manager.channel = ⟨manager.channel.chunkSize,
            manager.channel.freeChunks.take (manager.channel.freeChunks.length -
              manager.channel.chunkCount (totalLength bl))⟩)) := by
  obtain ⟨⟨tx, manager'⟩, htx, hrest⟩ := Option.bind_eq_some_iff.mp h
  obtain ⟨⟨ret, channel⟩, hget, hmanager⟩ := Option.map_eq_some_iff.mp htx
  obtain ⟨chunk', _, hpost⟩ := Option.bind_eq_some_iff.mp hrest
  simp only [Prod.mk.injEq] at hmanager
  obtain ⟨rfl, rfl⟩ := hmanager
  have hids : ∀ xs : List ChunkId, (xs.map (sendWr chunk')).map SendWr.wrId = xs := by
    intro xs
    simp [sendWr, Function.comp_def]
  have hout : (out.accepted ++ out.refused).map SendWr.wrId = ret ∧ ret ≠ [] ∧
      out.manager = { manager with channel } := by
    cases fails with
    | none =>
      dsimp only at hpost
      split_ifs at hpost with hempty
      obtain rfl := Option.some.inj hpost
      refine ⟨by rw [List.append_nil, hids], ?_, rfl⟩
      rintro rfl
      exact hempty rfl
    | some j =>
      dsimp only at hpost
      split_ifs at hpost with hj
      obtain rfl := Option.some.inj hpost
      refine ⟨by rw [List.take_append_drop, hids], ?_, rfl⟩
      rintro rfl
      exact absurd hj (Nat.not_lt_zero j)
  obtain ⟨hchain, hnonempty, hmanager⟩ := hout
  rw [hmanager, hchain]
  by_cases hzero : totalLength bl = 0
  · rw [Cluster.getBuffers, if_pos hzero] at hget
    simp only [Option.some.injEq, Prod.mk.injEq] at hget
    obtain ⟨rfl, rfl⟩ := hget
    refine ⟨by rw [Cluster.nextChunks, if_pos hzero], rfl, .inl ⟨hzero, rfl⟩⟩
  · rw [Cluster.nextChunks, if_neg hzero]
    obtain ⟨_, ⟨_, hnil, _⟩ | ⟨hle, rfl, rfl⟩⟩ := Cluster.getBuffers_cases hzero hget
    · exact absurd hnil hnonempty
    · refine ⟨rfl, rfl, .inr ⟨hzero, ?_, hle, rfl⟩⟩
      apply Nat.pos_of_ne_zero
      intro hcount
      rw [hcount, List.take_zero] at hnonempty
      exact hnonempty rfl

/-- Nothing is written for a bufferlist without bytes. -/
theorem copyBuffers_of_empty {chunk : ChunkId → Chunk} {current : List ChunkId}
    {bl : List (List UInt8)} (h : totalLength bl = 0) :
    copyBuffers chunk current bl = some chunk := by
  induction bl with
  | nil => rfl
  | cons data bl ih =>
    simp only [totalLength, List.map_cons, List.sum_cons, Nat.add_eq_zero_iff,
      List.length_eq_zero_iff] at h
    obtain ⟨rfl, hrest⟩ := h
    have hnothing : copyBuffer chunk current [] = some (chunk, current) := by
      cases current <;> rfl
    rw [copyBuffers, hnothing, Option.bind_some]
    exact ih hrest

/-- `send` copies the bufferlist to the next chunks of the channel. -/
theorem copyBuffers_of_send {chunk : ChunkId → Chunk} {manager : MemoryManager}
    {bl : List (List UInt8)} {fails : Option ℕ} {out : SendOutcome}
    (h : send chunk manager bl fails = some out) :
    copyBuffers chunk (manager.channel.nextChunks (totalLength bl)) bl = some out.chunk := by
  obtain ⟨hnext, _⟩ := send_cases h
  obtain ⟨⟨tx, manager'⟩, _, hrest⟩ := Option.bind_eq_some_iff.mp h
  obtain ⟨chunk', hcopy, hpost⟩ := Option.bind_eq_some_iff.mp hrest
  have hids : ((tx.map (sendWr chunk')).map SendWr.wrId) = tx := by
    simp [sendWr, Function.comp_def]
  have hout : out.chunk = chunk' ∧ out.accepted ++ out.refused = tx.map (sendWr chunk') := by
    cases fails with
    | none =>
      dsimp only at hpost
      split_ifs at hpost
      obtain rfl := Option.some.inj hpost
      exact ⟨rfl, List.append_nil _⟩
    | some j =>
      dsimp only at hpost
      split_ifs at hpost
      obtain rfl := Option.some.inj hpost
      exact ⟨rfl, List.take_append_drop ..⟩
  rw [hout.2, hids] at hnext
  rw [← hnext, hout.1]
  exact hcopy

end RdmaTransport
