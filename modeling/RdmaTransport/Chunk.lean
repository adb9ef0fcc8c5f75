import RdmaTransport.Lib.Memory
import Mathlib.Data.List.Nodup
import Mathlib.Data.List.Range
import Mathlib.Logic.Function.Basic

/-!
# Chunks, clusters and the memory manager

`Infiniband::MemoryManager` hands out registered buffers of a fixed size. A `Chunk`
carries one position that serves writing and reading alike, and a `Cluster` is a
stack of free chunks. The definitions follow `rdma/Infiniband.h`; the chunk objects
live in a pool and are referred to by their index there, as the source refers to
them by pointer. Unsigned arithmetic that the source leaves to wrap is written with
its modulus.
-/

namespace RdmaTransport

open Memory

/-- A pointer to a chunk object. -/
abbrev ChunkId := ℕ

/-- Subtraction of type `size_t`. -/
def sizeSub (a b : ℕ) : ℕ := (a + 2 ^ 64 - b) % 2 ^ 64

/-- Without a borrow the unsigned subtraction is the ordinary one. -/
theorem sizeSub_eq {a b : ℕ} (hle : b ≤ a) (ha : a < 2 ^ 64) : sizeSub a b = a - b := by
  unfold sizeSub
  omega

/-- `MemoryManager::Chunk`. -/
structure Chunk where
  /-- The address of the registered memory. -/
  address : ℕ
  /-- The bytes stored there. -/
  buffer : List UInt8
  /-- The size of the memory, of type `uint32_t`. -/
  bytes : ℕ
  /-- The position of the next access, of type `size_t`. -/
  offset : ℕ
  /-- The local key of the memory region, `mr->lkey`. -/
  lkey : ℕ

/-- The chunk's memory has the recorded size and its position lies inside it. -/
structure Chunk.Valid (c : Chunk) : Prop where
  /-- The memory has `bytes` bytes. -/
  length_eq : c.buffer.length = c.bytes
  /-- The position does not pass the end. -/
  offset_le : c.offset ≤ c.bytes
  /-- The size is a 32-bit number. -/
  bytes_lt : c.bytes < 2 ^ 32

/-- `Chunk::read`: the new chunk, the bytes copied out and the returned count. A
request beyond the end is cut there and sets the position back to zero. -/
def Chunk.read (c : Chunk) (len : ℕ) : Chunk × List UInt8 × ℕ :=
  let left := sizeSub c.bytes c.offset
  if len ≤ left then
    ({ c with offset := (c.offset + len) % 2 ^ 64 }, (c.buffer.drop c.offset).take len, len)
  else
    ({ c with offset := 0 }, (c.buffer.drop c.offset).take left, left)

/-- `Chunk::write`: the new chunk and the returned count. Data beyond the end is
not taken. -/
def Chunk.write (c : Chunk) (data : List UInt8) : Chunk × ℕ :=
  let left := sizeSub c.bytes c.offset
  if data.length ≤ left then
    ({ c with
      buffer := overwrite c.buffer c.offset data
      offset := (c.offset + data.length) % 2 ^ 64 }, data.length)
  else
    ({ c with buffer := overwrite c.buffer c.offset (data.take left), offset := c.bytes }, left)

/-- `Chunk::full`. -/
def Chunk.full (c : Chunk) : Bool := c.offset == c.bytes

/-- The space left after the position of a valid chunk. -/
theorem Chunk.Valid.left_eq {c : Chunk} (h : c.Valid) :
    sizeSub c.bytes c.offset = c.bytes - c.offset :=
  sizeSub_eq h.offset_le (h.bytes_lt.trans (by decide))

/-- `Chunk::read` on a valid chunk, in ordinary arithmetic. -/
theorem Chunk.Valid.read_eq {c : Chunk} (h : c.Valid) (len : ℕ) :
    c.read len =
      ({ c with offset := if len ≤ c.bytes - c.offset then c.offset + len else 0 },
        (c.buffer.drop c.offset).take (min len (c.bytes - c.offset)),
        min len (c.bytes - c.offset)) := by
  have hbytes := h.bytes_lt
  have hoffset := h.offset_le
  unfold Chunk.read
  simp only [h.left_eq]
  split_ifs with hlen
  · rw [min_eq_left hlen, Nat.mod_eq_of_lt (by omega)]
  · rw [min_eq_right (by omega)]

/-- Reading keeps a chunk valid. -/
theorem Chunk.Valid.read {c : Chunk} (h : c.Valid) (len : ℕ) : (c.read len).1.Valid := by
  rw [h.read_eq]
  refine ⟨h.length_eq, ?_, h.bytes_lt⟩
  have := h.offset_le
  dsimp only
  split_ifs <;> omega

/-- `Chunk::write` on a valid chunk, in ordinary arithmetic. -/
theorem Chunk.Valid.write_eq {c : Chunk} (h : c.Valid) (data : List UInt8) :
    c.write data =
      ({ c with
        buffer := overwrite c.buffer c.offset (data.take (c.bytes - c.offset))
        offset := min (c.offset + data.length) c.bytes },
        min data.length (c.bytes - c.offset)) := by
  have hbytes := h.bytes_lt
  have hoffset := h.offset_le
  unfold Chunk.write
  simp only [h.left_eq]
  split_ifs with hlen
  · rw [List.take_of_length_le hlen, min_eq_left hlen, Nat.mod_eq_of_lt (by omega),
      min_eq_left (by omega)]
  · rw [min_eq_right (by omega), min_eq_right (by omega)]

/-- Writing keeps a chunk valid. -/
theorem Chunk.Valid.write {c : Chunk} (h : c.Valid) (data : List UInt8) :
    (c.write data).1.Valid := by
  rw [h.write_eq]
  have hlen := h.length_eq
  have hoffset := h.offset_le
  refine ⟨?_, min_le_right _ _, h.bytes_lt⟩
  dsimp only
  rw [overwrite_length, h.length_eq]
  rw [List.length_take]
  omega

/-- A write appends what fits to the bytes written. -/
theorem Chunk.Valid.write_content {c : Chunk} (h : c.Valid) (data : List UInt8) :
    (c.write data).1.buffer.take (c.write data).1.offset =
      c.buffer.take c.offset ++ data.take (c.bytes - c.offset) := by
  have hlen := h.length_eq
  have hle := h.offset_le
  rw [h.write_eq]
  dsimp only
  rw [overwrite]
  apply List.take_left'
  rw [List.length_append, List.length_take, List.length_take]
  omega

/-- A write that does not fill the chunk has taken all the data. -/
theorem Chunk.write_count_of_not_full {c : Chunk} {data : List UInt8}
    (h : (c.write data).1.full = false) : (c.write data).2 = data.length := by
  unfold Chunk.write at h ⊢
  dsimp only at h ⊢
  split_ifs at h ⊢ with hlen
  · rfl
  · simp [Chunk.full] at h

/-- The memory the program is given: where each `malloc` places its block, what the
bytes there are before they are written, and the key a region at an address gets. -/
structure Host where
  /-- The address returned by the `k`-th allocation. -/
  base : ℕ → ℕ
  /-- The byte found at an address of a fresh block. -/
  content : ℕ → UInt8
  /-- The local key of the region registered at an address. -/
  lkey : ℕ → ℕ

/-- A host with widely spaced blocks of zero bytes. -/
def plainHost : Host := ⟨fun k => k * 2 ^ 32, fun _ => 0, fun a => a⟩

/-- The chunk objects created so far. -/
structure Pool where
  /-- The object a pointer refers to. -/
  chunk : ChunkId → Chunk
  /-- The number of objects created. -/
  created : ℕ

/-- `new Chunk(address, size, mr)`. -/
def Pool.newChunk (pool : Pool) (host : Host) (address size : ℕ) : Pool × ChunkId :=
  (⟨Function.update pool.chunk pool.created
    ⟨address, (List.range size).map fun i => host.content (address + i), size, 0,
      host.lkey address⟩, pool.created + 1⟩, pool.created)

/-- `MemoryManager::Cluster`. -/
structure Cluster where
  /-- The size of each chunk, of type `uint32_t`. -/
  chunkSize : ℕ
  /-- The free chunks; the back of the vector is the end of the list. -/
  freeChunks : List ChunkId
  deriving DecidableEq

/-- The values of `offset` in the loop of `Cluster::add`, or `none` when the loop is
still running after the given number of iterations. -/
def Cluster.addOffsets (chunkSize bytes : ℕ) : ℕ → ℕ → Option (List ℕ)
  | 0, offset => if offset < bytes then none else some []
  | fuel + 1, offset =>
      if offset < bytes then
        (addOffsets chunkSize bytes fuel ((offset + chunkSize) % 2 ^ 32)).map (offset :: ·)
      else some []

/-- The body of the loop of `Cluster::add`. -/
def Cluster.addChunk (host : Host) (base : ℕ) (state : Pool × Cluster) (offset : ℕ) :
    Pool × Cluster :=
  let (pool, id) := state.1.newChunk host (base + offset) state.2.chunkSize
  (pool, { state.2 with freeChunks := state.2.freeChunks ++ [id] })

/-- `Cluster::add`: register `num` chunks inside the block allocated at `base`. -/
def Cluster.add (host : Host) (base : ℕ) (pool : Pool) (cluster : Cluster) (num : ℕ) :
    Option (Pool × Cluster) :=
  (addOffsets cluster.chunkSize (cluster.chunkSize * num % 2 ^ 32) num 0).map fun offsets =>
    offsets.foldl (addChunk host base) (pool, cluster)

/-- `Cluster::take_back`. -/
def Cluster.takeBack (cluster : Cluster) (c : ChunkId) : Cluster :=
  { cluster with freeChunks := cluster.freeChunks ++ [c] }

/-- The number of chunks `get_buffers` computes for a nonzero byte count, in 32-bit
arithmetic. -/
def Cluster.chunkCount (cluster : Cluster) (bytes : ℕ) : ℕ :=
  let num := (bytes / cluster.chunkSize + 1) % 2 ^ 32
  if bytes % cluster.chunkSize = 0 then (num + 2 ^ 32 - 1) % 2 ^ 32 else num

/-- The loop of `get_buffers`: move `num` chunks from the back of the free list. The
list is known to be long enough, so that `back` is never called on an empty vector. -/
def Cluster.popChunks : ℕ → List ChunkId → List ChunkId → List ChunkId × List ChunkId
  | 0, free, ret => (ret, free)
  | num + 1, free, ret =>
      match free.getLast? with
      | some c => popChunks num free.dropLast (ret ++ [c])
      | none => (ret, free)

/-- `Cluster::get_buffers`: the chunks returned and the cluster left. A zero count
returns a copy of the free list and removes nothing; `none` is the division by a
zero chunk size. -/
def Cluster.getBuffers (cluster : Cluster) (bytes : ℕ) : Option (List ChunkId × Cluster) :=
  if bytes = 0 then some (cluster.freeChunks, cluster)
  else if cluster.chunkSize = 0 then none
  else
    let num := cluster.chunkCount bytes
    if cluster.freeChunks.length < num then some ([], cluster)
    else
      let (ret, free) := popChunks num cluster.freeChunks []
      some (ret, { cluster with freeChunks := free })

/-- `MemoryManager`: the cluster declared for receiving and the one declared for
sending. -/
structure MemoryManager where
  /-- The cluster commented `RECV` in the source. -/
  channel : Cluster
  /-- The cluster commented `SEND` in the source. -/
  send : Cluster
  deriving DecidableEq

/-- `MemoryManager::register_rx_tx`. -/
def MemoryManager.registerRxTx (host : Host) (size rxNum txNum : UInt32) :
    Option (Pool × MemoryManager) := do
  let pool : Pool := ⟨fun _ => ⟨0, [], 0, 0, 0⟩, 0⟩
  let (pool, channel) ← Cluster.add host (host.base 0) pool ⟨size.toNat, []⟩ rxNum.toNat
  let (pool, send) ← Cluster.add host (host.base 1) pool ⟨size.toNat, []⟩ txNum.toNat
  some (pool, ⟨channel, send⟩)

/-- `MemoryManager::return_channel`. -/
def MemoryManager.returnChannel (manager : MemoryManager) (c : ChunkId) : MemoryManager :=
  { manager with send := manager.send.takeBack c }

/-- Chunks given back one after the other join the free list for sending in that
order. -/
theorem MemoryManager.foldl_returnChannel (manager : MemoryManager) (cs : List ChunkId) :
    cs.foldl returnChannel manager = { manager with
      send := ⟨manager.send.chunkSize, manager.send.freeChunks ++ cs⟩ } := by
  induction cs generalizing manager with
  | nil => simp
  | cons c rest ih => simp [ih, returnChannel, Cluster.takeBack]

/-- `MemoryManager::return_rx`. -/
def MemoryManager.returnRx (manager : MemoryManager) (c : ChunkId) : MemoryManager :=
  { manager with channel := manager.channel.takeBack c }

/-- `MemoryManager::get_channel_buffers`. -/
def MemoryManager.getChannelBuffers (manager : MemoryManager) (bytes : ℕ) :
    Option (List ChunkId × MemoryManager) :=
  (manager.channel.getBuffers bytes).map fun (ret, channel) => (ret, { manager with channel })

/-- `Infiniband::get_tx_buffers`. -/
def MemoryManager.getTxBuffers (manager : MemoryManager) (bytes : ℕ) :
    Option (List ChunkId × MemoryManager) :=
  manager.getChannelBuffers bytes

/-- The chunks taken from the back of a long enough free list, and the ones left. -/
theorem Cluster.popChunks_eq {num : ℕ} {free : List ChunkId} (h : num ≤ free.length)
    (ret : List ChunkId) :
    popChunks num free ret = (ret ++ free.reverse.take num, free.take (free.length - num)) := by
  induction num generalizing free ret with
  | zero => simp [popChunks]
  | succ num ih =>
    rcases List.eq_nil_or_concat' free with rfl | ⟨init, c, rfl⟩
    · simp at h
    · simp only [List.length_append, List.length_cons, List.length_nil] at h
      have hsub : init.length + 1 - (num + 1) = init.length - num := by omega
      simp only [popChunks, List.getLast?_append, List.getLast?_singleton, Option.some_or,
        List.dropLast_concat, List.reverse_append, List.reverse_singleton, List.singleton_append,
        List.take_succ_cons, List.length_append, List.length_singleton, hsub]
      rw [ih (by omega), List.append_assoc, List.singleton_append,
        List.take_append_of_le_length (by omega)]

/-- All that `get_buffers` can do for a nonzero byte count: hand out the last chunks
of a long enough free list, or nothing when there are too few. -/
theorem Cluster.getBuffers_cases {cluster cluster' : Cluster} {bytes : ℕ} {ret : List ChunkId}
    (hbytes : bytes ≠ 0) (h : cluster.getBuffers bytes = some (ret, cluster')) :
    cluster.chunkSize ≠ 0 ∧
    ((cluster.freeChunks.length < cluster.chunkCount bytes ∧ ret = [] ∧ cluster' = cluster) ∨
    (cluster.chunkCount bytes ≤ cluster.freeChunks.length ∧
      ret = cluster.freeChunks.reverse.take (cluster.chunkCount bytes) ∧
      cluster' = ⟨cluster.chunkSize,
        cluster.freeChunks.take (cluster.freeChunks.length - cluster.chunkCount bytes)⟩)) := by
  unfold getBuffers at h
  rw [if_neg hbytes] at h
  split_ifs at h with hsize
  dsimp only at h
  split_ifs at h with hfew
  · simp only [Option.some.injEq, Prod.mk.injEq] at h
    exact ⟨hsize, .inl ⟨hfew, h.1.symm, h.2.symm⟩⟩
  · rw [popChunks_eq (by omega)] at h
    simp only [List.nil_append, Option.some.injEq, Prod.mk.injEq] at h
    exact ⟨hsize, .inr ⟨by omega, h.1.symm, h.2.symm⟩⟩

/-- The loop of `Cluster::add` ends after at most `num` iterations: after that many
its variable has the same residue as its bound. -/
theorem Cluster.addOffsets_isSome (chunkSize num : ℕ) {fuel k : ℕ} (h : fuel + k = num) :
    (addOffsets chunkSize (chunkSize * num % 2 ^ 32) fuel (chunkSize * k % 2 ^ 32)).isSome := by
  induction fuel generalizing k with
  | zero =>
    obtain rfl : k = num := by omega
    simp [addOffsets]
  | succ fuel ih =>
    have hnext : (chunkSize * k % 2 ^ 32 + chunkSize) % 2 ^ 32 = chunkSize * (k + 1) % 2 ^ 32 := by
      rw [Nat.mod_add_mod, Nat.mul_succ]
    unfold addOffsets
    split_ifs
    · rw [hnext, Option.isSome_map]
      exact ih (by omega)
    · rfl

/-- A chunk as it is created: valid and positioned at its start. -/
def Chunk.Clean (c : Chunk) : Prop := c.Valid ∧ c.offset = 0

/-- The chunks created by the loop of `Cluster::add` are numbered consecutively and
clean; older chunks are not touched. -/
theorem Cluster.foldl_addChunk (host : Host) (base : ℕ) (offsets : List ℕ) (pool : Pool)
    (cluster : Cluster) (hsize : cluster.chunkSize < 2 ^ 32) :
    let out := offsets.foldl (addChunk host base) (pool, cluster)
    out.1.created = pool.created + offsets.length ∧
    out.2.chunkSize = cluster.chunkSize ∧
    out.2.freeChunks = cluster.freeChunks ++ List.range' pool.created offsets.length ∧
    ((∀ c, (pool.chunk c).Clean) → ∀ c, (out.1.chunk c).Clean) := by
  induction offsets generalizing pool cluster with
  | nil => simp
  | cons offset rest ih =>
    obtain ⟨hcreated, hchunk, hfree, hclean⟩ :=
      ih (addChunk host base (pool, cluster) offset).1 (addChunk host base (pool, cluster) offset).2
        hsize
    refine ⟨?_, hchunk, ?_, fun hpool => hclean fun c => ?_⟩
    · rw [List.foldl_cons, hcreated, List.length_cons]
      simp only [addChunk, Pool.newChunk]
      omega
    · rw [List.foldl_cons, hfree, List.length_cons, List.range'_succ]
      simp [addChunk, Pool.newChunk]
    · by_cases hc : c = pool.created
      · subst hc
        simp only [addChunk, Pool.newChunk, Function.update_self]
        exact ⟨⟨by simp, by simp, hsize⟩, rfl⟩
      · simpa only [addChunk, Pool.newChunk, Function.update_of_ne hc] using hpool c

/-- `Cluster::add` always returns, with consecutively numbered clean chunks. -/
theorem Cluster.add_spec (host : Host) (base : ℕ) (pool : Pool) (cluster : Cluster) (num : ℕ)
    (hsize : cluster.chunkSize < 2 ^ 32) :
    ∃ pool' cluster' n, Cluster.add host base pool cluster num = some (pool', cluster') ∧
      pool'.created = pool.created + n ∧ cluster'.chunkSize = cluster.chunkSize ∧
      cluster'.freeChunks = cluster.freeChunks ++ List.range' pool.created n ∧
      ((∀ c, (pool.chunk c).Clean) → ∀ c, (pool'.chunk c).Clean) := by
  have hsome := addOffsets_isSome cluster.chunkSize num (Nat.add_zero num)
  obtain ⟨offsets, hoffsets⟩ := Option.isSome_iff_exists.mp hsome
  rw [Nat.mul_zero, Nat.zero_mod] at hoffsets
  have hfold := foldl_addChunk host base offsets pool cluster hsize
  refine ⟨(offsets.foldl (addChunk host base) (pool, cluster)).1,
    (offsets.foldl (addChunk host base) (pool, cluster)).2, offsets.length, ?_, hfold⟩
  rw [Cluster.add, hoffsets]
  rfl

/-- After `register_rx_tx` the two free lists hold different chunks, all clean. -/
theorem MemoryManager.registerRxTx_spec (host : Host) (size rxNum txNum : UInt32) :
    ∃ pool manager, registerRxTx host size rxNum txNum = some (pool, manager) ∧
      (∀ c, (pool.chunk c).Clean) ∧
      manager.channel.chunkSize = size.toNat ∧ manager.send.chunkSize = size.toNat ∧
      (manager.channel.freeChunks ++ manager.send.freeChunks).Nodup := by
  have hsize : size.toNat < 2 ^ 32 := size.toNat_lt
  obtain ⟨pool₁, channel, n, hadd₁, hcreated₁, hchunk₁, hfree₁, hclean₁⟩ :=
    Cluster.add_spec host (host.base 0) ⟨fun _ => ⟨0, [], 0, 0, 0⟩, 0⟩ ⟨size.toNat, []⟩
      rxNum.toNat hsize
  obtain ⟨pool₂, send, m, hadd₂, hcreated₂, hchunk₂, hfree₂, hclean₂⟩ :=
    Cluster.add_spec host (host.base 1) pool₁ ⟨size.toNat, []⟩ txNum.toNat hsize
  refine ⟨pool₂, ⟨channel, send⟩, ?_, ?_, hchunk₁, hchunk₂, ?_⟩
  · simp [registerRxTx, hadd₁, hadd₂]
  · apply hclean₂
    apply hclean₁
    intro c
    exact ⟨⟨rfl, Nat.zero_le _, by simp⟩, rfl⟩
  · dsimp only at hcreated₁
    rw [hfree₁, hfree₂, hcreated₁, List.nil_append, List.nil_append, Nat.zero_add]
    have happend : List.range' 0 n ++ List.range' n m = List.range' 0 (n + m) := by
      simpa using @List.range'_append_1 0 n m
    rw [happend]
    exact List.nodup_range'

/-- The free chunks of a cluster have been created and have its size. -/
def Cluster.Sized (pool : Pool) (cluster : Cluster) : Prop :=
  ∀ c ∈ cluster.freeChunks, c < pool.created ∧ (pool.chunk c).bytes = cluster.chunkSize

/-- A new chunk leaves the older ones alone. -/
theorem Cluster.Sized.newChunk {pool : Pool} {cluster : Cluster} (h : cluster.Sized pool)
    (host : Host) (address size : ℕ) : cluster.Sized (pool.newChunk host address size).1 := by
  intro c hc
  obtain ⟨hlt, hbytes⟩ := h c hc
  refine ⟨Nat.lt_succ_of_lt hlt, ?_⟩
  simp only [Pool.newChunk]
  rwa [Function.update_of_ne (Nat.ne_of_lt hlt)]

/-- The loop of `Cluster::add` gives every chunk the size of the cluster, and leaves the
chunks of other clusters alone. -/
theorem Cluster.Sized.foldl_addChunk (host : Host) (base : ℕ) (offsets : List ℕ) (pool : Pool)
    (cluster : Cluster) (h : cluster.Sized pool) :
    let out := offsets.foldl (addChunk host base) (pool, cluster)
    out.2.Sized out.1 ∧ ∀ other : Cluster, other.Sized pool → other.Sized out.1 := by
  induction offsets generalizing pool cluster with
  | nil => exact ⟨h, fun _ hother => hother⟩
  | cons offset rest ih =>
    have hnew : (addChunk host base (pool, cluster) offset).2.Sized
        (addChunk host base (pool, cluster) offset).1 := by
      intro c hc
      rcases List.mem_append.mp hc with hold | hlast
      · exact h.newChunk host (base + offset) cluster.chunkSize c hold
      · rw [List.mem_singleton.mp hlast]
        refine ⟨Nat.lt_succ_self _, ?_⟩
        simp [addChunk, Pool.newChunk]
    obtain ⟨hsized, hothers⟩ := ih _ _ hnew
    refine ⟨hsized, fun other hother => hothers other ?_⟩
    exact hother.newChunk host (base + offset) cluster.chunkSize

/-- `Cluster::add` gives every chunk the size of the cluster, and leaves the chunks of
other clusters alone. -/
theorem Cluster.Sized.add {host : Host} {base num : ℕ} {pool pool' : Pool}
    {cluster cluster' : Cluster} (h : cluster.Sized pool)
    (hadd : Cluster.add host base pool cluster num = some (pool', cluster')) :
    cluster'.Sized pool' ∧ ∀ other : Cluster, other.Sized pool → other.Sized pool' := by
  obtain ⟨offsets, _, hfold⟩ := Option.map_eq_some_iff.mp hadd
  have hout := foldl_addChunk host base offsets pool cluster h
  rw [hfold] at hout
  exact hout

/-- After `register_rx_tx` the free chunks have the size of their cluster. -/
theorem MemoryManager.registerRxTx_sized {host : Host} {size rxNum txNum : UInt32} {pool : Pool}
    {manager : MemoryManager} (h : registerRxTx host size rxNum txNum = some (pool, manager)) :
    manager.channel.Sized pool ∧ manager.send.Sized pool := by
  simp only [registerRxTx, Option.bind_eq_bind, Option.bind_eq_some_iff, Option.some.injEq,
    Prod.exists, Prod.mk.injEq] at h
  obtain ⟨pool₁, channel, hadd₁, pool₂, send, hadd₂, rfl, rfl⟩ := h
  have hempty : ∀ pool : Pool, (⟨size.toNat, []⟩ : Cluster).Sized pool := fun _ c hc => by cases hc
  have hchannel := (Cluster.Sized.add (hempty _) hadd₁).1
  obtain ⟨hsend, hothers⟩ := Cluster.Sized.add (hempty _) hadd₂
  exact ⟨hothers channel hchannel, hsend⟩

end RdmaTransport
