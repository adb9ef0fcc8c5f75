import RdmaTransport.Lib.Runs
import RdmaTransport.ClusterAdd
import RdmaTransport.Packing

/-!
# Where the chunks are

The memory manager moves chunks between two free lists and its callers:
`get_channel_buffers` hands chunks out, `return_rx` and `return_channel` take a chunk back
to one of the lists. Callers return only what they hold. As long as `register_rx_tx` is
called with sizes that do not overflow, no chunk is ever lost or duplicated, and the
chunks handed out are as many as the bytes need.
-/

namespace RdmaTransport

open Runs
open scoped List

/-- `register_rx_tx` creates the chunks asked for: the first ones for receiving, the
others for sending. -/
theorem MemoryManager.registerRxTx_eq (host : Host) {size rxNum txNum : UInt32}
    (hsize : 0 < size.toNat) (hrx : size.toNat * rxNum.toNat < 2 ^ 32)
    (htx : size.toNat * txNum.toNat < 2 ^ 32) :
    ∃ pool, registerRxTx host size rxNum txNum =
        some (pool, ⟨⟨size.toNat, List.range' 0 rxNum.toNat⟩,
          ⟨size.toNat, List.range' rxNum.toNat txNum.toNat⟩⟩) ∧
      pool.created = rxNum.toNat + txNum.toNat := by
  obtain ⟨pool₁, hadd₁, hcreated₁⟩ := Cluster.add_eq host (host.base 0)
    ⟨fun _ => ⟨0, [], 0, 0, 0⟩, 0⟩ ⟨size.toNat, []⟩ hsize hrx size.toNat_lt
  obtain ⟨pool₂, hadd₂, hcreated₂⟩ := Cluster.add_eq host (host.base 1) pool₁
    ⟨size.toNat, []⟩ hsize htx size.toNat_lt
  dsimp only at hcreated₁ hadd₁ hadd₂
  rw [Nat.zero_add] at hcreated₁
  rw [hcreated₁] at hadd₂ hcreated₂
  refine ⟨pool₂, ?_, hcreated₂⟩
  simp [registerRxTx, hadd₁, hadd₂]

/-- The memory manager and the chunks its callers hold. -/
structure PoolState where
  /-- The memory manager. -/
  manager : MemoryManager
  /-- The chunks handed out and not returned. -/
  outstanding : List ChunkId

/-- The calls of the memory manager. -/
inductive PoolAction
  /-- `get_channel_buffers(bytes)`. -/
  | getChannelBuffers (bytes : ℕ)
  /-- `return_channel(c)`. -/
  | returnChannel (c : ChunkId)
  /-- `return_rx(c)`. -/
  | returnRx (c : ChunkId)

/-- One call. Callers ask for at least one byte and for a 32-bit number of them, and
return only chunks they hold. -/
def PoolState.step (s : PoolState) : PoolAction → Option PoolState
  | .getChannelBuffers bytes =>
      if 1 ≤ bytes ∧ bytes < 2 ^ 32 then
        (s.manager.getChannelBuffers bytes).map fun (ret, manager) =>
          ⟨manager, s.outstanding ++ ret⟩
      else none
  | .returnChannel c =>
      if c ∈ s.outstanding then some ⟨s.manager.returnChannel c, s.outstanding.erase c⟩ else none
  | .returnRx c =>
      if c ∈ s.outstanding then some ⟨s.manager.returnRx c, s.outstanding.erase c⟩ else none

/-- The chunks in the two free lists and those outstanding. -/
def PoolState.chunks (s : PoolState) : List ChunkId :=
  s.manager.channel.freeChunks ++ (s.manager.send.freeChunks ++ s.outstanding)

/-- What `get_channel_buffers` does for a positive 32-bit number of bytes: it takes as many
chunks as the bytes need from the back of the free list, or nothing if there are fewer. -/
theorem MemoryManager.getChannelBuffers_cases (manager : MemoryManager) {bytes : ℕ}
    (hsize : 0 < manager.channel.chunkSize) (hpos : 1 ≤ bytes) (hbytes : bytes < 2 ^ 32) :
    ∃ ret manager', manager.getChannelBuffers bytes = some (ret, manager') ∧
      manager'.send = manager.send ∧ manager'.channel.chunkSize = manager.channel.chunkSize ∧
      manager'.channel.freeChunks ++ ret.reverse = manager.channel.freeChunks ∧
      (((bytes + manager.channel.chunkSize - 1) / manager.channel.chunkSize ≤
          manager.channel.freeChunks.length ∧
        ret.length = (bytes + manager.channel.chunkSize - 1) / manager.channel.chunkSize) ∨
      (manager.channel.freeChunks.length <
          (bytes + manager.channel.chunkSize - 1) / manager.channel.chunkSize ∧
        ret = [] ∧ manager' = manager)) := by
  have hcount := Cluster.chunkCount_eq hsize hbytes
  rw [← hcount]
  by_cases hfew : manager.channel.freeChunks.length < manager.channel.chunkCount bytes
  · refine ⟨[], manager, ?_, rfl, rfl, by simp, .inr ⟨hfew, rfl, rfl⟩⟩
    rw [getChannelBuffers, Cluster.getBuffers, if_neg (by omega), if_neg (by omega)]
    simp [hfew]
  · have hget := MemoryManager.getTxBuffers_eq hsize hpos (Nat.not_lt.mp hfew)
    refine ⟨_, _, hget, rfl, rfl, ?_, .inl ⟨Nat.not_lt.mp hfew, ?_⟩⟩
    · rw [List.take_reverse, List.reverse_reverse]
      exact List.take_append_drop ..
    · rw [List.length_take, List.length_reverse]
      omega

/-- Every call only moves chunks, and the chunk size stays. -/
theorem PoolState.step_perm {s t : PoolState} {a : PoolAction}
    (hsize : 0 < s.manager.channel.chunkSize) (h : s.step a = some t) :
    t.chunks.Perm s.chunks ∧ t.manager.channel.chunkSize = s.manager.channel.chunkSize := by
  cases a with
  | getChannelBuffers bytes =>
    simp only [step] at h
    split_ifs at h with hbytes
    obtain ⟨ret, manager', hget, hsend, hkept, hfree, _⟩ :=
      MemoryManager.getChannelBuffers_cases s.manager hsize hbytes.1 hbytes.2
    rw [hget, Option.map_some, Option.some.injEq] at h
    subst h
    refine ⟨?_, hkept⟩
    simp only [chunks, hsend, ← hfree, List.append_assoc]
    refine List.Perm.append_left _ ?_
    -- The chunks handed out move behind the others.
    calc s.manager.send.freeChunks ++ (s.outstanding ++ ret)
        = (s.manager.send.freeChunks ++ s.outstanding) ++ ret := (List.append_assoc ..).symm
      _ ~ ret ++ (s.manager.send.freeChunks ++ s.outstanding) := List.perm_append_comm
      _ ~ ret.reverse ++ (s.manager.send.freeChunks ++ s.outstanding) :=
          (List.reverse_perm ret).symm.append_right _
  | returnChannel c =>
    simp only [step] at h
    split_ifs at h with hc
    obtain rfl := Option.some.inj h
    refine ⟨?_, rfl⟩
    simp only [chunks, MemoryManager.returnChannel, Cluster.takeBack, List.append_assoc]
    refine List.Perm.append_left _ (List.Perm.append_left _ ?_)
    exact (List.perm_cons_erase hc).symm
  | returnRx c =>
    simp only [step] at h
    split_ifs at h with hc
    obtain rfl := Option.some.inj h
    refine ⟨?_, rfl⟩
    simp only [chunks, MemoryManager.returnRx, Cluster.takeBack, List.append_assoc]
    refine List.Perm.append_left _ ?_
    have hback : s.outstanding.Perm ([c] ++ s.outstanding.erase c) := List.perm_cons_erase hc
    have hmove := List.perm_append_comm_assoc [c] s.manager.send.freeChunks (s.outstanding.erase c)
    exact hmove.trans (hback.symm.append_left _)

/-- **Every chunk is somewhere, once.** `register_rx_tx` creates the chunks asked for, and
after any calls of the memory manager the chunks in the free lists and those outstanding
are the chunks created, each of them once. A call of `get_channel_buffers` returns as many
different chunks as the bytes need, or, exactly when fewer are free, none and leaves the
free lists alone. -/
theorem chunks_accounted (host : Host) (size rxNum txNum : UInt32) (hsize : 0 < size.toNat)
    (hrx : size.toNat * rxNum.toNat < 2 ^ 32) (htx : size.toNat * txNum.toNat < 2 ^ 32) :
    ∃ pool manager, MemoryManager.registerRxTx host size rxNum txNum = some (pool, manager) ∧
      pool.created = rxNum.toNat + txNum.toNat ∧
      ∀ acts s, exec PoolState.step ⟨manager, []⟩ acts = some s →
        s.chunks.Nodup ∧ (∀ c, c ∈ s.chunks ↔ c < pool.created) ∧
        ∀ bytes, 1 ≤ bytes → bytes < 2 ^ 32 →
          ∃ ret manager', s.manager.getChannelBuffers bytes = some (ret, manager') ∧
            (((bytes + size.toNat - 1) / size.toNat ≤ s.manager.channel.freeChunks.length ∧
              ret.length = (bytes + size.toNat - 1) / size.toNat ∧ ret.Nodup) ∨
            (s.manager.channel.freeChunks.length < (bytes + size.toNat - 1) / size.toNat ∧
              ret = [] ∧ manager' = s.manager)) := by
  obtain ⟨pool, hregister, hcreated⟩ := MemoryManager.registerRxTx_eq host hsize hrx htx
  refine ⟨pool, _, hregister, hcreated, ?_⟩
  intro acts s hrun
  have hinv : s.chunks.Perm (List.range pool.created) ∧
      s.manager.channel.chunkSize = size.toNat := by
    refine invariant_of_exec (fun s => s.chunks.Perm (List.range pool.created) ∧
      s.manager.channel.chunkSize = size.toNat) ?_ ⟨?_, rfl⟩ hrun
    · rintro s a t ⟨hperm, hkept⟩ hstep
      obtain ⟨hmoved, hkept'⟩ := PoolState.step_perm (by omega) hstep
      exact ⟨hmoved.trans hperm, hkept'.trans hkept⟩
    · have happend : List.range' 0 rxNum.toNat ++ List.range' rxNum.toNat txNum.toNat =
          List.range' 0 (rxNum.toNat + txNum.toNat) := by
        simpa using @List.range'_append_1 0 rxNum.toNat txNum.toNat
      rw [PoolState.chunks, List.append_nil, happend, hcreated, List.range_eq_range']
  obtain ⟨hperm, hkept⟩ := hinv
  have hnodup : s.chunks.Nodup := hperm.nodup_iff.mpr List.nodup_range
  refine ⟨hnodup, fun c => hperm.mem_iff.trans List.mem_range, ?_⟩
  intro bytes hpos hbytes
  obtain ⟨ret, manager', hget, _, _, hfree, hcases⟩ :=
    MemoryManager.getChannelBuffers_cases s.manager (by omega) hpos hbytes
  rw [hkept] at hcases
  refine ⟨ret, manager', hget, ?_⟩
  rcases hcases with ⟨henough, hlength⟩ | hfew
  · have hchannel : s.manager.channel.freeChunks.Nodup := (List.nodup_append.mp hnodup).1
    rw [← hfree] at hchannel
    exact .inl ⟨henough, hlength, List.nodup_reverse.mp (List.nodup_append.mp hchannel).2.1⟩
  · exact .inr hfew

/-- Three chunks of two bytes: one is handed out and returned to the other list, and the
one left cannot serve three bytes. -/
theorem chunks_accounted_three :
    ∃ pool manager s, MemoryManager.registerRxTx plainHost 2 2 1 = some (pool, manager) ∧
      exec PoolState.step ⟨manager, []⟩ [.getChannelBuffers 1, .returnChannel 1] = some s ∧
      s.chunks.Nodup ∧ (∀ c, c ∈ s.chunks ↔ c < pool.created) ∧
      s.manager.getChannelBuffers 3 = some ([], s.manager) := by
  obtain ⟨pool, manager, hregister, _, hruns⟩ :=
    chunks_accounted plainHost 2 2 1 (by decide) (by decide) (by decide)
  have hrun : ((MemoryManager.registerRxTx plainHost 2 2 1).bind fun made =>
      exec PoolState.step ⟨made.2, []⟩ [.getChannelBuffers 1, .returnChannel 1]).map
        (fun s => s.manager.channel.freeChunks) = some [0] := by decide +kernel
  rw [hregister, Option.bind_some] at hrun
  obtain ⟨s, hs, hfree⟩ := Option.map_eq_some_iff.mp hrun
  obtain ⟨hnodup, hmem, hget⟩ := hruns _ s hs
  obtain ⟨ret, manager', hget', hcases⟩ := hget 3 (by decide) (by decide)
  rw [hfree] at hcases
  refine ⟨pool, manager, s, hregister, hs, hnodup, hmem, ?_⟩
  rcases hcases with ⟨henough, _⟩ | ⟨_, rfl, rfl⟩
  · exact absurd henough (by decide)
  · exact hget'

end RdmaTransport
