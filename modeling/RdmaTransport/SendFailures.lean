import RdmaTransport.Packing

/-!
# Sends that cannot succeed

`get_buffers` answers a request for zero bytes with all free chunks, which it does not
remove, and a request it cannot serve with an empty vector. `send` distinguishes neither
from a normal answer: it posts every free chunk of the receive cluster for an empty
bufferlist, and runs past the end of the vector when there are too few chunks. When
`ibv_post_send` fails in the middle of the chain, `send` returns without giving back the
chunks that were not accepted. This file determines exactly when such calls leave
everything in order.
-/

namespace RdmaTransport

/-- Chunks of one size with sound memory. -/
def OfSize (size : ℕ) (chunk : ChunkId → Chunk) (ids : List ChunkId) : Prop :=
  ∀ c ∈ ids, (chunk c).Valid ∧ (chunk c).bytes = size

/-- An upper bound of the bytes the copy loop can still take: what is left of the chunk
under the iterator, and all of the chunks behind it. -/
def room (size : ℕ) (chunk : ChunkId → Chunk) : List ChunkId → ℕ
  | [] => 0
  | c :: rest => (size - (chunk c).offset) + rest.length * size

/-- No chunk has room for more than its size. -/
theorem room_le (size : ℕ) (chunk : ChunkId → Chunk) (ids : List ChunkId) :
    room size chunk ids ≤ ids.length * size := by
  cases ids with
  | nil => simp [room]
  | cons c rest =>
    rw [room, List.length_cons, Nat.succ_mul]
    omega

/-- A write keeps the size of all chunks. -/
theorem OfSize.write {size : ℕ} {chunk : ChunkId → Chunk} {ids : List ChunkId}
    (h : OfSize size chunk ids) {c : ChunkId} (hc : c ∈ ids) (data : List UInt8) :
    OfSize size (Function.update chunk c ((chunk c).write data).1) ids := by
  intro d hd
  by_cases hdc : d = c
  · subst hdc
    rw [Function.update_self]
    obtain ⟨hvalid, hbytes⟩ := h d hd
    refine ⟨hvalid.write data, ?_⟩
    rw [hvalid.write_eq]
    exact hbytes
  · rw [Function.update_of_ne hdc]
    exact h d hd

/-- The inner copy loop takes no more bytes than there is room for. The induction is on the
chunks from the iterator on. -/
theorem copyBuffer_room {size : ℕ} {chunk chunk' : ChunkId → Chunk} {current rest : List ChunkId}
    {data : List UInt8} (h : OfSize size chunk current)
    (hcopy : copyBuffer chunk current data = some (chunk', rest)) :
    OfSize size chunk' rest ∧ data.length + room size chunk' rest ≤ room size chunk current := by
  induction current generalizing chunk data with
  | nil =>
    by_cases hempty : data = []
    · simp only [copyBuffer, hempty, if_true, Option.some.injEq, Prod.mk.injEq] at hcopy
      obtain ⟨rfl, rfl⟩ := hcopy
      subst hempty
      exact ⟨h, by simp⟩
    · simp [copyBuffer, hempty] at hcopy
  | cons c current ih =>
    by_cases hempty : data = []
    · simp only [copyBuffer, hempty, if_true, Option.some.injEq, Prod.mk.injEq] at hcopy
      obtain ⟨rfl, rfl⟩ := hcopy
      subst hempty
      exact ⟨h, by simp⟩
    rw [copyBuffer_cons hempty] at hcopy
    obtain ⟨hvalid, hbytes⟩ := h c List.mem_cons_self
    have hwritten := h.write List.mem_cons_self data
    have hcount : ((chunk c).write data).2 = min data.length (size - (chunk c).offset) := by
      rw [hvalid.write_eq, hbytes]
    cases hfull : ((chunk c).write data).1.full with
    | true =>
      rw [hfull, if_pos rfl] at hcopy
      obtain ⟨hsize, hroom⟩ := ih (fun d hd => hwritten d (List.mem_cons_of_mem _ hd)) hcopy
      have hrest := room_le size (Function.update chunk c ((chunk c).write data).1) current
      refine ⟨hsize, ?_⟩
      rw [List.length_drop, hcount] at hroom
      rw [room]
      omega
    | false =>
      rw [hfull, if_neg Bool.false_ne_true, Option.some.injEq, Prod.mk.injEq] at hcopy
      obtain ⟨rfl, rfl⟩ := hcopy
      have hall := Chunk.write_count_of_not_full hfull
      have hoffset : ((chunk c).write data).1.offset =
          min ((chunk c).offset + data.length) size := by
        rw [hvalid.write_eq, hbytes]
      refine ⟨hwritten, ?_⟩
      rw [room, room, Function.update_self, hoffset]
      omega

/-- The outer copy loop takes no more bytes than there is room for. -/
theorem copyBuffers_room {size : ℕ} {chunk chunk' : ChunkId → Chunk} {current : List ChunkId}
    {bl : List (List UInt8)} (h : OfSize size chunk current)
    (hcopy : copyBuffers chunk current bl = some chunk') :
    totalLength bl ≤ room size chunk current := by
  induction bl generalizing chunk current with
  | nil => simp [totalLength]
  | cons data bl ih =>
    obtain ⟨⟨chunk₁, rest⟩, hfirst, hmore⟩ := Option.bind_eq_some_iff.mp hcopy
    obtain ⟨hsize, hroom⟩ := copyBuffer_room h hfirst
    have hlater := ih hsize hmore
    simp only [totalLength, List.map_cons, List.sum_cons] at hlater ⊢
    omega

/-- What a call that has nothing to transmit or cannot be served ought to do: the adapter
gets no work request and the memory manager stays as it is. If there was something to
transmit, the call reports failure and the caller keeps the bufferlist. -/
def Unaffected (chunk : ChunkId → Chunk) (manager : MemoryManager) (bl : List (List UInt8))
    (fails : Option ℕ) : Prop :=
  ∃ out, send chunk manager bl fails = some out ∧ out.accepted = [] ∧ out.manager = manager ∧
    (totalLength bl ≠ 0 → out.result < 0 ∧ out.bl = bl)

/-- When there are fewer chunks than the bytes need, `send` uses the iterator at the end. -/
theorem send_of_few {chunk : ChunkId → Chunk} {manager : MemoryManager} {bl : List (List UInt8)}
    {fails : Option ℕ}
    (hpool : OfSize manager.channel.chunkSize chunk manager.channel.freeChunks)
    (hpos : totalLength bl ≠ 0)
    (hfew : manager.channel.freeChunks.length <
      (totalLength bl + manager.channel.chunkSize - 1) / manager.channel.chunkSize) :
    send chunk manager bl fails = none := by
  have hsize : 0 < manager.channel.chunkSize := by
    apply Nat.pos_of_ne_zero
    intro hzero
    rw [hzero, Nat.div_zero] at hfew
    exact absurd hfew (Nat.not_lt_zero _)
  obtain ⟨_, _, hneeded⟩ := ceilDiv_bounds hsize (Nat.pos_of_ne_zero hpos)
  have hmissing := Nat.mul_le_mul_right manager.channel.chunkSize (Nat.le_sub_one_of_lt hfew)
  cases hsend : send chunk manager bl fails with
  | none => rfl
  | some out =>
    set tx := manager.channel.nextChunks (totalLength bl) with htx
    have hnext : tx = manager.channel.freeChunks.reverse.take
        (manager.channel.chunkCount (totalLength bl)) := by
      rw [htx, Cluster.nextChunks, if_neg hpos]
    have hsub : ∀ c ∈ tx, c ∈ manager.channel.freeChunks := by
      intro c hc
      rw [hnext] at hc
      exact List.mem_reverse.mp (List.mem_of_mem_take hc)
    have hlength : tx.length ≤ manager.channel.freeChunks.length := by
      rw [hnext, List.length_take, List.length_reverse]
      exact min_le_right _ _
    have hfits := copyBuffers_room (fun c hc => hpool c (hsub c hc)) (copyBuffers_of_send hsend)
    have hroom := room_le manager.channel.chunkSize chunk tx
    have hspace := Nat.mul_le_mul_right manager.channel.chunkSize hlength
    exact absurd hneeded (Nat.not_lt.mpr (hfits.trans (hroom.trans (hspace.trans hmissing))))

/-- For an empty bufferlist `send` hands all free chunks of the channel to the adapter. -/
theorem send_of_empty {chunk : ChunkId → Chunk} {manager : MemoryManager} {bl : List (List UInt8)}
    (fails : Option ℕ) (hempty : totalLength bl = 0) :
    send chunk manager bl fails =
      let chain := manager.channel.freeChunks.map (sendWr chunk)
      match fails with
      | none => if chain.length = 0 then none else some ⟨chunk, manager, chain, [], 0, []⟩
      | some j =>
          if j < chain.length then some ⟨chunk, manager, chain.take j, chain.drop j, -1, bl⟩
          else none := by
  have htx : manager.getTxBuffers 0 = some (manager.channel.freeChunks, manager) := by
    simp [MemoryManager.getTxBuffers, MemoryManager.getChannelBuffers, Cluster.getBuffers]
  cases fails with
  | none =>
    simp only [send, hempty, htx, Option.bind_some, copyBuffers_of_empty hempty, Nat.cast_zero]
  | some j => simp only [send, hempty, htx, Option.bind_some, copyBuffers_of_empty hempty]

/-- **Sends with nothing to transmit or too few chunks.** Whatever the pool holds, such a
call leaves everything alone in one case only: the bufferlist is empty, there are free
chunks, and the adapter refuses the first of them. In all other cases it posts free chunks,
or reads past the end of the chain or of the chunks. -/
theorem send_unaffected_iff {chunk : ChunkId → Chunk} {manager : MemoryManager}
    {bl : List (List UInt8)} (fails : Option ℕ)
    (hpool : OfSize manager.channel.chunkSize chunk manager.channel.freeChunks)
    (hcase : totalLength bl = 0 ∨ manager.channel.freeChunks.length <
      (totalLength bl + manager.channel.chunkSize - 1) / manager.channel.chunkSize) :
    Unaffected chunk manager bl fails ↔
      totalLength bl = 0 ∧ manager.channel.freeChunks ≠ [] ∧ fails = some 0 := by
  by_cases hempty : totalLength bl = 0
  · rw [Unaffected, send_of_empty fails hempty]
    simp only [hempty, ne_eq, not_true_eq_false, false_imp_iff, and_true, true_and]
    cases fails with
    | none => simp
    | some j =>
      cases hfree : manager.channel.freeChunks with
      | nil => simp
      | cons c rest => cases j <;> simp
  · have hfew := hcase.resolve_left hempty
    rw [Unaffected, send_of_few hpool hempty hfew]
    simp [hempty]

/-- An empty bufferlist, one free chunk and an adapter that refuses it. -/
theorem send_unaffected_iff_refused :
    Unaffected samplePool ⟨⟨2, [0]⟩, ⟨2, []⟩⟩ [] (some 0) := by
  refine (send_unaffected_iff (some 0) ?_ (.inl rfl)).mpr ⟨rfl, by decide, rfl⟩
  intro c _
  exact ⟨⟨rfl, Nat.zero_le _, by simp [samplePool]⟩, rfl⟩

/-- With one free chunk an empty bufferlist is sent as one work request, and a bufferlist of
three bytes makes `send` run past the end of its chunks. -/
theorem empty_send_posts_free_chunk :
    ¬Unaffected samplePool ⟨⟨2, [0]⟩, ⟨2, []⟩⟩ [] none ∧
      ((send samplePool ⟨⟨2, [0]⟩, ⟨2, []⟩⟩ [] none).map fun out =>
        out.accepted.map SendWr.wrId) = some [0] ∧
      ¬Unaffected samplePool ⟨⟨2, [0]⟩, ⟨2, []⟩⟩ [[1, 2, 3]] none ∧
      (send samplePool ⟨⟨2, [0]⟩, ⟨2, []⟩⟩ [[1, 2, 3]] none).isNone := by
  have hposts : ((send samplePool ⟨⟨2, [0]⟩, ⟨2, []⟩⟩ [] none).map fun out =>
      out.accepted.map SendWr.wrId) = some [0] := by decide
  have hruns : (send samplePool ⟨⟨2, [0]⟩, ⟨2, []⟩⟩ [[1, 2, 3]] none).isNone := by decide
  refine ⟨?_, hposts, ?_, hruns⟩
  · rintro ⟨out, hout, haccepted, _⟩
    rw [hout, Option.map_some, haccepted] at hposts
    exact absurd hposts (by decide)
  · rintro ⟨out, hout, _⟩
    rw [hout] at hruns
    cases hruns

/-- What ought to hold after a post of which the adapter accepted the first `j` requests:
the call reports failure, the accepted requests are those of the first `j` chunks, every
other chunk is free again, and the caller keeps the bufferlist. -/
structure PostUndone (manager : MemoryManager) (bl : List (List UInt8)) (j : ℕ)
    (out : SendOutcome) : Prop where
  /-- The call fails. -/
  result_eq : out.result = -1
  /-- The accepted requests are in flight. -/
  accepted_eq : out.accepted.map SendWr.wrId =
    (manager.channel.nextChunks (totalLength bl)).take j
  /-- The chunks of the others are in a free list. -/
  free : ∀ c ∈ (manager.channel.nextChunks (totalLength bl)).drop j,
    c ∈ out.manager.channel.freeChunks ∨ c ∈ out.manager.send.freeChunks
  /-- The bufferlist is intact. -/
  bl_eq : out.bl = bl

/-- All that a call of `send` does when the adapter accepts `j` requests and fails on the
next: it reports failure, keeps the bufferlist and gives nothing back. -/
theorem send_failed {chunk : ChunkId → Chunk} {manager : MemoryManager} {bl : List (List UInt8)}
    {j : ℕ} {out : SendOutcome} (h : send chunk manager bl (some j) = some out) :
    out.result = -1 ∧ out.bl = bl ∧
      out.accepted.map SendWr.wrId = (manager.channel.nextChunks (totalLength bl)).take j := by
  obtain ⟨hnext, _⟩ := send_cases h
  obtain ⟨⟨tx, manager'⟩, _, hrest⟩ := Option.bind_eq_some_iff.mp h
  obtain ⟨chunk', _, hpost⟩ := Option.bind_eq_some_iff.mp hrest
  dsimp only at hpost
  split_ifs at hpost with hj
  obtain rfl := Option.some.inj hpost
  refine ⟨rfl, rfl, ?_⟩
  rw [← hnext, List.take_append_drop, List.map_take]

/-- **Failed posts.** When `ibv_post_send` fails after the first `j` requests of a bufferlist
with at least one byte, `send` leaves nothing behind exactly if each chunk whose request was
not accepted was in a free list a second time. In particular it always leaks them when the
free lists hold different chunks. And if the channel has fresh chunks enough, the call does
return. -/
theorem send_failed_iff {chunk : ChunkId → Chunk} {manager : MemoryManager}
    {bl : List (List UInt8)} {j : ℕ} (hpos : 1 ≤ totalLength bl) :
    (∀ out, send chunk manager bl (some j) = some out →
      (PostUndone manager bl j out ↔
        ∀ c ∈ (manager.channel.freeChunks.reverse.take
            (manager.channel.chunkCount (totalLength bl))).drop j,
          c ∈ manager.channel.freeChunks.take (manager.channel.freeChunks.length -
            manager.channel.chunkCount (totalLength bl)) ∨
          c ∈ manager.send.freeChunks)) ∧
    (totalLength bl < 2 ^ 32 → 0 < manager.channel.chunkSize → manager.channel.Fresh chunk →
      (totalLength bl + manager.channel.chunkSize - 1) / manager.channel.chunkSize ≤
        manager.channel.freeChunks.length →
      j < (totalLength bl + manager.channel.chunkSize - 1) / manager.channel.chunkSize →
      ∃ out, send chunk manager bl (some j) = some out) := by
  have hne : totalLength bl ≠ 0 := Nat.ne_of_gt hpos
  constructor
  · intro out hsend
    obtain ⟨hresult, hbl, haccepted⟩ := send_failed hsend
    obtain ⟨_, hkept, ⟨hzero, _⟩ | ⟨_, _, _, hchannel⟩⟩ := send_cases hsend
    · exact absurd hzero hne
    have hnext : manager.channel.nextChunks (totalLength bl) =
        manager.channel.freeChunks.reverse.take (manager.channel.chunkCount (totalLength bl)) := by
      rw [Cluster.nextChunks, if_neg hne]
    constructor
    · intro hundone c hc
      rw [← hnext] at hc
      have hfree := hundone.free c hc
      rwa [hchannel, hkept] at hfree
    · intro htwice
      refine ⟨hresult, haccepted, ?_, hbl⟩
      intro c hc
      rw [hnext] at hc
      rw [hchannel, hkept]
      exact htwice c hc
  · intro hbytes hsize hfresh henough hj
    obtain ⟨_, hroom, _⟩ := ceilDiv_bounds hsize hpos
    rw [← Cluster.chunkCount_eq hsize hbytes] at henough hj hroom
    obtain ⟨hlen, _, _, chunk', rest, hcopy, _⟩ := hfresh.packs hsize hroom henough
    obtain ⟨out, hout, _⟩ := send_eq (some j) (MemoryManager.getTxBuffers_eq hsize hpos henough)
      hcopy (by omega) (by rw [hlen]; simpa using hj)
    exact ⟨out, hout⟩

/-- The chunk of the refused request is also in the free list for sending, where an earlier
empty send has brought it: nothing is lost. -/
theorem send_failed_iff_twice_free :
    ∃ out, send samplePool ⟨⟨2, [0, 1]⟩, ⟨2, [0]⟩⟩ [[1, 2, 3]] (some 1) = some out ∧
      PostUndone ⟨⟨2, [0, 1]⟩, ⟨2, [0]⟩⟩ [[1, 2, 3]] 1 out := by
  have hsend : (send samplePool ⟨⟨2, [0, 1]⟩, ⟨2, [0]⟩⟩ [[1, 2, 3]] (some 1)).isSome := by decide
  obtain ⟨out, hout⟩ := Option.isSome_iff_exists.mp hsend
  exact ⟨out, hout, ((send_failed_iff (by decide)).1 out hout).mpr (by decide)⟩

/-- Two chunks are taken for three bytes and the second request is refused: its chunk is
lost. -/
theorem refused_chunk_lost :
    ∃ out, send samplePool ⟨⟨2, [0, 1]⟩, ⟨2, []⟩⟩ [[1, 2, 3]] (some 1) = some out ∧
      ¬PostUndone ⟨⟨2, [0, 1]⟩, ⟨2, []⟩⟩ [[1, 2, 3]] 1 out ∧
      out.refused.map SendWr.wrId = [0] ∧ out.manager = ⟨⟨2, []⟩, ⟨2, []⟩⟩ := by
  have hsend : (send samplePool ⟨⟨2, [0, 1]⟩, ⟨2, []⟩⟩ [[1, 2, 3]] (some 1)).map
      (fun out => (out.refused.map SendWr.wrId, out.manager)) =
        some ([0], ⟨⟨2, []⟩, ⟨2, []⟩⟩) := by decide
  obtain ⟨out, hout, hobserved⟩ := Option.map_eq_some_iff.mp hsend
  obtain ⟨hrefused, hmanager⟩ := Prod.mk.inj hobserved
  refine ⟨out, hout, ?_, hrefused, hmanager⟩
  intro hundone
  have hfree := hundone.free 0 (by decide)
  rw [hmanager] at hfree
  exact absurd hfree (by decide)

end RdmaTransport
