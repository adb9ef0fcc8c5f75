import RdmaTransport.Send

/-!
# How `send` packs a bufferlist

`send` copies the buffers of a bufferlist one after the other into chunks of a fixed
size. The iterator over the chunks moves on when a chunk is full; the number of chunks
was computed before, from the total length alone. This file shows that the two agree for
every bufferlist: the iterator never passes the last chunk, every chunk but the last is
filled, and the bytes of the chunks are those of the buffers.
-/

namespace RdmaTransport

open Memory

/-- The bytes written to a list of chunks: of each, those before its position. -/
def content (chunk : ChunkId → Chunk) (ids : List ChunkId) : List UInt8 :=
  ids.flatMap fun c => (chunk c).buffer.take (chunk c).offset

/-- A chunk that has been filled by writing. -/
structure Chunk.Filled (size : ℕ) (c : Chunk) : Prop where
  /-- The memory of the chunk is sound. -/
  valid : c.Valid
  /-- It has the size of the cluster. -/
  bytes_eq : c.bytes = size
  /-- The position is at its end. -/
  offset_eq : c.offset = size

/-- The chunks from the iterator of `send` on: different chunks of one size, of which only
the first has been written to, and it is not full. -/
structure Packing (size : ℕ) (chunk : ChunkId → Chunk) (current : List ChunkId) : Prop where
  /-- No chunk occurs twice. -/
  nodup : current.Nodup
  /-- The memory of every chunk is sound. -/
  valid : ∀ c ∈ current, (chunk c).Valid
  /-- All chunks have the size of the cluster. -/
  bytes_eq : ∀ c ∈ current, (chunk c).bytes = size
  /-- The chunk under the iterator has space left. -/
  head_lt : ∀ c ∈ current.head?, (chunk c).offset < size
  /-- The chunks behind it are at their beginning. -/
  tail_eq : ∀ c ∈ current.tail, (chunk c).offset = 0

/-- What copying `data` to the chunks from the iterator on does: the chunks passed are
filled, those left are ready for more, and the bytes written grow by the data. -/
structure Packs (size : ℕ) (chunk : ChunkId → Chunk) (current : List ChunkId) (data : List UInt8)
    (chunk' : ChunkId → Chunk) (rest : List ChunkId) : Prop where
  /-- The iterator has passed filled chunks only. -/
  passed : ∃ filled, current = filled ++ rest ∧ ∀ c ∈ filled, (chunk' c).Filled size
  /-- The chunks left can be written to. -/
  packing : Packing size chunk' rest
  /-- The data follows what was written before. -/
  content_eq : content chunk' current = content chunk current ++ data
  /-- Other chunks are not touched. -/
  frame : ∀ c, c ∉ current → chunk' c = chunk c

/-- The bytes written to two lists of chunks. -/
theorem content_append (chunk : ChunkId → Chunk) (l m : List ChunkId) :
    content chunk (l ++ m) = content chunk l ++ content chunk m := by
  simp [content]

/-- The bytes written to a nonempty list of chunks. -/
theorem content_cons (chunk : ChunkId → Chunk) (c : ChunkId) (l : List ChunkId) :
    content chunk (c :: l) = (chunk c).buffer.take (chunk c).offset ++ content chunk l := by
  simp [content]

/-- The bytes written depend on the chunks of the list only. -/
theorem content_congr {chunk chunk' : ChunkId → Chunk} {l : List ChunkId}
    (h : ∀ c ∈ l, chunk' c = chunk c) : content chunk' l = content chunk l := by
  rw [content, content, List.flatMap_def, List.flatMap_def]
  congr 1
  apply List.map_congr_left
  intro c hc
  rw [h c hc]

/-- Nothing has been written to chunks at their beginning. -/
theorem content_eq_nil {chunk : ChunkId → Chunk} {l : List ChunkId}
    (h : ∀ c ∈ l, (chunk c).offset = 0) : content chunk l = [] := by
  rw [content, List.flatMap_eq_nil_iff]
  intro c hc
  rw [h c hc, List.take_zero]

/-- As many bytes have been written as the positions of the chunks say. -/
theorem length_content {chunk : ChunkId → Chunk} {l : List ChunkId}
    (h : ∀ c ∈ l, (chunk c).Valid) :
    (content chunk l).length = (l.map fun c => (chunk c).offset).sum := by
  induction l with
  | nil => rfl
  | cons c l ih =>
    have hc := h c List.mem_cons_self
    have hle := hc.offset_le
    rw [content_cons, List.length_append, List.length_take, hc.length_eq, Nat.min_eq_left hle,
      ih (List.forall_mem_of_forall_mem_cons h), List.map_cons, List.sum_cons]

/-- The bytes written to filled chunks. -/
theorem length_content_filled {size : ℕ} {chunk : ChunkId → Chunk} {l : List ChunkId}
    (h : ∀ c ∈ l, (chunk c).Filled size) : (content chunk l).length = l.length * size := by
  rw [length_content fun c hc => (h c hc).valid,
    List.map_congr_left (g := fun _ => size) fun c hc => (h c hc).offset_eq]
  simp

/-- The bytes written to the chunks from the iterator on are those of the first one. -/
theorem Packing.length_content_cons {size : ℕ} {chunk : ChunkId → Chunk} {c : ChunkId}
    {rest : List ChunkId} (h : Packing size chunk (c :: rest)) :
    (content chunk (c :: rest)).length = (chunk c).offset := by
  have hc := h.valid c List.mem_cons_self
  have hle := hc.offset_le
  have hrest : content chunk rest = [] := content_eq_nil h.tail_eq
  rw [content_cons, hrest, List.append_nil, List.length_take, hc.length_eq,
    Nat.min_eq_left hle]

/-- Copying one piece of data after another. -/
theorem Packs.trans {size : ℕ} {chunk chunk₁ chunk₂ : ChunkId → Chunk}
    {current rest₁ rest₂ : List ChunkId} {data₁ data₂ : List UInt8} (hnodup : current.Nodup)
    (h₁ : Packs size chunk current data₁ chunk₁ rest₁)
    (h₂ : Packs size chunk₁ rest₁ data₂ chunk₂ rest₂) :
    Packs size chunk current (data₁ ++ data₂) chunk₂ rest₂ := by
  obtain ⟨filled₁, rfl, hfilled₁⟩ := h₁.passed
  obtain ⟨filled₂, hsplit, hfilled₂⟩ := h₂.passed
  have hkeep : ∀ c ∈ filled₁, chunk₂ c = chunk₁ c := by
    intro c hc
    apply h₂.frame
    intro hmem
    exact (List.nodup_append.mp hnodup).2.2 c hc c hmem rfl
  refine ⟨⟨filled₁ ++ filled₂, ?_, ?_⟩, h₂.packing, ?_, ?_⟩
  · rw [hsplit, List.append_assoc]
  · intro c hc
    rcases List.mem_append.mp hc with hold | hnew
    · rw [hkeep c hold]
      exact hfilled₁ c hold
    · exact hfilled₂ c hnew
  · have h := h₁.content_eq
    rw [content_append] at h
    rw [content_append, content_congr hkeep, h₂.content_eq, ← List.append_assoc, h,
      List.append_assoc]
  · intro c hc
    rw [h₂.frame c fun hmem => hc (List.mem_append_right filled₁ hmem), h₁.frame c hc]

/-- Writing to the chunk under the iterator when it does not become full. -/
theorem Packing.packs_of_not_full {size : ℕ} {chunk : ChunkId → Chunk} {c : ChunkId}
    {rest : List ChunkId} {data : List UInt8} (h : Packing size chunk (c :: rest))
    (hfull : ((chunk c).write data).1.full = false) :
    Packs size chunk (c :: rest) data (Function.update chunk c ((chunk c).write data).1)
      (c :: rest) := by
  have hc := h.valid c List.mem_cons_self
  have hsize := h.bytes_eq c List.mem_cons_self
  have hne : ∀ d ∈ rest, d ≠ c := fun d hd heq => (List.nodup_cons.mp h.nodup).1 (heq ▸ hd)
  have hcount := Chunk.write_count_of_not_full hfull
  rw [hc.write_eq, min_eq_left_iff] at hcount
  have hlt : ((chunk c).write data).1.offset < size := by
    rw [hc.write_eq] at hfull ⊢
    simp only [Chunk.full, beq_eq_false_iff_ne] at hfull
    dsimp only at hfull ⊢
    omega
  refine ⟨⟨[], rfl, by simp⟩, ⟨h.nodup, ?_, ?_, ?_, ?_⟩, ?_, ?_⟩
  · intro d hd
    by_cases heq : d = c
    · rw [heq, Function.update_self]
      exact hc.write data
    · rw [Function.update_of_ne heq]
      exact h.valid d hd
  · intro d hd
    by_cases heq : d = c
    · rw [heq, Function.update_self, hc.write_eq]
      exact hsize
    · rw [Function.update_of_ne heq]
      exact h.bytes_eq d hd
  · intro d hd
    obtain rfl : c = d := by simpa using hd
    rw [Function.update_self]
    exact hlt
  · intro d hd
    rw [Function.update_of_ne (hne d hd)]
    exact h.tail_eq d hd
  · have hrest : content (Function.update chunk c ((chunk c).write data).1) rest =
        content chunk rest :=
      content_congr fun d hd => Function.update_of_ne (hne d hd) ..
    have hnil : content chunk rest = [] := content_eq_nil h.tail_eq
    rw [content_cons, content_cons, Function.update_self, hc.write_content, hrest, hnil,
      List.take_of_length_le hcount, List.append_nil, List.append_nil]
  · intro d hd
    exact Function.update_of_ne (List.ne_of_not_mem_cons hd) ..

/-- Writing to the chunk under the iterator when it becomes full: the iterator moves on,
and what did not fit is left. -/
theorem Packing.packs_of_full {size : ℕ} {chunk : ChunkId → Chunk} {c : ChunkId}
    {rest : List ChunkId} {data : List UInt8} (hpos : 0 < size)
    (h : Packing size chunk (c :: rest)) (hfull : ((chunk c).write data).1.full = true) :
    Packs size chunk (c :: rest) (data.take ((chunk c).write data).2)
      (Function.update chunk c ((chunk c).write data).1) rest := by
  have hc := h.valid c List.mem_cons_self
  have hsize := h.bytes_eq c List.mem_cons_self
  have hne : ∀ d ∈ rest, d ≠ c := fun d hd heq => (List.nodup_cons.mp h.nodup).1 (heq ▸ hd)
  have hkeep : ∀ d ∈ rest, Function.update chunk c ((chunk c).write data).1 d = chunk d :=
    fun d hd => Function.update_of_ne (hne d hd) ..
  have hoffset : ((chunk c).write data).1.offset = size := by
    rw [hc.write_eq] at hfull ⊢
    simp only [Chunk.full, beq_iff_eq] at hfull
    rw [← hsize]
    exact hfull
  refine ⟨⟨[c], rfl, ?_⟩, ⟨(List.nodup_cons.mp h.nodup).2, ?_, ?_, ?_, ?_⟩, ?_, ?_⟩
  · intro d hd
    obtain rfl : d = c := by simpa using hd
    rw [Function.update_self]
    refine ⟨hc.write data, ?_, hoffset⟩
    rw [hc.write_eq]
    exact hsize
  · intro d hd
    rw [hkeep d hd]
    exact h.valid d (List.mem_cons_of_mem c hd)
  · intro d hd
    rw [hkeep d hd]
    exact h.bytes_eq d (List.mem_cons_of_mem c hd)
  · intro d hd
    have hmem := List.mem_of_mem_head? hd
    rw [hkeep d hmem, h.tail_eq d hmem]
    exact hpos
  · intro d hd
    have hmem := List.mem_of_mem_tail hd
    rw [hkeep d hmem, h.tail_eq d hmem]
  · have hnil : content chunk rest = [] := content_eq_nil h.tail_eq
    have htake : data.take ((chunk c).write data).2 =
        data.take ((chunk c).bytes - (chunk c).offset) := by
      rw [hc.write_eq, List.take_eq_take_iff]
      omega
    rw [content_cons, content_cons, Function.update_self, hc.write_content, content_congr hkeep,
      hnil, htake, List.append_nil, List.append_nil]
  · intro d hd
    exact Function.update_of_ne (List.ne_of_not_mem_cons hd) ..

/-- The space of the chunks passed and of those left. -/
theorem Packs.room {size : ℕ} {chunk chunk' : ChunkId → Chunk} {current rest : List ChunkId}
    {data more : List UInt8} (h : Packs size chunk current data chunk' rest)
    (hroom : (content chunk current).length + (data ++ more).length ≤ current.length * size) :
    (content chunk' rest).length + more.length ≤ rest.length * size := by
  obtain ⟨filled, rfl, hfilled⟩ := h.passed
  have hlength := congrArg List.length h.content_eq
  rw [content_append, List.length_append, List.length_append,
    length_content_filled hfilled] at hlength
  rw [List.length_append, List.length_append, Nat.add_mul] at hroom
  omega

/-- One iteration of the inner copy loop of `send`. -/
theorem copyBuffer_cons {chunk : ChunkId → Chunk} {c : ChunkId} {rest : List ChunkId}
    {data : List UInt8} (hdata : data ≠ []) :
    copyBuffer chunk (c :: rest) data =
      if ((chunk c).write data).1.full then
        copyBuffer (Function.update chunk c ((chunk c).write data).1) rest
          (data.drop ((chunk c).write data).2)
      else some (Function.update chunk c ((chunk c).write data).1, c :: rest) := by
  rw [copyBuffer, if_neg hdata]

/-- The inner copy loop of `send` packs a buffer, unless there is not enough space for it.
The induction is on the chunks from the iterator on. -/
theorem Packing.copyBuffer_cases {size : ℕ} {chunk : ChunkId → Chunk} {current : List ChunkId}
    (hpos : 0 < size) (h : Packing size chunk current) (data : List UInt8) :
    (∃ chunk' rest, copyBuffer chunk current data = some (chunk', rest) ∧
      Packs size chunk current data chunk' rest) ∨
    (copyBuffer chunk current data = none ∧
      current.length * size < (content chunk current).length + data.length) := by
  induction current generalizing chunk data with
  | nil =>
    by_cases hempty : data = []
    · subst hempty
      exact .inl ⟨chunk, [], rfl, ⟨[], rfl, by simp⟩, h, rfl, fun _ _ => rfl⟩
    · right
      refine ⟨by rw [copyBuffer, if_neg hempty], ?_⟩
      simpa [content] using List.length_pos_of_ne_nil hempty
  | cons c current ih =>
    by_cases hempty : data = []
    · subst hempty
      refine .inl ⟨chunk, c :: current, ?_, ⟨[], rfl, by simp⟩, h, (List.append_nil _).symm,
        fun _ _ => rfl⟩
      rw [copyBuffer, if_pos rfl]
    cases hfull : ((chunk c).write data).1.full with
    | false =>
      refine .inl ⟨_, _, ?_, h.packs_of_not_full hfull⟩
      rw [copyBuffer_cons hempty, hfull, if_neg Bool.false_ne_true]
    | true =>
      have hfirst := h.packs_of_full hpos hfull
      rw [copyBuffer_cons hempty, hfull, if_pos rfl]
      rcases ih hfirst.packing (data.drop ((chunk c).write data).2) with
        ⟨chunk', rest, hloop, hpacks⟩ | ⟨hnone, hspace⟩
      · have hboth := hfirst.trans h.nodup hpacks
        rw [List.take_append_drop] at hboth
        exact .inl ⟨chunk', rest, hloop, hboth⟩
      · refine .inr ⟨hnone, ?_⟩
        by_contra hroom
        rw [Nat.not_lt, ← List.take_append_drop ((chunk c).write data).2 data] at hroom
        exact absurd (hfirst.room hroom) (Nat.not_le.mpr hspace)

/-- The outer copy loop of `send` packs a bufferlist, unless there is not enough space. -/
theorem Packing.copyBuffers_cases {size : ℕ} {chunk : ChunkId → Chunk} {current : List ChunkId}
    (hpos : 0 < size) (h : Packing size chunk current) (bl : List (List UInt8)) :
    (∃ chunk' rest, copyBuffers chunk current bl = some chunk' ∧
      Packs size chunk current bl.flatten chunk' rest) ∨
    (copyBuffers chunk current bl = none ∧
      current.length * size < (content chunk current).length + bl.flatten.length) := by
  induction bl generalizing chunk current with
  | nil =>
    exact .inl ⟨chunk, current, rfl, ⟨[], rfl, by simp⟩, h, (List.append_nil _).symm,
      fun _ _ => rfl⟩
  | cons data bl ih =>
    rw [List.flatten_cons]
    rcases h.copyBuffer_cases hpos data with ⟨chunk₁, rest₁, hcopy, hpacks₁⟩ | ⟨hnone, hspace⟩
    · rcases ih hpacks₁.packing with ⟨chunk₂, rest₂, hloop, hpacks₂⟩ | ⟨hloop, hspace⟩
      · refine .inl ⟨chunk₂, rest₂, ?_, hpacks₁.trans h.nodup hpacks₂⟩
        simp [copyBuffers, hcopy, hloop]
      · refine .inr ⟨by simp [copyBuffers, hcopy, hloop], ?_⟩
        by_contra hroom
        exact absurd (hpacks₁.room (Nat.not_lt.mp hroom)) (Nat.not_le.mpr hspace)
    · refine .inr ⟨by simp [copyBuffers, hnone], ?_⟩
      rw [List.length_append]
      omega

/-- The outer copy loop of `send` packs a bufferlist for which there is space. -/
theorem Packing.copyBuffers {size : ℕ} {chunk : ChunkId → Chunk} {current : List ChunkId}
    {bl : List (List UInt8)} (hpos : 0 < size) (h : Packing size chunk current)
    (hroom : (content chunk current).length + bl.flatten.length ≤ current.length * size) :
    ∃ chunk' rest, RdmaTransport.copyBuffers chunk current bl = some chunk' ∧
      Packs size chunk current bl.flatten chunk' rest := by
  rcases h.copyBuffers_cases hpos bl with hpacks | ⟨_, hspace⟩
  · exact hpacks
  · exact absurd hroom (Nat.not_le.mpr hspace)

/-- The number of chunks computed by `get_buffers` is the byte count divided by the chunk
size, rounded up. The 32-bit arithmetic is exact even where it wraps. -/
theorem Cluster.chunkCount_eq {cluster : Cluster} {bytes : ℕ} (hsize : 0 < cluster.chunkSize)
    (hbytes : bytes < 2 ^ 32) :
    cluster.chunkCount bytes = (bytes + cluster.chunkSize - 1) / cluster.chunkSize := by
  have hdiv := Nat.div_add_mod bytes cluster.chunkSize
  have hmod := Nat.mod_lt bytes hsize
  have hle : bytes / cluster.chunkSize ≤ bytes := Nat.div_le_self ..
  unfold Cluster.chunkCount
  dsimp only
  by_cases hexact : bytes % cluster.chunkSize = 0
  · have hceil : bytes + cluster.chunkSize - 1 =
        (cluster.chunkSize - 1) + cluster.chunkSize * (bytes / cluster.chunkSize) := by omega
    have hsmall : (cluster.chunkSize - 1) / cluster.chunkSize = 0 := Nat.div_eq_of_lt (by omega)
    have hwrap : ∀ q < 2 ^ 32, ((q + 1) % 2 ^ 32 + 2 ^ 32 - 1) % 2 ^ 32 = 0 + q := by
      intro q hq
      omega
    rw [if_pos hexact, hceil, Nat.add_mul_div_left _ _ hsize, hsmall,
      hwrap _ (Nat.lt_of_le_of_lt hle hbytes)]
  · have hceil : bytes + cluster.chunkSize - 1 = (bytes % cluster.chunkSize - 1) +
        cluster.chunkSize * (bytes / cluster.chunkSize + 1) := by
      rw [Nat.mul_succ]
      omega
    have hhalf : 2 * (bytes / cluster.chunkSize) ≤
        cluster.chunkSize * (bytes / cluster.chunkSize) := Nat.mul_le_mul_right _ (by omega)
    have hsmall : (bytes % cluster.chunkSize - 1) / cluster.chunkSize = 0 :=
      Nat.div_eq_of_lt (by omega)
    rw [if_neg hexact, hceil, Nat.add_mul_div_left _ _ hsize, hsmall,
      Nat.mod_eq_of_lt (by omega), Nat.zero_add]

/-- The chunks computed for a byte count hold the bytes, and one chunk less does not. -/
theorem ceilDiv_bounds {bytes size : ℕ} (hsize : 0 < size) (hpos : 1 ≤ bytes) :
    0 < (bytes + size - 1) / size ∧ bytes ≤ (bytes + size - 1) / size * size ∧
      ((bytes + size - 1) / size - 1) * size < bytes := by
  have hdiv := Nat.div_add_mod (bytes + size - 1) size
  have hmod := Nat.mod_lt (bytes + size - 1) hsize
  have hcount : 0 < (bytes + size - 1) / size := Nat.div_pos (by omega) hsize
  rw [Nat.mul_comm] at hdiv
  refine ⟨hcount, by omega, ?_⟩
  rw [Nat.sub_mul]
  omega

/-- Without its last chunk the number computed by `get_buffers` is not enough. -/
theorem Cluster.chunkCount_pred_lt {cluster : Cluster} {bytes : ℕ} (hsize : 0 < cluster.chunkSize)
    (hpos : 1 ≤ bytes) : (cluster.chunkCount bytes - 1) * cluster.chunkSize < bytes := by
  have hdiv := Nat.div_add_mod bytes cluster.chunkSize
  unfold Cluster.chunkCount
  dsimp only
  generalize bytes / cluster.chunkSize = q at hdiv ⊢
  rw [Nat.mul_comm] at hdiv
  split_ifs with hexact
  · have hne : q ≠ 0 := by
      rintro rfl
      omega
    have hcount : ((q + 1) % 2 ^ 32 + 2 ^ 32 - 1) % 2 ^ 32 - 1 < q := by omega
    have hlt := Nat.mul_lt_mul_of_pos_right hcount hsize
    omega
  · have hcount : (q + 1) % 2 ^ 32 - 1 ≤ q := by omega
    have hle := Nat.mul_le_mul_right cluster.chunkSize hcount
    omega

/-- After exactly as many bytes as the chunks were counted for, at most the last chunk is
not full. -/
theorem Packs.lengths {size : ℕ} {chunk chunk' : ChunkId → Chunk} {tx rest : List ChunkId}
    {data : List UInt8} (h : Packs size chunk tx data chunk' rest)
    (hfresh : content chunk tx = []) (hneeded : (tx.length - 1) * size < data.length) :
    ∃ last, 1 ≤ last ∧ last ≤ size ∧
      tx.map (fun c => (chunk' c).offset) = List.replicate (tx.length - 1) size ++ [last] := by
  obtain ⟨filled, rfl, hfilled⟩ := h.passed
  have hwritten := congrArg List.length h.content_eq
  rw [hfresh, List.nil_append, content_append, List.length_append,
    length_content_filled hfilled] at hwritten
  have hoffsets : filled.map (fun c => (chunk' c).offset) = List.replicate filled.length size := by
    rw [List.map_congr_left (g := fun _ => size) fun c hc => (hfilled c hc).offset_eq]
    simp
  cases rest with
  | nil =>
    simp only [List.append_nil] at hwritten hneeded ⊢
    have hpos : filled.length ≠ 0 := by
      intro hzero
      simp [hzero, content] at hwritten hneeded
      omega
    obtain ⟨n, hn⟩ := Nat.exists_eq_succ_of_ne_zero hpos
    refine ⟨size, ?_, le_rfl, ?_⟩
    · apply Nat.pos_of_ne_zero
      rintro rfl
      simp [content] at hwritten hneeded
      omega
    · rw [hoffsets, hn, List.replicate_succ', Nat.succ_sub_one]
  | cons c rest =>
    have hopen := h.packing.head_lt c (by simp)
    rw [h.packing.length_content_cons] at hwritten
    have hone : rest = [] := by
      by_contra hmore
      have hlong : filled.length + 1 ≤ (filled ++ c :: rest).length - 1 := by
        have := List.length_pos_of_ne_nil hmore
        simp
        omega
      have hle := Nat.mul_le_mul_right size hlong
      rw [Nat.add_mul] at hle
      omega
    subst hone
    have hcount : (filled ++ [c]).length - 1 = filled.length := by simp
    rw [hcount] at hneeded ⊢
    refine ⟨(chunk' c).offset, by omega, by omega, ?_⟩
    rw [List.map_append, hoffsets, List.map_singleton]

/-- `get_tx_buffers` takes the chunks it has counted from the back of the free list. -/
theorem MemoryManager.getTxBuffers_eq {manager : MemoryManager} {bytes : ℕ}
    (hsize : 0 < manager.channel.chunkSize) (hpos : 1 ≤ bytes)
    (henough : manager.channel.chunkCount bytes ≤ manager.channel.freeChunks.length) :
    manager.getTxBuffers bytes =
      some (manager.channel.freeChunks.reverse.take (manager.channel.chunkCount bytes),
        { manager with channel := ⟨manager.channel.chunkSize, manager.channel.freeChunks.take
          (manager.channel.freeChunks.length - manager.channel.chunkCount bytes)⟩ }) := by
  have hfew : ¬manager.channel.freeChunks.length < manager.channel.chunkCount bytes := by omega
  rw [MemoryManager.getTxBuffers, MemoryManager.getChannelBuffers, Cluster.getBuffers,
    if_neg (by omega), if_neg (by omega)]
  simp only [hfew, if_false, Cluster.popChunks_eq henough, List.nil_append, Option.map_some]

/-- The free chunks of a cluster are ready to be packed: different, of the cluster's size
and at their beginning. -/
structure Cluster.Fresh (chunk : ChunkId → Chunk) (cluster : Cluster) : Prop where
  /-- No chunk is free twice. -/
  nodup : cluster.freeChunks.Nodup
  /-- The memory of every free chunk is sound, and its position is its beginning. -/
  clean : ∀ c ∈ cluster.freeChunks, (chunk c).Clean
  /-- Every free chunk has the size of the cluster. -/
  bytes_eq : ∀ c ∈ cluster.freeChunks, (chunk c).bytes = cluster.chunkSize

/-- Some of the free chunks of such a cluster can be packed. -/
theorem Cluster.Fresh.packing {chunk : ChunkId → Chunk} {cluster : Cluster} {tx : List ChunkId}
    (h : cluster.Fresh chunk) (hsize : 0 < cluster.chunkSize) (hnodup : tx.Nodup)
    (hsub : ∀ c ∈ tx, c ∈ cluster.freeChunks) :
    Packing cluster.chunkSize chunk tx ∧ content chunk tx = [] := by
  refine ⟨⟨hnodup, ?_, ?_, ?_, ?_⟩, ?_⟩
  · intro c hc
    exact (h.clean c (hsub c hc)).1
  · intro c hc
    exact h.bytes_eq c (hsub c hc)
  · intro c hc
    rw [(h.clean c (hsub c (List.mem_of_mem_head? hc))).2]
    exact hsize
  · intro c hc
    exact (h.clean c (hsub c (List.mem_of_mem_tail hc))).2
  · exact content_eq_nil fun c hc => (h.clean c (hsub c hc)).2

/-- As many fresh chunks as the bytes need take a whole bufferlist. -/
theorem Cluster.Fresh.packs {chunk : ChunkId → Chunk} {cluster : Cluster} {bl : List (List UInt8)}
    {n : ℕ} (h : cluster.Fresh chunk) (hsize : 0 < cluster.chunkSize)
    (hroom : totalLength bl ≤ n * cluster.chunkSize) (henough : n ≤ cluster.freeChunks.length) :
    (cluster.freeChunks.reverse.take n).length = n ∧ (cluster.freeChunks.reverse.take n).Nodup ∧
      content chunk (cluster.freeChunks.reverse.take n) = [] ∧
      ∃ chunk' rest, copyBuffers chunk (cluster.freeChunks.reverse.take n) bl = some chunk' ∧
        Packs cluster.chunkSize chunk (cluster.freeChunks.reverse.take n) bl.flatten chunk'
          rest := by
  have htotal : bl.flatten.length = totalLength bl := List.length_flatten
  have hlen : (cluster.freeChunks.reverse.take n).length = n := by
    rw [List.length_take, List.length_reverse, min_eq_left henough]
  have hnodup : (cluster.freeChunks.reverse.take n).Nodup :=
    (List.nodup_reverse.mpr h.nodup).sublist (List.take_sublist ..)
  have hsub : ∀ c ∈ cluster.freeChunks.reverse.take n, c ∈ cluster.freeChunks := by
    intro c hc
    exact List.mem_reverse.mp (List.mem_of_mem_take hc)
  obtain ⟨hpacking, hempty⟩ := h.packing hsize hnodup hsub
  refine ⟨hlen, hnodup, hempty, hpacking.copyBuffers hsize ?_⟩
  rw [hempty, hlen, htotal, List.length_nil, Nat.zero_add]
  exact hroom

/-- Every chunk that took part in the packing is sound afterwards. -/
theorem Packs.valid {size : ℕ} {chunk chunk' : ChunkId → Chunk} {current rest : List ChunkId}
    {data : List UInt8} (h : Packs size chunk current data chunk' rest) :
    ∀ c ∈ current, (chunk' c).Valid := by
  obtain ⟨filled, rfl, hfilled⟩ := h.passed
  intro c hc
  rcases List.mem_append.mp hc with hold | hleft
  · exact (hfilled c hold).valid
  · exact h.packing.valid c hleft

/-- The two answers of `ibv_post_send` split the chain that `send` hands it. -/
theorem send_eq {chunk chunk' : ChunkId → Chunk} {manager manager' : MemoryManager}
    {bl : List (List UInt8)} {tx : List ChunkId} (fails : Option ℕ)
    (htx : manager.getTxBuffers (totalLength bl) = some (tx, manager'))
    (hcopy : copyBuffers chunk tx bl = some chunk') (hpos : 0 < tx.length)
    (hfails : ∀ j ∈ fails, j < tx.length) :
    ∃ out, send chunk manager bl fails = some out ∧ out.chunk = chunk' ∧
      out.manager = manager' ∧ out.accepted ++ out.refused = tx.map (sendWr chunk') := by
  cases fails with
  | none =>
    refine ⟨⟨chunk', manager', tx.map (sendWr chunk'), [], totalLength bl, []⟩, ?_, rfl, rfl,
      List.append_nil _⟩
    simp [send, htx, hcopy, List.length_pos_iff.mp hpos]
  | some j =>
    refine ⟨⟨chunk', manager', (tx.map (sendWr chunk')).take j, (tx.map (sendWr chunk')).drop j, -1,
      bl⟩, ?_, rfl, rfl, List.take_append_drop ..⟩
    simp [send, htx, hcopy, hfails j rfl]

/-- The work requests filled in for packed chunks: their lengths are the positions of the
chunks, and the bytes they refer to are the bytes written. -/
theorem sendWr_of_valid {chunk : ChunkId → Chunk} {tx : List ChunkId}
    (h : ∀ c ∈ tx, (chunk c).Valid) :
    (tx.map (sendWr chunk)).map SendWr.length = tx.map (fun c => (chunk c).offset) ∧
      (tx.map (sendWr chunk)).flatMap (fun wr => (chunk wr.wrId).buffer.take wr.length) =
        content chunk tx := by
  have hlength : ∀ c ∈ tx, (chunk c).offset % 2 ^ 32 = (chunk c).offset := by
    intro c hc
    have hle := (h c hc).offset_le
    have hlt := (h c hc).bytes_lt
    exact Nat.mod_eq_of_lt (Nat.lt_of_le_of_lt hle hlt)
  constructor
  · rw [List.map_map]
    exact List.map_congr_left hlength
  · rw [List.flatMap_map, content, List.flatMap_def, List.flatMap_def]
    congr 1
    apply List.map_congr_left
    intro c hc
    simp only [sendWr]
    rw [hlength c hc]

/-- **Packing.** For every bufferlist with at least one byte and enough free chunks,
`send` packs all its bytes without passing the last chunk. The chain of work requests
visits the chunks taken from the free list once each, in the order they were taken. All
of them are filled except possibly the last, which holds at least one byte, and the bytes
they refer to are the buffers of the bufferlist one after the other. -/
theorem send_packs {chunk : ChunkId → Chunk} {manager : MemoryManager} {bl : List (List UInt8)}
    {fails : Option ℕ} (hpos : 1 ≤ totalLength bl) (hbytes : totalLength bl < 2 ^ 32)
    (hsize : 0 < manager.channel.chunkSize) (hfresh : manager.channel.Fresh chunk)
    (henough : (totalLength bl + manager.channel.chunkSize - 1) / manager.channel.chunkSize ≤
      manager.channel.freeChunks.length)
    (hfails : ∀ j ∈ fails, j <
      (totalLength bl + manager.channel.chunkSize - 1) / manager.channel.chunkSize) :
    ∃ out, send chunk manager bl fails = some out ∧
      out.manager.channel.freeChunks ++
          ((out.accepted ++ out.refused).map SendWr.wrId).reverse = manager.channel.freeChunks ∧
      ((out.accepted ++ out.refused).map SendWr.wrId).Nodup ∧
      (∀ wr ∈ out.accepted ++ out.refused, wr.addr = (out.chunk wr.wrId).address) ∧
      (∃ last, 1 ≤ last ∧ last ≤ manager.channel.chunkSize ∧
        (out.accepted ++ out.refused).map SendWr.length =
          List.replicate ((totalLength bl + manager.channel.chunkSize - 1) /
            manager.channel.chunkSize - 1) manager.channel.chunkSize ++ [last]) ∧
      ((out.accepted ++ out.refused).map SendWr.length).sum = totalLength bl ∧
      (out.accepted ++ out.refused).flatMap
        (fun wr => (out.chunk wr.wrId).buffer.take wr.length) = bl.flatten := by
  have htotal : bl.flatten.length = totalLength bl := List.length_flatten
  obtain ⟨hcount, hroom, hneeded⟩ := ceilDiv_bounds hsize hpos
  rw [← Cluster.chunkCount_eq hsize hbytes] at henough hfails hcount hroom hneeded ⊢
  obtain ⟨hlen, hnodup, hempty, chunk', rest, hcopy, hpacks⟩ := hfresh.packs hsize hroom henough
  set n := manager.channel.chunkCount (totalLength bl) with hn
  set tx := manager.channel.freeChunks.reverse.take n with htx
  obtain ⟨last, hlast, hle, hlengths⟩ := hpacks.lengths hempty
    (by rw [htotal, hlen]; exact hneeded)
  obtain ⟨hwrLength, hwrBytes⟩ := sendWr_of_valid hpacks.valid
  obtain ⟨out, hout, hchunk, hmanager, hchain⟩ :=
    send_eq fails (MemoryManager.getTxBuffers_eq hsize hpos henough) hcopy
      (Nat.lt_of_lt_of_eq hcount hlen.symm) (by rw [hlen]; exact hfails)
  have hids : (tx.map (sendWr chunk')).map SendWr.wrId = tx := by
    simp [sendWr, Function.comp_def]
  refine ⟨out, hout, ?_, ?_, ?_, ?_, ?_, ?_⟩
  · rw [hchain, hids, hmanager, htx, List.take_reverse, List.reverse_reverse]
    exact List.take_append_drop ..
  · rw [hchain, hids]
    exact hnodup
  · rw [hchain, hchunk]
    intro wr hwr
    obtain ⟨c, _, rfl⟩ := List.mem_map.mp hwr
    rfl
  · rw [hchain, hwrLength, hlengths, hlen]
    exact ⟨last, hlast, hle, rfl⟩
  · rw [hchain, hwrLength, ← length_content hpacks.valid, hpacks.content_eq, hempty,
      List.nil_append, htotal]
  · rw [hchain, hchunk, hwrBytes, hpacks.content_eq, hempty, List.nil_append]

/-- Two free chunks of two bytes each, in a memory of zero bytes. -/
def samplePool (c : ChunkId) : Chunk := ⟨c * 2, [0, 0], 2, 0, c⟩

/-- Three bytes in three buffers, one of them empty, sent through two chunks of two
bytes. -/
theorem send_packs_three_bytes :
    ∃ out, send samplePool ⟨⟨2, [0, 1]⟩, ⟨2, []⟩⟩ [[1, 2], [], [3]] none = some out ∧
      out.manager.channel.freeChunks ++
          ((out.accepted ++ out.refused).map SendWr.wrId).reverse = [0, 1] ∧
      ((out.accepted ++ out.refused).map SendWr.wrId).Nodup ∧
      (∀ wr ∈ out.accepted ++ out.refused, wr.addr = (out.chunk wr.wrId).address) ∧
      (∃ last, 1 ≤ last ∧ last ≤ 2 ∧
        (out.accepted ++ out.refused).map SendWr.length =
          List.replicate ((totalLength [[1, 2], [], [3]] + 2 - 1) / 2 - 1) 2 ++ [last]) ∧
      ((out.accepted ++ out.refused).map SendWr.length).sum = totalLength [[1, 2], [], [3]] ∧
      (out.accepted ++ out.refused).flatMap
        (fun wr => (out.chunk wr.wrId).buffer.take wr.length) = [[1, 2], [], [3]].flatten := by
  have hfresh : (⟨2, [0, 1]⟩ : Cluster).Fresh samplePool := by
    refine ⟨by decide, ?_, ?_⟩
    · intro c _
      exact ⟨⟨rfl, Nat.zero_le _, by simp [samplePool]⟩, rfl⟩
    · intro c _
      rfl
  refine send_packs ?_ ?_ ?_ hfresh ?_ ?_
  all_goals decide

end RdmaTransport
