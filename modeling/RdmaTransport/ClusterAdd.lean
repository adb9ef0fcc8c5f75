import RdmaTransport.Chunk
import RdmaTransport.Lib.Transfer

/-!
# The limit of a cluster

`Cluster::add` computes the size of the block it allocates and the places of the chunks in
it in 32-bit arithmetic. Both wrap around. The loop ends all the same, after at most as
many rounds as chunks were asked for, but when the size of the block has wrapped the
chunks are too few, or overlap, or lie outside the block. This file shows that the chunks
are right exactly when the size does not wrap.
-/

namespace RdmaTransport

open Transfer

/-- The range of a chunk's buffer. -/
def Chunk.range (c : Chunk) : ℕ × ℕ := (c.address, c.bytes)

/-- The chunks are as many as asked for, and their buffers are apart from each other and
inside the allocated block. -/
structure Cluster.Carved (pool : Pool) (block : ℕ × ℕ) (num : ℕ) (added : List ChunkId) :
    Prop where
  /-- There are as many chunks as asked for. -/
  length_eq : added.length = num
  /-- No two buffers overlap. -/
  apart : (added.map fun c => (pool.chunk c).range).Pairwise Apart
  /-- Every buffer is inside the block. -/
  inside : ∀ c ∈ added, Inside (pool.chunk c).range block

/-- The loop of `Cluster::add` makes no more rounds than it is given. -/
theorem Cluster.length_addOffsets_le {chunkSize bytes fuel offset : ℕ} {offsets : List ℕ}
    (h : addOffsets chunkSize bytes fuel offset = some offsets) : offsets.length ≤ fuel := by
  induction fuel generalizing offset offsets with
  | zero =>
    simp only [addOffsets] at h
    split_ifs at h
    obtain rfl := Option.some.inj h
    exact Nat.le_refl 0
  | succ fuel ih =>
    simp only [addOffsets] at h
    split_ifs at h
    · obtain ⟨rest, hrest, rfl⟩ := Option.map_eq_some_iff.mp h
      exact Nat.succ_le_succ (ih hrest)
    · obtain rfl := Option.some.inj h
      exact Nat.zero_le _

/-- With a block that does not overflow the loop of `Cluster::add` visits the multiples of
the chunk size. -/
theorem Cluster.addOffsets_eq {chunkSize num : ℕ} (hsize : 0 < chunkSize)
    (hbytes : chunkSize * num < 2 ^ 32) {fuel k : ℕ} (h : fuel + k = num) :
    addOffsets chunkSize (chunkSize * num) fuel (chunkSize * k) =
      some ((List.range' k fuel).map (chunkSize * ·)) := by
  induction fuel generalizing k with
  | zero =>
    obtain rfl : k = num := by omega
    simp [addOffsets]
  | succ fuel ih =>
    have hmore : chunkSize * k < chunkSize * num := Nat.mul_lt_mul_of_pos_left (by omega) hsize
    have hnext : (chunkSize * k + chunkSize) % 2 ^ 32 = chunkSize * (k + 1) := by
      have hle : chunkSize * (k + 1) ≤ chunkSize * num := Nat.mul_le_mul_left _ (by omega)
      rw [← Nat.mul_succ]
      exact Nat.mod_eq_of_lt (Nat.lt_of_le_of_lt hle hbytes)
    rw [addOffsets, if_pos hmore, hnext, ih (by omega), List.range'_succ]
    rfl

/-- The loop of `Cluster::add` gives every chunk its place in the block, and leaves the chunks
created before alone. -/
theorem Cluster.ranges_foldl_addChunk (host : Host) (base : ℕ) (offsets : List ℕ) (pool : Pool)
    (cluster : Cluster) :
    let out := offsets.foldl (addChunk host base) (pool, cluster)
    (∀ c < pool.created, out.1.chunk c = pool.chunk c) ∧
    (List.range' pool.created offsets.length).map (fun c => (out.1.chunk c).range) =
      offsets.map fun offset => (base + offset, cluster.chunkSize) := by
  induction offsets generalizing pool cluster with
  | nil => simp
  | cons offset rest ih =>
    obtain ⟨hkept, hranges⟩ := ih (addChunk host base (pool, cluster) offset).1
      (addChunk host base (pool, cluster) offset).2
    have hcreated : (addChunk host base (pool, cluster) offset).1.created = pool.created + 1 := rfl
    rw [hcreated] at hkept hranges
    refine ⟨?_, ?_⟩
    · intro c hc
      rw [List.foldl_cons, hkept c (by omega)]
      simp only [addChunk, Pool.newChunk]
      rw [Function.update_of_ne (Nat.ne_of_lt hc)]
    · rw [List.foldl_cons, List.length_cons, List.range'_succ, List.map_cons, List.map_cons,
        hranges, hkept pool.created (by omega)]
      simp [addChunk, Pool.newChunk, Chunk.range]

/-- `Cluster::add` then creates as many chunks as asked for, in order. -/
theorem Cluster.add_eq (host : Host) (base : ℕ) (pool : Pool) (cluster : Cluster) {num : ℕ}
    (hsize : 0 < cluster.chunkSize) (hbytes : cluster.chunkSize * num < 2 ^ 32)
    (hchunk : cluster.chunkSize < 2 ^ 32) :
    ∃ pool', Cluster.add host base pool cluster num = some (pool', ⟨cluster.chunkSize,
      cluster.freeChunks ++ List.range' pool.created num⟩) ∧
        pool'.created = pool.created + num := by
  have hoffsets := addOffsets_eq hsize hbytes (Nat.add_zero num)
  rw [Nat.mul_zero] at hoffsets
  obtain ⟨hcreated, hkept, hfree, _⟩ := foldl_addChunk host base
    ((List.range' 0 num).map (cluster.chunkSize * ·)) pool cluster hchunk
  rw [List.length_map, List.length_range'] at hcreated hfree
  refine ⟨_, ?_, hcreated⟩
  rw [Cluster.add, Nat.mod_eq_of_lt hbytes, hoffsets, Option.map_some, ← hfree]
  exact congrArg some (Prod.ext rfl (congrArg₂ Cluster.mk hkept rfl))

/-- Chunks at consecutive multiples of their size are apart and inside the block. -/
theorem Cluster.multiples_apart (base chunkSize num : ℕ) :
    ((List.range' 0 num).map fun k => (base + chunkSize * k, chunkSize)).Pairwise Apart ∧
      ∀ k < num, Inside (base + chunkSize * k, chunkSize) (base, chunkSize * num) := by
  constructor
  · rw [List.pairwise_map]
    refine (List.pairwise_lt_range' 1 Nat.zero_lt_one).imp ?_
    intro j k hjk
    have hle : chunkSize * (j + 1) ≤ chunkSize * k := Nat.mul_le_mul_left _ hjk
    rw [Nat.mul_succ] at hle
    left
    simp only
    omega
  · intro k hk
    have hle : chunkSize * (k + 1) ≤ chunkSize * num := Nat.mul_le_mul_left _ hk
    rw [Nat.mul_succ] at hle
    constructor <;> simp only <;> omega

/-- **The limit of a cluster.** For every positive 32-bit chunk size and every 32-bit number
of chunks, the loop of `Cluster::add` ends after at most that many rounds, and the chunks
it appends are as many as asked for, apart from each other and inside the allocated block
exactly when the size of the block does not overflow. -/
theorem add_carves_iff (host : Host) (base : ℕ) (pool : Pool) (freeChunks : List ChunkId)
    (chunkSize num : UInt32) (hsize : 0 < chunkSize.toNat) :
    ∃ offsets pool' added,
      Cluster.addOffsets chunkSize.toNat (chunkSize.toNat * num.toNat % 2 ^ 32) num.toNat 0 =
        some offsets ∧
      offsets.length ≤ num.toNat ∧
      Cluster.add host base pool ⟨chunkSize.toNat, freeChunks⟩ num.toNat =
        some (pool', ⟨chunkSize.toNat, freeChunks ++ added⟩) ∧
      added.length = offsets.length ∧
      (Cluster.Carved pool' (base, chunkSize.toNat * num.toNat % 2 ^ 32) num.toNat added ↔
        chunkSize.toNat * num.toNat < 2 ^ 32) := by
  have hsome := Cluster.addOffsets_isSome chunkSize.toNat num.toNat (Nat.add_zero _)
  obtain ⟨offsets, hoffsets⟩ := Option.isSome_iff_exists.mp hsome
  rw [Nat.mul_zero, Nat.zero_mod] at hoffsets
  obtain ⟨_, hkept, hfree, _⟩ := Cluster.foldl_addChunk host base offsets pool
    ⟨chunkSize.toNat, freeChunks⟩ chunkSize.toNat_lt
  obtain ⟨_, hranges⟩ := Cluster.ranges_foldl_addChunk host base offsets pool
    ⟨chunkSize.toNat, freeChunks⟩
  generalize hout : offsets.foldl (Cluster.addChunk host base)
    (pool, ⟨chunkSize.toNat, freeChunks⟩) = out at hkept hfree hranges
  refine ⟨offsets, out.1, List.range' pool.created offsets.length, hoffsets,
    Cluster.length_addOffsets_le hoffsets, ?_, List.length_range', ?_⟩
  · rw [Cluster.add, hoffsets, Option.map_some, hout]
    exact congrArg some (Prod.ext rfl (congrArg₂ Cluster.mk hkept hfree))
  constructor
  · intro hcarved
    -- The buffers take up no more than the block, whose size is a residue.
    have hsum := sum_le_of_apart_of_inside hcarved.apart (by
      rw [List.forall_mem_map]
      exact hcarved.inside)
    have hlength := hcarved.length_eq
    rw [List.length_range'] at hlength
    rw [hranges, List.map_map] at hsum
    simp only [Function.comp_def, List.map_const', List.sum_replicate_nat, hlength,
      Nat.mul_comm num.toNat] at hsum
    exact Nat.lt_of_le_of_lt hsum (Nat.mod_lt _ (Nat.two_pow_pos 32))
  · intro hbytes
    have hall := Cluster.addOffsets_eq hsize hbytes (Nat.add_zero num.toNat)
    rw [Nat.mod_eq_of_lt hbytes] at hoffsets ⊢
    rw [Nat.mul_zero, hoffsets, Option.some.injEq] at hall
    obtain ⟨hapart, hinside⟩ := Cluster.multiples_apart base chunkSize.toNat num.toNat
    have hmultiples : (List.range' pool.created offsets.length).map
        (fun c => (out.1.chunk c).range) =
          (List.range' 0 num.toNat).map fun k => (base + chunkSize.toNat * k, chunkSize.toNat) := by
      rw [hranges, hall, List.map_map]
      rfl
    refine ⟨by rw [hall]; simp, by rwa [hmultiples], ?_⟩
    intro c hc
    have hrange : (out.1.chunk c).range ∈ (List.range' pool.created offsets.length).map
        fun c => (out.1.chunk c).range := List.mem_map_of_mem hc
    rw [hmultiples] at hrange
    obtain ⟨k, hk, hsame⟩ := List.mem_map.mp hrange
    rw [← hsame]
    exact hinside k (by simpa using hk)

/-- Three chunks of 2³¹ + 1 bytes: all three are appended, but they do not fit the block. -/
theorem add_carves_iff_three_large :
    ∃ pool added, Cluster.add plainHost 0 ⟨fun _ => ⟨0, [], 0, 0, 0⟩, 0⟩ ⟨2147483649, []⟩ 3 =
        some (pool, ⟨2147483649, added⟩) ∧
      added.length = 3 ∧ ¬Cluster.Carved pool (0, 2147483651) 3 added := by
  obtain ⟨offsets, pool, added, hoffsets, _, hadd, hlength, hcarved⟩ :=
    add_carves_iff plainHost 0 ⟨fun _ => ⟨0, [], 0, 0, 0⟩, 0⟩ [] 2147483649 3 (by decide)
  have hthree : offsets = [0, 2147483649, 2] := by
    rw [← Option.some.injEq, ← hoffsets]
    decide
  rw [hthree] at hlength
  exact ⟨pool, added, hadd, hlength, fun h => absurd (hcarved.mp h) (by decide)⟩

end RdmaTransport
