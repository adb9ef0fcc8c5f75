import RdmaTransport.Bulk
import Mathlib.Algebra.Order.Floor.Div
import Mathlib.Data.Nat.ModEq

/-!
# Partition and placement of a bulk transfer

`bulk` computes the number of pieces by a formula, cuts the block by a cursor and finds
the slots of the peer by an index that `rdma` moves on. This file shows that the three
agree: the pieces are consecutive and cover the block, piece `k` goes to the start of slot
`k` behind the current one, and the peer finds the block in its slots as long as there
are no more pieces than slots.

The loop variables of the source are of type `int`, as is the number of slots; they are
numbers here, which is the same for fewer than 2³¹ pieces and slots.
-/

namespace RdmaTransport

open Transfer

/-- No verb of the call fails, and the completions of its writes are polled, in any
batches. -/
structure BulkEnv.Succeeds (env : BulkEnv) (num : ℕ) : Prop where
  /-- Every registration succeeds. -/
  registers : ∀ i < num, env.registers i = true
  /-- Every work request is taken. -/
  posts : ∀ i < num, env.posts i = true
  /-- The polls return successful completions until there are enough. -/
  polls : ∃ (counts : List ℕ) (rest : List Poll), env.polls = counts.map Poll.got ++ rest ∧
    (∀ n ∈ counts, 1 ≤ n ∧ n ≤ maxCqe) ∧ counts.sum = num
  /-- Every deregistration succeeds. -/
  deregisters : ∀ i < num, env.deregisters i = true

/-- The slots of the peer: places of `rdma_gap` bytes at addresses other than 0 that are
apart from each other. -/
structure SendSide.SlotsApart (s : SendSide) : Prop where
  /-- No slot is at address 0. -/
  addr_ne : ∀ i < s.slices, s.raddrs i ≠ 0
  /-- Different slots are apart. -/
  apart : ∀ i < s.slices, ∀ j < s.slices, i ≠ j →
    Apart (s.raddrs i, s.rdmaGap) (s.raddrs j, s.rdmaGap)

/-- The write that a work request with the opcode `IBV_WR_RDMA_WRITE` makes. -/
def PostedWr.write (wr : PostedWr) : Write := ⟨wr.addr, wr.remoteAddr, wr.length⟩

/-- The slot of the `k`-th piece. -/
def SendSide.slotAt (s : SendSide) (k : ℕ) : ℕ := (s.rdmaIndex + k) % s.slices

namespace SendSide

/-- The work request for the `k`-th piece of a bulk transfer: it writes the piece to the
slot `k` places behind the current one. -/
def pieceWr (s : SendSide) (k : ℕ) (mem : RdmaMem) : PostedWr :=
  ⟨233, mem.buf, mem.size, mem.mr, .rdmaWrite, s.raddrs (s.slotAt k),
    s.rkeys (s.slotAt k)⟩

/-- Moving to the next slot and counting from there is counting from one more. -/
theorem pieceWr_next (s : SendSide) (posted : List PostedWr) :
    pieceWr { s with rdmaIndex := (s.rdmaIndex + 1) % s.slices, posted := posted } =
      fun k => s.pieceWr (k + 1) := by
  funext k mem
  simp only [pieceWr, slotAt, Nat.mod_add_mod, Nat.add_assoc, Nat.add_comm 1]

/-- When the adapter takes every work request, the pieces are posted in order, each for the
next slot. -/
theorem postLoop_pieces {mems : List RdmaMem} {posts : ℕ → Bool} (i : ℕ) (pieces : List RdmaMem)
    (s : SendSide) (hmems : mems.drop i = pieces) (hok : ∀ k < mems.length, posts k = true)
    (hsizes : ∀ m ∈ pieces, m.size < 2 ^ 32) (hindex : s.rdmaIndex < s.slices)
    (haddrs : ∀ k < s.slices, s.raddrs k ≠ 0) :
    postLoop mems posts pieces.length i s = some ({ s with
      rdmaIndex := (s.rdmaIndex + pieces.length) % s.slices
      posted := s.posted ++ pieces.mapIdx s.pieceWr }, true) := by
  induction pieces generalizing i s with
  | nil => simp [postLoop, Nat.mod_eq_of_lt hindex]
  | cons mem pieces ih =>
    rw [List.forall_mem_cons] at hsizes
    obtain ⟨hi, hmem, hrest⟩ := of_drop_eq_cons hmems
    have hwr : ({ s with rdmaIndex := (s.rdmaIndex + 1) % s.slices } : SendSide).postedWr
        ⟨mem, .rdmaWrite, mem.size, s.rkeys s.rdmaIndex, s.raddrs s.rdmaIndex, 233⟩ =
          s.pieceWr 0 mem := by
      have hsize : mem.size % 2 ^ 32 = mem.size := Nat.mod_eq_of_lt hsizes.1
      simp only [postedWr, pieceWr, slotAt, hsize, Nat.add_zero, Nat.mod_eq_of_lt hindex]
      simp [haddrs _ hindex]
    have hmore := ih (i + 1)
      { s with
        rdmaIndex := (s.rdmaIndex + 1) % s.slices
        posted := s.posted ++ [s.pieceWr 0 mem] }
      hrest hsizes.2 (Nat.mod_lt _ (by omega)) haddrs
    rw [List.length_cons, postLoop, hmem]
    simp only [Option.bind_some, rdma, sendTask, hok i hi, if_true, hwr, hmore, List.mapIdx_cons,
      pieceWr_next, Nat.mod_add_mod, Nat.add_assoc, Nat.add_comm 1, List.append_assoc,
      List.singleton_append]

/-- What a call leaves none of whose verbs fails. -/
theorem bulk_succeeds {s : SendSide} (ptr : ℕ) {size : ℕ} {env : BulkEnv} (hgap : 0 < s.rdmaGap)
    (hgap' : s.rdmaGap < 2 ^ 32) (hindex : s.rdmaIndex < s.slices)
    (haddrs : ∀ k < s.slices, s.raddrs k ≠ 0) (hs : s.polled ≤ s.posted.length)
    (henv : env.Succeeds (bulkNum s.rdmaGap size)) :
    ∃ out before pieces, s.bulk ptr size env = some out ∧ out.result = some 0 ∧
      out.beforeDereg = some before ∧ before.regions = s.regions ++ pieces ∧
      pieces.length = bulkNum s.rdmaGap size ∧
      Tiles ptr (ptr + size) (pieces.map fun m => (m.buf, m.size)) ∧
      (∀ m ∈ pieces, 1 ≤ m.size ∧ m.size ≤ s.rdmaGap) ∧
      out.state.posted = s.posted ++ pieces.mapIdx s.pieceWr ∧
      out.state.rdmaIndex = (s.rdmaIndex + pieces.length) % s.slices ∧
      out.state.polled = s.polled + pieces.length := by
  obtain ⟨pieces, hregister, hlength, htiles, hsizes⟩ :=
    registerLoop_pieces ptr 0 s [] hgap (Nat.zero_le size) (Nat.sub_le _ _) fun i hi =>
      henv.registers i (by simpa using hi)
  rw [Nat.sub_zero] at hlength
  have hpost := postLoop_pieces 0 pieces
    { s with regions := s.regions ++ pieces, nextMr := s.nextMr + pieces.length } List.drop_zero
    (fun k hk => henv.posts k (hlength ▸ hk)) (fun m hm => (hsizes m hm).2.trans_lt hgap') hindex
    haddrs
  obtain ⟨counts, rest, hpolls, hcounts, hsum⟩ := henv.polls
  obtain ⟨acks, hack⟩ := ackLoop_counts rest 0 { s with
      regions := s.regions ++ pieces
      nextMr := s.nextMr + pieces.length
      rdmaIndex := (s.rdmaIndex + pieces.length) % s.slices
      posted := s.posted ++ pieces.mapIdx s.pieceWr } hcounts (by
    simp only [List.length_append, List.length_mapIdx, hsum, hlength]
    omega)
  rw [Nat.zero_add, hsum, ← hpolls, ← hlength] at hack
  have hok : ∀ k < pieces.length, env.deregisters k = true := fun k hk =>
    henv.deregisters k (hlength ▸ hk)
  exact ⟨_, _, pieces, bulk_of_loops hlength hregister hpost hack
    (deregLoop_pieces 0 pieces _ List.drop_zero hok), rfl, rfl, rfl, hlength, htiles, hsizes, rfl,
    rfl, rfl⟩

/-- The number of pieces is the size of the block divided by the gap and rounded up. -/
theorem bulkNum_eq_ceilDiv {rdmaGap : ℕ} (hgap : 0 < rdmaGap) (size : ℕ) :
    bulkNum rdmaGap size = size ⌈/⌉ rdmaGap := by
  have hsize := Nat.div_add_mod size rdmaGap
  have hlt := Nat.mod_lt size hgap
  rw [Nat.ceilDiv_eq_add_pred_div, bulkNum]
  symm
  by_cases hmod : size % rdmaGap = 0
  · rw [if_pos hmod, Nat.add_sub_cancel]
    apply Nat.div_eq_of_lt_le
    · rw [Nat.mul_comm]
      omega
    · rw [Nat.succ_mul, Nat.mul_comm]
      omega
  · rw [if_neg hmod]
    apply Nat.div_eq_of_lt_le
    · rw [Nat.succ_mul, Nat.mul_comm]
      omega
    · rw [Nat.succ_mul, Nat.succ_mul, Nat.mul_comm]
      omega

/-- The slots of different pieces are different as long as there are enough of them. -/
theorem slotAt_injective_iff (s : SendSide) (hslices : 0 < s.slices) (num : ℕ) :
    (∀ j < num, ∀ k < num, s.slotAt j = s.slotAt k → j = k) ↔ num ≤ s.slices := by
  constructor
  · intro h
    by_contra hmore
    have hsame : s.slotAt 0 = s.slotAt s.slices := by simp [slotAt]
    exact absurd (h 0 (by omega) s.slices (by omega) hsame) (by omega)
  · intro hle j hj k hk hsame
    have hmod : Nat.ModEq s.slices j k := Nat.ModEq.add_left_cancel' s.rdmaIndex hsame
    exact hmod.eq_of_lt_of_lt (by omega) (by omega)

/-- The writes to different slots are apart. -/
theorem pieceWr_apart {s : SendSide} (hslots : s.SlotsApart) (hslices : 0 < s.slices)
    {pieces : List RdmaMem} (hsizes : ∀ m ∈ pieces, m.size ≤ s.rdmaGap)
    (hfew : pieces.length ≤ s.slices) :
    ((pieces.mapIdx s.pieceWr).map PostedWr.write).Pairwise
      fun v w => Apart w.filled v.filled := by
  rw [List.pairwise_map, List.pairwise_iff_getElem]
  intro j k hj hk hjk
  rw [List.length_mapIdx] at hj hk
  have hne : s.slotAt k ≠ s.slotAt j := by
    intro hsame
    have heq := (s.slotAt_injective_iff hslices pieces.length).mpr hfew k hk j hj hsame
    omega
  have hslot : ∀ i, s.slotAt i < s.slices := fun i => Nat.mod_lt _ hslices
  have hapart := hslots.apart _ (hslot k) _ (hslot j) hne
  have hsizej := hsizes _ (List.getElem_mem hj)
  have hsizek := hsizes _ (List.getElem_mem hk)
  simp only [List.getElem_mapIdx, Apart, Write.filled, PostedWr.write, pieceWr] at hapart ⊢
  omega

end SendSide

/-- **Partition and placement.** A bulk transfer that starts with all completions polled
and none of whose verbs fails registers as many pieces as the size divided by the gap,
rounded up. They are consecutive, cover the block, and none is empty or longer than the
gap. Piece `k` is written to the start of slot `rdma_index + k` modulo the number of
slots, and the index moves on by the number of pieces. The slots are distinct exactly
when there are enough of them, and then reading what was written, slot by slot from the
old index on, gives the block, whatever the memories of both sides hold. -/
theorem bulk_places {s : SendSide} (ptr size : ℕ) {env : BulkEnv} (hgap : 1 ≤ s.rdmaGap)
    (hgap' : s.rdmaGap < 2 ^ 32) (hindex : s.rdmaIndex < s.slices) (hslots : s.SlotsApart)
    (hpolled : s.polled = s.posted.length) (henv : env.Succeeds (size ⌈/⌉ s.rdmaGap)) :
    ∃ out before mems wrs, s.bulk ptr size env = some out ∧ out.result = some 0 ∧
      out.beforeDereg = some before ∧ before.regions = s.regions ++ mems ∧
      out.state.posted = s.posted ++ wrs ∧
      mems.length = size ⌈/⌉ s.rdmaGap ∧
      Tiles ptr (ptr + size) (mems.map fun m => (m.buf, m.size)) ∧
      (∀ m ∈ mems, 1 ≤ m.size ∧ m.size ≤ s.rdmaGap) ∧
      wrs = mems.mapIdx (fun k m => ⟨233, m.buf, m.size, m.mr, .rdmaWrite,
        s.raddrs ((s.rdmaIndex + k) % s.slices), s.rkeys ((s.rdmaIndex + k) % s.slices)⟩) ∧
      out.state.rdmaIndex = (s.rdmaIndex + mems.length) % s.slices ∧
      ((∀ j < mems.length, ∀ k < mems.length,
        (s.rdmaIndex + j) % s.slices = (s.rdmaIndex + k) % s.slices → j = k) ↔
          mems.length ≤ s.slices) ∧
      (mems.length ≤ s.slices → ∀ src dst : ℕ → UInt8,
        wrs.flatMap (fun wr =>
          readAt (runAll src (wrs.map PostedWr.write) dst) wr.remoteAddr wr.length) =
            readAt src ptr size) := by
  have hslices : 0 < s.slices := by omega
  rw [← SendSide.bulkNum_eq_ceilDiv hgap] at henv ⊢
  obtain ⟨out, before, mems, hbulk, hresult, hbefore, hregions, hlength, htiles, hsizes, hposted,
    hnext, _⟩ := SendSide.bulk_succeeds ptr hgap hgap' hindex hslots.addr_ne hpolled.le henv
  refine ⟨out, before, mems, mems.mapIdx s.pieceWr, hbulk, hresult, hbefore, hregions, hposted,
    hlength, htiles, hsizes, rfl, hnext, s.slotAt_injective_iff hslices mems.length, ?_⟩
  intro hfew src dst
  have hapart := SendSide.pieceWr_apart hslots hslices (fun m hm => (hsizes m hm).2) hfew
  have hpieces : ((mems.mapIdx s.pieceWr).map PostedWr.write).map (fun w => (w.source, w.length)) =
      mems.map fun m => (m.buf, m.size) := by
    apply List.ext_getElem
    · simp
    · intro k _ _
      simp [PostedWr.write, SendSide.pieceWr]
  rw [← hpieces] at htiles
  have hread := htiles.flatMap_runAll hapart src dst
  rw [List.flatMap_map, Nat.add_sub_cancel_left] at hread
  exact hread

/-- Two slots of four bytes, of which the second is the next one. -/
def sampleSlots : SendSide :=
  ⟨⟨0, 0, 32⟩, (0, 0), fun i => 100 + 10 * i, fun _ => 7, 2, 4, 1, [], 1, [], 0⟩

/-- Seven bytes in slots of four are two pieces, and the second one goes to slot 0. -/
theorem bulk_places_seven_bytes :
    ∃ out,
      sampleSlots.bulk 50 7 ⟨fun _ => true, fun _ => true, [.got 2], fun _ => true⟩ = some out ∧
      out.state.rdmaIndex = 1 ∧ ∀ src dst : ℕ → UInt8,
        out.state.posted.flatMap (fun wr =>
          readAt (runAll src (out.state.posted.map PostedWr.write) dst) wr.remoteAddr wr.length) =
            readAt src 50 7 := by
  have hslots : sampleSlots.SlotsApart := ⟨by decide, by
    simp only [Apart]
    decide⟩
  obtain ⟨out, before, mems, wrs, hbulk, _, _, _, hposted, hlength, _, _, _, hnext, _, hread⟩ :=
    bulk_places 50 7 (by decide) (by decide) (by decide) hslots rfl
      (show BulkEnv.Succeeds ⟨fun _ => true, fun _ => true, [.got 2], fun _ => true⟩ _ from
        ⟨fun _ _ => rfl, fun _ _ => rfl, ⟨[2], [], rfl, by decide, by decide⟩, fun _ _ => rfl⟩)
  have htwo : mems.length = 2 := hlength
  have hall : out.state.posted = wrs := hposted
  refine ⟨out, hbulk, by rw [hnext, htwo]; rfl, ?_⟩
  rw [hall]
  exact hread (by rw [htwo]; decide)

end RdmaTransport
