import RdmaTransport.Bulk
import RdmaTransport.HugePages

/-!
# Closing a session

A session obtains its buffers through `malloc_huge_pages`, and only `free_huge_pages` finds
the base of such a block again. `close` deregisters the memory regions of the
session, passes two of the three buffers to `free` and the third to `free_huge_pages`.
This file follows the blocks and the regions of a session from its context to the end of
`close`.
-/

namespace RdmaTransport

open Blocks Resources

/-- A `struct rdma_mem` in memory. -/
structure MemPtr where
  /-- Its address. -/
  addr : ℕ
  /-- Its contents. -/
  mem : RdmaMem

/-- What a session keeps: its context, its buffers and its registered memory. -/
structure SessionBuffers where
  /-- `ctx`. -/
  ctx : ℕ
  /-- `ctx->rw`, `none` when it is null. -/
  rw : Option MemPtr
  /-- `recv_mem`. -/
  recvMem : List MemPtr
  /-- `rbuf`. -/
  rbuf : ℕ
  /-- `sbuf`. -/
  sbuf : ℕ
  /-- `send_mem`. -/
  sendMem : MemPtr
  /-- `qbuf`. -/
  qbuf : ℕ
  /-- `rwbuf`. -/
  rwbuf : ℕ
  /-- `rw_mem`. -/
  rwMem : List MemPtr
  /-- `rkeys`. -/
  rkeys : ℕ
  /-- `raddrs`. -/
  raddrs : ℕ

/-- The values a session is opened and used with. -/
structure SessionParams where
  /-- `sizeof (struct rdma_context)`. -/
  contextSize : ℕ
  /-- `params->mem_size`. -/
  memSize : ℕ
  /-- `recv_nums`. -/
  recvNums : ℕ
  /-- `slices`. -/
  slices : ℕ
  /-- `flag`. -/
  flag : ℤ
  /-- The number of bytes of the peer's table. -/
  tableLen : ℕ
  /-- The address and the size of each `bulk` call. -/
  bulks : List (ℕ × ℕ)

section

variable (A : Allocator) (maps : ℕ → Bool)

/-- `rdma_reg_mr`, with a successful registration. -/
def SessionHeap.rdmaRegMr (h : SessionHeap) (buf size : ℕ) : SessionHeap × MemPtr :=
  let rm := h.malloc A 24
  ({ rm.1 with
      regions := h.regions.acquire h.registered
      registered := h.registered + 1 }, ⟨rm.2, ⟨h.registered, buf, size⟩⟩)

/-- A loop that registers one piece of memory after the other. -/
def SessionHeap.regLoop (h : SessionHeap) : (pieces : List (ℕ × ℕ)) → SessionHeap × List MemPtr
  | [] => (h, [])
  | piece :: rest =>
      let first := h.rdmaRegMr A piece.1 piece.2
      let others := first.1.regLoop rest
      (others.1, first.2 :: others.2)

/-- `rdma_dereg_mr`, with a successful deregistration. -/
def SessionHeap.rdmaDeregMr (h : SessionHeap) (p : MemPtr) : SessionHeap :=
  { h with regions := h.regions.release p.mem.mr }.free p.addr

/-- A loop that deregisters one piece of memory after the other. It ends at the first
deregistration that fails. The result tells whether none did. -/
def SessionHeap.deregLoop (deregisters : ℕ → Bool) :
    (i : ℕ) → (pieces : List MemPtr) → SessionHeap → SessionHeap × Bool
  | _, [], h => (h, true)
  | i, p :: rest, h =>
      if deregisters i then deregLoop deregisters (i + 1) rest (h.rdmaDeregMr p) else (h, false)

/-- `reg_mem(size)` of a session whose `gap` is `size`: the receive buffer, its regions, the
send buffer and its region. -/
def SessionHeap.regMem (h : SessionHeap) (recvNums : ℕ) :
    SessionHeap × ℕ × List MemPtr × ℕ × MemPtr :=
  let array := h.malloc A (8 * recvNums)
  let rbuf := array.1.mallocHugePages A maps (gap * recvNums)
  let recv := rbuf.1.regLoop A ((List.range recvNums).map fun i => (rbuf.2 + gap * i, gap))
  let sbuf := recv.1.mallocHugePages A maps gap
  let send := sbuf.1.rdmaRegMr A sbuf.2 gap
  (send.1, rbuf.2, recv.2, sbuf.2, send.2)

/-- `start_rw`: the buffer for remote writes and its regions. -/
def SessionHeap.startRw (h : SessionHeap) (slices : ℕ) : SessionHeap × ℕ × List MemPtr :=
  let rwbuf := h.mallocHugePages A maps (rdmaGapInit * slices)
  let array := rwbuf.1.malloc A (8 * slices)
  let rw := array.1.regLoop A
    ((List.range slices).map fun i => (rwbuf.2 + rdmaGapInit * i, rdmaGapInit))
  (rw.1, rwbuf.2, rw.2)

/-- `start_remote(len)`: the arrays for the peer's table. -/
def SessionHeap.startRemote (h : SessionHeap) (len : ℕ) : SessionHeap × ℕ × ℕ :=
  let rkeys := h.malloc A (4 * (len / 25))
  let raddrs := rkeys.1.malloc A (8 * (len / 25))
  (raddrs.1, rkeys.2, raddrs.2)

/-- `door`: the two sides set up their tables in opposite orders. -/
def SessionHeap.door (h : SessionHeap) (flag : ℤ) (slices len : ℕ) :
    SessionHeap × (ℕ × List MemPtr) × ℕ × ℕ :=
  if flag = 1 then
    let rw := h.startRw A maps slices
    let remote := rw.1.startRemote A len
    (remote.1, rw.2, remote.2)
  else
    let remote := h.startRemote A len
    let rw := remote.1.startRw A maps slices
    (rw.1, rw.2, remote.2)

/-- The context of a session: with a `mem_size`, a region of that size is registered. -/
def SessionHeap.context (h : SessionHeap) (contextSize memSize : ℕ) :
    SessionHeap × ℕ × Option MemPtr :=
  let ctx := h.malloc A contextSize
  if memSize = 0 then (ctx.1, ctx.2, none)
  else
    let tbuf := ctx.1.malloc A memSize
    let rw := tbuf.1.rdmaRegMr A tbuf.2 memSize
    (rw.1, ctx.2, some rw.2)

/-- The memory of a process before the session. -/
def SessionHeap.start : SessionHeap := ⟨⟨[], 0, []⟩, fun _ => 0, .empty, .empty, 0⟩

/-- The context and then `init`. -/
def SessionHeap.init (p : SessionParams) : SessionHeap × SessionBuffers :=
  let ctx := SessionHeap.start.context A p.contextSize p.memSize
  let mem := ctx.1.regMem A maps p.recvNums
  let qbuf := mem.1.malloc A (8 * 1024)
  let door := qbuf.1.door A maps p.flag p.slices p.tableLen
  (door.1, ⟨ctx.2.1, ctx.2.2, mem.2.2.1, mem.2.1, mem.2.2.2.1, mem.2.2.2.2, qbuf.2,
    door.2.1.1, door.2.1.2, door.2.2.1, door.2.2.2⟩)

/-- The pieces registered by the first loop of `bulk`, from `cursor` on. -/
def bulkPieces (ptr size : ℕ) : (fuel cursor : ℕ) → List (ℕ × ℕ)
  | 0, _ => []
  | fuel + 1, cursor =>
      if cursor < size then
        let len := if rdmaGapInit ≤ size - cursor then rdmaGapInit else size - cursor
        (ptr + cursor, len) :: bulkPieces ptr size fuel (cursor + len)
      else []

/-- A `bulk` call that succeeds. -/
def SessionHeap.bulk (h : SessionHeap) (ptr size : ℕ) : SessionHeap :=
  let num := bulkNum rdmaGapInit size
  let array := h.malloc A (8 * num)
  let mems := array.1.regLoop A (bulkPieces ptr size size 0)
  let done := SessionHeap.deregLoop (fun _ => true) 0 (mems.2.take num) mems.1
  done.1.free array.2

end

/-- `rdma_close_ctx`. The context is freed when all its verbs calls succeed. -/
def SessionHeap.rdmaCloseCtx (h : SessionHeap) (ctx : ℕ) (closes : Bool) : SessionHeap × ℤ :=
  if closes then (h.free ctx, 0) else (h, 1)

/-- `close`. It ends at the first deregistration that fails. A failed assertion is
`none`. -/
def SessionHeap.close (h : SessionHeap) (s : SessionBuffers) (deregisters : ℕ → Bool)
    (closes : Bool) : Option (SessionHeap × ℤ) :=
  let recv := deregLoop deregisters 0 s.recvMem h
  if recv.2 = false then some (recv.1, -1)
  else
    let i := s.recvMem.length
    let send := deregLoop deregisters i [s.sendMem] recv.1
    if send.2 = false then some (send.1, 1)
    else
      let rwMem := deregLoop deregisters (i + 1) s.rwMem send.1
      if rwMem.2 = false then some (rwMem.1, -1)
      else
        let rw := deregLoop deregisters (i + 1 + s.rwMem.length) s.rw.toList rwMem.1
        if rw.2 = false then some (rw.1, -1)
        else
          let freed := ((((rw.1.free s.rbuf).free s.sbuf).free s.qbuf).free s.rkeys).free s.raddrs
          (freed.freeHugePages s.rwbuf).map fun h => h.rdmaCloseCtx s.ctx closes

/-- A session from its context to the end of `close`, with successful verbs calls. -/
def SessionHeap.session (A : Allocator) (maps : ℕ → Bool) (p : SessionParams) :
    Option (SessionHeap × ℤ) :=
  let opened := SessionHeap.init A maps p
  let used := p.bulks.foldl (fun h call => h.bulk A call.1 call.2) opened.1
  used.close opened.2 (fun _ => true) true

/-- Every address returned by `malloc_huge_pages` was passed to `free_huge_pages` once,
`free` was given only addresses `malloc` had returned, and every region was deregistered
once. -/
def SessionHeap.Released (h : SessionHeap) : Prop :=
  h.huge = .empty ∧ (∀ ptr, (.malloc, ptr) ∉ h.table.misused) ∧ h.regions = .empty

/-- The regions of a session, in the order they are registered. -/
def SessionBuffers.mrs (s : SessionBuffers) : List ℕ :=
  s.rw.toList.map (fun p => p.mem.mr) ++
    (s.recvMem.map (fun p => p.mem.mr) ++ (s.sendMem.mem.mr :: s.rwMem.map fun p => p.mem.mr))

namespace SessionHeap

variable {A : Allocator} {maps : ℕ → Bool} {h : SessionHeap} {b : Block}

/-- The live regions are different, and the next one is different from them. -/
def Numbered (h : SessionHeap) : Prop :=
  h.regions.live.Nodup ∧ ∀ r ∈ h.regions.live, r < h.registered

/-- `malloc` is not `malloc_huge_pages`. -/
@[simp] theorem huge_malloc (h : SessionHeap) (size : ℕ) : (h.malloc A size).1.huge = h.huge := rfl

/-- `malloc` leaves the regions as they are. -/
@[simp] theorem regions_malloc (h : SessionHeap) (size : ℕ) :
    (h.malloc A size).1.regions = h.regions := rfl

/-- `malloc` registers nothing. -/
theorem Numbered.malloc (hh : h.Numbered) (size : ℕ) : (h.malloc A size).1.Numbered := hh

/-- `malloc_huge_pages` registers nothing. -/
theorem Numbered.mallocHugePages (hh : h.Numbered) (size : ℕ) :
    (h.mallocHugePages A maps size).1.Numbered := hh

/-- A registration numbers its region. -/
theorem Numbered.rdmaRegMr (hh : h.Numbered) (buf size : ℕ) :
    (h.rdmaRegMr A buf size).1.Numbered := by
  constructor
  · refine List.nodup_append.mpr ⟨hh.1, List.pairwise_singleton .., ?_⟩
    intro r hr last hlast
    rw [List.mem_singleton.mp hlast]
    exact Nat.ne_of_lt (hh.2 r hr)
  · intro r hr
    rcases List.mem_append.mp hr with hold | hlast
    · exact Nat.lt_succ_of_lt (hh.2 r hold)
    · rw [List.mem_singleton.mp hlast]
      exact Nat.lt_succ_self _

/-- The registration loop numbers its regions. -/
theorem Numbered.regLoop (hh : h.Numbered) (pieces : List (ℕ × ℕ)) :
    (h.regLoop A pieces).1.Numbered := by
  induction pieces generalizing h with
  | nil => exact hh
  | cons piece rest ih => exact ih (hh.rdmaRegMr piece.1 piece.2)

/-- The registration loop touches neither buffers nor the words saved. -/
theorem regLoop_frame (h : SessionHeap) (pieces : List (ℕ × ℕ)) :
    (h.regLoop A pieces).1.huge = h.huge ∧ (h.regLoop A pieces).1.saved = h.saved := by
  induction pieces generalizing h with
  | nil => exact ⟨rfl, rfl⟩
  | cons piece rest ih => exact ih (h.rdmaRegMr A piece.1 piece.2).1

/-- The registration loop returns the regions it registers. -/
theorem regions_regLoop (h : SessionHeap) (pieces : List (ℕ × ℕ)) :
    (h.regLoop A pieces).1.regions =
      ⟨h.regions.live ++ (h.regLoop A pieces).2.map fun p => p.mem.mr, h.regions.misused⟩ := by
  induction pieces generalizing h with
  | nil => simp [regLoop]
  | cons piece rest ih =>
    simp only [regLoop, ih, List.map_cons]
    simp [rdmaRegMr, Ledger.acquire]

/-- The registration loop returns one pointer for each piece. -/
theorem length_regLoop (h : SessionHeap) (pieces : List (ℕ × ℕ)) :
    (h.regLoop A pieces).2.length = pieces.length := by
  induction pieces generalizing h with
  | nil => rfl
  | cons piece rest ih => simp only [regLoop, List.length_cons, ih]

/-- The registration loop keeps a block apart from all others, and what it returns lies
elsewhere. -/
theorem guards_regLoop (hb : h.table.Guards b) (pieces : List (ℕ × ℕ)) :
    (h.regLoop A pieces).1.table.Guards b ∧ ∀ p ∈ (h.regLoop A pieces).2, p.addr ≠ b.base := by
  induction pieces generalizing h with
  | nil => exact ⟨hb, fun p hp => absurd hp List.not_mem_nil⟩
  | cons piece rest ih =>
    obtain ⟨hguards, haddr⟩ := ih (h := (h.rdmaRegMr A piece.1 piece.2).1) hb.obtain
    refine ⟨hguards, ?_⟩
    intro p hp
    rcases List.mem_cons.mp hp with rfl | hrest
    · exact hb.obtain_ne .malloc 24
    · exact haddr p hrest

/-- When no deregistration fails, all are made. -/
theorem deregLoop_true (i : ℕ) (pieces : List MemPtr) (h : SessionHeap) :
    deregLoop (fun _ => true) i pieces h = (pieces.foldl rdmaDeregMr h, true) := by
  induction pieces generalizing i h with
  | nil => rfl
  | cons p rest ih => simp only [deregLoop, if_true, ih, List.foldl_cons]

/-- Deregistering releases the regions and touches neither buffers nor the words saved. -/
theorem foldl_rdmaDeregMr_frame (pieces : List MemPtr) (h : SessionHeap) :
    (pieces.foldl rdmaDeregMr h).huge = h.huge ∧
      (pieces.foldl rdmaDeregMr h).saved = h.saved ∧
      (pieces.foldl rdmaDeregMr h).registered = h.registered ∧
      (pieces.foldl rdmaDeregMr h).regions =
        (pieces.map fun p => p.mem.mr).foldl Ledger.release h.regions := by
  induction pieces generalizing h with
  | nil => exact ⟨rfl, rfl, rfl, rfl⟩
  | cons p rest ih => exact ih (h.rdmaDeregMr p)

/-- Deregistering makes no block start at an address. -/
theorem unowned_foldl_rdmaDeregMr {ptr : ℕ} (pieces : List MemPtr) (hptr : h.table.Unowned ptr) :
    (pieces.foldl rdmaDeregMr h).table.Unowned ptr := by
  induction pieces generalizing h with
  | nil => exact hptr
  | cons p rest ih => exact ih (hptr.free p.addr)

/-- Deregistering keeps a block apart if it frees other addresses. -/
theorem guards_foldl_rdmaDeregMr (pieces : List MemPtr) (hb : h.table.Guards b)
    (hne : ∀ p ∈ pieces, p.addr ≠ b.base) : (pieces.foldl rdmaDeregMr h).table.Guards b := by
  induction pieces generalizing h with
  | nil => exact hb
  | cons p rest ih =>
    exact ih (hb.free (hne p (List.mem_cons_self ..))) fun q hq => hne q (List.mem_cons_of_mem _ hq)

/-- The first loop of `bulk` registers as many pieces as `bulk` computes. -/
theorem length_bulkPieces (ptr size fuel cursor : ℕ) (hfuel : size - cursor ≤ fuel) :
    (bulkPieces ptr size fuel cursor).length = bulkNum rdmaGapInit (size - cursor) := by
  have hgap : 0 < rdmaGapInit := by decide
  induction fuel generalizing cursor with
  | zero => rw [Nat.le_zero.mp hfuel, (SendSide.bulkNum_eq_zero_iff hgap).mpr rfl]; rfl
  | succ fuel ih =>
    unfold bulkPieces
    by_cases hcursor : cursor < size
    · rw [if_pos hcursor, ← min_def, List.length_cons, ih _ (by omega), ← Nat.sub_sub,
        ← SendSide.bulkNum_of_pos hgap (by omega)]
    · rw [if_neg hcursor, Nat.sub_eq_zero_of_le (Nat.not_lt.mp hcursor),
        (SendSide.bulkNum_eq_zero_iff hgap).mpr rfl, List.length_nil]

/-- What holds of a session between `init` and `close`. -/
structure Holds (h : SessionHeap) (s : SessionBuffers) : Prop where
  /-- The three buffers are to be given back. -/
  huge : h.huge = ⟨[s.rbuf, s.sbuf, s.rwbuf], []⟩
  /-- The regions of the session are to be deregistered. -/
  regions : h.regions = ⟨s.mrs, []⟩
  /-- They are all different. -/
  numbered : h.Numbered
  /-- The send buffer lies inside a block. -/
  inside : ∃ b, h.table.Guards b ∧ b.base < s.sbuf ∧ s.sbuf < b.stop
  /-- The word saved for the buffer of remote writes passes the assertion. -/
  saved : h.saved (s.rwbuf - hugePageSize) % hugePageSize = 0

/-- The context registers its region, if it has one. -/
theorem context_spec (A : Allocator) (contextSize memSize : ℕ) :
    let c := start.context A contextSize memSize
    c.1.huge = .empty ∧ c.1.regions = ⟨c.2.2.toList.map fun p => p.mem.mr, []⟩ ∧ c.1.Numbered := by
  have hstart : start.Numbered := by simp [Numbered, start, Ledger.empty]
  simp only [context]
  split
  · exact ⟨rfl, rfl, hstart.malloc _⟩
  · have htbuf := (hstart.malloc (A := A) contextSize).malloc (A := A) memSize
    exact ⟨rfl, rfl, htbuf.rdmaRegMr ((start.malloc A contextSize).1.malloc A memSize).2 memSize⟩

/-- `reg_mem` obtains two buffers, registers their regions, and the send buffer lies inside
a block apart from all others. -/
theorem regMem_spec (A : Allocator) (maps : ℕ → Bool) (hh : h.Numbered) (recvNums : ℕ) :
    let m := h.regMem A maps recvNums
    m.1.huge = ⟨h.huge.live ++ [m.2.1, m.2.2.2.1], h.huge.misused⟩ ∧
      m.1.regions =
        ⟨h.regions.live ++ (m.2.2.1.map (fun p => p.mem.mr) ++ [m.2.2.2.2.mem.mr]),
          h.regions.misused⟩ ∧
      m.1.Numbered ∧
      ∃ b, m.1.table.Guards b ∧ b.base < m.2.2.2.1 ∧ m.2.2.2.1 < b.stop := by
  simp only [regMem]
  generalize hrbuf : (h.malloc A (8 * recvNums)).1.mallocHugePages A maps (gap * recvNums) = rbuf
  have hhuge : rbuf.1.huge = h.huge.acquire rbuf.2 := by rw [← hrbuf]; rfl
  have hregions : rbuf.1.regions = h.regions := by rw [← hrbuf]; rfl
  have hnumbered : rbuf.1.Numbered := by rw [← hrbuf]; exact (hh.malloc _).mallocHugePages _
  generalize (List.range recvNums).map (fun i => (rbuf.2 + gap * i, gap)) = pieces
  refine ⟨?_, ?_, ((hnumbered.regLoop pieces).mallocHugePages _).rdmaRegMr _ _, ?_⟩
  · simp [rdmaRegMr, malloc, mallocHugePages, (regLoop_frame rbuf.1 pieces).1, hhuge,
      Ledger.acquire]
  · simp [rdmaRegMr, malloc, mallocHugePages, regions_regLoop, hregions, Ledger.acquire]
  · have hobtained := Table.guards_obtain (rbuf.1.regLoop A pieces).1.table A
    refine ⟨_, Table.Guards.obtain (hobtained _ _), ?_, ?_⟩
    · exact Nat.lt_add_of_pos_right (by decide)
    · have hsize : hugePageSize < max (realSize gap) 1 := by decide
      exact Nat.add_lt_add_left hsize _

/-- `start_rw` obtains a buffer, registers its regions, and the word saved for the buffer
passes the assertion. -/
theorem startRw_spec (A : Allocator) (maps : ℕ → Bool) (hh : h.Numbered) (hb : h.table.Guards b)
    (slices : ℕ) :
    let d := h.startRw A maps slices
    d.1.huge = ⟨h.huge.live ++ [d.2.1], h.huge.misused⟩ ∧
      d.1.regions = ⟨h.regions.live ++ d.2.2.map (fun p => p.mem.mr), h.regions.misused⟩ ∧
      d.1.Numbered ∧ d.1.table.Guards b ∧ d.1.saved (d.2.1 - hugePageSize) % hugePageSize = 0 := by
  simp only [startRw]
  generalize hrwbuf : h.mallocHugePages A maps (rdmaGapInit * slices) = rwbuf
  have hhuge : rwbuf.1.huge = h.huge.acquire rwbuf.2 := by rw [← hrwbuf]; rfl
  have hregions : rwbuf.1.regions = h.regions := by rw [← hrwbuf]; rfl
  have hnumbered : rwbuf.1.Numbered := by rw [← hrwbuf]; exact hh.mallocHugePages _
  have hguards : rwbuf.1.table.Guards b := by rw [← hrwbuf]; exact hb.obtain
  have hsaved : rwbuf.1.saved (rwbuf.2 - hugePageSize) % hugePageSize = 0 := by
    rw [← hrwbuf]
    simp only [mallocHugePages, Nat.add_sub_cancel, Function.update_self]
    split
    · exact Nat.mul_mod_left ..
    · rfl
  generalize (List.range slices).map (fun i => (rwbuf.2 + rdmaGapInit * i, rdmaGapInit)) = pieces
  have hframe := regLoop_frame (A := A) (rwbuf.1.malloc A (8 * slices)).1 pieces
  refine ⟨?_, ?_, (hnumbered.malloc _).regLoop pieces, (guards_regLoop hguards.obtain pieces).1, ?_⟩
  · rw [hframe.1]
    exact hhuge
  · rw [regions_regLoop]
    simp [malloc, hregions]
  · rw [hframe.2]
    exact hsaved

/-- `door` does what `start_rw` does. -/
theorem door_spec (A : Allocator) (maps : ℕ → Bool) (hh : h.Numbered) (hb : h.table.Guards b)
    (flag : ℤ) (slices len : ℕ) :
    let d := h.door A maps flag slices len
    d.1.huge = ⟨h.huge.live ++ [d.2.1.1], h.huge.misused⟩ ∧
      d.1.regions = ⟨h.regions.live ++ d.2.1.2.map (fun p => p.mem.mr), h.regions.misused⟩ ∧
      d.1.Numbered ∧ d.1.table.Guards b ∧
      d.1.saved (d.2.1.1 - hugePageSize) % hugePageSize = 0 := by
  simp only [door]
  split
  · obtain ⟨hhuge, hregions, hnumbered, hguards, hsaved⟩ := startRw_spec A maps hh hb slices
    exact ⟨hhuge, hregions, hnumbered, hguards.obtain.obtain, hsaved⟩
  · exact startRw_spec A maps (h := (h.startRemote A len).1) hh hb.obtain.obtain slices

/-- `init` sets the session up. -/
theorem init_holds (A : Allocator) (maps : ℕ → Bool) (p : SessionParams) :
    (init A maps p).1.Holds (init A maps p).2 := by
  obtain ⟨hhuge₁, hregions₁, hnumbered₁⟩ := context_spec A p.contextSize p.memSize
  obtain ⟨hhuge₂, hregions₂, hnumbered₂, b, hb, hlow, hhigh⟩ :=
    regMem_spec A maps hnumbered₁ p.recvNums
  obtain ⟨hhuge₃, hregions₃, hnumbered₃, hguards, hsaved⟩ :=
    door_spec A maps (hnumbered₂.malloc (8 * 1024)) hb.obtain p.flag p.slices p.tableLen
  refine ⟨?_, ?_, hnumbered₃, ⟨b, hguards, hlow, hhigh⟩, hsaved⟩
  · refine hhuge₃.trans ?_
    simp only [huge_malloc, hhuge₂, hhuge₁, Ledger.empty, List.nil_append]
    rfl
  · refine hregions₃.trans ?_
    simp only [regions_malloc, hregions₂, hregions₁, SessionBuffers.mrs, init, List.append_assoc,
      List.singleton_append]

/-- Deregistering new regions leaves the others. -/
theorem regions_dereg_regLoop (hh : h.Numbered) (pieces : List (ℕ × ℕ)) :
    ((h.regLoop A pieces).2.map fun p => p.mem.mr).foldl Ledger.release
      (h.regLoop A pieces).1.regions = h.regions := by
  have hnodup := (hh.regLoop (A := A) pieces).1
  rw [regions_regLoop] at hnodup ⊢
  have hmiddle := Ledger.foldl_release_middle h.regions.live
    ((h.regLoop A pieces).2.map fun p => p.mem.mr) [] h.regions.misused
    fun r hr hold => (List.nodup_append.mp hnodup).2.2 r hold r hr rfl
  rwa [List.append_nil, List.append_nil] at hmiddle

/-- A `bulk` call gives back what it obtained. -/
theorem Holds.bulk {s : SessionBuffers} (hs : h.Holds s) (ptr size : ℕ) :
    (h.bulk A ptr size).Holds s := by
  obtain ⟨b, hb, hlow, hhigh⟩ := hs.inside
  have hlength : (bulkPieces ptr size size 0).length = bulkNum rdmaGapInit size :=
    length_bulkPieces ptr size size 0 (Nat.sub_le ..)
  simp only [SessionHeap.bulk]
  generalize harray : h.malloc A (8 * bulkNum rdmaGapInit size) = array
  have hnumbered : array.1.Numbered := by rw [← harray]; exact hs.numbered.malloc _
  have hguards : array.1.table.Guards b := by rw [← harray]; exact hb.obtain
  have hne : array.2 ≠ b.base := by rw [← harray]; exact hb.obtain_ne .malloc _
  have hsame : array.1.huge = h.huge ∧ array.1.saved = h.saved ∧ array.1.regions = h.regions := by
    rw [← harray]
    exact ⟨rfl, rfl, rfl⟩
  generalize bulkPieces ptr size size 0 = pieces at hlength ⊢
  have htake : (array.1.regLoop A pieces).2.take (bulkNum rdmaGapInit size) =
      (array.1.regLoop A pieces).2 := by
    rw [← hlength, ← length_regLoop (A := A) array.1 pieces, List.take_length]
  obtain ⟨hloop, hloopAddr⟩ := guards_regLoop (A := A) hguards pieces
  obtain ⟨hhuge, hsaved⟩ := regLoop_frame (A := A) array.1 pieces
  obtain ⟨hhuge', hsaved', hregistered', hregions'⟩ :=
    foldl_rdmaDeregMr_frame (array.1.regLoop A pieces).2 (array.1.regLoop A pieces).1
  rw [regions_dereg_regLoop hnumbered, hsame.2.2] at hregions'
  rw [htake, deregLoop_true]
  have hguards := (guards_foldl_rdmaDeregMr _ hloop hloopAddr).free hne
  refine ⟨?_, ?_, ⟨?_, ?_⟩, ⟨b, hguards, hlow, hhigh⟩, ?_⟩
  · exact (hhuge'.trans (hhuge.trans hsame.1)).trans hs.huge
  · exact hregions'.trans hs.regions
  · simp only [SessionHeap.free, hregions']
    exact hs.numbered.1
  · simp only [SessionHeap.free, hregions', hregistered']
    intro r hr
    apply (hnumbered.regLoop pieces).2
    rw [regions_regLoop, hsame.2.2]
    exact List.mem_append_left _ hr
  · simp only [SessionHeap.free, hsaved', hsaved, hsame.2.1]
    exact hs.saved

/-- Any number of `bulk` calls give back what they obtained. -/
theorem Holds.bulks {s : SessionBuffers} (hs : h.Holds s) (calls : List (ℕ × ℕ)) :
    (calls.foldl (fun h call => h.bulk A call.1 call.2) h).Holds s := by
  induction calls generalizing h with
  | nil => exact hs
  | cons call rest ih => exact ih (hs.bulk call.1 call.2)

/-- `close` with successful verbs calls, when the assertion passes. -/
theorem close_eq (h : SessionHeap) (s : SessionBuffers) :
    h.close s (fun _ => true) true =
      ((((((((s.recvMem ++ s.sendMem :: (s.rwMem ++ s.rw.toList)).foldl rdmaDeregMr h).free
        s.rbuf).free s.sbuf).free s.qbuf).free s.rkeys).free s.raddrs).freeHugePages s.rwbuf).map
          fun h => (h.free s.ctx, 0) := by
  simp only [close, deregLoop_true, rdmaCloseCtx, Bool.true_eq_false, if_false, if_true,
    List.foldl_append, List.foldl_cons, List.foldl_nil]

/-- The region of the context is deregistered last, and none is left. -/
theorem regions_dereg (s : SessionBuffers) (hnodup : s.mrs.Nodup) :
    ((s.recvMem ++ s.sendMem :: (s.rwMem ++ s.rw.toList)).map fun p => p.mem.mr).foldl
      Ledger.release ⟨s.mrs, []⟩ = .empty := by
  have hsplit : (s.recvMem ++ s.sendMem :: (s.rwMem ++ s.rw.toList)).map (fun p => p.mem.mr) =
      (s.recvMem.map (fun p => p.mem.mr) ++ (s.sendMem.mem.mr :: s.rwMem.map fun p => p.mem.mr)) ++
        s.rw.toList.map fun p => p.mem.mr := by
    simp
  rw [hsplit, List.foldl_append]
  unfold SessionBuffers.mrs at hnodup ⊢
  generalize s.recvMem.map (fun p => p.mem.mr) ++
    (s.sendMem.mem.mr :: s.rwMem.map fun p => p.mem.mr) = own at hnodup ⊢
  generalize s.rw.toList.map (fun p => p.mem.mr) = ctx at hnodup ⊢
  have hown := Ledger.foldl_release_middle ctx own [] []
    fun r hr hctx => (List.nodup_append.mp hnodup).2.2 r hctx r hr rfl
  have hctx := Ledger.foldl_release_middle [] ctx [] [] fun r _ => List.not_mem_nil
  rw [List.append_nil] at hown
  rw [hown, ← List.nil_append (ctx ++ []), hctx]
  rfl

/-- What `free_huge_pages` does when its assertion passes. -/
theorem freeHugePages_spec (h : SessionHeap) (ptr : ℕ)
    (hsaved : h.saved (ptr - hugePageSize) % hugePageSize = 0) :
    ∃ t, h.freeHugePages ptr = some t ∧ t.regions = h.regions ∧
      h.huge.live.length ≤ t.huge.live.length + 1 ∧ h.table.misused ⊆ t.table.misused := by
  unfold freeHugePages
  split
  · exact ⟨h, rfl, rfl, Nat.le_succ _, List.Subset.refl _⟩
  · rw [if_pos hsaved]
    refine ⟨_, rfl, rfl, Ledger.length_live_le_release .., ?_⟩
    dsimp only
    split
    · exact Table.misused_munmap_subset ..
    · exact Table.misused_free_subset ..

/-- What a `close` with successful verbs calls leaves: every region is deregistered, at most
one of the three buffers has been given back, and the send buffer was passed to `free`
although no block starts there. -/
theorem Holds.close {s : SessionBuffers} (hs : h.Holds s) :
    ∃ t, h.close s (fun _ => true) true = some (t, 0) ∧ t.regions = .empty ∧
      2 ≤ t.huge.live.length ∧ (.malloc, s.sbuf) ∈ t.table.misused := by
  obtain ⟨b, hb, hlow, hhigh⟩ := hs.inside
  rw [close_eq]
  obtain ⟨hhuge, hsaved, _, hregions⟩ :=
    foldl_rdmaDeregMr_frame (s.recvMem ++ s.sendMem :: (s.rwMem ++ s.rw.toList)) h
  have hunowned : ((s.recvMem ++ s.sendMem :: (s.rwMem ++ s.rw.toList)).foldl rdmaDeregMr
      h).table.Unowned s.sbuf := unowned_foldl_rdmaDeregMr _ (hb.unowned hlow hhigh)
  have hnodup := hs.numbered.1
  rw [hs.regions] at hnodup
  rw [hs.regions, regions_dereg s hnodup] at hregions
  rw [hs.huge] at hhuge
  generalize (s.recvMem ++ s.sendMem :: (s.rwMem ++ s.rw.toList)).foldl rdmaDeregMr h = done at *
  have hmisused : (.malloc, s.sbuf) ∈ ((done.free s.rbuf).free s.sbuf).table.misused :=
    (hunowned.free s.rbuf).mem_misused (by omega)
  have hkept : ((done.free s.rbuf).free s.sbuf).table.misused ⊆
      (((((done.free s.rbuf).free s.sbuf).free s.qbuf).free s.rkeys).free s.raddrs).table.misused :=
    fun _ hmem => Table.misused_free_subset _ _
      (Table.misused_free_subset _ _ (Table.misused_free_subset _ _ hmem))
  obtain ⟨t, heq, htregions, hlength, hsubset⟩ := freeHugePages_spec
    (((((done.free s.rbuf).free s.sbuf).free s.qbuf).free s.rkeys).free s.raddrs) s.rwbuf
    (by simpa only [free, hsaved] using hs.saved)
  rw [heq]
  refine ⟨t.free s.ctx, rfl, ?_, ?_, ?_⟩
  · exact htregions.trans hregions
  · simp only [free, hhuge, List.length_cons, List.length_nil] at hlength
    exact Nat.le_of_succ_le_succ hlength
  · exact Table.misused_free_subset _ _ (hsubset (hkept hmisused))

/-- How a session ends: every region is deregistered, but buffers are still to be given back
and `free` was passed an address `malloc` had not returned. -/
theorem session_spec (A : Allocator) (maps : ℕ → Bool) (p : SessionParams) :
    ∃ t, session A maps p = some (t, 0) ∧ t.regions = .empty ∧ t.huge ≠ .empty ∧
      ∃ ptr, (.malloc, ptr) ∈ t.table.misused := by
  have hinit := init_holds A maps p
  obtain ⟨t, heq, hregions, hlength, hmisused⟩ := (hinit.bulks (A := A) p.bulks).close
  refine ⟨t, heq, hregions, ?_, _, hmisused⟩
  intro hempty
  rw [hempty] at hlength
  exact absurd hlength (by decide)

end SessionHeap

/-- **Session buffers are not released by their own deallocator.** Wherever the blocks are
placed, for every outcome of the `malloc_huge_pages` calls, all numbers of receive buffers
and slices and any `bulk` calls, a session ends with its buffers not released. -/
theorem session_not_released (A : Allocator) (maps : ℕ → Bool) (p : SessionParams) :
    ∃ t, SessionHeap.session A maps p = some (t, 0) ∧ ¬t.Released := by
  obtain ⟨t, heq, _, hhuge, _⟩ := SessionHeap.session_spec A maps p
  exact ⟨t, heq, fun hreleased => hhuge hreleased.1⟩

/-- A session with the values of `init`, the peer's table of 512 entries, huge pages
available and no `bulk` call ends with its buffers not released. -/
theorem session_of_init_not_released :
    ∃ t, SessionHeap.session pageAllocator (fun _ => true)
      ⟨512, 0, recvNums, 512, 1, 12800, []⟩ = some (t, 0) ∧ ¬t.Released := by
  obtain ⟨t, heq, _, _, ptr, hmisused⟩ := SessionHeap.session_spec pageAllocator (fun _ => true)
    ⟨512, 0, recvNums, 512, 1, 12800, []⟩
  exact ⟨t, heq, fun hreleased => hreleased.2.1 ptr hmisused⟩

end RdmaTransport
