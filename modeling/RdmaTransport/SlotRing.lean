import RdmaTransport.BulkPlacement
import RdmaTransport.Lib.Ring

/-!
# The slots of the peer as a ring

`rdma` writes the pieces of all bulk transfers to the slots of the peer in turn, and
nothing tells the peer how far the writer has come. The slots are a ring without flow
control: a transfer stays in them until the following ones have gone round. This file
determines exactly how long that is, for runs that mix transfers with messages.

In the ring the writes of an operation are made at its call, from the memory of that time,
so every operation comes with a memory of its own. The adapter makes them at its own pace;
when the two come to the same is a matter of its queue.
-/

namespace RdmaTransport

open Runs Transfer

/-- The send side together with the memory of the peer. -/
structure SlotRing where
  /-- The send side. -/
  side : SendSide
  /-- The memory of the peer. -/
  remote : ℕ → UInt8

/-- The writes among the work requests that an operation has posted. -/
def newWrites (s t : SendSide) : List Write :=
  ((t.posted.drop s.posted.length).filter fun wr => wr.opcode = .rdmaWrite).map PostedWr.write

/-- An operation of the send side, with the memory from which its writes are made. They
are made at the call, in posting order. -/
def SlotRing.step (r : SlotRing) (call : SendOp × (ℕ → UInt8)) : Option SlotRing :=
  (r.side.step call.1).map fun t => ⟨t, runAll call.2 (newWrites r.side t) r.remote⟩

/-- The number of pieces an operation writes. -/
def SendOp.pieces (rdmaGap : ℕ) : SendOp → ℕ
  | .bulk _ size _ => bulkNum rdmaGap size
  | _ => 0

/-- The operation is a message, or a bulk transfer none of whose verbs fails. -/
def SendOp.Whole (rdmaGap : ℕ) : SendOp → Prop
  | .bulk _ size env => env.Succeeds (bulkNum rdmaGap size)
  | .sendTask task _ => task.opcode = .send
  | .sendSize _ _ | .sendBuf _ _ | .latency _ _ _ => True

/-- What bulk transfers rely on: the slots of the peer are apart and the index is that of
one of them. -/
structure SendSide.RingReady (s : SendSide) : Prop where
  /-- Pieces are not empty. -/
  gap_pos : 1 ≤ s.rdmaGap
  /-- The length of a piece is a `uint32_t`. -/
  gap_lt : s.rdmaGap < 2 ^ 32
  /-- The index is that of a slot. -/
  index_lt : s.rdmaIndex < s.slices
  /-- The slots are apart. -/
  slots : s.SlotsApart
  /-- Only work requests that were posted have completed. -/
  polled_le : s.polled ≤ s.posted.length

/-- The fields that describe the slots. -/
def SendSide.SameSlots (s t : SendSide) : Prop :=
  t.raddrs = s.raddrs ∧ t.slices = s.slices ∧ t.rdmaGap = s.rdmaGap

namespace SendSide

/-- A bulk transfer changes neither the slots nor their number. -/
theorem sameSlots_bulk {s : SendSide} {ptr size : ℕ} {env : BulkEnv} {out : BulkOutcome}
    (hgap : 0 < s.rdmaGap) (h : s.bulk ptr size env = some out) : s.SameSlots out.state := by
  obtain ⟨pieces, t, _, rfl, _, _, hcases⟩ := bulk_cases hgap h
  rcases hcases with ⟨_, _, rfl⟩ | ⟨_, ⟨u, hpost, rfl⟩ | ⟨u, acked, hpost, hack, hrest⟩⟩
  · exact ⟨rfl, rfl, rfl⟩
  · obtain ⟨wrs, index, rfl, _⟩ := postLoop_cases hpost
    exact ⟨rfl, rfl, rfl⟩
  · obtain ⟨wrs, index, rfl, _⟩ := postLoop_cases hpost
    obtain ⟨polled, hacked⟩ := ackLoop_state hack
    rcases hrest with ⟨result, rfl, _⟩ | ⟨v, ok, _, hdereg, rfl⟩
    · rw [hacked]
      exact ⟨rfl, rfl, rfl⟩
    · obtain ⟨n, rfl, _⟩ := deregLoop_cases hdereg
      rw [hacked]
      exact ⟨rfl, rfl, rfl⟩

/-- An operation posts messages only. -/
def OnlySends (s t : SendSide) : Prop :=
  ∃ wrs polled, t = { s with posted := s.posted ++ wrs, polled := polled } ∧
    polled ≤ (s.posted ++ wrs).length ∧ ∀ wr ∈ wrs, wr.opcode = .send

/-- Posting a message posts messages only. -/
theorem onlySends_sendTask {s : SendSide} (hs : s.polled ≤ s.posted.length) {task : RdmaTask}
    (htask : task.opcode = .send) (ok : Bool) : s.OnlySends (s.sendTask task ok).1 := by
  cases ok with
  | false => exact ⟨[], s.polled, by simp [sendTask], by simpa using hs, by simp⟩
  | true =>
    refine ⟨[s.postedWr task], s.polled, by simp [sendTask], ?_, by simp [postedWr, htask]⟩
    rw [List.length_append]
    omega

/-- So do all operations other than bulk transfers. -/
theorem onlySends_step {s t : SendSide} (hs : s.polled ≤ s.posted.length) {op : SendOp}
    (hop : op.Whole s.rdmaGap) (hpieces : ∀ ptr size env, op ≠ .bulk ptr size env)
    (h : s.step op = some t) : s.OnlySends t := by
  have hsize : ∀ size ok, s.OnlySends (s.sendSize size ok).1 := by
    intro size ok
    unfold sendSize
    split_ifs with hzero
    · exact ⟨[], s.polled, by simp, by simpa using hs, by simp⟩
    · exact onlySends_sendTask hs rfl ok
  cases op with
  | bulk ptr size env => exact absurd rfl (hpieces ptr size env)
  | sendTask task ok =>
    obtain rfl := Option.some.inj h
    exact onlySends_sendTask hs hop ok
  | sendSize size ok =>
    obtain rfl := Option.some.inj h
    exact hsize size ok
  | sendBuf size ok =>
    obtain rfl := Option.some.inj h
    exact onlySends_sendTask hs rfl ok
  | latency size ok poll =>
    obtain ⟨⟨u, returned⟩, hlatency, rfl⟩ := Option.map_eq_some_iff.mp h
    rcases latency_cases hlatency with ⟨_, rfl, _⟩ | ⟨_, _, rfl, _⟩ | ⟨_, _, result, hquery, _⟩
    · exact ⟨[], u.polled, by simp, by simpa using hs, by simp⟩
    · exact hsize size ok
    · obtain ⟨wrs, polled, hsent, _, hwrs⟩ := hsize size ok
      rw [hsent] at hquery
      obtain ⟨hposted, _, _, hle, _⟩ := queryCq_spec hquery
      obtain ⟨polled', rfl⟩ := queryCq_state hquery
      exact ⟨wrs, polled', rfl, hle, hwrs⟩

/-- What was posted behind the old work requests. -/
theorem newWrites_of_append {s t : SendSide} {wrs : List PostedWr}
    (h : t.posted = s.posted ++ wrs) :
    newWrites s t = (wrs.filter fun wr => wr.opcode = .rdmaWrite).map PostedWr.write := by
  rw [newWrites, h, List.drop_left]

/-- Messages are no writes. -/
theorem OnlySends.newWrites_eq_nil {s t : SendSide} (h : s.OnlySends t) : newWrites s t = [] := by
  obtain ⟨wrs, polled, rfl, _, hwrs⟩ := h
  rw [newWrites_of_append rfl, List.map_eq_nil_iff, List.filter_eq_nil_iff]
  intro wr hwr
  simp [hwrs wr hwr]

/-- The writes of a bulk transfer are consecutive pieces of its block, and they go round the
slots from the index on. As many completions have been polled at its end. -/
theorem RingReady.bulk {s t : SendSide} (hs : s.RingReady) {ptr size : ℕ} {env : BulkEnv}
    (henv : env.Succeeds (bulkNum s.rdmaGap size)) (h : s.step (.bulk ptr size env) = some t) :
    (∃ wrs, t.posted = s.posted ++ wrs ∧ wrs.length = bulkNum s.rdmaGap size ∧
        t.polled = s.polled + wrs.length) ∧
      s.SameSlots t ∧
      t.rdmaIndex = (s.rdmaIndex + bulkNum s.rdmaGap size) % s.slices ∧
      (newWrites s t).length = bulkNum s.rdmaGap size ∧
      Tiles ptr (ptr + size) ((newWrites s t).map fun w => (w.source, w.length)) ∧
      ∀ src : ℕ → UInt8,
        GoesRound s.raddrs s.slices s.rdmaGap s.rdmaIndex ((newWrites s t).map (src, ·)) := by
  obtain ⟨out, before, pieces, hbulk, hresult, _, _, hlength, htiles, hsizes, hposted, hindex,
    hpolled⟩ :=
    bulk_succeeds ptr hs.gap_pos hs.gap_lt hs.index_lt hs.slots.addr_ne hs.polled_le henv
  obtain rfl : out.state = t := by
    simpa [SendSide.step, hbulk, hresult] using h
  have hwrites : newWrites s out.state = (pieces.mapIdx s.pieceWr).map PostedWr.write := by
    rw [newWrites_of_append hposted, List.filter_eq_self.mpr]
    intro wr hwr
    obtain ⟨k, _, rfl⟩ := List.mem_mapIdx.mp hwr
    rfl
  have hpieces : ∀ k w, (newWrites s out.state)[k]? = some w →
      ∃ m ∈ pieces, w = Write.mk m.buf (s.raddrs (s.slotAt k)) m.size := by
    intro k w hw
    rw [hwrites, List.getElem?_map, List.getElem?_mapIdx, Option.map_map] at hw
    obtain ⟨m, hm, rfl⟩ := Option.map_eq_some_iff.mp hw
    exact ⟨m, List.mem_of_getElem? hm, rfl⟩
  refine ⟨⟨_, hposted, by simp [hlength], by simp [hpolled]⟩, sameSlots_bulk hs.gap_pos hbulk,
    hlength ▸ hindex, by simp [hwrites, hlength], ?_, fun src => ⟨?_, ?_⟩⟩
  · have hranges : (newWrites s out.state).map (fun w => (w.source, w.length)) =
        pieces.map fun m => (m.buf, m.size) := by
      apply List.ext_getElem
      · simp [hwrites]
      · intro k _ _
        simp [hwrites, PostedWr.write, pieceWr]
    rwa [hranges]
  · intro k w hw
    rw [List.getElem?_map, Option.map_eq_some_iff] at hw
    obtain ⟨v, hv, rfl⟩ := hw
    obtain ⟨m, _, rfl⟩ := hpieces k v hv
    rfl
  · intro w hw
    obtain ⟨v, hv, rfl⟩ := List.mem_map.mp hw
    obtain ⟨k, hk⟩ := List.mem_iff_getElem?.mp hv
    obtain ⟨m, hm, rfl⟩ := hpieces k v hk
    exact hsizes m hm

/-- An empty block is not written. -/
theorem RingReady.newWrites_of_empty {s t : SendSide} (hs : s.RingReady) {ptr : ℕ}
    {env : BulkEnv} (henv : env.Succeeds (bulkNum s.rdmaGap 0))
    (h : s.step (.bulk ptr 0 env) = some t) : newWrites s t = [] := by
  obtain ⟨_, _, _, hlength, _⟩ := hs.bulk henv h
  rw [← List.length_eq_zero_iff, hlength]
  exact (bulkNum_eq_zero_iff hs.gap_pos).mpr rfl

/-- What a whole operation does to the ring. -/
theorem RingReady.step {s t : SendSide} (hs : s.RingReady) {op : SendOp}
    (hop : op.Whole s.rdmaGap) (h : s.step op = some t) :
    t.RingReady ∧ s.SameSlots t ∧ t.rdmaIndex = (s.rdmaIndex + op.pieces s.rdmaGap) % s.slices ∧
      (newWrites s t).length = op.pieces s.rdmaGap ∧ ∀ src : ℕ → UInt8,
        GoesRound s.raddrs s.slices s.rdmaGap s.rdmaIndex ((newWrites s t).map (src, ·)) := by
  have hready : ∀ {t : SendSide}, s.SameSlots t → t.rdmaIndex < s.slices →
      t.polled ≤ t.posted.length → t.RingReady := by
    rintro t ⟨hraddrs, hslices, hgap⟩ hindex hpolled
    refine ⟨by rw [hgap]; exact hs.gap_pos, by rw [hgap]; exact hs.gap_lt, by rwa [hslices],
      ⟨?_, ?_⟩, hpolled⟩
    · rw [hslices, hraddrs]
      exact hs.slots.addr_ne
    · rw [hslices, hraddrs, hgap]
      exact hs.slots.apart
  have hslices : 0 < s.slices := Nat.zero_lt_of_lt hs.index_lt
  by_cases hbulk : ∃ ptr size env, op = .bulk ptr size env
  · obtain ⟨ptr, size, env, rfl⟩ := hbulk
    obtain ⟨⟨wrs, hposted, _, hpolled⟩, hsame, hindex, hlength, _, hround⟩ := hs.bulk hop h
    refine ⟨hready hsame ?_ ?_, hsame, hindex, hlength, hround⟩
    · rw [hindex]
      exact Nat.mod_lt _ hslices
    · rw [hpolled, hposted, List.length_append]
      exact Nat.add_le_add_right hs.polled_le _
  · have hnone : op.pieces s.rdmaGap = 0 := by
      cases op <;> simp_all [SendOp.pieces]
    have hsends :=
      onlySends_step hs.polled_le hop (fun ptr size env h => hbulk ⟨ptr, size, env, h⟩) h
    have hwrites := hsends.newWrites_eq_nil
    obtain ⟨wrs, polled, rfl, hpolled, _⟩ := hsends
    refine ⟨hready ⟨rfl, rfl, rfl⟩ hs.index_lt hpolled, ⟨rfl, rfl, rfl⟩, ?_, ?_, fun src => ?_⟩
    · rw [hnone, Nat.add_zero, Nat.mod_eq_of_lt hs.index_lt]
    · rw [hwrites, hnone]
      rfl
    · rw [hwrites]
      exact ⟨by simp, by simp⟩

end SendSide

/-- The writes of a run go round the slots of the peer, each from the memory of its call. -/
theorem SlotRing.exec_writes {r u : SlotRing} {calls : List (SendOp × (ℕ → UInt8))}
    (hr : r.side.RingReady) (hcalls : ∀ call ∈ calls, call.1.Whole r.side.rdmaGap)
    (hrun : exec SlotRing.step r calls = some u) :
    ∃ writes, u.remote = runEach writes r.remote ∧
      writes.length = (calls.map fun call => call.1.pieces r.side.rdmaGap).sum ∧
      GoesRound r.side.raddrs r.side.slices r.side.rdmaGap r.side.rdmaIndex writes ∧
      ∀ w ∈ writes, ∃ call ∈ calls, w.1 = call.2 := by
  induction calls generalizing r with
  | nil =>
    obtain rfl : r = u := by simpa using hrun
    exact ⟨[], rfl, rfl, ⟨by simp, by simp⟩, by simp⟩
  | cons call calls ih =>
    rw [List.forall_mem_cons] at hcalls
    obtain ⟨r', hstep, hrest⟩ := exec_cons_eq_some.mp hrun
    obtain ⟨t, hside, rfl⟩ := Option.map_eq_some_iff.mp hstep
    obtain ⟨hready, ⟨hraddrs, hslices, hgap⟩, hindex, hlength, hround⟩ := hr.step hcalls.1 hside
    obtain ⟨writes, hremote, hcount, hwrites, hsources⟩ :=
      ih hready (by rw [hgap]; exact hcalls.2) hrest
    rw [hraddrs, hslices, hgap, hindex] at hwrites
    rw [hgap] at hcount
    refine ⟨(newWrites r.side t).map (call.2, ·) ++ writes, ?_, ?_, ?_, ?_⟩
    · rw [hremote, runEach_append, runEach_map]
    · rw [List.length_append, List.length_map, hlength, hcount, List.map_cons, List.sum_cons]
    · refine (hround call.2).append ?_
      rwa [List.length_map, hlength]
    · intro w hw
      rcases List.mem_append.mp hw with hw | hw
      · obtain ⟨v, _, rfl⟩ := List.mem_map.mp hw
        exact ⟨call, List.mem_cons_self, rfl⟩
      · obtain ⟨later, hlater, hsource⟩ := hsources w hw
        exact ⟨later, List.mem_cons_of_mem call hlater, hsource⟩

/-- What the memories hold has no influence on the send side. -/
theorem SlotRing.exists_exec {s v : SendSide} {calls : List (SendOp × (ℕ → UInt8))}
    (dst : ℕ → UInt8) (hrun : exec SendSide.step s (calls.map Prod.fst) = some v) :
    ∃ u, exec SlotRing.step ⟨s, dst⟩ calls = some u := by
  induction calls generalizing s dst with
  | nil => exact ⟨_, rfl⟩
  | cons call calls ih =>
    obtain ⟨t, hstep, hrest⟩ := exec_cons_eq_some.mp hrun
    obtain ⟨u, hu⟩ := ih (runAll call.2 (newWrites s t) dst) hrest
    refine ⟨u, exec_cons_eq_some.mpr ⟨_, ?_, hu⟩⟩
    simp [SlotRing.step, hstep]

/-- Consecutive ranges do not begin before the first one. -/
theorem Transfer.Tiles.le_of_mem {lo hi : ℕ} {pieces : List (ℕ × ℕ)} (h : Tiles lo hi pieces) :
    ∀ piece ∈ pieces, lo ≤ piece.1 := by
  induction pieces generalizing lo with
  | nil => simp
  | cons piece pieces ih =>
    rw [List.forall_mem_cons]
    refine ⟨h.1.ge, fun q hq => ?_⟩
    exact (Nat.le_add_right _ _).trans (ih h.2 q hq)

/-- The writes of a run that begins with a bulk transfer, those of the transfer in front. -/
theorem SendSide.RingReady.exec_writes {s t : SendSide} (hs : s.RingReady) {ptr size : ℕ}
    {env : BulkEnv} (henv : env.Succeeds (bulkNum s.rdmaGap size))
    (hbulk : s.step (.bulk ptr size env) = some t) {src dst : ℕ → UInt8}
    {calls : List (SendOp × (ℕ → UInt8))} {u : SlotRing}
    (hcalls : ∀ op ∈ calls.map Prod.fst, op.Whole s.rdmaGap)
    (hrun : exec SlotRing.step ⟨s, dst⟩ ((.bulk ptr size env, src) :: calls) = some u) :
    ∃ writes, u.remote = runEach ((newWrites s t).map (src, ·) ++ writes) dst ∧
      writes.length = ((calls.map Prod.fst).map (SendOp.pieces s.rdmaGap)).sum ∧
      GoesRound s.raddrs s.slices s.rdmaGap s.rdmaIndex ((newWrites s t).map (src, ·) ++ writes) ∧
      ∀ w ∈ writes, ∃ call ∈ calls, w.1 = call.2 := by
  have hwhole : (SendOp.bulk ptr size env).Whole s.rdmaGap := henv
  obtain ⟨hready, ⟨hraddrs, hslices, hgap⟩, hindex, hlength, hround⟩ := hs.step hwhole hbulk
  obtain ⟨r, hstep, hrest⟩ := exec_cons_eq_some.mp hrun
  simp only [SlotRing.step, hbulk, Option.map_some, Option.some.injEq] at hstep
  subst hstep
  obtain ⟨writes, hremote, hnumber, hmore, hsources⟩ := SlotRing.exec_writes hready
    (fun call hcall => by rw [hgap]; exact hcalls _ (List.mem_map_of_mem hcall)) hrest
  simp only [hraddrs, hslices, hgap, hindex] at hmore hnumber
  refine ⟨writes, ?_, by rw [hnumber, List.map_map]; rfl, (hround src).append ?_, hsources⟩
  · rw [hremote, runEach_append, runEach_map]
  · rwa [List.length_map, hlength]

/-- **How long a transfer lasts in the ring.** After a bulk transfer, let any messages and
further transfers follow, none of whose verbs fails. Reading the slots of the first transfer
gives its block, whatever the memories hold at the time of each call, exactly if it was empty
or the pieces written from its first one on are no more than the slots. -/
theorem SlotRing.intact_iff {s t v : SendSide} (hs : s.RingReady) {ptr size : ℕ} {env : BulkEnv}
    {later : List SendOp} (henv : env.Succeeds (bulkNum s.rdmaGap size))
    (hlater : ∀ op ∈ later, op.Whole s.rdmaGap) (hbulk : s.step (.bulk ptr size env) = some t)
    (hrun : exec SendSide.step t later = some v) :
    (∀ (src dst : ℕ → UInt8) (calls : List (SendOp × (ℕ → UInt8))) (u : SlotRing),
      calls.map Prod.fst = later →
      exec SlotRing.step ⟨s, dst⟩ ((.bulk ptr size env, src) :: calls) = some u →
      (newWrites s t).flatMap (fun w => readAt u.remote w.target w.length) =
        readAt src ptr size) ↔
    size = 0 ∨
      bulkNum s.rdmaGap size + (later.map (SendOp.pieces s.rdmaGap)).sum ≤ s.slices := by
  obtain ⟨_, _, _, hlength, htiles, _⟩ := hs.bulk henv hbulk
  have hplaces : PlacesApart s.raddrs s.slices s.rdmaGap := hs.slots.apart
  constructor
  · intro hintact
    by_contra hmore
    obtain ⟨hsize, hover⟩ := not_or.mp hmore
    -- The block begins with a one, and everything written after it with a zero.
    let src : ℕ → UInt8 := fun a => if a = ptr then 1 else 0
    let calls : List (SendOp × (ℕ → UInt8)) := later.map (·, fun _ => 0)
    have hops : calls.map Prod.fst = later := by simp [calls, Function.comp_def]
    have hwhole : exec SendSide.step s (((.bulk ptr size env, src) :: calls).map Prod.fst) =
        some v := by
      rw [List.map_cons, hops]
      exact exec_cons_eq_some.mpr ⟨t, hbulk, hrun⟩
    obtain ⟨u, hu⟩ := SlotRing.exists_exec (fun _ => 0) hwhole
    have hread := hintact src (fun _ => 0) calls u hops hu
    obtain ⟨writes, hremote, hnumber, hround, hsources⟩ :=
      hs.exec_writes henv hbulk (by rwa [hops]) hu
    rw [hops] at hnumber
    have hpos : 0 < (newWrites s t).length := by
      rw [hlength]
      exact Nat.pos_of_ne_zero fun hzero =>
        hsize ((SendSide.bulkNum_eq_zero_iff hs.gap_pos).mp hzero)
    have htotal : s.slices < ((newWrites s t).map (src, ·) ++ writes).length := by
      rw [List.length_append, List.length_map, hlength, hnumber]
      omega
    obtain ⟨first, rest, hnew⟩ := List.exists_cons_of_length_pos hpos
    rw [hnew] at htiles hround hremote hread htotal
    have hfirst := hround.length_le (src, first) (by simp)
    have htarget := hround.target_eq 0 (src, first) (by simp)
    rw [Nat.add_zero] at htarget
    have hzeros : ∀ w ∈ ((first :: rest).map (src, ·) ++ writes).tail, w.1 w.2.source = 0 := by
      intro w hw
      simp only [List.map_cons, List.cons_append, List.tail_cons, List.mem_append] at hw
      rcases hw with hw | hw
      · obtain ⟨w', hw', rfl⟩ := List.mem_map.mp hw
        have hbehind := htiles.2.le_of_mem _ (List.mem_map_of_mem hw')
        have hne : w'.source ≠ ptr := by
          simp only at hbehind hfirst
          omega
        simp [src, hne]
      · obtain ⟨call, hcall, hsource⟩ := hsources w hw
        obtain ⟨op, _, rfl⟩ := List.mem_map.mp hcall
        rw [hsource]
    have hlost := hround.runEach_place hplaces (Nat.zero_lt_of_lt hs.index_lt) htotal hzeros
      fun _ => 0
    rw [← hremote, ← htarget] at hlost
    obtain ⟨n, hn⟩ : ∃ n, first.length = n + 1 := ⟨first.length - 1, by simp only at hfirst; omega⟩
    obtain ⟨m, rfl⟩ : ∃ m, size = m + 1 := ⟨size - 1, by omega⟩
    have hheads := congrArg List.head? hread
    simp [readAt, hn, List.range_succ_eq_map, hlost, src] at hheads
  · rintro hfew src dst calls u rfl hexec
    rw [← Nat.add_sub_cancel_left ptr size, ← htiles.flatMap_readAt src, List.flatMap_map]
    obtain ⟨writes, hremote, hnumber, hround, _⟩ := hs.exec_writes henv hbulk hlater hexec
    rcases hfew with rfl | hfew
    · rw [hs.newWrites_of_empty henv hbulk]
      rfl
    · have hfits : ((newWrites s t).map (src, ·) ++ writes).length ≤ s.slices := by
        rw [List.length_append, List.length_map, hlength, hnumber]
        exact hfew
      have hkept := hround.readAt_runEach hplaces hfits dst
      refine List.flatMap_congr fun w hw => ?_
      rw [hremote]
      exact hkept (src, w) (List.mem_append_left _ (List.mem_map_of_mem hw))

end RdmaTransport
