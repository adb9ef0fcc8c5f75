import RdmaTransport.SessionSend
import RdmaTransport.Lib.Transfer
import Mathlib.Algebra.GroupWithZero.Nat

/-!
# Completion accounting of a bulk transfer

`bulk` counts completions and does not look whose they are. `send` leaves its completion
on the queue for whoever polls next, so a bulk transfer that finds such completions
waiting counts them as its own and deregisters memory whose writes have not completed.
The count is right exactly when no completion was waiting, or there is nothing to write.
-/

namespace RdmaTransport

open Runs Transfer

/-- The completions of all writes posted by the call were polled before it deregistered
anything, if it returned 0, and the count of completions never passed the number of
pieces. The work requests the call posted are those numbered from the length of the
queue before it, and a work request has been polled if its number is below `polled`. -/
def BulkOutcome.Accounted (s : SendSide) (out : BulkOutcome) : Prop :=
  (out.result = some 0 → ∃ t, out.beforeDereg = some t ∧
      t.posted.length = s.posted.length + out.num ∧
      ∀ w, s.posted.length ≤ w → w < t.posted.length → w < t.polled) ∧
    ∀ ack ∈ out.acks, ack ≤ out.num

/-- `struct ibv_sge`. -/
structure Sge where
  /-- The address of the first byte. -/
  addr : ℕ
  /-- The number of bytes, of type `uint32_t`. -/
  length : ℕ
  /-- The memory region. -/
  lkey : ℕ

/-- The bytes a posted work request is about. -/
def PostedWr.sge (wr : PostedWr) : Sge := ⟨wr.addr, wr.length, wr.lkey⟩

/-- All bytes of a registered memory. -/
def RdmaMem.sge (mem : RdmaMem) : Sge := ⟨mem.buf, mem.size % 2 ^ 32, mem.mr⟩

namespace SendSide

/-- All that the second loop can do: it posts the pieces in order up to the first one the
adapter refuses, and touches nothing but the queue and the index. -/
theorem postLoop_cases {mems : List RdmaMem} {posts : ℕ → Bool} {left i : ℕ} {s t : SendSide}
    {ok : Bool} (h : postLoop mems posts left i s = some (t, ok)) :
    ∃ wrs index, t = { s with rdmaIndex := index, posted := s.posted ++ wrs } ∧
      wrs.map PostedWr.sge = ((mems.drop i).take wrs.length).map RdmaMem.sge ∧
      (s.rdmaIndex % s.slices = s.rdmaIndex →
        index % s.slices = index ∧ (ok = true → index = (s.rdmaIndex + left) % s.slices)) ∧
      (∀ k < wrs.length, posts (i + k) = true) ∧
      ((ok = true ∧ wrs.length = left) ∨
        (ok = false ∧ wrs.length < left ∧ posts (i + wrs.length) = false)) := by
  induction left generalizing i s with
  | zero =>
    simp only [postLoop, Option.some.injEq, Prod.mk.injEq] at h
    obtain ⟨rfl, rfl⟩ := h
    exact ⟨[], s.rdmaIndex, by simp, by simp, fun hindex => ⟨hindex, fun _ => hindex.symm⟩,
      by simp, .inl ⟨rfl, rfl⟩⟩
  | succ left ih =>
    simp only [postLoop, Option.bind_eq_some_iff] at h
    obtain ⟨mem, hmem, h⟩ := h
    cases hok : posts i with
    | true =>
      simp only [rdma, sendTask, hok, if_true] at h
      generalize hwr : postedWr _ _ = wr at h
      obtain ⟨wrs, index, rfl, hsges, hindex, hgood, hcases⟩ := ih h
      obtain ⟨hmod, hnext⟩ := hindex (Nat.mod_mod _ _)
      refine ⟨wr :: wrs, index, by simp, ?_, fun _ => ⟨hmod, ?_⟩, ?_, ?_⟩
      · rw [List.getElem?_eq_some_iff] at hmem
        obtain ⟨hi, rfl⟩ := hmem
        rw [List.map_cons, hsges, List.length_cons, List.drop_eq_getElem_cons hi,
          List.take_succ_cons, List.map_cons, ← hwr]
        rfl
      · intro hall
        rw [hnext hall]
        simp only [Nat.mod_add_mod, Nat.add_assoc, Nat.add_comm 1]
      · intro k hk
        cases k with
        | zero => exact hok
        | succ k =>
          rw [Nat.add_comm k 1, ← Nat.add_assoc]
          exact hgood k (by simpa using hk)
      · rw [List.length_cons]
        rcases hcases with ⟨hall, hlength⟩ | ⟨hsome, hfewer, hbad⟩
        · exact .inl ⟨hall, by omega⟩
        · refine .inr ⟨hsome, by omega, ?_⟩
          rwa [Nat.add_comm wrs.length 1, ← Nat.add_assoc]
    | false =>
      simp only [rdma, sendTask, hok, Bool.false_eq_true, if_false, Option.some.injEq,
        Prod.mk.injEq] at h
      obtain ⟨rfl, rfl⟩ := h
      exact ⟨[], (s.rdmaIndex + 1) % s.slices, by simp, by simp,
        fun _ => ⟨Nat.mod_mod _ _, nofun⟩, by simp, .inr ⟨rfl, by simp, hok⟩⟩

/-- Posting the pieces adds one work request for each piece posted. -/
theorem postLoop_spec {mems : List RdmaMem} {posts : ℕ → Bool} {left i : ℕ} {s t : SendSide}
    {ok : Bool} (h : postLoop mems posts left i s = some (t, ok)) :
    t.polled = s.polled ∧ t.rdmaGap = s.rdmaGap ∧ s.posted.length ≤ t.posted.length ∧
      (ok = true → t.posted.length = s.posted.length + left) := by
  obtain ⟨wrs, index, rfl, _, _, _, hcases⟩ := postLoop_cases h
  refine ⟨rfl, rfl, by simp, ?_⟩
  rintro rfl
  rcases hcases with ⟨_, hlength⟩ | ⟨hfalse, _⟩
  · rw [List.length_append, hlength]
  · cases hfalse

/-- A query takes no more completions than are outstanding, and reports their number. -/
theorem queryCq_spec {s t : SendSide} {poll : Poll} {result : Option ℕ}
    (h : s.queryCq poll = some (t, result)) :
    t.posted = s.posted ∧ t.rdmaGap = s.rdmaGap ∧ s.polled ≤ t.polled ∧
      t.polled ≤ t.posted.length ∧ ∀ n ∈ result, t.polled = s.polled + n := by
  cases poll with
  | got n =>
    simp only [queryCq, Option.ite_none_right_eq_some, Option.some.injEq, Prod.mk.injEq] at h
    obtain ⟨⟨_, _, hle⟩, rfl, rfl⟩ := h
    simpa using hle
  | failed n =>
    simp only [queryCq, Option.ite_none_right_eq_some, Option.some.injEq, Prod.mk.injEq] at h
    obtain ⟨⟨_, hle⟩, rfl, rfl⟩ := h
    simpa using hle

/-- A query changes nothing but the number of completions polled. -/
theorem queryCq_state {s t : SendSide} {poll : Poll} {result : Option ℕ}
    (h : s.queryCq poll = some (t, result)) : ∃ polled, t = { s with polled := polled } := by
  cases poll with
  | got n =>
    simp only [queryCq, Option.ite_none_right_eq_some, Option.some.injEq, Prod.mk.injEq] at h
    exact ⟨_, h.2.1.symm⟩
  | failed n =>
    simp only [queryCq, Option.ite_none_right_eq_some, Option.some.injEq, Prod.mk.injEq] at h
    exact ⟨_, h.2.1.symm⟩

/-- Counting goes as far as completions are polled. The loop ends by its condition when
exactly the missing number was polled, whosoever the completions were. -/
theorem ackLoop_spec {num : ℕ} {polls : List Poll} {ack : ℕ} {s : SendSide} {out : AckOutcome}
    (hs : s.polled ≤ s.posted.length) (h : ackLoop num polls ack s = some out) :
    out.state.posted = s.posted ∧ out.state.rdmaGap = s.rdmaGap ∧
      out.state.polled ≤ s.posted.length ∧
      (out.ended = some true → out.state.polled + ack = s.polled + num) ∧
      ∀ a ∈ out.acks, a + s.polled ≤ ack + s.posted.length := by
  induction polls generalizing ack s out with
  | nil =>
    simp only [ackLoop, Option.some.injEq] at h
    subst h
    refine ⟨rfl, rfl, hs, ?_, ?_⟩
    · by_cases hack : ack = num <;> simp [hack]
    · simp only [List.mem_singleton, forall_eq]
      omega
  | cons poll polls ih =>
    by_cases hack : ack = num
    · simp only [ackLoop, hack, if_true, Option.some.injEq] at h
      subst h
      refine ⟨rfl, rfl, hs, fun _ => by simp [hack], ?_⟩
      simp only [List.mem_singleton, forall_eq]
      omega
    · simp only [ackLoop, hack, if_false, Option.bind_eq_some_iff, Prod.exists] at h
      obtain ⟨t, result, hquery, h⟩ := h
      obtain ⟨hposted, hgap, hmore, hle, hcount⟩ := queryCq_spec hquery
      cases result with
      | none =>
        simp only [Option.some.injEq] at h
        subst h
        refine ⟨hposted, hgap, hposted ▸ hle, by simp, ?_⟩
        simp only [List.mem_singleton, forall_eq]
        omega
      | some n =>
        simp only [Option.map_eq_some_iff] at h
        obtain ⟨rest, hrest, rfl⟩ := h
        obtain ⟨hposted', hgap', hle', hended, hacks⟩ := ih hle hrest
        have hn := hcount n rfl
        rw [hposted] at hposted' hle' hacks
        refine ⟨hposted', hgap'.trans hgap, hle', ?_, ?_⟩
        · intro htrue
          have hsum := hended htrue
          simp only
          omega
        · intro a ha
          rcases List.mem_cons.mp ha with rfl | ha
          · omega
          · have hbound := hacks a ha
            omega

/-- The third loop changes nothing but the number of completions polled. -/
theorem ackLoop_state {num : ℕ} {polls : List Poll} {ack : ℕ} {s : SendSide} {out : AckOutcome}
    (h : ackLoop num polls ack s = some out) :
    ∃ polled, out.state = { s with polled := polled } := by
  induction polls generalizing ack s out with
  | nil =>
    obtain rfl := Option.some.inj h
    exact ⟨s.polled, rfl⟩
  | cons poll polls ih =>
    simp only [ackLoop] at h
    split at h
    · obtain rfl := Option.some.inj h
      exact ⟨s.polled, rfl⟩
    · simp only [Option.bind_eq_some_iff, Prod.exists] at h
      obtain ⟨t, result, hquery, h⟩ := h
      obtain ⟨polled, rfl⟩ := queryCq_state hquery
      cases result with
      | none =>
        obtain rfl := Option.some.inj h
        exact ⟨polled, rfl⟩
      | some n =>
        obtain ⟨rest, hrest, rfl⟩ := Option.map_eq_some_iff.mp h
        obtain ⟨polled', hstate⟩ := ih hrest
        exact ⟨polled', hstate⟩

/-- All that the fourth loop can do: it deregisters the pieces in order up to the first one
the adapter refuses to deregister. -/
theorem deregLoop_cases {mems : List RdmaMem} {deregisters : ℕ → Bool} {left i : ℕ}
    {s t : SendSide} {ok : Bool} (h : deregLoop mems deregisters left i s = some (t, ok)) :
    ∃ n, t = { s with regions := ((mems.drop i).take n).foldl List.erase s.regions } ∧
      (∀ k < n, deregisters (i + k) = true) ∧
      ((ok = true ∧ n = left) ∨ (ok = false ∧ n < left ∧ deregisters (i + n) = false)) := by
  induction left generalizing i s with
  | zero =>
    simp only [deregLoop, Option.some.injEq, Prod.mk.injEq] at h
    obtain ⟨rfl, rfl⟩ := h
    exact ⟨0, by simp, by simp, .inl ⟨rfl, rfl⟩⟩
  | succ left ih =>
    simp only [deregLoop, Option.bind_eq_some_iff] at h
    obtain ⟨mem, hmem, h⟩ := h
    rw [List.getElem?_eq_some_iff] at hmem
    obtain ⟨hi, rfl⟩ := hmem
    split at h
    case isTrue hok =>
      obtain ⟨n, rfl, hgood, hcases⟩ := ih h
      refine ⟨n + 1, ?_, ?_, ?_⟩
      · rw [List.drop_eq_getElem_cons hi, List.take_succ_cons, List.foldl_cons]
      · intro k hk
        cases k with
        | zero => exact hok
        | succ k =>
          rw [Nat.add_comm k 1, ← Nat.add_assoc]
          exact hgood k (by omega)
      · rcases hcases with ⟨hall, rfl⟩ | ⟨hsome, hfewer, hbad⟩
        · exact .inl ⟨hall, rfl⟩
        · refine .inr ⟨hsome, by omega, ?_⟩
          rwa [Nat.add_comm n 1, ← Nat.add_assoc]
    case isFalse hok =>
      simp only [Option.some.injEq, Prod.mk.injEq] at h
      obtain ⟨rfl, rfl⟩ := h
      exact ⟨0, by simp, by simp, .inr ⟨rfl, by omega, by simpa using hok⟩⟩

/-- Deregistering memory leaves the queues alone. -/
theorem deregLoop_frame {mems : List RdmaMem} {deregisters : ℕ → Bool} {left i : ℕ}
    {s t : SendSide} {ok : Bool} (h : deregLoop mems deregisters left i s = some (t, ok)) :
    t.posted = s.posted ∧ t.polled = s.polled ∧ t.rdmaGap = s.rdmaGap := by
  obtain ⟨n, rfl, _⟩ := deregLoop_cases h
  exact ⟨rfl, rfl, rfl⟩

/-- A loop that has counted enough stops at once. -/
theorem ackLoop_self (num : ℕ) (polls : List Poll) (s : SendSide) :
    ackLoop num polls num s = some ⟨s, [num], some true⟩ := by
  cases polls <;> simp [ackLoop]

/-- The third loop ends by its condition exactly when successful polls add up to the number
it waits for. -/
theorem ackLoop_ended_iff {num : ℕ} {polls : List Poll} {ack : ℕ} {s : SendSide}
    {out : AckOutcome} (h : ackLoop num polls ack s = some out) :
    out.ended = some true ↔ ∃ (counts : List ℕ) (rest : List Poll),
      polls = counts.map Poll.got ++ rest ∧ ack + counts.sum = num := by
  induction polls generalizing ack s out with
  | nil =>
    obtain rfl := Option.some.inj h
    constructor
    · intro hended
      refine ⟨[], [], rfl, ?_⟩
      by_contra hack
      rw [List.sum_nil, Nat.add_zero] at hack
      simp [hack] at hended
    · rintro ⟨counts, rest, hpolls, hsum⟩
      obtain rfl : counts = [] := by simpa using (List.append_eq_nil_iff.mp hpolls.symm).1
      rw [List.sum_nil, Nat.add_zero] at hsum
      simp [hsum]
  | cons poll polls ih =>
    by_cases hack : ack = num
    · subst hack
      rw [ackLoop_self] at h
      obtain rfl := Option.some.inj h
      exact ⟨fun _ => ⟨[], poll :: polls, rfl, rfl⟩, fun _ => rfl⟩
    · simp only [ackLoop, hack, if_false, Option.bind_eq_some_iff, Prod.exists] at h
      obtain ⟨t, result, hquery, h⟩ := h
      cases poll with
      | failed n =>
        simp only [queryCq, Option.ite_none_right_eq_some, Option.some.injEq,
          Prod.mk.injEq] at hquery
        obtain ⟨_, _, rfl⟩ := hquery
        obtain rfl := Option.some.inj h
        refine ⟨by simp, ?_⟩
        rintro ⟨counts, rest, hpolls, hsum⟩
        cases counts with
        | nil => exact absurd hsum hack
        | cons c counts => simp at hpolls
      | got n =>
        simp only [queryCq, Option.ite_none_right_eq_some, Option.some.injEq,
          Prod.mk.injEq] at hquery
        obtain ⟨_, _, rfl⟩ := hquery
        obtain ⟨rest, hrest, rfl⟩ := Option.map_eq_some_iff.mp h
        refine (ih hrest).trans ⟨?_, ?_⟩
        · rintro ⟨counts, tail, rfl, hsum⟩
          exact ⟨n :: counts, tail, rfl, by rw [List.sum_cons]; omega⟩
        · rintro ⟨counts, tail, hpolls, hsum⟩
          cases counts with
          | nil => exact absurd hsum hack
          | cons c counts =>
            obtain ⟨hc, htail⟩ := List.cons.inj hpolls
            obtain rfl := Poll.got.inj hc
            exact ⟨counts, tail, htail, by rw [List.sum_cons] at hsum; omega⟩

/-- A block of at least one full piece has one piece more than the rest of it. -/
theorem bulkNum_of_le {rdmaGap size : ℕ} (hgap : 0 < rdmaGap) (hle : rdmaGap ≤ size) :
    bulkNum rdmaGap size = bulkNum rdmaGap (size - rdmaGap) + 1 := by
  simp only [bulkNum, Nat.div_eq_sub_div hgap hle, Nat.mod_eq_sub_mod hle]
  by_cases hmod : (size - rdmaGap) % rdmaGap = 0
  · simp [hmod]
  · simp [hmod]

/-- A shorter block is one piece, unless it is empty. -/
theorem bulkNum_of_lt {rdmaGap size : ℕ} (hlt : size < rdmaGap) :
    bulkNum rdmaGap size = if size = 0 then 0 else 1 := by
  simp only [bulkNum, Nat.div_eq_of_lt hlt, Nat.mod_eq_of_lt hlt]

/-- Only the empty block has no piece. -/
theorem bulkNum_eq_zero_iff {rdmaGap size : ℕ} (hgap : 0 < rdmaGap) :
    bulkNum rdmaGap size = 0 ↔ size = 0 := by
  rcases Nat.lt_or_ge size rdmaGap with hlt | hge
  · rw [bulkNum_of_lt hlt]
    split <;> omega
  · rw [bulkNum_of_le hgap hge]
    omega

/-- A block that is not empty has one piece more than what its first piece leaves. -/
theorem bulkNum_of_pos {rdmaGap size : ℕ} (hgap : 0 < rdmaGap) (hsize : 0 < size) :
    bulkNum rdmaGap size = bulkNum rdmaGap (size - min rdmaGap size) + 1 := by
  rcases Nat.lt_or_ge size rdmaGap with hlt | hge
  · rw [min_eq_right hlt.le, Nat.sub_self, (bulkNum_eq_zero_iff hgap).mpr rfl, bulkNum_of_lt hlt,
      if_neg (by omega)]
  · rw [min_eq_left hge, bulkNum_of_le hgap hge]

/-- All that the first loop can do: the block is registered up to the first registration
that fails. The pieces registered are numbered in order; if none fails they are as many as
`bulk` computed and consecutive up to the end of the block. -/
theorem registerLoop_cases (ptr : ℕ) {size fuel : ℕ} (cursor : ℕ) (registers : ℕ → Bool)
    (s : SendSide) (mems : List RdmaMem) (hgap : 0 < s.rdmaGap) (hcursor : cursor ≤ size)
    (hfuel : size - cursor ≤ fuel) :
    ∃ pieces result, registerLoop ptr size registers fuel cursor s mems =
        ({ s with regions := s.regions ++ pieces, nextMr := s.nextMr + pieces.length }, result) ∧
      pieces.map RdmaMem.mr = List.range' s.nextMr pieces.length ∧
      (∀ m ∈ pieces, 1 ≤ m.size ∧ m.size ≤ s.rdmaGap) ∧
      (∀ k < pieces.length, registers (mems.length + k) = true) ∧
      ((result = none ∧ registers (mems.length + pieces.length) = false ∧
        pieces.length < bulkNum s.rdmaGap (size - cursor)) ∨
      (result = some (mems ++ pieces) ∧ pieces.length = bulkNum s.rdmaGap (size - cursor) ∧
        Tiles (ptr + cursor) (ptr + size) (pieces.map fun m => (m.buf, m.size)))) := by
  induction fuel generalizing cursor s mems with
  | zero =>
    obtain rfl : cursor = size := by omega
    refine ⟨[], some mems, by simp [registerLoop], rfl, by simp, by simp, .inr ⟨by simp, ?_, rfl⟩⟩
    rw [Nat.sub_self, (bulkNum_eq_zero_iff hgap).mpr rfl, List.length_nil]
  | succ fuel ih =>
    rcases Nat.lt_or_ge cursor size with hlt | hge
    · set len := min s.rdmaGap (size - cursor) with hlen
      have hnum := bulkNum_of_pos hgap (show 0 < size - cursor by omega)
      rw [← hlen, Nat.sub_sub] at hnum
      cases hok : registers mems.length with
      | false =>
        refine ⟨[], none, ?_, rfl, by simp, by simp, .inl ⟨rfl, hok, ?_⟩⟩
        · simp [registerLoop, hlt, regMem, hok]
        · rw [List.length_nil]
          omega
      | true =>
        obtain ⟨pieces, result, hloop, hmrs, hsizes, hgood, hcases⟩ := ih (cursor + len)
          { s with
            regions := s.regions ++ [⟨s.nextMr, ptr + cursor, len⟩]
            nextMr := s.nextMr + 1 }
          (mems ++ [⟨s.nextMr, ptr + cursor, len⟩]) hgap (by omega) (by omega)
        simp only [List.length_append, List.length_singleton, Nat.add_assoc] at hgood hcases
        refine ⟨⟨s.nextMr, ptr + cursor, len⟩ :: pieces, result, ?_, ?_, ?_, ?_, ?_⟩
        · rw [registerLoop, if_pos hlt, ← min_def, ← hlen]
          simp only [regMem, hok, if_true, hloop, List.append_assoc, List.singleton_append,
            List.length_cons, Nat.add_assoc, Nat.add_comm 1]
        · rw [List.map_cons, hmrs, List.length_cons, List.range'_succ]
        · rw [List.forall_mem_cons]
          exact ⟨⟨by simp only; omega, by simp only; omega⟩, hsizes⟩
        · intro k hk
          cases k with
          | zero => exact hok
          | succ k =>
            rw [Nat.add_comm k 1]
            exact hgood k (by simpa using hk)
        · rw [List.length_cons, hnum, Nat.add_comm pieces.length 1]
          rcases hcases with ⟨hnone, hbad, hfewer⟩ | ⟨hsome, hlength, htiles⟩
          · exact .inl ⟨hnone, hbad, by omega⟩
          · refine .inr ⟨by simpa using hsome, by omega, rfl, ?_⟩
            rwa [Nat.add_assoc]
    · obtain rfl : cursor = size := by omega
      refine ⟨[], some mems, by simp [registerLoop], rfl, by simp, by simp,
        .inr ⟨by simp, ?_, rfl⟩⟩
      rw [Nat.sub_self, (bulkNum_eq_zero_iff hgap).mpr rfl, List.length_nil]

/-- When every registration succeeds, as many pieces are registered as `bulk` computed, and
they are consecutive up to the end of the block. -/
theorem registerLoop_pieces (ptr : ℕ) {size fuel : ℕ} (cursor : ℕ) {registers : ℕ → Bool}
    (s : SendSide) (mems : List RdmaMem) (hgap : 0 < s.rdmaGap) (hcursor : cursor ≤ size)
    (hfuel : size - cursor ≤ fuel)
    (hok : ∀ i < mems.length + bulkNum s.rdmaGap (size - cursor), registers i = true) :
    ∃ pieces, registerLoop ptr size registers fuel cursor s mems =
        ({ s with regions := s.regions ++ pieces, nextMr := s.nextMr + pieces.length },
          some (mems ++ pieces)) ∧
      pieces.length = bulkNum s.rdmaGap (size - cursor) ∧
      Tiles (ptr + cursor) (ptr + size) (pieces.map fun m => (m.buf, m.size)) ∧
      ∀ m ∈ pieces, 1 ≤ m.size ∧ m.size ≤ s.rdmaGap := by
  obtain ⟨pieces, result, hloop, _, hsizes, _, hcases⟩ :=
    registerLoop_cases ptr cursor registers s mems hgap hcursor hfuel
  rcases hcases with ⟨_, hbad, hfewer⟩ | ⟨rfl, hlength, htiles⟩
  · rw [hok _ (by omega)] at hbad
    cases hbad
  · exact ⟨pieces, hloop, hlength, htiles, hsizes⟩

/-- The ways in which a call of `bulk` can stand: a registration failed, a work request
was refused, completions are missing or a poll failed, or it has deregistered. -/
theorem bulk_cases {s : SendSide} {ptr size : ℕ} {env : BulkEnv} {out : BulkOutcome}
    (hgap : 0 < s.rdmaGap) (h : s.bulk ptr size env = some out) :
    ∃ pieces t, (registerLoop ptr size env.registers size 0 s []).1 = t ∧
      t = { s with regions := s.regions ++ pieces, nextMr := s.nextMr + pieces.length } ∧
      pieces.map RdmaMem.mr = List.range' s.nextMr pieces.length ∧
      (∀ k < pieces.length, env.registers k = true) ∧
      ((env.registers pieces.length = false ∧ pieces.length < bulkNum s.rdmaGap size ∧
        out = ⟨t, some (-1), bulkNum s.rdmaGap size, [], none⟩) ∨
      pieces.length = bulkNum s.rdmaGap size ∧
        ((∃ u, postLoop pieces env.posts (bulkNum s.rdmaGap size) 0 t = some (u, false) ∧
          out = ⟨u, some (-1), bulkNum s.rdmaGap size, [], none⟩) ∨
        ∃ u acked, postLoop pieces env.posts (bulkNum s.rdmaGap size) 0 t = some (u, true) ∧
          ackLoop (bulkNum s.rdmaGap size) env.polls 0 u = some acked ∧
          ((∃ result, out = ⟨acked.state, result, bulkNum s.rdmaGap size, acked.acks, none⟩ ∧
            result ≠ some 0 ∧ acked.ended ≠ some true) ∨
          ∃ v ok, acked.ended = some true ∧
            deregLoop pieces env.deregisters (bulkNum s.rdmaGap size) 0 acked.state =
              some (v, ok) ∧
            out = ⟨v, some (if ok then 0 else -1), bulkNum s.rdmaGap size, acked.acks,
              some acked.state⟩))) := by
  obtain ⟨pieces, result, hloop, hmrs, _, hgood, hcases⟩ :=
    registerLoop_cases ptr 0 env.registers s [] hgap (Nat.zero_le size) (Nat.sub_le _ _)
  simp only [List.length_nil, Nat.zero_add, List.nil_append, Nat.sub_zero] at hgood hcases
  refine ⟨pieces, _, by rw [hloop], rfl, hmrs, hgood, ?_⟩
  simp only [bulk, hloop] at h
  rcases hcases with ⟨rfl, hbad, hfewer⟩ | ⟨rfl, hlength, _⟩
  · exact .inl ⟨hbad, hfewer, (Option.some.inj h).symm⟩
  obtain ⟨⟨u, ok⟩, hpost, h⟩ := Option.bind_eq_some_iff.mp h
  refine .inr ⟨hlength, ?_⟩
  cases ok with
  | false => exact .inl ⟨u, hpost, (Option.some.inj h).symm⟩
  | true =>
    obtain ⟨acked, hack, h⟩ := Option.bind_eq_some_iff.mp h
    refine .inr ⟨u, acked, hpost, hack, ?_⟩
    split at h
    case h_1 hmissing => exact .inl ⟨_, (Option.some.inj h).symm, by simp, by simp [hmissing]⟩
    case h_2 hfailed => exact .inl ⟨_, (Option.some.inj h).symm, by simp, by simp [hfailed]⟩
    case h_3 htrue =>
      obtain ⟨⟨v, ok⟩, hdereg, rfl⟩ := Option.map_eq_some_iff.mp h
      exact .inr ⟨v, ok, htrue, hdereg, rfl⟩

/-- All that a call of `bulk` can do to the queues. When it returns 0 it has polled as
many completions as it posted writes. -/
theorem bulk_spec {s : SendSide} {ptr size : ℕ} {env : BulkEnv} {out : BulkOutcome}
    (hgap : 0 < s.rdmaGap) (hs : s.polled ≤ s.posted.length)
    (h : s.bulk ptr size env = some out) :
    out.num = bulkNum s.rdmaGap size ∧ out.state.polled ≤ out.state.posted.length ∧
      out.state.rdmaGap = s.rdmaGap ∧
      (∀ ack ∈ out.acks, ack + s.polled ≤ s.posted.length + out.num) ∧
      (out.num = 0 → ∀ ack ∈ out.acks, ack = 0) ∧
      (out.result = some 0 → ∃ t, out.beforeDereg = some t ∧
        t.posted.length = s.posted.length + out.num ∧ t.polled = s.polled + out.num) := by
  obtain ⟨pieces, _, _, rfl, _, _, ⟨_, _, rfl⟩ | ⟨_, hrest⟩⟩ := bulk_cases hgap h
  · exact ⟨rfl, hs, rfl, by simp, by simp, by simp⟩
  rcases hrest with ⟨u, hpost, rfl⟩ | ⟨u, acked, hpost, hack, hrest⟩
  · obtain ⟨hpolled, hkept, hmore, _⟩ := postLoop_spec hpost
    exact ⟨rfl, by simp only at hpolled hmore ⊢; omega, hkept, by simp, by simp, by simp⟩
  obtain ⟨hpolled, hkept, _, hlength⟩ := postLoop_spec hpost
  have hall : u.posted.length = s.posted.length + bulkNum s.rdmaGap size := hlength rfl
  simp only at hpolled hkept
  obtain ⟨hsame, hkept', hle, hended, hacks⟩ := ackLoop_spec (by omega) hack
  have hbound : ∀ a ∈ acked.acks, a + s.polled ≤ s.posted.length + bulkNum s.rdmaGap size := by
    intro a ha
    have hsum := hacks a ha
    omega
  have hzero : bulkNum s.rdmaGap size = 0 → ∀ a ∈ acked.acks, a = 0 := by
    intro hnum
    rw [hnum, ackLoop_self, Option.some.injEq] at hack
    subst hack
    simp
  rw [← hsame] at hle
  rcases hrest with ⟨result, rfl, hresult, _⟩ | ⟨v, ok, htrue, hdereg, rfl⟩
  · exact ⟨rfl, hle, hkept'.trans hkept, hbound, hzero, fun hreturn => absurd hreturn hresult⟩
  · obtain ⟨hposted', hpolled', hkept''⟩ := deregLoop_frame hdereg
    refine ⟨rfl, by rwa [hposted', hpolled'], hkept''.trans (hkept'.trans hkept), hbound, hzero,
      ?_⟩
    intro _
    have hcount := hended htrue
    refine ⟨acked.state, rfl, by rw [hsame, hall], ?_⟩
    simp only
    omega

/-- The next piece of the loops over the pieces. -/
theorem of_drop_eq_cons {mems pieces : List RdmaMem} {mem : RdmaMem} {i : ℕ}
    (h : mems.drop i = mem :: pieces) :
    i < mems.length ∧ mems[i]? = some mem ∧ mems.drop (i + 1) = pieces := by
  refine ⟨?_, ?_, ?_⟩
  · rw [← Nat.not_le, ← List.drop_eq_nil_iff, h]
    simp
  · rw [← Nat.add_zero i, ← List.getElem?_drop, h]
    rfl
  · rw [← List.drop_drop, h]
    rfl

/-- When the adapter takes every work request, all pieces are posted. -/
theorem exists_postLoop (mems : List RdmaMem) {s : SendSide} (left i : ℕ)
    (hlength : i + left ≤ mems.length) :
    ∃ t, postLoop mems (fun _ => true) left i s = some (t, true) := by
  induction left generalizing i s with
  | zero => exact ⟨s, rfl⟩
  | succ left ih =>
    simp only [postLoop, List.getElem?_eq_getElem (show i < mems.length by omega),
      Option.bind_some, rdma, sendTask, if_true]
    exact ih (i + 1) (by omega)

/-- When the missing completions are polled, in any batches, the loop ends. -/
theorem ackLoop_counts {counts : List ℕ} (rest : List Poll) (ack : ℕ) (s : SendSide)
    (hcounts : ∀ n ∈ counts, 1 ≤ n ∧ n ≤ maxCqe)
    (hwaiting : s.polled + counts.sum ≤ s.posted.length) :
    ∃ acks, ackLoop (ack + counts.sum) (counts.map Poll.got ++ rest) ack s =
      some ⟨{ s with polled := s.polled + counts.sum }, acks, some true⟩ := by
  induction counts generalizing ack s with
  | nil => exact ⟨[ack], ackLoop_self ack rest s⟩
  | cons n counts ih =>
    rw [List.forall_mem_cons] at hcounts
    rw [List.sum_cons] at hwaiting
    obtain ⟨acks, hloop⟩ := ih (ack + n) { s with polled := s.polled + n } hcounts.2
      (by simp only; omega)
    have hquery : s.queryCq (.got n) = some ({ s with polled := s.polled + n }, some n) := by
      rw [queryCq, if_pos ⟨hcounts.1.1, hcounts.1.2, by omega⟩]
    refine ⟨ack :: acks, ?_⟩
    rw [List.sum_cons, List.map_cons, List.cons_append, ackLoop, if_neg (by omega), hquery,
      ← Nat.add_assoc, ← Nat.add_assoc]
    simp only [Option.bind_some, hloop, Option.map_some]

/-- When every deregistration succeeds, all pieces are deregistered. -/
theorem deregLoop_pieces {mems : List RdmaMem} {deregisters : ℕ → Bool} (i : ℕ)
    (pieces : List RdmaMem) (s : SendSide) (hmems : mems.drop i = pieces)
    (hok : ∀ k < mems.length, deregisters k = true) :
    deregLoop mems deregisters pieces.length i s =
      some ({ s with regions := pieces.foldl List.erase s.regions }, true) := by
  induction pieces generalizing i s with
  | nil => rfl
  | cons mem pieces ih =>
    obtain ⟨hi, hmem, hrest⟩ := of_drop_eq_cons hmems
    rw [List.length_cons, deregLoop, hmem]
    simp only [Option.bind_some, hok i hi, if_true, List.foldl_cons]
    exact ih (i + 1) _ hrest

/-- A call all of whose loops go through returns 0. -/
theorem bulk_of_loops {s t u v w : SendSide} {ptr size : ℕ} {env : BulkEnv} {mems : List RdmaMem}
    {acks : List ℕ} (hlength : mems.length = bulkNum s.rdmaGap size)
    (hregister : registerLoop ptr size env.registers size 0 s [] = (t, some mems))
    (hpost : postLoop mems env.posts mems.length 0 t = some (u, true))
    (hack : ackLoop mems.length env.polls 0 u = some ⟨w, acks, some true⟩)
    (hdereg : deregLoop mems env.deregisters mems.length 0 w = some (v, true)) :
    s.bulk ptr size env = some ⟨v, some 0, mems.length, acks, some w⟩ := by
  simp only [bulk, hregister, ← hlength, hpost, Option.bind_some, if_true, hack, hdereg,
    Option.map_some]

/-- A call in which every verb succeeds and completions are polled one by one returns 0:
`bulk` can always finish. -/
theorem exists_bulk_returns_zero {s : SendSide} (hgap : 0 < s.rdmaGap)
    (hs : s.polled ≤ s.posted.length) (ptr size : ℕ) :
    ∃ env out, s.bulk ptr size env = some out ∧ out.result = some 0 := by
  obtain ⟨pieces, hregister, hlength, _⟩ := registerLoop_pieces ptr 0 s [] hgap (Nat.zero_le size)
    (Nat.sub_le _ _) fun _ _ => rfl
  obtain ⟨u, hpost⟩ := exists_postLoop pieces (s := { s with
    regions := s.regions ++ pieces
    nextMr := s.nextMr + pieces.length }) pieces.length 0 (by omega)
  obtain ⟨hpolled, _, _, hall⟩ := postLoop_spec hpost
  have hones : (List.replicate pieces.length 1).sum = pieces.length := by simp
  have hwaiting : u.polled + (List.replicate pieces.length 1).sum ≤ u.posted.length := by
    rw [hones, hall rfl, hpolled]
    exact Nat.add_le_add_right hs _
  obtain ⟨acks, hack⟩ := ackLoop_counts [] 0 u
    (fun n hn => by rw [List.eq_of_mem_replicate hn]; decide) hwaiting
  rw [hones, Nat.zero_add] at hack
  let env : BulkEnv := ⟨fun _ => true, fun _ => true,
    (List.replicate pieces.length 1).map Poll.got ++ [], fun _ => true⟩
  have hdereg := @deregLoop_pieces pieces env.deregisters 0 pieces
    { u with polled := u.polled + pieces.length } List.drop_zero fun _ _ => rfl
  exact ⟨env, _, bulk_of_loops hlength hregister hpost hack hdereg, rfl⟩

/-- All that `latency` can do: it refuses a long message, or its message is not posted, or it
is posted and the completion queue is polled. -/
theorem latency_cases {s t : SendSide} {size : ℕ} {ok returned : Bool} {poll : Poll}
    (h : s.latency size ok poll = some (t, returned)) :
    (gap < size ∧ t = s ∧ returned = false) ∨
    (size ≤ gap ∧ (s.sendSize size ok).2 = false ∧ t = (s.sendSize size ok).1 ∧
      returned = false) ∨
    (size ≤ gap ∧ (s.sendSize size ok).2 = true ∧ ∃ result,
      (s.sendSize size ok).1.queryCq poll = some (t, result) ∧ returned = result.isSome) := by
  simp only [latency] at h
  split at h
  case isTrue hlong =>
    obtain ⟨rfl, rfl⟩ := Prod.mk.inj (Option.some.inj h)
    exact .inl ⟨hlong, rfl, rfl⟩
  case isFalse hshort =>
    rw [Nat.not_lt] at hshort
    split at h
    case isTrue hsent =>
      obtain ⟨⟨u, result⟩, hquery, hpair⟩ := Option.map_eq_some_iff.mp h
      obtain ⟨rfl, rfl⟩ := Prod.mk.inj hpair
      exact .inr (.inr ⟨hshort, hsent, result, hquery, rfl⟩)
    case isFalse hsent =>
      obtain ⟨rfl, rfl⟩ := Prod.mk.inj (Option.some.inj h)
      exact .inr (.inl ⟨hshort, by simpa using hsent, rfl, rfl⟩)

/-- **Step rule.** What is preserved by posting a task, by a query and by `bulk` is preserved
by every operation. -/
theorem invariant_step (Inv : SendSide → Prop)
    (htask : ∀ s task ok, Inv s → Inv (s.sendTask task ok).1)
    (hquery : ∀ s t poll result, Inv s → s.queryCq poll = some (t, result) → Inv t)
    (hbulk : ∀ s ptr size env out, Inv s → s.bulk ptr size env = some out → Inv out.state)
    {s t : SendSide} {op : SendOp} (hs : Inv s) (h : s.step op = some t) : Inv t := by
  have hsize : ∀ size ok, Inv (s.sendSize size ok).1 := by
    intro size ok
    rw [sendSize]
    split
    · exact hs
    · exact htask s _ ok hs
  cases op with
  | sendTask task ok =>
    obtain rfl := Option.some.inj h
    exact htask s task ok hs
  | sendSize size ok =>
    obtain rfl := Option.some.inj h
    exact hsize size ok
  | sendBuf size ok =>
    obtain rfl := Option.some.inj h
    exact htask s _ ok hs
  | latency size ok poll =>
    obtain ⟨⟨u, returned⟩, hlatency, rfl⟩ := Option.map_eq_some_iff.mp h
    rcases latency_cases hlatency with ⟨_, rfl, _⟩ | ⟨_, _, rfl, _⟩ | ⟨_, _, result, hqueried, _⟩
    · exact hs
    · exact hsize size ok
    · exact hquery _ u poll result (hsize size ok) hqueried
  | bulk ptr size env =>
    obtain ⟨out, hout, h⟩ := Option.bind_eq_some_iff.mp h
    rw [Option.ite_none_right_eq_some, Option.some.injEq] at h
    obtain ⟨_, rfl⟩ := h
    exact hbulk s ptr size env out hs hout

/-- What holds in every state of every run. -/
def Sound (s : SendSide) : Prop := s.polled ≤ s.posted.length ∧ s.rdmaGap = rdmaGapInit

/-- The pieces of `bulk` are not empty. -/
theorem Sound.rdmaGap_pos {s : SendSide} (hs : s.Sound) : 0 < s.rdmaGap := by
  rw [hs.2]
  decide

/-- Posting a task keeps the send side sound. -/
theorem Sound.sendTask {s : SendSide} (hs : s.Sound) (task : RdmaTask) (ok : Bool) :
    (s.sendTask task ok).1.Sound := by
  cases ok with
  | false => exact hs
  | true =>
    refine ⟨?_, hs.2⟩
    simp only [SendSide.sendTask, if_true, List.length_append, List.length_singleton]
    exact Nat.le_succ_of_le hs.1

/-- A query keeps the send side sound. -/
theorem Sound.queryCq {s t : SendSide} (hs : s.Sound) {poll : Poll} {result : Option ℕ}
    (h : s.queryCq poll = some (t, result)) : t.Sound := by
  obtain ⟨_, hgap, _, hle, _⟩ := queryCq_spec h
  exact ⟨hle, hgap.trans hs.2⟩

/-- A call of `bulk` keeps the send side sound. -/
theorem Sound.bulk {s : SendSide} (hs : s.Sound) {ptr size : ℕ} {env : BulkEnv}
    {out : BulkOutcome} (h : s.bulk ptr size env = some out) : out.state.Sound := by
  obtain ⟨_, hle, hgap, _⟩ := bulk_spec hs.rdmaGap_pos hs.1 h
  exact ⟨hle, hgap.trans hs.2⟩

/-- Every operation keeps the send side sound. -/
theorem Sound.step {s t : SendSide} {op : SendOp} (hs : s.Sound) (h : s.step op = some t) :
    t.Sound :=
  invariant_step Sound (fun _ task ok hs => hs.sendTask task ok) (fun _ _ _ _ hs => hs.queryCq)
    (fun _ _ _ _ _ hs => hs.bulk) hs h

/-- `init` leaves the send side sound. -/
theorem sound_startRw {sendMem : RdmaMem} {remoteInfo : ℕ × ℕ} {raddrs rkeys : ℕ → ℕ}
    {slices : ℕ} {ok : Bool} {poll : Poll} {s : SendSide}
    (h : (fresh sendMem remoteInfo raddrs rkeys slices).startRw ok poll = some s) : s.Sound := by
  obtain ⟨⟨u, result⟩, hquery, rfl⟩ := Option.map_eq_some_iff.mp h
  have hfresh : (fresh sendMem remoteInfo raddrs rkeys slices).Sound := ⟨Nat.le_refl 0, rfl⟩
  exact (hfresh.sendTask _ ok).queryCq hquery

end SendSide

/-- **Completion accounting.** In every state that a run of the session reaches, a call of
`bulk` accounts for its writes, whatever the adapter does, exactly when every completion
of the work requests posted before was polled, or there is nothing to write. -/
theorem bulk_accounted_iff {sendMem : RdmaMem} {remoteInfo : ℕ × ℕ} {raddrs rkeys : ℕ → ℕ}
    {slices : ℕ} {ok : Bool} {poll : Poll} {start s : SendSide} {ops : List SendOp}
    (hstart : (SendSide.fresh sendMem remoteInfo raddrs rkeys slices).startRw ok poll =
      some start)
    (hrun : exec SendSide.step start ops = some s) (ptr size : ℕ) :
    (∀ env out, s.bulk ptr size env = some out → out.Accounted s) ↔
      size = 0 ∨ s.polled = s.posted.length := by
  have hsound := invariant_of_exec SendSide.Sound (fun _ _ _ => SendSide.Sound.step)
    (SendSide.sound_startRw hstart) hrun
  have hle := hsound.1
  have hpos := hsound.rdmaGap_pos
  constructor
  · intro hall
    obtain ⟨env, out, hbulk, hzero⟩ := SendSide.exists_bulk_returns_zero hpos hle ptr size
    obtain ⟨t, hbefore, hlength, hown⟩ := (hall env out hbulk).1 hzero
    obtain ⟨hnum, _, _, _, _, hreturned⟩ := SendSide.bulk_spec hpos hle hbulk
    obtain ⟨t', hbefore', _, hpolled⟩ := hreturned hzero
    obtain rfl : t = t' := Option.some.inj (hbefore.symm.trans hbefore')
    rcases Nat.eq_zero_or_pos out.num with hnone | hsome
    · exact .inl ((SendSide.bulkNum_eq_zero_iff hpos).mp (hnum ▸ hnone))
    · -- The last write of the call has been polled, so nothing was waiting before it.
      have hlast := hown (t.posted.length - 1) (by omega) (by omega)
      exact .inr (by omega)
  · intro hclean env out hbulk
    obtain ⟨hnum, _, _, hbound, hnone, hreturned⟩ := SendSide.bulk_spec hpos hle hbulk
    rcases hclean with rfl | hclean
    · have hzero : out.num = 0 := hnum.trans ((SendSide.bulkNum_eq_zero_iff hpos).mpr rfl)
      refine ⟨?_, fun ack hack => (hnone hzero ack hack).le.trans (Nat.zero_le _)⟩
      intro hreturn
      obtain ⟨t, hbefore, hlength, _⟩ := hreturned hreturn
      exact ⟨t, hbefore, hlength, fun w hge hlt => by omega⟩
    · constructor
      · intro hreturn
        obtain ⟨t, hbefore, hlength, hpolled⟩ := hreturned hreturn
        exact ⟨t, hbefore, hlength, fun w _ hlt => by omega⟩
      · intro ack hack
        have hsum := hbound ack hack
        omega

/-- A session whose only earlier work requests are the table and a polled send. -/
theorem bulk_accounted_iff_after_latency :
    ∃ start s, (SendSide.fresh ⟨0, 0, gap⟩ (0, 0) (fun _ => 1) (fun _ => 1) 512).startRw true
        (.got 1) = some start ∧
      exec SendSide.step start [.latency 1 true (.got 1)] = some s ∧
      ∀ env out, s.bulk 0 1 env = some out → out.Accounted s := by
  have hclean : ∀ start s, (SendSide.fresh ⟨0, 0, gap⟩ (0, 0) (fun _ => 1) (fun _ => 1)
      512).startRw true (.got 1) = some start →
      exec SendSide.step start [.latency 1 true (.got 1)] = some s →
      s.polled = s.posted.length → ∀ env out, s.bulk 0 1 env = some out → out.Accounted s := by
    intro start s hstart hrun hpolled
    exact (bulk_accounted_iff hstart hrun 0 1).mpr (.inr hpolled)
  exact ⟨_, _, rfl, rfl, hclean _ _ rfl rfl rfl⟩

/-- After `send(1)` the completion waiting on the queue ends the count of a bulk transfer
of one piece, whose own write is then still outstanding when its memory is
deregistered. -/
theorem bulk_counts_completion_of_send :
    ∃ start s out, (SendSide.fresh ⟨0, 0, gap⟩ (0, 0) (fun _ => 1) (fun _ => 1) 512).startRw true
        (.got 1) = some start ∧
      exec SendSide.step start [.sendSize 1 true] = some s ∧
      s.bulk 0 1 ⟨fun _ => true, fun _ => true, [.got 1], fun _ => true⟩ = some out ∧
      out.result = some 0 ∧ ¬out.Accounted s := by
  refine ⟨_, _, _, rfl, rfl, rfl, rfl, ?_⟩
  intro h
  obtain ⟨t, hbefore, _, hown⟩ := h.1 rfl
  obtain rfl := Option.some.inj hbefore
  exact absurd (hown 2 (by decide) (by decide)) (by decide)

end RdmaTransport
