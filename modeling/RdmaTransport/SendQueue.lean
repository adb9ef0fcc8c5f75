import RdmaTransport.SlotRing

/-!
# Bulk transfers at the pace of the adapter

Posting a work request only puts it on the send queue. The adapter carries the requests out
in order and at its own pace, each from what the memory of this side holds at that time, and
only the completions tell how far it has come. `bulk` returns when it has counted as many
completions as it has pieces. If the completions of earlier requests had not all been polled,
it may return before its own writes are made, and what the program stores afterwards gets into
them.

If they had been polled, the writes of a transfer are made within its call. A queue on which
every transfer begins like this does what the ring of slots does, whatever the pace of the
adapter, and a transfer lasts as long as in the ring.
-/

namespace RdmaTransport

open Runs Transfer

/-- The send side, the memories of both sides, and how far the adapter has come. -/
structure SendQueue where
  /-- The send side. -/
  side : SendSide
  /-- The memory of this side. -/
  source : ℕ → UInt8
  /-- The memory of the peer. -/
  remote : ℕ → UInt8
  /-- The number of work requests carried out. -/
  executed : ℕ
  /-- Only requests that were carried out have completed. -/
  polled_le : side.polled ≤ executed
  /-- Only requests that were posted are carried out. -/
  executed_le : executed ≤ side.posted.length

/-- What can happen on a send queue. -/
inductive SendQueue.Action
  /-- The program changes its memory. -/
  | store (memory : ℕ → UInt8)
  /-- An operation is called. When it returns, `n` work requests have been carried out. -/
  | call (op : SendOp) (n : ℕ)
  /-- The adapter goes on until `n` work requests have been carried out. -/
  | carryOut (n : ℕ)

/-- The writes among the work requests from number `m` up to number `n`. -/
def SendSide.writesFrom (s : SendSide) (m n : ℕ) : List Write :=
  (((s.posted.take n).drop m).filter fun wr => wr.opcode = .rdmaWrite).map PostedWr.write

/-- The adapter carries out the work requests of the side `t` from number `m` up to number
`n`. A request whose completion has been polled is among them or came before. -/
def SendQueue.carryOut (t : SendSide) (source remote : ℕ → UInt8) (m n : ℕ) : Option SendQueue :=
  if h : m ≤ n ∧ t.polled ≤ n ∧ n ≤ t.posted.length then
    some ⟨t, source, runAll source (t.writesFrom m n) remote, n, h.2.1, h.2.2⟩
  else none

/-- One action on the send queue. The memory of this side does not change during a call. -/
def SendQueue.step (q : SendQueue) : SendQueue.Action → Option SendQueue
  | .store memory => some { q with source := memory }
  | .call op n => (q.side.step op).bind fun t => carryOut t q.source q.remote q.executed n
  | .carryOut n => carryOut q.side q.source q.remote q.executed n

/-- The operations called, each with the memory at the time of its call. -/
def SendQueue.callsOf : (ℕ → UInt8) → List SendQueue.Action → List (SendOp × (ℕ → UInt8))
  | _, [] => []
  | _, .store memory :: acts => callsOf memory acts
  | source, .call op _ :: acts => (op, source) :: callsOf source acts
  | source, .carryOut _ :: acts => callsOf source acts

/-- A bulk transfer has nothing to write, or is called when all completions have been
polled. -/
def SendSide.Collected (s : SendSide) : SendOp → Prop
  | .bulk _ size _ => size = 0 ∨ s.polled = s.posted.length
  | .sendTask _ _ | .sendSize _ _ | .sendBuf _ _ | .latency _ _ _ => True

/-- The work requests still to be carried out are messages. -/
def SendQueue.Quiet (q : SendQueue) : Prop :=
  ∀ wr ∈ q.side.posted.drop q.executed, wr.opcode ≠ .rdmaWrite

namespace SendSide

/-- What a whole operation posts is messages, or the pieces of a transfer, of which as many
completions have been polled. -/
theorem RingReady.appends {s t : SendSide} (hs : s.RingReady) {op : SendOp}
    (hop : op.Whole s.rdmaGap) (h : s.step op = some t) :
    ∃ wrs, t.posted = s.posted ++ wrs ∧ ((∀ wr ∈ wrs, wr.opcode = .send) ∨
      ∃ ptr size env, op = .bulk ptr size env ∧ wrs.length = bulkNum s.rdmaGap size ∧
        t.polled = s.polled + wrs.length) := by
  by_cases hbulk : ∃ ptr size env, op = .bulk ptr size env
  · obtain ⟨ptr, size, env, rfl⟩ := hbulk
    obtain ⟨⟨wrs, hposted, hlength, hpolled⟩, _⟩ := hs.bulk hop h
    exact ⟨wrs, hposted, .inr ⟨ptr, size, env, rfl, hlength, hpolled⟩⟩
  · obtain ⟨wrs, polled, rfl, _, hsends⟩ :=
      onlySends_step hs.polled_le hop (fun ptr size env h => hbulk ⟨ptr, size, env, h⟩) h
    exact ⟨wrs, rfl, .inl hsends⟩

/-- Where all completions had been polled before a transfer, they have been behind it. -/
theorem RingReady.appends_of_collected {s t : SendSide} (hs : s.RingReady) {op : SendOp}
    (hop : op.Whole s.rdmaGap) (hcollected : s.Collected op) (h : s.step op = some t) :
    ∃ wrs, t.posted = s.posted ++ wrs ∧
      ((∀ wr ∈ wrs, wr.opcode = .send) ∨ t.polled = t.posted.length) := by
  obtain ⟨wrs, hposted, hsends | ⟨ptr, size, env, rfl, hlength, hpolled⟩⟩ := hs.appends hop h
  · exact ⟨wrs, hposted, .inl hsends⟩
  · refine ⟨wrs, hposted, ?_⟩
    rcases hcollected with rfl | hall
    · have hnil : wrs = [] := by
        rw [← List.length_eq_zero_iff, hlength]
        exact (bulkNum_eq_zero_iff hs.gap_pos).mpr rfl
      rw [hnil]
      exact .inl (by simp)
    · right
      rw [hpolled, hall, hposted, List.length_append]

/-- Without writes from number `m` on there are none to make. -/
theorem writesFrom_eq_nil {s : SendSide} {m : ℕ}
    (h : ∀ wr ∈ s.posted.drop m, wr.opcode ≠ .rdmaWrite) (n : ℕ) : s.writesFrom m n = [] := by
  rw [writesFrom, List.map_eq_nil_iff, List.filter_eq_nil_iff]
  intro wr hwr
  rw [List.drop_take] at hwr
  simpa using h wr (List.mem_of_mem_take hwr)

/-- If the old work requests from number `m` on are messages, the writes from there on are
the new ones. -/
theorem writesFrom_length {s t : SendSide} {wrs : List PostedWr} {m : ℕ}
    (hposted : t.posted = s.posted ++ wrs) (hm : m ≤ s.posted.length)
    (h : ∀ wr ∈ s.posted.drop m, wr.opcode ≠ .rdmaWrite) :
    t.writesFrom m t.posted.length = newWrites s t := by
  have hold : (s.posted.drop m).filter (fun wr => decide (wr.opcode = .rdmaWrite)) = [] := by
    rw [List.filter_eq_nil_iff]
    simpa using h
  rw [newWrites_of_append hposted, writesFrom, List.take_length, hposted,
    List.drop_append_of_le_length hm, List.filter_append, hold, List.nil_append]

end SendSide

namespace SendQueue

/-- When everything has been carried out, nothing is left to write. -/
theorem quiet_of_le {q : SendQueue} (h : q.side.posted.length ≤ q.executed) : q.Quiet := by
  intro wr hwr
  rw [List.drop_eq_nil_of_le h] at hwr
  cases hwr

/-- All that the adapter can do. -/
theorem carryOut_cases {t : SendSide} {source remote : ℕ → UInt8} {m n : ℕ} {q : SendQueue}
    (h : carryOut t source remote m n = some q) :
    m ≤ n ∧ q.side = t ∧ q.source = source ∧ q.executed = n ∧
      q.remote = runAll source (t.writesFrom m n) remote := by
  unfold carryOut at h
  split_ifs at h with hn
  obtain rfl := Option.some.inj h
  exact ⟨hn.1, rfl, rfl, rfl, rfl⟩

/-- While only messages are waiting, the adapter changes no memory. -/
theorem Quiet.carryOut {q r : SendQueue} (hq : q.Quiet) {n : ℕ}
    (h : q.step (.carryOut n) = some r) :
    r.side = q.side ∧ r.source = q.source ∧ r.remote = q.remote ∧ r.Quiet := by
  obtain ⟨hle, hside, hsource, hexecuted, hremote⟩ := carryOut_cases h
  refine ⟨hside, hsource, ?_, fun wr hwr => ?_⟩
  · rw [hremote, SendSide.writesFrom_eq_nil hq]
    rfl
  · rw [hside, hexecuted] at hwr
    exact hq wr (List.drop_subset_drop_left _ hle hwr)

/-- A call does at the pace of the adapter what it does in the ring. -/
theorem Quiet.call {q r : SendQueue} (hq : q.Quiet) {op : SendOp} {n : ℕ}
    (hs : q.side.RingReady) (hop : op.Whole q.side.rdmaGap) (hcollected : q.side.Collected op)
    (h : q.step (.call op n) = some r) :
    SlotRing.step ⟨q.side, q.remote⟩ (op, q.source) = some ⟨r.side, r.remote⟩ ∧
      q.side.step op = some r.side ∧ r.source = q.source ∧ r.Quiet := by
  obtain ⟨t, hstep, hcarry⟩ := Option.bind_eq_some_iff.mp h
  obtain ⟨hle, rfl, hsource, hexecuted, hremote⟩ := carryOut_cases hcarry
  obtain ⟨wrs, hposted, hcases⟩ := hs.appends_of_collected hop hcollected hstep
  have hwrites : r.side.writesFrom q.executed n = newWrites q.side r.side ∧ r.Quiet := by
    rcases hcases with hsends | hall
    · -- Messages only: there is nothing to write, now or later.
      have hnone : ∀ wr ∈ r.side.posted.drop q.executed, wr.opcode ≠ .rdmaWrite := by
        intro wr hwr
        rw [hposted, List.drop_append_of_le_length q.executed_le, List.mem_append] at hwr
        rcases hwr with hold | hnew
        · exact hq wr hold
        · simp [hsends wr hnew]
      refine ⟨?_, fun wr hwr => ?_⟩
      · rw [← SendSide.writesFrom_length hposted q.executed_le hq,
          SendSide.writesFrom_eq_nil hnone, SendSide.writesFrom_eq_nil hnone]
      · rw [hexecuted] at hwr
        exact hnone wr (List.drop_subset_drop_left _ hle hwr)
    · -- All completions have been polled, so everything has been carried out.
      have hn : n = r.side.posted.length := by
        have hpolled := r.polled_le
        have hexecuted' := r.executed_le
        omega
      refine ⟨?_, quiet_of_le (hn.symm.trans hexecuted.symm).le⟩
      rw [hn, SendSide.writesFrom_length hposted q.executed_le hq]
  refine ⟨?_, hstep, hsource, hwrites.2⟩
  rw [SlotRing.step, hstep, Option.map_some, hremote, hwrites.1]

/-- **The queue refines the ring.** A queue on which all completions have been polled whenever
a bulk transfer is called leaves in the memory of the peer what the ring leaves there. -/
theorem exec_slotRing {q r : SendQueue} {acts : List Action} (hq : q.Quiet)
    (hs : q.side.RingReady) (hwhole : ∀ call ∈ callsOf q.source acts, call.1.Whole q.side.rdmaGap)
    (hcollected : Meets SendSide.step SendSide.Collected q.side
      ((callsOf q.source acts).map Prod.fst))
    (hrun : exec step q acts = some r) :
    exec SlotRing.step ⟨q.side, q.remote⟩ (callsOf q.source acts) = some ⟨r.side, r.remote⟩ := by
  induction acts generalizing q with
  | nil =>
    obtain rfl : q = r := by simpa using hrun
    rfl
  | cons a acts ih =>
    obtain ⟨q', hstep, hrest⟩ := exec_cons_eq_some.mp hrun
    cases a with
    | store memory =>
      obtain rfl := Option.some.inj hstep
      exact ih (q := { q with source := memory }) hq hs hwhole hcollected hrest
    | carryOut n =>
      obtain ⟨hside, hsource, hremote, hq'⟩ := hq.carryOut hstep
      have hmore := ih hq'
      rw [hside, hsource, hremote] at hmore
      exact hmore hs hwhole hcollected hrest
    | call op n =>
      rw [callsOf, List.forall_mem_cons] at hwhole
      rw [callsOf, List.map_cons] at hcollected
      obtain ⟨hring, hside, hsource, hq'⟩ := hq.call hs hwhole.1 hcollected.1 hstep
      obtain ⟨hready, ⟨_, _, hgap⟩, _⟩ := hs.step hwhole.1 hside
      have hmore := ih hq' hready
      rw [hsource, hgap] at hmore
      exact exec_cons_eq_some.mpr ⟨_, hring, hmore hwhole.2 (hcollected.2 _ hside) hrest⟩

/-- The adapter can carry out everything within the call. -/
theorem exists_step_call {q : SendQueue} {t : SendSide} {op : SendOp}
    (hexecuted : q.executed = q.side.posted.length) (hs : q.side.RingReady)
    (hop : op.Whole q.side.rdmaGap) (h : q.side.step op = some t) :
    ∃ r : SendQueue, q.step (.call op t.posted.length) = some r ∧ r.side = t ∧
      r.source = q.source ∧ r.executed = t.posted.length ∧
      r.remote = runAll q.source (newWrites q.side t) q.remote := by
  obtain ⟨wrs, hposted, _⟩ := hs.appends hop h
  have hpolled := (hs.step hop h).1.polled_le
  have hmore : q.executed ≤ t.posted.length := by
    rw [hexecuted, hposted, List.length_append]
    exact Nat.le_add_right _ _
  have hwrites : t.writesFrom q.executed t.posted.length = newWrites q.side t :=
    SendSide.writesFrom_length hposted q.executed_le (quiet_of_le hexecuted.ge)
  refine ⟨⟨t, q.source, runAll q.source (newWrites q.side t) q.remote, t.posted.length, hpolled,
    le_rfl⟩, ?_, rfl, rfl, rfl, rfl⟩
  simp only [step, h, Option.bind_some, carryOut, hmore, hpolled, le_refl, and_self, dite_true,
    hwrites]

/-- Every run of the ring is one of the queue, on which the adapter keeps up. -/
theorem exists_exec {q : SendQueue} (hexecuted : q.executed = q.side.posted.length)
    (hs : q.side.RingReady) {calls : List (SendOp × (ℕ → UInt8))}
    (hwhole : ∀ call ∈ calls, call.1.Whole q.side.rdmaGap) {u : SlotRing}
    (hrun : exec SlotRing.step ⟨q.side, q.remote⟩ calls = some u) :
    ∃ acts r, callsOf q.source acts = calls ∧ exec step q acts = some r ∧
      r.remote = u.remote := by
  induction calls generalizing q with
  | nil =>
    obtain rfl := Option.some.inj hrun
    exact ⟨[], q, rfl, rfl, rfl⟩
  | cons call calls ih =>
    obtain ⟨op, source⟩ := call
    rw [List.forall_mem_cons] at hwhole
    obtain ⟨u', hstep, hrest⟩ := exec_cons_eq_some.mp hrun
    obtain ⟨t, hside, rfl⟩ := Option.map_eq_some_iff.mp hstep
    let q' : SendQueue := { q with source := source }
    obtain ⟨r, hcall, hr, hsource, hexecuted', hremote⟩ :=
      @exists_step_call q' t op hexecuted hs hwhole.1 hside
    obtain ⟨hready, ⟨_, _, hgap⟩, _⟩ := hs.step hwhole.1 hside
    have hmore := @ih r
    rw [hr, hremote, hexecuted', hgap] at hmore
    obtain ⟨acts, r', hcalls, hacts, hend⟩ := hmore rfl hready hwhole.2 hrest
    refine ⟨.store source :: .call op t.posted.length :: acts, r', ?_, ?_, hend⟩
    · rw [callsOf, callsOf, ← hcalls, hsource]
    · exact exec_cons_eq_some.mpr ⟨q', rfl, exec_cons_eq_some.mpr ⟨r, hcall, hacts⟩⟩

end SendQueue

/-- **How long a transfer lasts.** After a bulk transfer, let any messages and further
transfers follow, none of whose verbs fails, and let all completions have been polled whenever
a transfer with anything to write is called. The adapter makes the writes at its own pace, and
the program may change its memory between the calls. Reading the slots of the first transfer
gives the block it had at its call, however they do that, exactly if it was empty or the pieces
written from its first one on are no more than the slots. -/
theorem transfer_intact_iff {s t v : SendSide} (hs : s.RingReady) {ptr size : ℕ} {env : BulkEnv}
    {later : List SendOp} (henv : env.Succeeds (bulkNum s.rdmaGap size))
    (hlater : ∀ op ∈ later, op.Whole s.rdmaGap)
    (hcollected : Meets SendSide.step SendSide.Collected s (.bulk ptr size env :: later))
    (hbulk : s.step (.bulk ptr size env) = some t) (hrun : exec SendSide.step t later = some v) :
    (∀ (q r : SendQueue) (n : ℕ) (acts : List SendQueue.Action), q.side = s →
      (SendQueue.callsOf q.source acts).map Prod.fst = later →
      exec SendQueue.step q (.call (.bulk ptr size env) n :: acts) = some r →
      (newWrites s t).flatMap (fun w => readAt r.remote w.target w.length) =
        readAt q.source ptr size) ↔
    size = 0 ∨
      bulkNum s.rdmaGap size + (later.map (SendOp.pieces s.rdmaGap)).sum ≤ s.slices := by
  have hring := SlotRing.intact_iff hs henv hlater hbulk hrun
  have hwhole : (SendOp.bulk ptr size env).Whole s.rdmaGap := henv
  constructor
  · intro hintact
    refine hring.mp fun src dst calls u hcalls hexec => ?_
    let q : SendQueue := ⟨s, src, dst, s.posted.length, hs.polled_le, le_rfl⟩
    obtain ⟨u', hstep, hrest⟩ := exec_cons_eq_some.mp hexec
    obtain ⟨t', hside, rfl⟩ := Option.map_eq_some_iff.mp hstep
    obtain rfl : t = t' := Option.some.inj (hbulk.symm.trans hside)
    obtain ⟨r, hcall, hr, hsource, hexecuted, hremote⟩ :=
      SendQueue.exists_step_call (q := q) rfl hs hwhole hside
    obtain ⟨hready, ⟨_, _, hgap⟩, _⟩ := hs.step hwhole hside
    have hmore := @SendQueue.exists_exec r
    rw [hr, hremote, hexecuted, hgap] at hmore
    obtain ⟨acts, r', hacts, hqueue, hend⟩ := hmore rfl hready
      (fun call hcall => hlater _ (hcalls ▸ List.mem_map_of_mem hcall)) hrest
    rw [← hend]
    refine hintact q r' t.posted.length acts rfl ?_ (exec_cons_eq_some.mpr ⟨r, hcall, hqueue⟩)
    rw [← hcalls, ← hacts, hsource]
  · rintro hfew q r n acts rfl hops hqueue
    rcases Nat.eq_zero_or_pos size with rfl | hsize
    · rw [hs.newWrites_of_empty henv hbulk]
      rfl
    · have hall : q.side.polled = q.side.posted.length :=
        hcollected.1.resolve_left (Nat.pos_iff_ne_zero.mp hsize)
      have hquiet : q.Quiet := SendQueue.quiet_of_le (hall ▸ q.polled_le)
      have hexec := SendQueue.exec_slotRing hquiet hs ?_ ?_ hqueue
      · exact hring.mpr hfew q.source q.remote _ ⟨r.side, r.remote⟩ hops hexec
      · rw [SendQueue.callsOf, List.forall_mem_cons]
        refine ⟨hwhole, fun call hcall => hlater _ ?_⟩
        rw [← hops]
        exact List.mem_map_of_mem hcall
      · rwa [SendQueue.callsOf, List.map_cons, hops]

/-- The answers to a transfer of one piece none of whose verbs fails. -/
def onePiece : BulkEnv := ⟨fun _ => true, fun _ => true, [.got 1], fun _ => true⟩

/-- None of them is a failure. -/
theorem onePiece_succeeds : onePiece.Succeeds 1 :=
  ⟨fun _ _ => rfl, fun _ _ => rfl, ⟨[1], [], rfl, by decide, rfl⟩, fun _ _ => rfl⟩

/-- With two slots, a transfer of one piece is intact after another one. -/
theorem transfer_intact_two_pieces :
    ∃ t, sampleSlots.step (.bulk 50 3 onePiece) = some t ∧
      ∀ (q r : SendQueue) (n : ℕ) (acts : List SendQueue.Action), q.side = sampleSlots →
        (SendQueue.callsOf q.source acts).map Prod.fst = [.bulk 60 4 onePiece] →
        exec SendQueue.step q (.call (.bulk 50 3 onePiece) n :: acts) = some r →
        (newWrites sampleSlots t).flatMap (fun w => readAt r.remote w.target w.length) =
          readAt q.source 50 3 := by
  have hready : sampleSlots.RingReady :=
    ⟨by decide, by decide, by decide, ⟨by decide, by simp only [Apart]; decide⟩, by decide⟩
  have hlater : ∀ op ∈ [SendOp.bulk 60 4 onePiece], op.Whole sampleSlots.rdmaGap := by
    intro op hop
    rw [List.mem_singleton] at hop
    subst hop
    exact onePiece_succeeds
  have hcollected : Meets SendSide.step SendSide.Collected sampleSlots
      [.bulk 50 3 onePiece, .bulk 60 4 onePiece] := by
    refine ⟨.inr rfl, fun t ht => ?_⟩
    obtain rfl := Option.some.inj ht
    exact ⟨.inr rfl, fun _ _ => trivial⟩
  refine ⟨_, rfl, ?_⟩
  exact (@transfer_intact_iff sampleSlots _ _ hready 50 3 onePiece _ onePiece_succeeds hlater
    hcollected rfl rfl).mpr (.inr (by decide))

/-- A queue on which nothing has been posted, with ones in the memory of this side. -/
def sampleQueue : SendQueue where
  side := sampleSlots
  source := fun _ => 1
  remote := fun _ => 0
  executed := 0
  polled_le := Nat.le_refl 0
  executed_le := Nat.zero_le 0

/-- Behind a message whose completion is waiting, a transfer of one piece returns when the
message has been carried out. The adapter then writes what the program has stored since. -/
theorem transfer_lost_behind_message :
    ∃ r, exec SendQueue.step sampleQueue [.call (.sendSize 1 true) 0,
        .call (.bulk 50 1 onePiece) 1, .store (fun _ => 7), .carryOut 2] = some r ∧
      r.side.posted.map PostedWr.write = [⟨0, 0, 1⟩, ⟨50, 110, 1⟩] ∧ r.remote 110 = 7 :=
  ⟨_, rfl, rfl, rfl⟩

end RdmaTransport
