import RdmaTransport.Lib.PollLoop
import RdmaTransport.ReceiveSteps
import RdmaTransport.TxEvent

/-!
# Whole calls of the completion loops

`RDMAWorker::handle_tx_event` and `RDMAConnectedSocketImpl::read` as functions of what their
polls return. Both loops test the result of `poll_cq` by `if (n)`, so that they go on
polling a queue in error. The first `read` of a connection, whose `rx_buffers` is empty,
delivers a prefix of the payloads and keeps the chunks from the one on that holds the end
of the prefix, whatever the division of the completions into polls.
-/

namespace RdmaTransport

open DrainLoop

/-- `RDMAWorker::handle_tx_event` once it has got its event, for the results of its polls. -/
def handleTxEvent (manager : MemoryManager) (polls : List (PollResult Wc)) :
    LoopOutcome MemoryManager :=
  againLoop handleTx polls false manager

/-- The body of the loop of `read` on the chunks and the socket together. -/
def handleReceived (state : ChunkStore × Sock) (wc : Wc) : Option (ChunkStore × Sock) :=
  handleCompletion state.1 state.2 wc

/-- `RDMAConnectedSocketImpl::read` once it has got its event, for the results of its polls.
The value returned is `read`, the bytes stored are `buf`. -/
def socketRead (store : ChunkStore) (sock : Sock) (len : ℕ) (polls : List (PollResult Wc)) :
    LoopOutcome (ChunkStore × Sock) :=
  let (store, read, buf) := readBuffers len store sock.rxBuffers 0 []
  againLoop handleReceived polls false (store, { sock with len, read, buf })

/-- Processing a send completion fails only for a failed one. -/
theorem isSome_handleTx (manager : MemoryManager) (wc : Wc) :
    (handleTx manager wc).isSome ↔ wc.status = .success := by
  unfold handleTx
  split_ifs with hstatus <;> simp [hstatus]

/-- Processing a receive completion fails only for a failed one. -/
theorem isSome_handleReceived (state : ChunkStore × Sock) (wc : Wc) :
    (handleReceived state wc).isSome ↔ wc.status = .success := by
  unfold handleReceived handleCompletion
  split_ifs with hstatus <;> simp [hstatus]

/-- Two polls return nothing, and no failed completion is polled before the second of
them. -/
def DrainsTwice (poll : ℕ → PollResult Wc) : Prop :=
  ∃ i j, i < j ∧ poll i = .got [] ∧ poll j = .got [] ∧
    ∀ k < j, (poll k).All fun wc => wc.status = .success

/-- When `handle_tx_event` returns. -/
theorem handleTxEvent_returns_iff (manager : MemoryManager) (poll : ℕ → PollResult Wc) :
    (∃ n manager', handleTxEvent manager ((List.range n).map poll) = .returned manager') ↔
      DrainsTwice poll :=
  returns_iff isSome_handleTx poll manager

/-- When `read` returns. -/
theorem socketRead_returns_iff (store : ChunkStore) (sock : Sock) (len : ℕ)
    (poll : ℕ → PollResult Wc) :
    (∃ n state, socketRead store sock len ((List.range n).map poll) = .returned state) ↔
      DrainsTwice poll :=
  returns_iff isSome_handleReceived poll _

/-- **The drain loops.** Each of the two loops reaches its return, after finitely many of a
sequence of poll results, exactly when two of them are zero and no failed completion comes
before the second zero. Errors of `poll_cq` do not end them. -/
theorem drain_loops_return_iff (poll : ℕ → PollResult Wc) :
    (∀ manager, (∃ n manager', handleTxEvent manager ((List.range n).map poll) =
      .returned manager') ↔ DrainsTwice poll) ∧
    ∀ store sock len, (∃ n state, socketRead store sock len ((List.range n).map poll) =
      .returned state) ↔ DrainsTwice poll :=
  ⟨fun manager => handleTxEvent_returns_iff manager poll,
    fun store sock len => socketRead_returns_iff store sock len poll⟩

/-- A completion queue in error is polled forever. -/
theorem drain_loops_poll_error_forever :
    (∀ n manager, handleTxEvent ⟨⟨2, []⟩, ⟨2, []⟩⟩ ((List.range n).map fun _ => .failed) ≠
      .returned manager) ∧
    ∀ n state, socketRead ⟨fun _ => ⟨0, [], 0, 0, 0⟩, fun _ => 0, fun _ => ∅⟩ Sock.connected 1
      ((List.range n).map fun _ => .failed) ≠ .returned state := by
  have hnever : ¬DrainsTwice fun _ => .failed := by
    rintro ⟨i, j, _, hi, _⟩
    cases hi
  constructor
  · intro n manager h
    exact hnever ((handleTxEvent_returns_iff _ _).mp ⟨n, manager, h⟩)
  · intro n state h
    exact hnever ((socketRead_returns_iff _ _ _ _).mp ⟨n, state, h⟩)

/-- The steps of a running call: completions arrive and the call goes on. -/
def TxAction.InCall : TxAction → Prop
  | .arrive _ | .advance _ => True
  | .miss | .enter => False

/-- **Steps and calls agree.** Whenever the worker of `TxEvent`, running between any
arrivals, comes to the end of an invocation of `handle_tx_event`, the call as a function of
its poll results leaves the same memory manager. -/
theorem TxWorker.handleTxEvent_of_exec {w w' : TxWorker} {acts : List TxAction}
    (hcall : ∀ a ∈ acts, a.InCall) (hstart : w.control.point = .again false)
    (hrun : Runs.exec TxWorker.step w acts = some w') (hend : w'.control.point = .idle) :
    ∃ polls, handleTxEvent w.manager polls = .returned w'.manager := by
  have hfinishes : Finishes handleTx w.control.point w.manager w'.manager := by
    clear hstart
    induction acts generalizing w with
    | nil =>
      obtain rfl : w = w' := by simpa using hrun
      rw [hend]
      exact rfl
    | cons a rest ih =>
      obtain ⟨u, hstep, hrest⟩ := Runs.exec_cons_eq_some.mp hrun
      have hlater := ih (fun x hx => hcall x (List.mem_cons_of_mem _ hx)) hrest
      cases a with
      | arrive wc =>
        obtain rfl := Option.some.inj hstep
        exact hlater
      | advance n =>
        obtain ⟨e, hadvance, hhandled⟩ := TxWorker.advance_handles hstep
        exact hlater.of_advance hadvance hhandled
      | miss => exact absurd (hcall _ List.mem_cons_self) id
      | enter => exact absurd (hcall _ List.mem_cons_self) id
  rw [hstart] at hfinishes
  exact hfinishes

/-- The payload of a completion: what its chunk holds. -/
def payload (store : ChunkStore) (wc : Wc) : List UInt8 :=
  (store.chunk wc.wrId).buffer.take wc.byteLen

/-- The number of payload bytes. -/
def payloadTotal (wcs : List Wc) : ℕ := (wcs.map Wc.byteLen).sum

/-- Completions of received messages: they succeeded, their chunks are different and at
their beginning, and the messages fit them. -/
structure Arrived (store : ChunkStore) (wcs : List Wc) : Prop where
  /-- All of them succeeded. -/
  success : ∀ wc ∈ wcs, wc.status = .success
  /-- Their chunks are different. -/
  nodup : (wcs.map Wc.wrId).Nodup
  /-- The chunks are sound and at their beginning. -/
  clean : ∀ wc ∈ wcs, (store.chunk wc.wrId).Clean
  /-- The messages fit. -/
  fits : ∀ wc ∈ wcs, wc.byteLen ≤ (store.chunk wc.wrId).bytes

/-- A payload is as long as the completion says. -/
theorem Arrived.payload_length {store : ChunkStore} {wcs : List Wc} (h : Arrived store wcs)
    {wc : Wc} (hwc : wc ∈ wcs) : (payload store wc).length = wc.byteLen := by
  rw [payload, List.length_take, (h.clean wc hwc).1.length_eq]
  exact min_eq_left (h.fits wc hwc)

/-- The later completions, once the first one has been processed: their chunks are as they
were. -/
theorem Arrived.tail {store store' : ChunkStore} {wc : Wc} {wcs : List Wc}
    (h : Arrived store (wc :: wcs)) (hframe : ∀ c, c ≠ wc.wrId → store'.chunk c = store.chunk c) :
    Arrived store' wcs ∧ wcs.flatMap (payload store') = wcs.flatMap (payload store) := by
  have hsame : ∀ x ∈ wcs, store'.chunk x.wrId = store.chunk x.wrId := by
    intro x hx
    apply hframe
    rintro heq
    exact (List.nodup_cons.mp h.nodup).1 (heq ▸ List.mem_map_of_mem hx)
  refine ⟨⟨?_, ?_, ?_, ?_⟩, ?_⟩
  · exact fun x hx => h.success x (List.mem_cons_of_mem _ hx)
  · exact (List.nodup_cons.mp h.nodup).2
  · intro x hx
    rw [hsame x hx]
    exact h.clean x (List.mem_cons_of_mem _ hx)
  · intro x hx
    rw [hsame x hx]
    exact h.fits x (List.mem_cons_of_mem _ hx)
  · apply List.flatMap_congr
    intro x hx
    rw [payload, payload, hsame x hx]

/-- Reading from a chunk at its beginning, not beyond its end. -/
theorem readChunk_of_clean {store : ChunkStore} {c : ChunkId} (h : (store.chunk c).Clean) {n : ℕ}
    (hn : n ≤ (store.chunk c).bytes) :
    (store.readChunk c n).2 = ((store.chunk c).buffer.take n, n) ∧
      ((store.readChunk c n).1.chunk c).offset = n ∧
      ∀ d, d ≠ c → (store.readChunk c n).1.chunk d = store.chunk d := by
  obtain ⟨hvalid, hoffset⟩ := h
  have htaken : store.taken c n = n := by
    rw [ChunkStore.taken, hoffset, Nat.sub_zero, min_eq_left hn]
  rw [ChunkStore.readChunk_eq hvalid]
  refine ⟨by rw [htaken, hoffset, List.drop_zero], ?_, ?_⟩
  · simp [hoffset, hn]
  · intro d hd
    simp [Function.update_of_ne hd]

/-- What `read` leaves once it has processed completions, from a state in which it has
stored some of the bytes asked for. The completions split into those whose payload is
delivered and gone, and those whose chunks are kept. -/
structure Delivered (store : ChunkStore) (sock : Sock) (wcs : List Wc) (store' : ChunkStore)
    (sock' : Sock) : Prop where
  /-- The number of bytes stored. -/
  read_eq : sock'.read = min sock.len (sock.read + payloadTotal wcs)
  /-- The bytes stored. -/
  buf_eq : sock'.buf = sock.buf ++ (wcs.flatMap (payload store)).take (sock.len - sock.read)
  /-- Chunks of no completion are left alone. -/
  frame : ∀ c, c ∉ wcs.map Wc.wrId → store'.chunk c = store.chunk c
  /-- The chunks kept, and their positions. -/
  kept : ∃ gone kept, wcs = gone ++ kept ∧
    (∀ i < gone.length, sock.read + payloadTotal (gone.take (i + 1)) < sock.len) ∧
    (∀ wc ∈ kept.head?, sock.len ≤ sock.read + payloadTotal gone + wc.byteLen ∧
      (store'.chunk wc.wrId).offset = sock.len - (sock.read + payloadTotal gone)) ∧
    (∀ wc ∈ kept.tail, (store'.chunk wc.wrId).offset = 0) ∧
    sock'.rxBuffers = sock.rxBuffers ++ kept.map Wc.wrId

/-- When all bytes are there, the chunks of further completions are kept as they are. -/
theorem foldlM_handleReceived_of_full (store : ChunkStore) {sock : Sock} {wcs : List Wc}
    (hsuccess : ∀ wc ∈ wcs, wc.status = .success) (hfull : sock.read = sock.len) :
    ∃ sock', wcs.foldlM handleReceived (store, sock) = some (store, sock') ∧
      sock'.read = sock.read ∧ sock'.buf = sock.buf ∧
      sock'.rxBuffers = sock.rxBuffers ++ wcs.map Wc.wrId := by
  induction wcs generalizing sock with
  | nil => exact ⟨sock, rfl, rfl, rfl, (List.append_nil _).symm⟩
  | cons wc wcs ih =>
    have hone : handleReceived (store, sock) wc = some (store, { sock with
        rxBuffers := sock.rxBuffers ++ [wc.wrId]
        polled := sock.polled ++ [wc.wrId] }) := by
      rw [handleReceived, handleCompletion, if_pos (hsuccess wc List.mem_cons_self), if_pos hfull]
    obtain ⟨sock', hrest, hread, hbuf, hrx⟩ := @ih { sock with
        rxBuffers := sock.rxBuffers ++ [wc.wrId]
        polled := sock.polled ++ [wc.wrId] }
      (fun x hx => hsuccess x (List.mem_cons_of_mem _ hx)) hfull
    refine ⟨sock', ?_, hread, hbuf, by simp [hrx]⟩
    rw [List.foldlM_cons, hone]
    exact hrest

/-- A completion whose payload reaches the end of what was asked for: the rest of it is
stored, and its chunk is kept. -/
theorem handleReceived_of_le {store : ChunkStore} {sock : Sock} {wc : Wc}
    (hstatus : wc.status = .success) (hclean : (store.chunk wc.wrId).Clean)
    (hfits : wc.byteLen ≤ (store.chunk wc.wrId).bytes) (hread : sock.read ≤ sock.len)
    (hends : sock.len ≤ sock.read + wc.byteLen) :
    ∃ store' sock', handleReceived (store, sock) wc = some (store', sock') ∧
      sock'.len = sock.len ∧ sock'.read = sock.len ∧
      sock'.buf = sock.buf ++ (store.chunk wc.wrId).buffer.take (sock.len - sock.read) ∧
      sock'.rxBuffers = sock.rxBuffers ++ [wc.wrId] ∧
      (store'.chunk wc.wrId).offset = sock.len - sock.read ∧
      ∀ c, c ≠ wc.wrId → store'.chunk c = store.chunk c := by
  obtain ⟨⟨store', sock'⟩, hout⟩ :=
    Option.isSome_iff_exists.mp ((isSome_handleReceived (store, sock) wc).mpr hstatus)
  refine ⟨store', sock', hout, ?_⟩
  rcases (handleCompletion_cases hout).2 with ⟨hfull, rfl, rfl⟩ | ⟨_, _, rfl, rfl⟩ | ⟨_, hlt, _⟩
  · dsimp only at hfull
    refine ⟨rfl, hfull, ?_, rfl, ?_, fun _ _ => rfl⟩
    · simp [hfull]
    · rw [hclean.2, hfull, Nat.sub_self]
  · obtain ⟨hdata, hoffset, hframe⟩ := readChunk_of_clean hclean
      (show sock.len - sock.read ≤ (store.chunk wc.wrId).bytes by omega)
    refine ⟨rfl, ?_, ?_, rfl, hoffset, hframe⟩
    · simp only [hdata]
      omega
    · simp only [hdata]
  · dsimp only at hlt
    omega

/-- A completion whose payload does not reach the end: it is stored, and its chunk is not
kept. -/
theorem handleReceived_of_lt {store : ChunkStore} {sock : Sock} {wc : Wc}
    (hstatus : wc.status = .success) (hclean : (store.chunk wc.wrId).Clean)
    (hfits : wc.byteLen ≤ (store.chunk wc.wrId).bytes)
    (hlt : sock.read + wc.byteLen < sock.len) :
    ∃ store' sock', handleReceived (store, sock) wc = some (store', sock') ∧
      sock'.len = sock.len ∧ sock'.read = sock.read + wc.byteLen ∧
      sock'.buf = sock.buf ++ payload store wc ∧ sock'.rxBuffers = sock.rxBuffers ∧
      ∀ c, c ≠ wc.wrId → store'.chunk c = store.chunk c := by
  obtain ⟨⟨store', sock'⟩, hout⟩ :=
    Option.isSome_iff_exists.mp ((isSome_handleReceived (store, sock) wc).mpr hstatus)
  refine ⟨store', sock', hout, ?_⟩
  rcases (handleCompletion_cases hout).2 with ⟨hfull, _⟩ | ⟨_, hends, _⟩ | ⟨_, _, rfl, rfl⟩
  · dsimp only at hfull
    omega
  · dsimp only at hends
    omega
  · obtain ⟨hdata, _, hframe⟩ := readChunk_of_clean hclean hfits
    refine ⟨rfl, ?_, ?_, rfl, hframe⟩
    · simp only [hdata]
    · simp only [hdata, payload]

/-- The total payload, from the first completion on. -/
theorem payloadTotal_cons (wc : Wc) (wcs : List Wc) :
    payloadTotal (wc :: wcs) = wc.byteLen + payloadTotal wcs := by
  simp [payloadTotal]

/-- If the first completion reaches the end of what was asked for, nothing is gone, and the
later completions only add to what is kept. -/
theorem exists_delivered_of_le {store : ChunkStore} {sock : Sock} {wc : Wc} {wcs : List Wc}
    (h : Arrived store (wc :: wcs)) (hread : sock.read ≤ sock.len)
    (hends : sock.len ≤ sock.read + wc.byteLen) :
    ∃ store' sock', (wc :: wcs).foldlM handleReceived (store, sock) = some (store', sock') ∧
      Delivered store sock (wc :: wcs) store' sock' := by
  have hpayload := h.payload_length List.mem_cons_self
  obtain ⟨store₁, sock₁, hone, hlen₁, hread₁, hbuf₁, hrx₁, hoffset, hframe⟩ :=
    handleReceived_of_le (h.success wc List.mem_cons_self) (h.clean wc List.mem_cons_self)
      (h.fits wc List.mem_cons_self) hread hends
  obtain ⟨hlater, _⟩ := h.tail hframe
  obtain ⟨sock₂, hrest, hread₂, hbuf₂, hrx₂⟩ :=
    foldlM_handleReceived_of_full store₁ hlater.success (hread₁.trans hlen₁.symm)
  refine ⟨store₁, sock₂, ?_, ?_, ?_, ?_, [], wc :: wcs, rfl, by simp, ?_, ?_, ?_⟩
  · rw [List.foldlM_cons, hone]
    exact hrest
  · rw [hread₂, hread₁, payloadTotal_cons]
    omega
  · rw [hbuf₂, hbuf₁, List.flatMap_cons, List.take_append_of_le_length (by omega), payload,
      List.take_take, min_eq_left (by omega)]
  · intro c hc
    exact hframe c fun heq => hc (heq ▸ List.mem_cons_self)
  · intro x hx
    obtain rfl : wc = x := by simpa using hx
    simp only [payloadTotal, List.map_nil, List.sum_nil, Nat.add_zero]
    exact ⟨hends, hoffset⟩
  · intro x hx
    exact (hlater.clean x hx).2
  · rw [hrx₂, hrx₁, List.append_assoc]
    rfl

/-- If the first completion does not reach the end, it is gone, and what the others leave is
what all of them leave. -/
theorem Delivered.cons {store store₁ store' : ChunkStore} {sock sock₁ sock' : Sock} {wc : Wc}
    {wcs : List Wc} (hlt : sock.read + wc.byteLen < sock.len)
    (hpayload : (payload store wc).length = wc.byteLen) (hlen : sock₁.len = sock.len)
    (hread : sock₁.read = sock.read + wc.byteLen) (hbuf : sock₁.buf = sock.buf ++ payload store wc)
    (hrx : sock₁.rxBuffers = sock.rxBuffers)
    (hframe : ∀ c, c ≠ wc.wrId → store₁.chunk c = store.chunk c)
    (hsame : wcs.flatMap (payload store₁) = wcs.flatMap (payload store))
    (h : Delivered store₁ sock₁ wcs store' sock') :
    Delivered store sock (wc :: wcs) store' sock' := by
  obtain ⟨gone, kept, rfl, hbefore, hfirst, hothers, hrx'⟩ := h.kept
  have hgone : ∀ l, sock₁.read + payloadTotal l = sock.read + payloadTotal (wc :: l) := by
    intro l
    rw [hread, payloadTotal_cons, Nat.add_assoc]
  refine ⟨?_, ?_, ?_, wc :: gone, kept, rfl, ?_, ?_, hothers, ?_⟩
  · rw [h.read_eq, hlen, hgone]
  · have hcut : sock.len - sock.read = (payload store wc).length + (sock₁.len - sock₁.read) := by
      omega
    rw [h.buf_eq, hbuf, hsame, List.flatMap_cons, hcut, List.take_length_add_append,
      List.append_assoc]
  · intro c hc
    rw [List.map_cons, List.mem_cons, not_or] at hc
    rw [h.frame c hc.2, hframe c hc.1]
  · intro i hi
    cases i with
    | zero => simpa [payloadTotal] using hlt
    | succ i =>
      rw [List.take_succ_cons, ← hgone, ← hlen]
      exact hbefore i (by simpa using hi)
  · intro x hx
    rw [← hgone, ← hlen]
    exact hfirst x hx
  · rw [hrx', hrx]

/-- **Delivery.** Processing completions of received messages stores a prefix of their
payloads, as long as asked for, and keeps the chunks from the end of the prefix on. The
induction is on the completions; the first one ends the prefix or lies inside it. -/
theorem foldlM_handleReceived {store : ChunkStore} {sock : Sock} {wcs : List Wc}
    (h : Arrived store wcs) (hread : sock.read ≤ sock.len) :
    ∃ store' sock', wcs.foldlM handleReceived (store, sock) = some (store', sock') ∧
      Delivered store sock wcs store' sock' := by
  induction wcs generalizing store sock with
  | nil =>
    refine ⟨store, sock, rfl, ?_, ?_, fun _ _ => rfl, [], [], rfl, ?_, ?_, ?_, ?_⟩
    · simpa [payloadTotal] using hread
    all_goals simp
  | cons wc wcs ih =>
    by_cases hends : sock.len ≤ sock.read + wc.byteLen
    · exact exists_delivered_of_le h hread hends
    · have hlt := Nat.not_le.mp hends
      obtain ⟨store₁, sock₁, hone, hlen, hread₁, hbuf, hrx, hframe⟩ :=
        handleReceived_of_lt (h.success wc List.mem_cons_self) (h.clean wc List.mem_cons_self)
          (h.fits wc List.mem_cons_self) hlt
      obtain ⟨hlater, hsame⟩ := h.tail hframe
      obtain ⟨store₂, sock₂, hrest, hdelivered⟩ := @ih store₁ sock₁ hlater (by omega)
      refine ⟨store₂, sock₂, ?_, hdelivered.cons hlt (h.payload_length List.mem_cons_self) hlen
        hread₁ hbuf hrx hframe hsame⟩
      rw [List.foldlM_cons, hone]
      exact hrest

/-- The results of the polls of a call that finds the given batches before and after it
rearms the queue. -/
def drainPolls (before after : List (List Wc)) : List (PollResult Wc) :=
  before.map .got ++ (.got [] :: (after.map .got ++ [.got []]))

/-- A call with an empty `rx_buffers` processes the completions one after the other, whatever
their division into batches. -/
theorem socketRead_drainPolls (store : ChunkStore) {sock : Sock} (len : ℕ)
    {before after : List (List Wc)} (hempty : sock.rxBuffers = [])
    (hbatches : ∀ b ∈ before ++ after, b ≠ []) :
    socketRead store sock len (drainPolls before after) =
      match (before.flatten ++ after.flatten).foldlM handleReceived
        (store, { sock with len, read := 0, buf := [] }) with
      | none => .aborted
      | some state => .returned state := by
  have hbefore := fun b hb => hbatches b (List.mem_append_left after hb)
  have hafter := fun b hb => hbatches b (List.mem_append_right before hb)
  have hstart : readBuffers len store sock.rxBuffers 0 [] = (store, 0, []) := by
    rw [hempty, readBuffers]
  rw [socketRead, hstart]
  dsimp only
  generalize (store, { sock with len, read := 0, buf := [] }) = start
  rw [drainPolls, againLoop_batches handleReceived hbefore, List.foldlM_append]
  cases before.flatten.foldlM handleReceived start with
  | none => rfl
  | some state =>
    simp only [againLoop_empty_false, Option.bind_eq_bind, Option.bind_some]
    rw [againLoop_batches handleReceived hafter]
    cases after.flatten.foldlM handleReceived state <;> rfl

/-- **The first read of a connection.** For all completions of received messages, however they
are divided into polls before and after the rearming, `read` with an empty `rx_buffers`
returns the number of bytes asked for or the total payload, whichever is less, and stores
that prefix of the payloads. It keeps, in order, the chunks from the first one on at which
the running total reaches the number asked for: that one is positioned behind what was
delivered of it, the others are at their beginning. The division does not matter. -/
theorem socketRead_first {store : ChunkStore} {sock : Sock} (len : ℕ)
    {before after : List (List Wc)} (hempty : sock.rxBuffers = [])
    (hbatches : ∀ b ∈ before ++ after, b ≠ [] ∧ b.length ≤ maxCompletions)
    (harrived : Arrived store (before.flatten ++ after.flatten)) :
    ∃ store' sock', socketRead store sock len (drainPolls before after) =
        .returned (store', sock') ∧
      sock'.read = min len (payloadTotal (before.flatten ++ after.flatten)) ∧
      sock'.buf = ((before.flatten ++ after.flatten).flatMap (payload store)).take len ∧
      (∃ gone kept, before.flatten ++ after.flatten = gone ++ kept ∧
        (∀ i < gone.length, payloadTotal (gone.take (i + 1)) < len) ∧
        (∀ wc ∈ kept.head?, len ≤ payloadTotal gone + wc.byteLen ∧
          (store'.chunk wc.wrId).offset = len - payloadTotal gone) ∧
        (∀ wc ∈ kept.tail, (store'.chunk wc.wrId).offset = 0) ∧
        sock'.rxBuffers = kept.map Wc.wrId) ∧
      ∀ before' after' : List (List Wc),
        (∀ b ∈ before' ++ after', b ≠ [] ∧ b.length ≤ maxCompletions) →
        before'.flatten ++ after'.flatten = before.flatten ++ after.flatten →
        socketRead store sock len (drainPolls before' after') = .returned (store', sock') := by
  obtain ⟨store', sock', hfold, hdelivered⟩ := @foldlM_handleReceived store
    { sock with len, read := 0, buf := [] } _ harrived (Nat.zero_le len)
  have hcall : ∀ before' after' : List (List Wc),
      (∀ b ∈ before' ++ after', b ≠ [] ∧ b.length ≤ maxCompletions) →
      before'.flatten ++ after'.flatten = before.flatten ++ after.flatten →
      socketRead store sock len (drainPolls before' after') = .returned (store', sock') := by
    intro before' after' hdivided hsame
    rw [socketRead_drainPolls store len hempty fun b hb => (hdivided b hb).1, hsame, hfold]
  obtain ⟨gone, kept, hsplit, hbefore, hfirst, hothers, hrx⟩ := hdelivered.kept
  have hread := hdelivered.read_eq
  have hbuf := hdelivered.buf_eq
  simp only [Nat.zero_add, Nat.sub_zero, List.nil_append, hempty] at hread hbuf hbefore hfirst hrx
  exact ⟨store', sock', hcall before after hbatches rfl, hread, hbuf,
    ⟨gone, kept, hsplit, hbefore, hfirst, hothers, hrx⟩, hcall⟩

/-- Chunks of two bytes that hold their number twice. -/
def sampleStore : ChunkStore :=
  ⟨fun c => ⟨2 * c, [UInt8.ofNat c, UInt8.ofNat c], 2, 0, c⟩, fun _ => 0, fun _ => ∅⟩

/-- Two messages of two bytes, one before and one after the rearming, of which three bytes
are read: the second chunk is kept, positioned at its second byte. -/
theorem socketRead_first_three_bytes :
    ∃ store' sock', socketRead sampleStore Sock.connected 3
        (drainPolls [[⟨1, 2, .success⟩]] [[⟨2, 2, .success⟩]]) = .returned (store', sock') ∧
      sock'.read = 3 ∧ sock'.buf = [1, 1, 2] := by
  have harrived : Arrived sampleStore [⟨1, 2, .success⟩, ⟨2, 2, .success⟩] := by
    refine ⟨by simp, by decide, ?_, ?_⟩
    · intro wc _
      exact ⟨⟨rfl, Nat.zero_le _, by simp [sampleStore]⟩, rfl⟩
    · simp [sampleStore]
  obtain ⟨store', sock', hcall, hread, hbuf, _⟩ :=
    @socketRead_first sampleStore Sock.connected 3 [[⟨1, 2, .success⟩]] [[⟨2, 2, .success⟩]] rfl
      (by decide) harrived
  exact ⟨store', sock', hcall, hread, hbuf⟩

end RdmaTransport
