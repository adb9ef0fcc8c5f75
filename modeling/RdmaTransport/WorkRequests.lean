import RdmaTransport.BulkCleanup

/-!
# Work requests and their memory regions

Whatever a session posts names a registered memory region by its local key, and the bytes it
is about should lie inside that region. The receive buffers are posted whole, `bulk` posts
the pieces it has just registered, and `start_rw` sends a table that is shorter than the
send buffer. What is sent from the send buffer has the length the caller asked for: `latency`
compares it with the size of the buffer and returns, `send(buf,size)` compares it, prints a
message and goes on, and `send(size)` does not look at it.

A work request is posted when the adapter takes it.
-/

namespace RdmaTransport

open Runs

/-- The block of memory `start_rw` offers to the peer, `rwbuf_size`. -/
def rwbufSize : ℕ := 1024 * 1024 * 1024

/-- The part of it that is one slot, `slice`. -/
def rwSlice : ℕ := 2 * 1024 * 1024

/-- The first loop of `start_rw` from slot `i` on. A slot that was not registered is read
through a null pointer when the table is written, which is `none`. -/
def SendSide.regSlots (rwbuf : ℕ) (registers : ℕ → Bool) :
    (left i : ℕ) → SendSide → Option SendSide
  | 0, _, s => some s
  | left + 1, i, s =>
      match s.regMem (rwbuf + i * rwSlice) rwSlice (registers i) with
      | (t, some _) => regSlots rwbuf registers left (i + 1) t
      | (_, none) => none

/-- A session with the memory it has registered for sending and for receiving. -/
structure WrSession where
  /-- The send side, which holds all regions. -/
  side : SendSide
  /-- The array `recv_mem`. -/
  recvMem : ℕ → RdmaMem

/-- The session when `init` has called `reg_mem`. All registrations have succeeded: a failed
one leaves a null pointer that `init` reads next. The number of slots is set by `start_rw`
before it is used. -/
def WrSession.start (rbuf sbuf : ℕ) (remoteInfo : ℕ × ℕ) (raddrs rkeys : ℕ → ℕ) : WrSession :=
  let recvMem : ℕ → RdmaMem := fun i => ⟨i, rbuf + gap * i, gap⟩
  let sendMem : RdmaMem := ⟨recvNums, sbuf, gap⟩
  ⟨{ SendSide.fresh sendMem remoteInfo raddrs rkeys (rwbufSize / rwSlice) with
      regions := (List.range recvNums).map recvMem ++ [sendMem] }, recvMem⟩

/-- The operations that post work requests. -/
inductive WrOp
  /-- `send(size)`. -/
  | sendSize (size : ℕ) (ok : Bool)
  /-- `send(buf,size)`. -/
  | sendBuf (size : ℕ) (ok : Bool)
  /-- `latency(size)`. -/
  | latency (size : ℕ) (ok : Bool) (poll : Poll)
  /-- `bulk(ptr,size)`. -/
  | bulk (ptr size : ℕ) (env : BulkEnv)
  /-- `post_recv(nums)`, with `accepted` work requests taken by the adapter. -/
  | postRecv (nums : ℤ) (accepted : ℕ)
  /-- `start_rw()`, with a block of memory at `rwbuf`. -/
  | startRw (rwbuf : ℕ) (registers : ℕ → Bool) (ok : Bool) (poll : Poll)

/-- The number of bytes an operation is asked to send from the send buffer. -/
def WrOp.asked : WrOp → ℕ
  | .sendSize size _ => size
  | .sendBuf size _ => size
  | .latency size _ _ => size
  | .bulk _ _ _ => 0
  | .postRecv _ _ => 0
  | .startRw _ _ _ _ => 0

/-- The bytes a work request is about, and the regions registered when it was posted. -/
structure Posting where
  /-- The regions. -/
  regions : List RdmaMem
  /-- The bytes. -/
  sge : Sge

/-- What a call has done to memory regions. -/
structure Effects where
  /-- The work requests posted. -/
  posted : List Posting
  /-- The numbers of bytes copied to the send buffer. -/
  copies : List ℕ
  /-- Whether the call returned an error. -/
  failed : Bool

/-- The work requests posted between two states of the send side. -/
def postings (regions : List RdmaMem) (s t : SendSide) : List Posting :=
  (t.posted.drop s.posted.length).map fun wr => ⟨regions, wr.sge⟩

/-- One operation, which has returned. `bulk` posts when all its pieces are registered. -/
def WrSession.step (s : WrSession) : WrOp → Option (WrSession × Effects)
  | .sendSize size ok =>
      let (t, sent) := s.side.sendSize size ok
      some ({ s with side := t }, ⟨postings s.side.regions s.side t, [], !sent⟩)
  | .sendBuf size ok =>
      let (t, sent) := s.side.sendBuf size ok
      some ({ s with side := t }, ⟨postings s.side.regions s.side t, [size], !sent⟩)
  | .latency size ok poll =>
      (s.side.latency size ok poll).map fun (t, returned) =>
        ({ s with side := t }, ⟨postings s.side.regions s.side t, [], !returned⟩)
  | .bulk ptr size env =>
      let registered := (SendSide.registerLoop ptr size env.registers size 0 s.side []).1
      (s.side.bulk ptr size env).bind fun out => out.result.map fun r =>
        ({ s with side := out.state },
          ⟨postings registered.regions s.side out.state, [], r != 0⟩)
  | .postRecv nums accepted =>
      let (buffers, final) := postRecvLoop nums postLimit 0 accepted
      some (s, ⟨buffers.map fun i => ⟨s.side.regions, (s.recvMem i).sge⟩, [], final.isNone⟩)
  | .startRw rwbuf registers ok poll =>
      let slices := rwbufSize / rwSlice
      (SendSide.regSlots rwbuf registers slices 0 { s.side with slices := slices }).bind fun t =>
        (t.startRw ok poll).map fun u =>
          ({ s with side := u }, ⟨postings t.regions s.side u, [slices * 25], false⟩)

/-- The state after an operation. -/
def WrSession.next (s : WrSession) (op : WrOp) : Option WrSession := (s.step op).map Prod.fst

/-- The bytes lie inside the region of their local key. -/
def Posting.Inside (p : Posting) : Prop :=
  ∃ mem ∈ p.regions, mem.mr = p.sge.lkey ∧
    Transfer.Inside (p.sge.addr, p.sge.length) (mem.buf, mem.size)

/-- What a call asked to send `asked` bytes may do. -/
structure Effects.Safe (asked : ℕ) (e : Effects) : Prop where
  /-- Work requests stay inside their regions. -/
  inside : ∀ p ∈ e.posted, p.Inside
  /-- Copies stay inside the send buffer. -/
  copies : ∀ n ∈ e.copies, n ≤ gap
  /-- A call that is asked for more than the send buffer posts nothing and returns an error. -/
  refused : gap < asked → e.failed = true ∧ e.posted = []

/-- The operation is safe in the given state. -/
def WrSession.SafeStep (s : WrSession) (op : WrOp) : Prop :=
  ∀ t e, s.step op = some (t, e) → e.Safe op.asked

/-- What the two operations that do not refuse long messages have to be asked for. A long
message of `send(size)` does no harm if the adapter does not take it. -/
def WrOp.WithinGap : WrOp → Prop
  | .sendSize size ok => size ≤ gap ∨ ok = false
  | .sendBuf size _ => size ≤ gap
  | .latency _ _ _ => True
  | .bulk _ _ _ => True
  | .postRecv _ _ => True
  | .startRw _ _ _ _ => True

/-- What holds of the registered memory in every state of every run. -/
structure WrSession.Ready (s : WrSession) : Prop where
  /-- Completions were posted, and the pieces of `bulk` have their size. -/
  sound : s.side.Sound
  /-- Regions registered later get other numbers. -/
  numbered : s.side.Numbered
  /-- The number of slots is that of `start_rw`. -/
  slices : s.side.slices = rwbufSize / rwSlice
  /-- The send buffer is registered. -/
  sendMem : s.side.sendMem ∈ s.side.regions ∧ s.side.sendMem.size = gap
  /-- The receive buffers are registered. -/
  recvMem : ∀ i < recvNums, s.recvMem i ∈ s.side.regions

/-- What an operation leaves of the registered memory. -/
structure SendSide.Keeps (s t : SendSide) : Prop where
  /-- Completions were posted, and the pieces of `bulk` have their size. -/
  sound : t.Sound
  /-- Regions registered later get other numbers. -/
  numbered : t.Numbered
  /-- The number of slots is the same. -/
  slices : t.slices = s.slices
  /-- The send buffer is the same. -/
  sendMem : t.sendMem = s.sendMem
  /-- What was registered is registered. -/
  regions : s.regions ⊆ t.regions

/-- A session whose memory is kept is ready for the next operation. -/
theorem WrSession.Ready.of_keeps {s : WrSession} {t : SendSide} (hs : s.Ready)
    (h : s.side.Keeps t) : WrSession.Ready { s with side := t } where
  sound := h.sound
  numbered := h.numbered
  slices := h.slices.trans hs.slices
  sendMem := by
    rw [h.sendMem]
    exact ⟨h.regions hs.sendMem.1, hs.sendMem.2⟩
  recvMem i hi := h.regions (hs.recvMem i hi)

namespace SendSide

/-- An operation that does nothing. -/
theorem Keeps.refl {s : SendSide} (hs : s.Sound) (hn : s.Numbered) : s.Keeps s :=
  ⟨hs, hn, rfl, rfl, List.Subset.refl _⟩

/-- One operation after another. -/
theorem Keeps.trans {s t u : SendSide} (h : s.Keeps t) (h' : t.Keeps u) : s.Keeps u :=
  ⟨h'.sound, h'.numbered, h'.slices.trans h.slices, h'.sendMem.trans h.sendMem,
    List.Subset.trans h.regions h'.regions⟩

/-- What posting a task adds to the queue. -/
theorem posted_sendTask (s : SendSide) (task : RdmaTask) (ok : Bool) :
    (s.sendTask task ok).1.posted = s.posted ++ if ok then [s.postedWr task] else [] := by
  cases ok <;> simp [sendTask]

/-- Posting a task keeps the registered memory. -/
theorem keeps_sendTask {s : SendSide} (hs : s.Sound) (hn : s.Numbered) (task : RdmaTask)
    (ok : Bool) : s.Keeps (s.sendTask task ok).1 := by
  refine ⟨hs.sendTask task ok, hn.sendTask task ok, ?_, ?_, ?_⟩
  · cases ok <;> rfl
  · cases ok <;> rfl
  · cases ok <;> exact List.Subset.refl _

/-- A query keeps the registered memory. -/
theorem Keeps.queryCq {s t u : SendSide} {poll : Poll} {result : Option ℕ} (h : s.Keeps t)
    (hquery : t.queryCq poll = some (u, result)) : s.Keeps u := by
  have hsound := h.sound.queryCq hquery
  have hnumbered := h.numbered.queryCq hquery
  obtain ⟨polled, rfl⟩ := queryCq_state hquery
  exact ⟨hsound, hnumbered, h.slices, h.sendMem, h.regions⟩

/-- However `bulk` is left, it has deregistered nothing but its own pieces. -/
theorem keeps_bulk {s : SendSide} {ptr size : ℕ} {env : BulkEnv} {out : BulkOutcome}
    (hs : s.Sound) (hn : s.Numbered) (h : s.bulk ptr size env = some out) :
    s.Keeps out.state := by
  have hsound := hs.bulk h
  have hexit := bulk_exit hs hn h
  have hnumbered := hn.exit hexit
  cases hexit <;> exact ⟨hsound, hnumbered, rfl, rfl, List.subset_append_left _ _⟩

/-- Every operation that sends keeps the registered memory. -/
theorem keeps_step {s t : SendSide} {op : SendOp} (hs : s.Sound) (hn : s.Numbered)
    (h : s.step op = some t) : s.Keeps t := by
  refine invariant_step s.Keeps ?_ ?_ ?_ (.refl hs hn) h
  · intro t task ok h
    exact h.trans (keeps_sendTask h.sound h.numbered task ok)
  · intro t u poll result h hquery
    exact h.queryCq hquery
  · intro t ptr size env out h hbulk
    exact h.trans (keeps_bulk h.sound h.numbered hbulk)

/-- The work requests of `bulk` are about pieces that it has registered. -/
theorem bulk_posted {s : SendSide} {ptr size : ℕ} {env : BulkEnv} {out : BulkOutcome}
    (hs : s.Sound) (h : s.bulk ptr size env = some out) :
    ∃ wrs, out.state.posted = s.posted ++ wrs ∧ ∀ wr ∈ wrs,
      ∃ mem ∈ (registerLoop ptr size env.registers size 0 s []).1.regions, wr.sge = mem.sge := by
  obtain ⟨pieces, _, hregions, rfl, _, _, hcases⟩ := bulk_cases hs.rdmaGap_pos h
  rw [hregions]
  rcases hcases with ⟨_, _, rfl⟩ | ⟨_, hrest⟩
  · exact ⟨[], (List.append_nil _).symm, nofun⟩
  -- The loops behind the second one post nothing.
  have hposts : ∃ u ok, postLoop pieces env.posts (bulkNum s.rdmaGap size) 0
      { s with regions := s.regions ++ pieces, nextMr := s.nextMr + pieces.length } =
        some (u, ok) ∧ out.state.posted = u.posted := by
    rcases hrest with ⟨u, hpost, rfl⟩ | ⟨u, acked, hpost, hack, hrest⟩
    · exact ⟨u, false, hpost, rfl⟩
    obtain ⟨polled, hstate⟩ := ackLoop_state hack
    refine ⟨u, true, hpost, ?_⟩
    rcases hrest with ⟨result, rfl, _⟩ | ⟨v, ok, _, hdereg, rfl⟩
    · rw [hstate]
    · rw [(deregLoop_frame hdereg).1, hstate]
  obtain ⟨u, ok, hpost, hposted⟩ := hposts
  obtain ⟨wrs, index, rfl, hsges, _⟩ := postLoop_cases hpost
  refine ⟨wrs, hposted, ?_⟩
  intro wr hwr
  have hsge : wr.sge ∈ wrs.map PostedWr.sge := List.mem_map_of_mem hwr
  rw [hsges] at hsge
  obtain ⟨mem, hmem, hsame⟩ := List.mem_map.mp hsge
  exact ⟨mem, List.mem_append_right _ (List.mem_of_mem_take hmem), hsame.symm⟩

/-- The slots get numbers of their own. -/
theorem regSlots_spec {rwbuf : ℕ} {registers : ℕ → Bool} {left i : ℕ} {s t : SendSide}
    (h : regSlots rwbuf registers left i s = some t) :
    ∃ slots, t = { s with regions := s.regions ++ slots, nextMr := s.nextMr + left } ∧
      ∀ m ∈ slots, m.mr < s.nextMr + left := by
  induction left generalizing i s with
  | zero =>
    obtain rfl := Option.some.inj h
    exact ⟨[], by simp, nofun⟩
  | succ left ih =>
    cases hok : registers i with
    | false => simp [regSlots, regMem, hok] at h
    | true =>
      simp only [regSlots, regMem, hok, if_true] at h
      obtain ⟨slots, rfl, hless⟩ := ih h
      refine ⟨⟨s.nextMr, rwbuf + i * rwSlice, rwSlice⟩ :: slots, ?_, ?_⟩
      · simp [Nat.add_assoc, Nat.add_comm 1]
      · rw [List.forall_mem_cons]
        exact ⟨by simp, fun m hm => (hless m hm).trans_le (by simp only; omega)⟩

/-- Registering the slots keeps the registered memory. -/
theorem keeps_regSlots {rwbuf : ℕ} {registers : ℕ → Bool} {left i : ℕ} {s t : SendSide}
    (hs : s.Sound) (hn : s.Numbered) (h : regSlots rwbuf registers left i s = some t) :
    s.Keeps t := by
  obtain ⟨slots, rfl, hless⟩ := regSlots_spec h
  refine ⟨hs, ⟨fun m hm => ?_, hn.2⟩, rfl, rfl, List.subset_append_left _ _⟩
  rcases List.mem_append.mp hm with hold | hnew
  · exact Nat.lt_add_right _ (hn.1 m hold)
  · exact hless m hnew

end SendSide

/-- What was posted since a state is what was appended to its queue. -/
theorem postings_of_append {regions : List RdmaMem} {s t : SendSide} {wrs : List PostedWr}
    (h : t.posted = s.posted ++ wrs) :
    postings regions s t = wrs.map fun wr => ⟨regions, wr.sge⟩ := by
  rw [postings, h, List.drop_left]

/-- What posting a task adds. -/
theorem postings_sendTask (regions : List RdmaMem) (s : SendSide) (task : RdmaTask) (ok : Bool) :
    postings regions s (s.sendTask task ok).1 =
      if ok then [⟨regions, ⟨task.mem.buf, task.size % 2 ^ 32, task.mem.mr⟩⟩] else [] := by
  rw [postings_of_append (s.posted_sendTask task ok)]
  cases ok <;> rfl

/-- The first bytes of a registered memory lie inside its region. -/
theorem inside_of_le {regions : List RdmaMem} {mem : RdmaMem} {size : ℕ} (hmem : mem ∈ regions)
    (hsize : size ≤ mem.size) : Posting.Inside ⟨regions, ⟨mem.buf, size % 2 ^ 32, mem.mr⟩⟩ := by
  refine ⟨mem, hmem, rfl, Nat.le_refl _, ?_⟩
  exact Nat.add_le_add_left ((Nat.mod_le _ _).trans hsize) _

/-- Posting no more than a registered memory holds stays inside it. -/
theorem inside_sendTask {regions : List RdmaMem} {s : SendSide} {task : RdmaTask} {ok : Bool}
    (hmem : task.mem ∈ regions) (hsize : task.size ≤ task.mem.size) :
    ∀ p ∈ postings regions s (s.sendTask task ok).1, p.Inside := by
  rw [postings_sendTask]
  cases ok with
  | false => exact nofun
  | true =>
    intro p hp
    rw [if_pos rfl, List.mem_singleton] at hp
    rw [hp]
    exact inside_of_le hmem hsize

namespace WrSession

variable {s t : WrSession} {e : Effects}

/-- A short message is sent from inside the send buffer. -/
theorem Ready.inside_sendSize (hs : s.Ready) {size : ℕ} (hsize : size ≤ gap) (ok : Bool) :
    ∀ p ∈ postings s.side.regions s.side (s.side.sendSize size ok).1, p.Inside := by
  rw [SendSide.sendSize]
  split
  · simp [postings]
  · exact inside_sendTask hs.sendMem.1 (hsize.trans hs.sendMem.2.ge)

/-- `send(size)` is safe exactly when its message fits or is not taken. -/
theorem Ready.safe_sendSize_iff (hs : s.Ready) (size : ℕ) (ok : Bool) :
    Effects.Safe size ⟨postings s.side.regions s.side (s.side.sendSize size ok).1, [],
      !(s.side.sendSize size ok).2⟩ ↔ size ≤ gap ∨ ok = false := by
  rcases Nat.lt_or_ge gap size with hlong | hshort
  · have hsome : size ≠ 0 := by omega
    rw [SendSide.sendSize, if_neg hsome]
    constructor
    · intro h
      have hnone := (h.refused hlong).2
      rw [postings_sendTask] at hnone
      cases ok with
      | false => exact .inr rfl
      | true => simp at hnone
    · rintro (hshort | rfl)
      · omega
      · exact ⟨by simp [postings_sendTask], by simp, fun _ => ⟨rfl, by simp [postings_sendTask]⟩⟩
  · refine iff_of_true ⟨hs.inside_sendSize hshort ok, by simp, fun hlong => ?_⟩ (.inl hshort)
    omega

/-- `send(buf,size)` is safe exactly when its message fits. -/
theorem Ready.safe_sendBuf_iff (hs : s.Ready) (size : ℕ) (ok failed : Bool) :
    Effects.Safe size ⟨postings s.side.regions s.side (s.side.sendBuf size ok).1, [size], failed⟩ ↔
      size ≤ gap := by
  constructor
  · intro h
    exact h.copies size (List.mem_singleton_self size)
  · intro hshort
    refine ⟨inside_sendTask hs.sendMem.1 (hshort.trans hs.sendMem.2.ge), ?_, fun hlong => ?_⟩
    · rintro n hn
      rwa [List.mem_singleton.mp hn]
    · omega

/-- `latency` is safe. -/
theorem Ready.safe_latency (hs : s.Ready) {size : ℕ} {ok returned : Bool} {poll : Poll}
    {u : SendSide} (h : s.side.latency size ok poll = some (u, returned)) :
    Effects.Safe size ⟨postings s.side.regions s.side u, [], !returned⟩ := by
  rcases SendSide.latency_cases h with ⟨_, rfl, rfl⟩ | ⟨hshort, _, rfl, _⟩ |
    ⟨hshort, _, result, hquery, _⟩
  · exact ⟨by simp [postings], nofun, fun _ => ⟨rfl, by simp [postings]⟩⟩
  · exact ⟨hs.inside_sendSize hshort ok, nofun, fun hlong => absurd hlong (by omega)⟩
  · have hinside := hs.inside_sendSize hshort ok
    rw [postings, ← (SendSide.queryCq_spec hquery).1] at hinside
    exact ⟨hinside, nofun, fun hlong => absurd hlong (by omega)⟩

/-- `bulk` is safe. -/
theorem Ready.safe_bulk (hs : s.Ready) {ptr size : ℕ} {env : BulkEnv} {out : BulkOutcome}
    (h : s.side.bulk ptr size env = some out) (failed : Bool) :
    Effects.Safe 0 ⟨postings
      (SendSide.registerLoop ptr size env.registers size 0 s.side []).1.regions s.side out.state,
      [], failed⟩ := by
  obtain ⟨wrs, hposted, hsges⟩ := SendSide.bulk_posted hs.sound h
  refine ⟨?_, nofun, nofun⟩
  rw [postings_of_append hposted]
  intro p hp
  obtain ⟨wr, hwr, rfl⟩ := List.mem_map.mp hp
  obtain ⟨mem, hmem, hsge⟩ := hsges wr hwr
  rw [hsge]
  exact inside_of_le hmem (Nat.le_refl _)

/-- `post_recv` posts receive buffers, and they are whole regions. -/
theorem Ready.safe_postRecv (hs : s.Ready) (nums : ℤ) (accepted : ℕ) (failed : Bool) :
    Effects.Safe 0 ⟨(postRecvLoop nums postLimit 0 accepted).1.map fun i =>
      ⟨s.side.regions, (s.recvMem i).sge⟩, [], failed⟩ := by
  refine ⟨?_, nofun, nofun⟩
  intro p hp
  rw [postRecvLoop_fst] at hp
  obtain ⟨i, hi, rfl⟩ := List.mem_map.mp hp
  obtain ⟨k, _, rfl⟩ := List.mem_map.mp hi
  exact inside_of_le (hs.recvMem _ (Nat.mod_lt _ (by decide))) (Nat.le_refl _)

/-- `start_rw` keeps the registered memory, and is safe: the table of slots is shorter than
the send buffer. -/
theorem Ready.startRw (hs : s.Ready) {rwbuf : ℕ} {registers : ℕ → Bool} {ok : Bool} {poll : Poll}
    {u v : SendSide}
    (hslots : SendSide.regSlots rwbuf registers (rwbufSize / rwSlice) 0
      { s.side with slices := rwbufSize / rwSlice } = some u)
    (h : u.startRw ok poll = some v) :
    s.side.Keeps v ∧
      Effects.Safe 0 ⟨postings u.regions s.side v, [rwbufSize / rwSlice * 25], false⟩ := by
  rw [← hs.slices] at hslots
  have hkeeps := SendSide.keeps_regSlots hs.sound hs.numbered hslots
  obtain ⟨slots, hu, _⟩ := SendSide.regSlots_spec hslots
  have hposted : s.side.posted = u.posted := by rw [hu]
  have htable : u.slices * 25 ≤ u.sendMem.size := by
    rw [hkeeps.slices, hs.slices, hkeeps.sendMem, hs.sendMem.2]
    decide
  obtain ⟨⟨w, result⟩, hquery, rfl⟩ := Option.map_eq_some_iff.mp h
  have hsent := SendSide.keeps_sendTask hkeeps.sound hkeeps.numbered
    ⟨u.sendMem, .send, u.slices * 25, 0, 0, 65⟩ ok
  refine ⟨hkeeps.trans (hsent.queryCq hquery), ?_, ?_, nofun⟩
  · have hmem : u.sendMem ∈ u.regions := by
      rw [hkeeps.sendMem]
      exact hkeeps.regions hs.sendMem.1
    rw [postings, hposted, (SendSide.queryCq_spec hquery).1]
    exact inside_sendTask hmem htable
  · intro n hn
    rw [List.mem_singleton.mp hn]
    decide

/-- Every operation leaves the session ready for the next one. It is safe, and the two that do
not refuse long messages are so only if they are not asked for any. -/
theorem Ready.step (hs : s.Ready) {op : WrOp} (h : s.step op = some (t, e)) :
    t.Ready ∧ (e.Safe op.asked ↔ op.WithinGap) := by
  cases op with
  | sendSize size ok =>
    obtain ⟨rfl, rfl⟩ := Prod.mk.inj (Option.some.inj h)
    have hkeeps := SendSide.keeps_step hs.sound hs.numbered
      (show s.side.step (.sendSize size ok) = some _ from rfl)
    exact ⟨hs.of_keeps hkeeps, hs.safe_sendSize_iff size ok⟩
  | sendBuf size ok =>
    obtain ⟨rfl, rfl⟩ := Prod.mk.inj (Option.some.inj h)
    have hkeeps := SendSide.keeps_step hs.sound hs.numbered
      (show s.side.step (.sendBuf size ok) = some _ from rfl)
    exact ⟨hs.of_keeps hkeeps, hs.safe_sendBuf_iff size ok _⟩
  | latency size ok poll =>
    obtain ⟨⟨u, returned⟩, hlatency, h⟩ := Option.map_eq_some_iff.mp h
    obtain ⟨rfl, rfl⟩ := Prod.mk.inj h
    have hkeeps := SendSide.keeps_step hs.sound hs.numbered
      (show s.side.step (.latency size ok poll) = some u by rw [SendSide.step, hlatency]; rfl)
    exact ⟨hs.of_keeps hkeeps, iff_of_true (hs.safe_latency hlatency) trivial⟩
  | bulk ptr size env =>
    obtain ⟨out, hbulk, h⟩ := Option.bind_eq_some_iff.mp h
    obtain ⟨r, _, h⟩ := Option.map_eq_some_iff.mp h
    obtain ⟨rfl, rfl⟩ := Prod.mk.inj h
    have hkeeps := SendSide.keeps_bulk hs.sound hs.numbered hbulk
    exact ⟨hs.of_keeps hkeeps, iff_of_true (hs.safe_bulk hbulk _) trivial⟩
  | postRecv nums accepted =>
    obtain ⟨rfl, rfl⟩ := Prod.mk.inj (Option.some.inj h)
    exact ⟨hs, iff_of_true (hs.safe_postRecv nums accepted _) trivial⟩
  | startRw rwbuf registers ok poll =>
    obtain ⟨u, hslots, h⟩ := Option.bind_eq_some_iff.mp h
    obtain ⟨v, hstart, h⟩ := Option.map_eq_some_iff.mp h
    obtain ⟨rfl, rfl⟩ := Prod.mk.inj h
    obtain ⟨hkeeps, hsafe⟩ := hs.startRw hslots hstart
    exact ⟨hs.of_keeps hkeeps, iff_of_true hsafe trivial⟩

/-- `reg_mem` makes the session ready. -/
theorem ready_start (rbuf sbuf : ℕ) (remoteInfo : ℕ × ℕ) (raddrs rkeys : ℕ → ℕ) :
    (start rbuf sbuf remoteInfo raddrs rkeys).Ready where
  sound := ⟨Nat.le_refl 0, rfl⟩
  numbered := by
    refine ⟨fun m hm => ?_, Nat.zero_mod _⟩
    rcases List.mem_append.mp hm with hrecv | hsend
    · obtain ⟨i, hi, rfl⟩ := List.mem_map.mp hrecv
      exact (List.mem_range.mp hi).trans (Nat.lt_succ_self _)
    · rw [List.mem_singleton.mp hsend]
      exact Nat.lt_succ_self _
  slices := rfl
  sendMem := ⟨List.mem_append_right _ (List.mem_singleton_self _), rfl⟩
  recvMem i hi := List.mem_append_left _ (List.mem_map_of_mem (List.mem_range.mpr hi))

/-- One step of a run is one operation. -/
theorem next_eq_some {op : WrOp} : s.next op = some t ↔ ∃ e, s.step op = some (t, e) := by
  simp [next]

end WrSession

/-- **Work requests stay inside their regions.** In every run of a session all operations are
safe exactly when `send(buf,size)` is never asked for more than the send buffer holds, and
`send(size)` only when the adapter does not take its message. -/
theorem workRequests_safe_iff {rbuf sbuf : ℕ} {remoteInfo : ℕ × ℕ} {raddrs rkeys : ℕ → ℕ}
    {ops : List WrOp} {s : WrSession}
    (hrun : exec WrSession.next (WrSession.start rbuf sbuf remoteInfo raddrs rkeys) ops = some s) :
    Meets WrSession.next WrSession.SafeStep (WrSession.start rbuf sbuf remoteInfo raddrs rkeys)
      ops ↔ ∀ op ∈ ops, op.WithinGap := by
  have hready : ∀ (s : WrSession) (op : WrOp) (t : WrSession), s.Ready → s.next op = some t →
      t.Ready := by
    intro s op t hs h
    obtain ⟨e, hstep⟩ := WrSession.next_eq_some.mp h
    exact (hs.step hstep).1
  have hsafe : ∀ (s : WrSession) (op : WrOp) (t : WrSession), s.Ready → s.next op = some t →
      (s.SafeStep op ↔ op.WithinGap) := by
    intro s op t hs h
    obtain ⟨e, hstep⟩ := WrSession.next_eq_some.mp h
    refine ⟨fun hall => (hs.step hstep).2.mp (hall t e hstep), ?_⟩
    intro hwithin t' e' hstep'
    exact (hs.step hstep').2.mpr hwithin
  rw [meets_congr WrSession.Ready hready hsafe (WrSession.ready_start _ _ _ _ _) hrun]
  exact meets_iff_forall hrun

/-- A session that posts two receive buffers, sends a short message, refuses a long one and
transfers one byte. -/
theorem workRequests_safe_iff_refused :
    ∃ s, exec WrSession.next (WrSession.start 0 0 (0, 0) (fun _ => 1) (fun _ => 1))
        [.postRecv 2 2, .sendBuf 5 true, .latency (gap + 1) true (.got 1),
          .bulk 0 1 ⟨fun _ => true, fun _ => true, [.got 1], fun _ => true⟩] = some s ∧
      Meets WrSession.next WrSession.SafeStep
        (WrSession.start 0 0 (0, 0) (fun _ => 1) (fun _ => 1))
        [.postRecv 2 2, .sendBuf 5 true, .latency (gap + 1) true (.got 1),
          .bulk 0 1 ⟨fun _ => true, fun _ => true, [.got 1], fun _ => true⟩] := by
  refine ⟨_, rfl, (workRequests_safe_iff rfl).mpr ?_⟩
  simp only [List.forall_mem_cons, List.not_mem_nil, false_implies, implies_true, and_true]
  exact ⟨trivial, by simp only [WrOp.WithinGap]; decide, trivial, trivial⟩

/-- `send(buf,size)` with one byte more than the send buffer holds prints a message, copies
the bytes beyond the buffer and posts them. -/
theorem sendBuf_leaves_region :
    ∃ s, exec WrSession.next (WrSession.start 0 0 (0, 0) (fun _ => 1) (fun _ => 1))
        [.sendBuf (gap + 1) true] = some s ∧
      ¬Meets WrSession.next WrSession.SafeStep
        (WrSession.start 0 0 (0, 0) (fun _ => 1) (fun _ => 1)) [.sendBuf (gap + 1) true] := by
  refine ⟨_, rfl, ?_⟩
  intro h
  have hsafe := h.1 _ _ rfl
  exact absurd (hsafe.copies (gap + 1) (List.mem_singleton_self _)) (by decide)

end RdmaTransport
