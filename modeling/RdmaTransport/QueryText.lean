import RdmaTransport.Lib.Format
import RdmaTransport.Lib.Memory
import RdmaTransport.Lib.Runs
import RdmaTransport.SessionQuery

/-!
# The lengths that `query_sr` reports

`query_sr` polls the receive queue and prints the length of every message to the array
`qbuf`, eight bytes apart, for a caller that reads the numbers back. This file proves that
the texts never leave the array nor run into each other, and follows a caller over whole
runs of a session: the lengths it reads are those of the messages behind the ones that
`door` took, in order, each once. They are all there unless a batch had a failed completion
in it, which takes the other messages of the batch with it.
-/

namespace RdmaTransport

open Runs Format Memory

/-- The field `qbuf_size`. -/
def qbufSize : ℕ := 8 * 1024

/-- The loop of `query_sr` over the completions: the array, `cur` and `cnt`. It is defined
as long as no text is stored outside of the array. -/
def srLoop : List CqEntry → (qbuf : List UInt8) → (cur cnt : ℕ) → Option (List UInt8 × ℕ)
  | [], qbuf, _, cnt => some (qbuf, cnt)
  | c :: wc, qbuf, cur, cnt =>
      if c.wrId = 666 then
        (store qbuf cur (printNumber 10 1 c.payload.length ++ [0])).bind fun qbuf =>
          srLoop wc qbuf (cur + 8) (cnt + 1)
      else srLoop wc qbuf cur cnt

/-- The array and the count of `query_sr` for the result of its poll. -/
def querySrText (r : ℤ) (wc : List CqEntry) : Option (List UInt8 × ℕ) :=
  srLoop (wc.take r.toNat) (List.replicate qbufSize 0) 0 0

/-- The number that a caller reads at a place of the array, as `atol` does. -/
def readCell (qbuf : List UInt8) (i : ℕ) : ℕ :=
  (((cString (qbuf.drop (8 * i))).bind (scanNumber 10 64)).map Prod.fst).getD 0

/-- A session with a caller of `query_sr`. -/
structure LengthReader where
  /-- The session. -/
  session : CqState
  /-- The number of completions that `door` took. No operation reads it. -/
  opened : ℕ
  /-- The lengths of the messages, in the order of their completions. No operation reads
  them. -/
  arrived : List ℕ
  /-- The lengths that the caller has read. -/
  reported : List ℕ

/-- The lengths a caller reads from the array. -/
def cellsOf (text : List UInt8 × ℕ) : List ℕ := (List.range text.2).map (readCell text.1)

/-- One action. After every call of `query_sr` the caller reads as many numbers as the call
returned. -/
def LengthReader.step (s : LengthReader) (a : CqAction) : Option LengthReader :=
  match a with
  | .querySr poll =>
      if s.session.phase = .running then
        (s.session.rdmaQueryCq 2 poll).bind fun (t, r, wc) =>
          (querySrText r wc).map fun text =>
            { s with session := t, reported := s.reported ++ cellsOf text }
      else none
  | .arrive success payload =>
      (s.session.step (.arrive success payload)).map fun t =>
        { s with session := t, arrived := s.arrived ++ [payload.length] }
  | .door poll =>
      (s.session.step (.door poll)).map fun t => { s with session := t, opened := poll.taken }
  | a => (s.session.step a).map fun t => { s with session := t }

/-- A session before `init`. -/
def LengthReader.start (rbuf : ℕ → UInt8) : LengthReader := ⟨.constructed rbuf, 0, [], []⟩

/-- The messages that were polled behind the ones that `door` took. -/
def LengthReader.polledLengths (s : LengthReader) : List ℕ :=
  (s.arrived.take s.session.polled).drop s.opened

/-- The text of a length and the zero bytes up to the next place. -/
def cell (n : ℕ) : List UInt8 :=
  printNumber 10 1 n ++ List.replicate (8 - (printNumber 10 1 n).length) 0

/-- A number that is not padded has the width of its digits. -/
theorem printNumber_one (n : ℕ) :
    printNumber 10 1 n = printNumber 10 (Nat.log 10 n + 1) n := by
  rw [printNumber, printNumber, Nat.max_self, Nat.max_eq_right (by omega)]

/-- The text of a length: its digits are no NUL, and it leaves room for one. -/
theorem printNumber_one_spec {n : ℕ} (hn : n < 10 ^ 7) :
    (printNumber 10 1 n).length ≤ 7 ∧ (∀ c ∈ printNumber 10 1 n, c ≠ 0) ∧
      scanNumber 10 64 (printNumber 10 1 n) = some (n, []) := by
  have hself : n < 10 ^ (Nat.log 10 n + 1) := Nat.lt_pow_succ_log_self (by omega) n
  have hlog : Nat.log 10 n < 7 := Nat.log_lt_of_lt_pow' (by omega) hn
  obtain ⟨hlength, hdigits⟩ := @printNumber_digits 10 (Nat.log 10 n + 1) n (by omega) (by omega)
    (by omega) hself
  have hscan := scanNumber_printNumber 10 64 (Nat.log 10 n + 1) [] (by omega) (by omega)
    (by omega) hself (by omega) (by omega) (by simp)
  rw [printNumber_one]
  refine ⟨by omega, ?_, ?_⟩
  · intro c hc
    obtain ⟨d, hd, rfl⟩ := hdigits c hc
    exact (digitChar_plain hd).2.2.2.1
  · rwa [List.append_nil] at hscan

/-- A place has eight bytes. -/
theorem length_cell {n : ℕ} (hn : n < 10 ^ 7) : (cell n).length = 8 := by
  have hlength := (printNumber_one_spec hn).1
  simp only [cell, List.length_append, List.length_replicate]
  omega

/-- Storing the text of a length over zero bytes fills one place. -/
theorem store_cell {front : List UInt8} {m n : ℕ} (hn : n < 10 ^ 7) (hroom : 8 ≤ m) :
    store (front ++ List.replicate m 0) front.length (printNumber 10 1 n ++ [0]) =
      some (front ++ cell n ++ List.replicate (m - 8) 0) := by
  have hlength := (printNumber_one_spec hn).1
  have hpad : [0] ++ List.replicate (m - ((printNumber 10 1 n).length + 1)) (0 : UInt8) =
      List.replicate (8 - (printNumber 10 1 n).length) 0 ++ List.replicate (m - 8) 0 := by
    rw [← List.replicate_one, List.replicate_append_replicate, List.replicate_append_replicate]
    congr 1
    omega
  rw [store, if_pos (by simp; omega), overwrite_append, cell]
  simp only [List.drop_replicate, List.length_append, List.length_singleton, List.append_assoc,
    hpad]

/-- The lengths of the receive completions in a batch. -/
def receiveLengths (wc : List CqEntry) : List ℕ :=
  (wc.filter fun c => c.wrId == 666).map fun c => c.payload.length

/-- The loop fills one place for every receive completion. -/
theorem srLoop_eq {wc : List CqEntry} (hfits : ∀ c ∈ wc, c.payload.length < 10 ^ 7)
    (front : List UInt8) {m cnt : ℕ} (hfront : front.length = 8 * cnt) (hroom : 8 * wc.length ≤ m) :
    srLoop wc (front ++ List.replicate m 0) (8 * cnt) cnt =
      some (front ++ (receiveLengths wc).flatMap cell ++
        List.replicate (m - 8 * (receiveLengths wc).length) 0,
        cnt + (receiveLengths wc).length) := by
  induction wc generalizing front m cnt with
  | nil => simp [srLoop, receiveLengths]
  | cons c wc ih =>
    rw [List.forall_mem_cons] at hfits
    rw [List.length_cons] at hroom
    by_cases hid : c.wrId = 666
    · have hcons : receiveLengths (c :: wc) = c.payload.length :: receiveLengths wc := by
        simp [receiveLengths, hid]
      have hstore : store (front ++ List.replicate m 0) front.length _ = _ :=
        store_cell hfits.1 (by omega)
      have hleft : m - 8 - 8 * (receiveLengths wc).length =
          m - 8 * ((receiveLengths wc).length + 1) := by omega
      have hcount : cnt + 1 + (receiveLengths wc).length =
          cnt + ((receiveLengths wc).length + 1) := by omega
      rw [hfront] at hstore
      rw [srLoop, if_pos hid, hstore, Option.bind_some, show 8 * cnt + 8 = 8 * (cnt + 1) from rfl,
        ih hfits.2 (front ++ cell c.payload.length) (by simp [hfront, length_cell hfits.1]; omega)
          (by omega), hcons]
      simp only [List.flatMap_cons, List.length_cons, List.append_assoc, hleft, hcount]
    · have hcons : receiveLengths (c :: wc) = receiveLengths wc := by
        simp [receiveLengths, hid]
      rw [srLoop, if_neg hid, ih hfits.2 front hfront (by omega), hcons]

/-- A caller reads a length back from its place. -/
theorem readCell_flatMap {lengths : List ℕ} (hfits : ∀ n ∈ lengths, n < 10 ^ 7) (m : ℕ) {i : ℕ}
    (hi : i < lengths.length) :
    readCell (lengths.flatMap cell ++ List.replicate m 0) i = lengths[i] := by
  have hwidth : ∀ n ∈ lengths, (cell n).length = 8 := fun n hn => length_cell (hfits n hn)
  have hn : lengths[i] < 10 ^ 7 := hfits _ (List.getElem_mem hi)
  obtain ⟨hlength, hdigits, hscan⟩ := printNumber_one_spec hn
  have hdrop : (lengths.flatMap cell ++ List.replicate m (0 : UInt8)).drop (8 * i) =
      cell lengths[i] ++ ((lengths.drop (i + 1)).flatMap cell ++ List.replicate m 0) := by
    rw [List.drop_append_of_le_length
        (by rw [length_flatMap_records cell hwidth]; omega),
      drop_flatMap_records cell hwidth, List.drop_eq_getElem_cons hi, List.flatMap_cons,
      List.append_assoc]
  have hpad : 8 - (printNumber 10 1 lengths[i]).length =
      7 - (printNumber 10 1 lengths[i]).length + 1 := by omega
  rw [readCell, hdrop, cell, hpad, List.replicate_succ, List.append_assoc, List.cons_append,
    cString_append hdigits, Option.bind_some, hscan]
  rfl

/-- What `query_sr` leaves for its caller: for a batch of a poll, with messages that fit the
receive buffers, the texts stay in the array and the caller reads the lengths. -/
theorem querySrText_spec {wc : List CqEntry} (hfits : ∀ c ∈ wc, c.payload.length ≤ gap)
    (hlength : wc.length ≤ maxCqe) (r : ℤ) :
    ∃ text, querySrText r wc = some text ∧ cellsOf text = receiveLengths (wc.take r.toNat) := by
  have hsmall : ∀ c ∈ wc.take r.toNat, c.payload.length < 10 ^ 7 := by
    intro c hc
    have := hfits c (List.mem_of_mem_take hc)
    rw [gap] at this
    omega
  have hroom : 8 * (wc.take r.toNat).length ≤ qbufSize := by
    rw [List.length_take, qbufSize]
    rw [maxCqe, recvNums] at hlength
    omega
  have hloop : srLoop (wc.take r.toNat) ([] ++ List.replicate qbufSize 0) (8 * 0) 0 = _ :=
    srLoop_eq hsmall [] rfl hroom
  refine ⟨_, hloop, ?_⟩
  have hnumbers : ∀ n ∈ receiveLengths (wc.take r.toNat), n < 10 ^ 7 := by
    intro n hn
    obtain ⟨c, hc, rfl⟩ := List.mem_map.mp hn
    exact hsmall c (List.mem_filter.mp hc).1
  apply List.ext_getElem
  · simp [cellsOf]
  · intro k hk hk'
    simpa [cellsOf] using readCell_flatMap hnumbers _ hk'

/-- The batch of a poll of the receive queue, and what `rdma_query_cq` returns for it. -/
theorem rdmaQueryCq_batch {s t : CqState} {poll : PollCq} {r : ℤ} {wc : List CqEntry}
    (h : s.rdmaQueryCq 2 poll = some (t, r, wc)) :
    wc = s.recvCq.take poll.taken ∧ wc.length = poll.taken ∧ poll.taken ≤ maxCqe ∧
      wc.take r.toNat = if ∀ c ∈ wc, c.success = true then wc else [] := by
  have hselect : selectCq 2 = some .recv := rfl
  cases poll with
  | error =>
    simp only [CqState.rdmaQueryCq, hselect, Option.some.injEq, Prod.mk.injEq] at h
    obtain ⟨_, _, rfl⟩ := h
    simp [PollCq.taken]
  | got n =>
    simp only [CqState.rdmaQueryCq, hselect, Option.ite_none_right_eq_some, Option.some.injEq,
      Prod.mk.injEq] at h
    obtain ⟨⟨_, hmax, hn⟩, _, rfl, rfl⟩ := h
    refine ⟨rfl, List.length_take_of_le hn, hmax, ?_⟩
    by_cases hall : ∀ c ∈ s.recvCq.take n, c.success = true
    · rw [batchResult, if_pos (by simpa [List.all_eq_true] using hall), if_pos hall,
        Int.toNat_natCast, List.take_length]
    · rw [batchResult, if_neg (by simpa [List.all_eq_true] using hall), if_neg hall]
      simp

namespace LengthReader

variable {s t : LengthReader}

/-- What holds in every state that the session and its caller reach. -/
structure Reached (s : LengthReader) : Prop where
  /-- The receive queue has completions of receive work requests, whose messages fit the
  buffers. -/
  entries : ∀ c ∈ s.session.recvCq, c.wrId = 666 ∧ c.payload.length ≤ gap
  /-- The messages that were not polled are in the queue. -/
  waiting : s.arrived.drop s.session.polled = s.session.recvCq.map fun c => c.payload.length
  /-- Only messages that arrived are polled. -/
  polled_le : s.session.polled ≤ s.arrived.length
  /-- Nothing is polled before `door`. -/
  opening : s.session.phase ≠ .running → s.session.polled = 0 ∧ s.opened = 0 ∧ s.reported = []
  /-- What `door` took has been polled. -/
  opened_le : s.opened ≤ s.session.polled
  /-- What was reported is among what was polled, in its order. -/
  reported : s.reported.Sublist s.polledLengths

/-- The number of messages polled behind `door`. -/
theorem Reached.length_polledLengths (hs : s.Reached) :
    s.polledLengths.length = s.session.polled - s.opened := by
  rw [polledLengths, List.length_drop, List.length_take, Nat.min_eq_left hs.polled_le]

/-- A poll adds the messages of its batch to those polled. -/
theorem Reached.take_add (hs : s.Reached) (n : ℕ) :
    (s.arrived.take (s.session.polled + n)).drop s.opened =
      s.polledLengths ++ (s.session.recvCq.take n).map fun c => c.payload.length := by
  have htake : s.arrived.take (s.session.polled + n) =
      s.arrived.take s.session.polled ++ (s.arrived.drop s.session.polled).take n :=
    List.take_add
  rw [htake, hs.waiting, List.drop_append_of_le_length, List.map_take, polledLengths]
  rw [List.length_take, Nat.min_eq_left hs.polled_le]
  exact hs.opened_le

/-- The state after a poll of the receive queue that reports `more`. -/
theorem Reached.polled (hs : s.Reached) {n : ℕ} (hn : n ≤ s.session.recvCq.length)
    {session : CqState} (hqueue : session.recvCq = s.session.recvCq.drop n)
    (hpolled : session.polled = s.session.polled + n) (hrunning : session.phase = .running)
    {opened : ℕ} {reported : List ℕ} (hopened : opened ≤ s.session.polled + n)
    (hreported : reported.Sublist ((s.arrived.take (s.session.polled + n)).drop opened)) :
    Reached ⟨session, opened, s.arrived, reported⟩ := by
  have hlength := congrArg List.length hs.waiting
  rw [List.length_drop, List.length_map] at hlength
  have hle := hs.polled_le
  refine ⟨?_, ?_, ?_, fun h => absurd hrunning h, ?_, ?_⟩
  · intro c hc
    exact hs.entries c (List.mem_of_mem_drop (hqueue ▸ hc))
  · dsimp only
    rw [hpolled, hqueue, ← List.drop_drop, hs.waiting, List.map_drop]
  · dsimp only
    omega
  · dsimp only
    omega
  · rw [polledLengths]
    dsimp only
    rw [hpolled]
    exact hreported

/-- An action that leaves the receive queue alone. -/
theorem Reached.unpolled (hs : s.Reached) {session : CqState}
    (hqueue : session.recvCq = s.session.recvCq) (hpolled : session.polled = s.session.polled)
    (hphase : session.phase ≠ .running → s.session.phase ≠ .running) :
    Reached { s with session := session } := by
  refine ⟨?_, ?_, ?_, ?_, ?_, ?_⟩
  · exact hqueue ▸ hs.entries
  · dsimp only
    rw [hqueue, hpolled, hs.waiting]
  · exact hpolled ▸ hs.polled_le
  · intro h
    dsimp only
    rw [hpolled]
    exact hs.opening (hphase h)
  · exact hpolled ▸ hs.opened_le
  · rw [polledLengths]
    dsimp only
    rw [hpolled]
    exact hs.reported

/-- What a poll of the receive queue leaves. -/
theorem taken_le {session session' : CqState} {poll : PollCq} {r : ℤ} {wc : List CqEntry}
    (h : session.rdmaQueryCq 2 poll = some (session', r, wc)) :
    poll.taken ≤ session.recvCq.length := by
  obtain ⟨hwc, hlength, _⟩ := rdmaQueryCq_batch h
  rw [hwc, List.length_take] at hlength
  omega

/-- What a call of `query_sr` does: the batch is polled, and reported if all of its
completions are successful. -/
theorem Reached.querySr_cases (hs : s.Reached) {poll : PollCq}
    (h : s.step (.querySr poll) = some t) :
    s.session.phase = .running ∧ poll.taken ≤ s.session.recvCq.length ∧
      t = { s with
        session := { s.session with
          recvCq := s.session.recvCq.drop poll.taken
          polled := s.session.polled + poll.taken }
        reported := s.reported ++
          if ∀ c ∈ s.session.recvCq.take poll.taken, c.success = true then
            (s.session.recvCq.take poll.taken).map fun c => c.payload.length
          else [] } := by
  simp only [step, Option.ite_none_right_eq_some, Option.bind_eq_some_iff,
    Option.map_eq_some_iff] at h
  obtain ⟨hrunning, ⟨session, r, wc⟩, hquery, text, htext, rfl⟩ := h
  obtain ⟨_, rfl⟩ := CqState.rdmaQueryCq_recv hquery
  have hle := taken_le hquery
  obtain ⟨rfl, hlength, hmax, htake⟩ := rdmaQueryCq_batch hquery
  have hentries : ∀ c ∈ s.session.recvCq.take poll.taken, c.wrId = 666 ∧ c.payload.length ≤ gap :=
    fun c hc => hs.entries c (List.mem_of_mem_take hc)
  obtain ⟨text', htext', hcells⟩ := querySrText_spec (fun c hc => (hentries c hc).2)
    (by omega) r
  obtain rfl : text = text' := Option.some.inj (htext.symm.trans htext')
  have hall : receiveLengths (s.session.recvCq.take poll.taken) =
      (s.session.recvCq.take poll.taken).map fun c => c.payload.length := by
    rw [receiveLengths, List.filter_eq_self.mpr fun c hc => by simp [(hentries c hc).1]]
  refine ⟨hrunning, hle, ?_⟩
  rw [hcells, htake]
  split_ifs
  · rw [hall]
  · rfl

/-- What an action other than a call of `query_sr` does to the receive queue: a message joins
it, `door` polls it, or nothing happens to it. -/
theorem step_cases {a : CqAction} (h : s.step a = some t) :
    (∃ poll, a = .querySr poll) ∨
    (∃ success payload session, a = .arrive success payload ∧
      t = { s with session := session, arrived := s.arrived ++ [payload.length] } ∧
      payload.length ≤ gap ∧ session.recvCq = s.session.recvCq ++ [⟨666, success, payload⟩] ∧
      session.polled = s.session.polled ∧ session.phase = s.session.phase) ∨
    (∃ poll session, a = .door poll ∧ t = { s with session := session, opened := poll.taken } ∧
      s.session.phase = .opening ∧ poll.taken ≤ s.session.recvCq.length ∧
      session.recvCq = s.session.recvCq.drop poll.taken ∧
      session.polled = s.session.polled + poll.taken ∧ session.phase = .running) ∨
    ∃ session, (∀ poll, a ≠ .querySr poll) ∧ t = { s with session := session } ∧
      session.recvCq = s.session.recvCq ∧ session.polled = s.session.polled ∧
      (session.phase ≠ .running → s.session.phase ≠ .running) := by
  cases a with
  | querySr poll => exact .inl ⟨poll, rfl⟩
  | arrive success payload =>
    simp only [LengthReader.step, CqState.step, CqState.arrive, Option.map_eq_some_iff,
      Option.ite_none_right_eq_some] at h
    obtain ⟨session, ⟨hfits, buffer, _, rfl⟩, rfl⟩ := h
    exact .inr (.inl ⟨success, payload, _, rfl, rfl, hfits, rfl, rfl, rfl⟩)
  | door poll =>
    simp only [LengthReader.step, CqState.step, CqState.door, Option.map_eq_some_iff,
      Option.ite_none_right_eq_some] at h
    obtain ⟨session, ⟨hphase, ⟨session', r, wc⟩, hquery, rfl⟩, rfl⟩ := h
    obtain ⟨_, rfl⟩ := CqState.rdmaQueryCq_recv hquery
    exact .inr (.inr (.inl ⟨poll, _, rfl, rfl, hphase, taken_le hquery, rfl, rfl, rfl⟩))
  | init accepted =>
    simp only [LengthReader.step, CqState.step, Option.map_eq_some_iff,
      Option.ite_none_right_eq_some, Option.some.injEq] at h
    obtain ⟨session, ⟨hphase, rfl⟩, rfl⟩ := h
    exact .inr (.inr (.inr ⟨_, by simp, rfl, rfl, rfl, by simp [hphase]⟩))
  | postRecv nums accepted =>
    simp only [LengthReader.step, CqState.step, Option.map_eq_some_iff,
      Option.ite_none_right_eq_some, Option.some.injEq] at h
    obtain ⟨session, ⟨_, rfl⟩, rfl⟩ := h
    exact .inr (.inr (.inr ⟨_, by simp, rfl, rfl, rfl, id⟩))
  | query poll =>
    simp only [LengthReader.step, CqState.step, CqState.query_eq, Option.map_eq_some_iff,
      Option.ite_none_right_eq_some, Option.map_some, Option.some.injEq] at h
    obtain ⟨session, ⟨_, rfl⟩, rfl⟩ := h
    exact .inr (.inr (.inr ⟨_, by simp, rfl, rfl, rfl, id⟩))
  | read poll =>
    simp only [LengthReader.step, CqState.step, CqState.read_eq, Option.map_eq_some_iff,
      Option.ite_none_right_eq_some, Option.map_some, Option.some.injEq] at h
    obtain ⟨session, ⟨_, rfl⟩, rfl⟩ := h
    exact .inr (.inr (.inr ⟨_, by simp, rfl, rfl, rfl, id⟩))

/-- A message joins the queue. -/
theorem Reached.arrived (hs : s.Reached) {success : Bool} {payload : List UInt8}
    (hfits : payload.length ≤ gap) {session : CqState}
    (hqueue : session.recvCq = s.session.recvCq ++ [⟨666, success, payload⟩])
    (hpolled : session.polled = s.session.polled) (hphase : session.phase = s.session.phase) :
    Reached { s with session := session, arrived := s.arrived ++ [payload.length] } := by
  have hle := hs.polled_le
  refine ⟨?_, ?_, ?_, ?_, ?_, ?_⟩
  · intro c hc
    dsimp only at hc
    rw [hqueue] at hc
    rcases List.mem_append.mp hc with hold | hnew
    · exact hs.entries c hold
    · rw [List.mem_singleton.mp hnew]
      exact ⟨rfl, hfits⟩
  · dsimp only
    rw [hqueue, hpolled, List.drop_append_of_le_length hle, hs.waiting, List.map_append]
    rfl
  · dsimp only
    rw [hpolled, List.length_append]
    omega
  · dsimp only
    rw [hphase, hpolled]
    exact hs.opening
  · exact hpolled ▸ hs.opened_le
  · rw [polledLengths]
    dsimp only
    rw [hpolled, List.take_append_of_le_length hle]
    exact hs.reported

/-- Every action keeps what holds. -/
theorem Reached.step {a : CqAction} (hs : s.Reached) (h : s.step a = some t) : t.Reached := by
  obtain ⟨poll, rfl⟩ | ⟨success, payload, session, rfl, rfl, hfits, hqueue, hpolled, hphase⟩ |
    ⟨poll, session, rfl, rfl, hphase, hle, hqueue, hpolled, hrunning⟩ |
    ⟨session, _, rfl, hqueue, hpolled, hphase⟩ := step_cases h
  · obtain ⟨hrunning, hle, rfl⟩ := hs.querySr_cases h
    refine hs.polled hle rfl rfl ?_ ?_ ?_
    · exact hrunning
    · exact Nat.le_add_right_of_le hs.opened_le
    · rw [hs.take_add]
      refine hs.reported.append ?_
      split_ifs
      · exact List.Sublist.refl _
      · exact List.nil_sublist _
  · exact hs.arrived hfits hqueue hpolled hphase
  · obtain ⟨_, _, hnone⟩ := hs.opening (by simp [hphase])
    refine hs.polled hle hqueue hpolled hrunning (Nat.le_add_left _ _) ?_
    rw [hnone]
    exact List.nil_sublist _
  · exact hs.unpolled hqueue hpolled hphase

/-- Nothing has arrived at the start. -/
theorem Reached.start (rbuf : ℕ → UInt8) : (start rbuf).Reached := by
  refine ⟨?_, ?_, ?_, ?_, ?_, ?_⟩ <;> simp [LengthReader.start, CqState.constructed, polledLengths]

/-- The condition on a call of `query_sr`: all completions of its batch are successful. -/
def BatchSucceeds (s : LengthReader) : CqAction → Prop
  | .querySr poll => ∀ c ∈ s.session.recvCq.take poll.taken, c.success = true
  | _ => True

/-- Whether a step meets the condition can be evaluated. -/
instance (s : LengthReader) : ∀ a : CqAction, Decidable (s.BatchSucceeds a)
  | .querySr poll =>
      inferInstanceAs (Decidable (∀ c ∈ s.session.recvCq.take poll.taken, c.success = true))
  | .arrive _ _ | .init _ | .door _ | .postRecv _ _ | .query _ | .read _ =>
      inferInstanceAs (Decidable True)

/-- As many lengths were reported as messages were polled behind `door`. -/
def Complete (s : LengthReader) : Prop := s.reported.length + s.opened = s.session.polled

/-- Reports that are complete in number are complete. -/
theorem Reached.complete_iff (hs : s.Reached) : s.Complete ↔ s.reported = s.polledLengths := by
  have hlength := hs.length_polledLengths
  have hopened := hs.opened_le
  constructor
  · intro hcomplete
    rw [Complete] at hcomplete
    exact hs.reported.eq_of_length (by omega)
  · intro hall
    rw [Complete, hall]
    omega

/-- A call whose batch has a failed completion makes the reports incomplete for good. -/
theorem Reached.complete_step_iff {a : CqAction} (hs : s.Reached) (h : s.step a = some t) :
    t.Complete ↔ s.Complete ∧ s.BatchSucceeds a := by
  have hless : s.reported.length + s.opened ≤ s.session.polled := by
    have hsub := hs.reported.length_le
    have hopened := hs.opened_le
    rw [hs.length_polledLengths] at hsub
    omega
  obtain ⟨poll, rfl⟩ | ⟨success, payload, session, rfl, rfl, _, _, hpolled, _⟩ |
    ⟨poll, session, rfl, rfl, hphase, _, _, hpolled, _⟩ | ⟨session, hquiet, rfl, _, hpolled, _⟩ :=
    step_cases h
  · obtain ⟨_, hle, rfl⟩ := hs.querySr_cases h
    have htaken : (s.session.recvCq.take poll.taken).length = poll.taken :=
      List.length_take_of_le hle
    by_cases hall : ∀ c ∈ s.session.recvCq.take poll.taken, c.success = true
    · rw [if_pos hall]
      simp only [Complete, List.length_append, List.length_map, htaken]
      have hbatch : s.BatchSucceeds (.querySr poll) := hall
      rw [and_iff_left hbatch]
      omega
    · have hpos : 0 < poll.taken := by
        by_contra hzero
        obtain hzero : poll.taken = 0 := by omega
        exact hall (by simp [hzero])
      rw [if_neg hall]
      simp only [Complete, BatchSucceeds, hall, List.append_nil, and_false, iff_false]
      omega
  · simp [Complete, BatchSucceeds, hpolled]
  · obtain ⟨hnone, hopened, hreported⟩ := hs.opening (by simp [hphase])
    simp [Complete, BatchSucceeds, hpolled, hnone, hopened, hreported]
  · have hbatch : s.BatchSucceeds a := by
      cases a with
      | querySr poll => exact absurd rfl (hquiet poll)
      | arrive _ _ | init _ | door _ | postRecv _ _ | query _ | read _ => trivial
    rw [and_iff_left hbatch, Complete, Complete, hpolled]

end LengthReader

/-- **Reported lengths.** In every run of a session and a caller that reads the texts of
`query_sr`, the lengths read are among those of the messages that were polled behind the
ones taken by `door`, in their order and each at most once. They are all of them exactly if
no batch of `query_sr` had a failed completion. And no call can store outside of `qbuf`. -/
theorem lengths_reported_iff {rbuf : ℕ → UInt8} {acts : List CqAction} {s : LengthReader}
    (hrun : exec LengthReader.step (.start rbuf) acts = some s) :
    s.reported.Sublist s.polledLengths ∧
    (s.reported = s.polledLengths ↔
      Meets LengthReader.step LengthReader.BatchSucceeds (.start rbuf) acts) ∧
    ∀ poll t r wc, s.session.rdmaQueryCq 2 poll = some (t, r, wc) → (querySrText r wc).isSome := by
  have hstart := LengthReader.Reached.start rbuf
  have hs := invariant_of_exec _ (fun _ _ _ hs h => hs.step h) hstart hrun
  refine ⟨hs.reported, ?_, ?_⟩
  · rw [← hs.complete_iff]
    constructor
    · intro hcomplete
      exact (meets_of_exec LengthReader.Reached LengthReader.Complete
        (fun _ _ _ hs h => hs.step h)
        (fun _ _ _ hs h hgood => (hs.complete_step_iff h).mp hgood) hstart hrun hcomplete).2
    · intro hmeets
      refine (hmeets.invariant (fun s => s.Reached ∧ s.Complete) ?_ ⟨hstart, rfl⟩ hrun).2
      rintro s a t ⟨hs, hcomplete⟩ hgood h
      exact ⟨hs.step h, (hs.complete_step_iff h).mpr ⟨hcomplete, hgood⟩⟩
  · intro poll t r wc hquery
    obtain ⟨rfl, hlength, hmax, _⟩ := rdmaQueryCq_batch hquery
    obtain ⟨text, htext, _⟩ := querySrText_spec
      (fun c hc => (hs.entries c (List.mem_of_mem_take hc)).2) (hlength.trans_le hmax) r
    rw [htext]
    rfl

/-- A table, two messages reported together and one that comes with a failed completion. -/
def sampleReports : List CqAction :=
  [.init 8, .arrive true [1], .door (.got 1), .arrive true [1, 2], .arrive true [],
    .querySr (.got 2), .arrive true [1, 2, 3], .arrive false [], .querySr (.got 2)]

/-- The caller reads 2 and 0, and not 3. -/
theorem lengths_reported_iff_sample :
    ∃ s, exec LengthReader.step (.start fun _ => 0) sampleReports = some s ∧
      s.reported = [2, 0] ∧ s.polledLengths = [2, 0, 3, 0] ∧
      ¬Meets LengthReader.step LengthReader.BatchSucceeds (.start fun _ => 0) sampleReports := by
  have hends : (exec LengthReader.step (.start fun _ => 0) sampleReports).map
      (fun s => (s.reported, s.polledLengths)) = some ([2, 0], [2, 0, 3, 0]) := by
    decide +kernel
  obtain ⟨s, hs, hends⟩ := Option.map_eq_some_iff.mp hends
  obtain ⟨hreported, hpolled⟩ := Prod.mk.inj hends
  refine ⟨s, hs, hreported, hpolled, ?_⟩
  rw [← (lengths_reported_iff hs).2.1, hreported, hpolled]
  decide

end RdmaTransport
