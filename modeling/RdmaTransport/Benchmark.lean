import RdmaTransport.Lib.Transfer
import RdmaTransport.SendBuffer
import RdmaTransport.SessionGather

/-!
# The benchmark client

The client of the benchmark fills a block with letters and sends it piece by piece through
the registered send buffer. Before it stores the next piece it waits for one completion.
This file follows the client together with the adapter: a piece is never stored over one
that the adapter may still read, so the bytes on the wire are the beginning of the block in
every run. The client does not look at the result of a later posting, and it does not wait
for the last piece.
-/

namespace RdmaTransport

open Runs Transfer

/-- `++ch; if(ch == 'Z'+1) ch = 'A'`. -/
def nextLetter (ch : UInt8) : UInt8 := if ch + 1 = 91 then 65 else ch + 1

/-- The loop of the client that fills the block, four bytes in every round. A round that
starts inside the block may end behind it. -/
def fillLoop (bytes : ℕ) : (fuel index : ℕ) → UInt8 → (ℕ → UInt8) → ℕ → UInt8
  | 0, _, _, ts => ts
  | fuel + 1, index, ch, ts =>
      if index < bytes then
        fillLoop bytes fuel (index + 4) (nextLetter ch)
          fun a => if index ≤ a ∧ a < index + 4 then ch else ts a
      else ts

/-- The block of the client, at address 0 of the memory `ts`, when it has been filled. -/
def fillBlock (bytes : ℕ) (ts : ℕ → UInt8) : ℕ → UInt8 := fillLoop bytes bytes 0 65 ts

/-- The loop of the server that compares the block with the letters. -/
def checkLoop (bytes : ℕ) (s : ℕ → UInt8) : (fuel cur : ℕ) → UInt8 → Bool
  | 0, _, _ => true
  | fuel + 1, cur, ch =>
      if cur < bytes then
        if s cur = ch ∧ s cur = s (cur + 1) ∧ s cur = s (cur + 2) ∧ s cur = s (cur + 3) then
          checkLoop bytes s fuel (cur + 4) (nextLetter ch)
        else false
      else true

/-- Whether the server finds nothing wrong with a block. -/
def checkBlock (bytes : ℕ) (s : ℕ → UInt8) : Bool := checkLoop bytes s bytes 0 65

/-- `size_t bytes = size*iter`: the product is one of integers of type `int`. -/
def blockBytes (size iter : ℕ) : ℕ := (int32 (size * iter) % 2 ^ 64).toNat

/-- Where the client is. -/
inductive BenchPoint
  /-- It stores a piece and posts it. -/
  | send
  /-- It waits for a completion. -/
  | query
  /-- It has returned 1. -/
  | failed
  /-- It is behind the loop. -/
  | finished
  deriving DecidableEq

/-- The client with its session. -/
structure BenchClient where
  /-- The send buffer, the queue pair and what the adapter has read. -/
  buffer : SharedBuffer
  /-- The variable `cur`. -/
  cur : ℕ
  /-- Where the client is. -/
  point : BenchPoint

/-- What can happen. -/
inductive BenchAction
  /-- The `memcpy` of the client stores a byte. -/
  | copy (k : ℕ)
  /-- The client posts the piece, which the adapter takes or refuses. -/
  | post (ok : Bool)
  /-- `rdma_query_cq` for one completion returns 1 or -1. -/
  | query (ok : Bool)
  /-- The adapter reads a byte for a work request. -/
  | fetch (w k : ℕ)
  /-- The oldest work request completes. -/
  | complete
  deriving DecidableEq

/-- The client begins to store the piece at `cur`. -/
def BenchClient.storing (size : ℕ) (ts : ℕ → UInt8) (s : BenchClient) : BenchClient :=
  { s with
    buffer := { s.buffer with call := some ⟨readAt ts s.cur size, fun _ => false⟩ }
    point := .send }

/-- The session when the piece has been posted with the task of the client, whose field
`id` is 0. -/
def SharedBuffer.postTask (s : SharedBuffer) (data : List UInt8) (ok : Bool) : SharedBuffer :=
  { s with
    side := (s.side.sendTask ⟨s.side.sendMem, .send, data.length, 0, 0, 0⟩ ok).1
    call := none
    passed := if ok then s.passed ++ [data] else s.passed }

/-- One action. The result of a posting counts for the first piece only. -/
def BenchClient.step (size iter : ℕ) (ts : ℕ → UInt8) (s : BenchClient) :
    BenchAction → Option BenchClient
  | .copy k =>
      if s.point = .send then (s.buffer.step (.copy k)).map fun b => { s with buffer := b }
      else none
  | .post ok =>
      if s.point = .send then
        s.buffer.call.bind fun c =>
          if ∀ k < c.data.length, c.copied k = true then
            some
              { buffer := s.buffer.postTask c.data ok
                cur := s.cur + size
                point :=
                  if s.cur = 0 ∧ ok = false then .failed
                  else if s.cur + size < blockBytes size iter then .query else .finished }
          else none
      else none
  | .query ok =>
      if s.point = .query then
        if ok then
          if s.buffer.side.polled < s.buffer.completed then
            some (BenchClient.storing size ts
              { s with
                buffer.side.polled := s.buffer.side.polled + 1 })
          else none
        else some { s with point := .failed }
      else none
  | .fetch w k => (s.buffer.step (.fetch w k)).map fun b => { s with buffer := b }
  | .complete => (s.buffer.step .complete).map fun b => { s with buffer := b }

/-- The client when it begins with its first piece. The completions that came before have
been polled by the constructor of the session. -/
def BenchClient.start (b : SharedBuffer) (size : ℕ) (ts : ℕ → UInt8) : BenchClient :=
  BenchClient.storing size ts ⟨{ b with side.polled := b.completed }, 0, .send⟩

/-- The letter of the group of four bytes with the given number. -/
def letter (i : ℕ) : UInt8 := UInt8.ofNat (65 + i % 26)

/-- The letters follow each other as the loops count them. -/
theorem nextLetter_letter (i : ℕ) : nextLetter (letter i) = letter (i + 1) := by
  have h : ∀ k < 26, nextLetter (UInt8.ofNat (65 + k)) = UInt8.ofNat (65 + (k + 1) % 26) := by
    decide
  rw [letter, letter, h (i % 26) (Nat.mod_lt _ (by omega)), Nat.mod_add_mod]

/-- What the fill loop stores from one of its rounds on: the letter of every group that
starts inside the block. -/
theorem fillLoop_apply {bytes fuel i : ℕ} (hfuel : bytes ≤ 4 * (i + fuel)) (ts : ℕ → UInt8)
    (a : ℕ) :
    fillLoop bytes fuel (4 * i) (letter i) ts a =
      if i ≤ a / 4 ∧ 4 * (a / 4) < bytes then letter (a / 4) else ts a := by
  induction fuel generalizing i ts with
  | zero =>
    rw [fillLoop, if_neg (by omega)]
  | succ fuel ih =>
    rw [fillLoop]
    by_cases hin : 4 * i < bytes
    · rw [if_pos hin, nextLetter_letter, show 4 * i + 4 = 4 * (i + 1) from by omega,
        ih (by omega)]
      by_cases hhere : a / 4 = i
      · subst hhere
        rw [if_neg (by omega), if_pos (by omega), if_pos ⟨Nat.le_refl _, hin⟩]
      · rw [if_neg (show ¬(4 * i ≤ a ∧ a < 4 * (i + 1)) from by omega)]
        by_cases hlater : i + 1 ≤ a / 4 ∧ 4 * (a / 4) < bytes
        · rw [if_pos hlater, if_pos (by omega)]
        · rw [if_neg hlater, if_neg (by omega)]
    · rw [if_neg hin, if_neg (by omega)]

/-- The filled block. -/
theorem fillBlock_apply (bytes : ℕ) (ts : ℕ → UInt8) (a : ℕ) :
    fillBlock bytes ts a = if 4 * (a / 4) < bytes then letter (a / 4) else ts a := by
  have h : fillLoop bytes bytes (4 * 0) (letter 0) ts a = _ := fillLoop_apply (by omega) ts a
  simpa [fillBlock, letter] using h

/-- What the check loop asks for from one of its rounds on. -/
theorem checkLoop_iff {bytes fuel i : ℕ} (hfuel : bytes ≤ 4 * (i + fuel)) (s : ℕ → UInt8) :
    checkLoop bytes s fuel (4 * i) (letter i) = true ↔
      ∀ a, i ≤ a / 4 → 4 * (a / 4) < bytes → s a = letter (a / 4) := by
  induction fuel generalizing i with
  | zero =>
    refine ⟨fun _ a hle hlt => ?_, fun _ => rfl⟩
    omega
  | succ fuel ih =>
    rw [checkLoop]
    by_cases hin : 4 * i < bytes
    · rw [if_pos hin, nextLetter_letter, show 4 * i + 4 = 4 * (i + 1) from by omega]
      -- The four bytes of this round.
      have hround : (s (4 * i) = letter i ∧ s (4 * i) = s (4 * i + 1) ∧
          s (4 * i) = s (4 * i + 2) ∧ s (4 * i) = s (4 * i + 3)) ↔
          ∀ a, a / 4 = i → s a = letter (a / 4) := by
        constructor
        · rintro ⟨h0, h1, h2, h3⟩ a rfl
          have hplace : a = 4 * (a / 4) ∨ a = 4 * (a / 4) + 1 ∨ a = 4 * (a / 4) + 2 ∨
              a = 4 * (a / 4) + 3 := by omega
          rcases hplace with h | h | h | h
          · rw [← h0, ← h]
          · rw [← h0, h1, ← h]
          · rw [← h0, h2, ← h]
          · rw [← h0, h3, ← h]
        · intro h
          have hbyte : ∀ k < 4, s (4 * i + k) = letter i := by
            intro k hk
            have hgroup : (4 * i + k) / 4 = i := by omega
            rw [h _ hgroup, hgroup]
          have h0 : s (4 * i) = letter i := hbyte 0 (by omega)
          rw [h0, hbyte 1 (by omega), hbyte 2 (by omega), hbyte 3 (by omega)]
          exact ⟨rfl, rfl, rfl, rfl⟩
      split_ifs with hsame
      · rw [ih (by omega)]
        constructor
        · intro h a hle hlt
          rcases Nat.eq_or_lt_of_le hle with heq | hgt
          · exact hround.mp hsame a heq.symm
          · exact h a hgt hlt
        · intro h a hle hlt
          exact h a (by omega) hlt
      · constructor
        · intro h
          cases h
        · intro h
          refine absurd (hround.mpr fun a ha => ?_) hsame
          exact h a (by omega) (by omega)
    · rw [if_neg hin]
      refine ⟨fun _ a hle hlt => ?_, fun _ => rfl⟩
      omega

/-- The server accepts exactly the blocks that the client makes. -/
theorem checkBlock_iff (bytes : ℕ) (s ts : ℕ → UInt8) :
    checkBlock bytes s = true ↔ ∀ a, 4 * (a / 4) < bytes → s a = fillBlock bytes ts a := by
  have h : checkLoop bytes s bytes (4 * 0) (letter 0) = true ↔ _ := checkLoop_iff (by omega) s
  rw [checkBlock, show checkLoop bytes s bytes 0 65 = checkLoop bytes s bytes (4 * 0) (letter 0)
    from rfl, h]
  constructor
  · intro hletters a hlt
    rw [hletters a (by omega) hlt, fillBlock_apply, if_pos hlt]
  · intro hfilled a _ hlt
    rw [hfilled a hlt, fillBlock_apply, if_pos hlt]

/-- The product is the number of bytes if it fits the type. -/
theorem blockBytes_eq {size iter : ℕ} (h : size * iter < 2 ^ 31) :
    blockBytes size iter = size * iter := by
  have hint : int32 ((size : ℤ) * (iter : ℤ)) = ((size * iter : ℕ) : ℤ) :=
    int32_eq (by push_cast; rfl) h
  rw [blockBytes, hint]
  omega

namespace SharedBuffer

variable {s : SharedBuffer}

/-- What a work request is posted for does not depend on its identifier. -/
theorem Intact.withPosted (hs : s.Intact) {posted : List PostedWr}
    (h : posted.map (fun wr => (wr.addr, wr.length)) =
      s.side.posted.map fun wr => (wr.addr, wr.length)) :
    { s with side.posted := posted }.Intact := by
  refine ⟨?_, ?_, hs.holds, hs.copied, hs.agrees, hs.fits, hs.fetched_eq, hs.transmitted_eq,
    hs.completed_le⟩
  · have hlength := congrArg List.length h
    rw [List.length_map, List.length_map] at hlength
    exact hlength.trans hs.posted_length
  · intro w wr m hwr hm
    have hplace := congrArg (fun l => l[w]?) h
    simp only [List.getElem?_map] at hplace
    rw [show posted[w]? = some wr from hwr, Option.map_some] at hplace
    obtain ⟨wr', hwr', hsame⟩ := Option.map_eq_some_iff.mp hplace.symm
    obtain ⟨haddr, hlength⟩ := Prod.mk.inj hsame
    obtain ⟨haddr', hlength'⟩ := hs.posted_eq w wr' m hwr' hm
    exact ⟨haddr.symm.trans haddr', hlength.symm.trans hlength'⟩

/-- Posting the task of the client makes the piece an outstanding message. -/
theorem Intact.postTask (hs : s.Intact) {c : SendCall} (hc : s.call = some c)
    (hall : ∀ k < c.data.length, c.copied k = true) (ok : Bool) :
    (s.postTask c.data ok).Intact := by
  have hpost : s.step (.post ok) = some
      { s with
        side := (s.side.sendBuf c.data.length ok).1
        call := none
        passed := if ok then s.passed ++ [c.data] else s.passed } := by
    rw [SharedBuffer.step, hc, Option.bind_some, if_pos hall]
  have hintact := hs.post hpost
  cases ok with
  | false => exact hintact
  | true =>
    have hsame : (s.postTask c.data true).side.posted.map (fun wr => (wr.addr, wr.length)) =
        (s.side.sendBuf c.data.length true).1.posted.map fun wr => (wr.addr, wr.length) := by
      simp [SharedBuffer.postTask, SendSide.sendBuf, SendSide.sendTask, SendSide.postedWr]
    exact hintact.withPosted hsame

end SharedBuffer

/-- The first pieces of a block. -/
def pieces (size : ℕ) (ts : ℕ → UInt8) (j : ℕ) : List (List UInt8) :=
  (List.range j).map fun i => readAt ts (size * i) size

/-- The pieces are the block, cut. -/
theorem flatten_pieces (size : ℕ) (ts : ℕ → UInt8) (j : ℕ) :
    (pieces size ts j).flatten = readAt ts 0 (size * j) := by
  induction j with
  | zero => simp [pieces, readAt]
  | succ j ih =>
    rw [pieces, List.range_succ, List.map_append, List.flatten_append, ← pieces, ih,
      Nat.mul_succ, readAt_add, Nat.zero_add]
    simp

/-- What holds where the client is, when the adapter has taken `j` pieces. -/
def BenchClient.At (size iter : ℕ) (ts : ℕ → UInt8) (before j : ℕ) (s : BenchClient) : Prop :=
  match s.point with
  | .send =>
      s.cur = size * j ∧ j < iter ∧ s.buffer.completed = before + j ∧
        s.buffer.side.polled = before + j ∧ ∃ c ∈ s.buffer.call, c.data = readAt ts s.cur size
  | .query =>
      ∃ m, s.cur = size * m ∧ 0 < m ∧ m < iter ∧ j ≤ m ∧
        s.buffer.side.polled + 1 = before + m ∧ s.buffer.call = none
  | .failed => s.buffer.call = none
  | .finished =>
      iter ≤ j + 1 ∧ s.buffer.side.polled + 1 = before + iter ∧ s.buffer.call = none

/-- What holds in every state that the client reaches, when the messages `sent` had been
sent before. -/
structure BenchClient.Reached (size iter : ℕ) (ts : ℕ → UInt8) (sent : List (List UInt8))
    (s : BenchClient) : Prop where
  /-- What is fetched is what was passed. -/
  intact : s.buffer.Intact
  /-- The pieces are passed in order, and none beyond the point where the client is. -/
  passed : ∃ j ≤ iter, s.buffer.passed = sent ++ pieces size ts j ∧ s.At size iter ts sent.length j
  /-- Only completions that came are counted. -/
  polled_le : s.buffer.side.polled ≤ s.buffer.completed
  /-- The earlier messages have completed. -/
  sent_le : sent.length ≤ s.buffer.side.polled

/-- One more piece. -/
theorem pieces_succ (size : ℕ) (ts : ℕ → UInt8) (j : ℕ) :
    pieces size ts (j + 1) = pieces size ts j ++ [readAt ts (size * j) size] := by
  rw [pieces, pieces, List.range_succ, List.map_append]
  rfl

/-- The number of pieces. -/
@[simp] theorem length_pieces (size : ℕ) (ts : ℕ → UInt8) (j : ℕ) :
    (pieces size ts j).length = j := by
  simp [pieces]

section Steps

variable {size iter : ℕ} {ts : ℕ → UInt8} {sent : List (List UInt8)} {s t : BenchClient}

/-- The client begins with a piece when nothing is outstanding. -/
theorem SharedBuffer.Intact.storing {b : SharedBuffer} (hb : b.Intact) (hcall : b.call = none)
    (hdone : b.completed = b.passed.length) {data : List UInt8} (hpos : 0 < data.length)
    (hfits : data.length ≤ gap) :
    { b with call := some ⟨data, fun _ => false⟩ }.Intact := by
  have hturn : b.CallsInTurn (.call data) := by simp [SharedBuffer.CallsInTurn, hdone]
  have hstep : b.step (.call data) = some { b with call := some ⟨data, fun _ => false⟩ } := by
    rw [SharedBuffer.step, if_pos ⟨by simp [hcall], hpos, hfits⟩]
  exact hb.call hturn hstep

/-- How many completions were polled does not matter for the bytes. -/
theorem SharedBuffer.Intact.withPolled {b : SharedBuffer} (hb : b.Intact) (n : ℕ) :
    { b with side.polled := n }.Intact :=
  ⟨hb.posted_length, hb.posted_eq, hb.holds, hb.copied, hb.agrees, hb.fits, hb.fetched_eq,
    hb.transmitted_eq, hb.completed_le⟩

/-- A byte of a piece is stored. -/
theorem BenchClient.Reached.copy {k : ℕ} (hs : s.Reached size iter ts sent)
    (h : s.step size iter ts (.copy k) = some t) : t.Reached size iter ts sent := by
  simp only [BenchClient.step, Option.ite_none_right_eq_some, Option.map_eq_some_iff] at h
  obtain ⟨hpoint, b, hb, rfl⟩ := h
  have hintact := hs.intact.copy hb
  simp only [SharedBuffer.step, Option.bind_eq_some_iff, Option.map_eq_some_iff] at hb
  obtain ⟨c, hc, byte, _, rfl⟩ := hb
  obtain ⟨j, hj, hpassed, hat⟩ := hs.passed
  refine ⟨hintact, ⟨j, hj, hpassed, ?_⟩, hs.polled_le, hs.sent_le⟩
  simp only [BenchClient.At, hpoint] at hat ⊢
  obtain ⟨hcur, hlt, hcompleted, hpolled, c', hc', hdata⟩ := hat
  obtain rfl : c = c' := Option.some.inj (hc.symm.trans hc')
  exact ⟨hcur, hlt, hcompleted, hpolled, _, rfl, hdata⟩

/-- The adapter reads a byte. -/
theorem BenchClient.Reached.fetch {w k : ℕ} (hs : s.Reached size iter ts sent)
    (h : s.step size iter ts (.fetch w k) = some t) : t.Reached size iter ts sent := by
  simp only [BenchClient.step, Option.map_eq_some_iff] at h
  obtain ⟨b, hb, rfl⟩ := h
  have hintact := hs.intact.fetch hb
  simp only [SharedBuffer.step, Option.bind_eq_some_iff, Option.ite_none_right_eq_some,
    Option.some.injEq] at hb
  obtain ⟨wr, _, _, rfl⟩ := hb
  exact ⟨hintact, hs.passed, hs.polled_le, hs.sent_le⟩

/-- A work request completes. There is none to complete while a piece is being stored. -/
theorem BenchClient.Reached.complete (hs : s.Reached size iter ts sent)
    (h : s.step size iter ts .complete = some t) : t.Reached size iter ts sent := by
  simp only [BenchClient.step, Option.map_eq_some_iff] at h
  obtain ⟨b, hb, rfl⟩ := h
  have hintact := hs.intact.complete hb
  simp only [SharedBuffer.step, Option.bind_eq_some_iff, Option.ite_none_right_eq_some,
    Option.some.injEq] at hb
  obtain ⟨wr, hwr, _, rfl⟩ := hb
  obtain ⟨j, hj, hpassed, hat⟩ := hs.passed
  have hopen : s.buffer.completed < sent.length + j := by
    have hlt := (List.getElem?_eq_some_iff.mp hwr).1
    rwa [hs.intact.posted_length, hpassed, List.length_append, length_pieces] at hlt
  refine ⟨hintact, ⟨j, hj, hpassed, ?_⟩, Nat.le_succ_of_le hs.polled_le, hs.sent_le⟩
  cases hpoint : s.point with
  | send =>
    simp only [BenchClient.At, hpoint] at hat
    omega
  | query | failed | finished => simpa only [BenchClient.At, hpoint] using hat

/-- A piece is posted, or refused by the adapter. -/
theorem BenchClient.Reached.post {ok : Bool} (hsize : 0 < size) (hbytes : size * iter < 2 ^ 31)
    (hs : s.Reached size iter ts sent) (h : s.step size iter ts (.post ok) = some t) :
    t.Reached size iter ts sent := by
  simp only [BenchClient.step, Option.ite_none_right_eq_some, Option.bind_eq_some_iff,
    Option.some.injEq] at h
  obtain ⟨hpoint, c, hc, hall, rfl⟩ := h
  obtain ⟨j, hj, hpassed, hat⟩ := hs.passed
  simp only [BenchClient.At, hpoint] at hat
  obtain ⟨hcur, hlt, hcompleted, hpolled, c', hc', hdata⟩ := hat
  obtain rfl : c = c' := Option.some.inj (hc.symm.trans hc')
  have hnext : s.cur + size = size * (j + 1) := by rw [hcur, Nat.mul_succ]
  have hless : s.cur + size < blockBytes size iter ↔ j + 1 < iter := by
    rw [blockBytes_eq hbytes, hnext, Nat.mul_lt_mul_left hsize]
  have hpolled' : (s.buffer.postTask c.data ok).side.polled = s.buffer.side.polled := by
    cases ok <;> rfl
  refine ⟨hs.intact.postTask hc hall ok, ?_, ?_, ?_⟩
  · -- The piece is the next one of those passed if the adapter takes it.
    refine ⟨if ok then j + 1 else j, by split <;> omega, ?_, ?_⟩
    · cases ok with
      | false => exact hpassed
      | true =>
        simp [SharedBuffer.postTask, hpassed, pieces_succ, hdata, hcur]
    · simp only [BenchClient.At, hless, hpolled', hpolled]
      by_cases hfailed : s.cur = 0 ∧ ok = false
      · simp only [hfailed, and_self, if_true]
        rfl
      · rw [if_neg hfailed]
        by_cases hmore : j + 1 < iter
        · rw [if_pos hmore]
          refine ⟨j + 1, hnext, Nat.succ_pos j, hmore, by split <;> omega, rfl, rfl⟩
        · rw [if_neg hmore]
          refine ⟨by split <;> omega, by omega, rfl⟩
  · exact hpolled'.symm ▸ hs.polled_le
  · exact hpolled'.symm ▸ hs.sent_le

/-- A completion has come, so the piece before has been transmitted, or the poll fails. -/
theorem BenchClient.Reached.query {ok : Bool} (hsize : 0 < size) (hfits : size ≤ gap)
    (hs : s.Reached size iter ts sent) (h : s.step size iter ts (.query ok) = some t) :
    t.Reached size iter ts sent := by
  obtain ⟨j, hj, hpassed, hat⟩ := hs.passed
  cases ok with
  | false =>
    simp only [BenchClient.step, Option.ite_none_right_eq_some, Bool.false_eq_true, if_false,
      Option.some.injEq] at h
    obtain ⟨hpoint, rfl⟩ := h
    simp only [BenchClient.At, hpoint] at hat
    obtain ⟨_, _, _, _, _, _, hcall⟩ := hat
    exact ⟨hs.intact, ⟨j, hj, hpassed, hcall⟩, hs.polled_le, hs.sent_le⟩
  | true =>
    simp only [BenchClient.step, Option.ite_none_right_eq_some, if_true, Option.some.injEq] at h
    obtain ⟨hpoint, hcame, rfl⟩ := h
    simp only [BenchClient.At, hpoint] at hat
    obtain ⟨m, hcur, _, hm, hjm, hpolled, hcall⟩ := hat
    have hlength : s.buffer.passed.length = sent.length + j := by
      rw [hpassed, List.length_append, length_pieces]
    have hle := hs.intact.completed_le
    -- The adapter has taken the last piece, since it has completed it.
    obtain rfl : j = m := by omega
    have hdone : s.buffer.completed = s.buffer.passed.length := by omega
    have hintact := hs.intact.withPolled (s.buffer.side.polled + 1)
    have hread : (readAt ts s.cur size).length = size := by simp [readAt]
    have hpos : 0 < (readAt ts s.cur size).length := by omega
    have hroom : (readAt ts s.cur size).length ≤ gap := by omega
    exact ⟨hintact.storing hcall hdone hpos hroom, ⟨j, hj, hpassed, hcur, hm,
      hdone.trans hlength, hpolled, _, rfl, rfl⟩, hcame, Nat.le_succ_of_le hs.sent_le⟩

/-- Every action keeps what holds. -/
theorem BenchClient.Reached.step {a : BenchAction} (hsize : 0 < size) (hfits : size ≤ gap)
    (hbytes : size * iter < 2 ^ 31) (hs : s.Reached size iter ts sent)
    (h : s.step size iter ts a = some t) : t.Reached size iter ts sent := by
  cases a with
  | copy k => exact hs.copy h
  | post ok => exact hs.post hsize hbytes h
  | query ok => exact hs.query hsize hfits h
  | fetch w k => exact hs.fetch h
  | complete => exact hs.complete h

/-- The client starts on a session whose messages have all completed. -/
theorem BenchClient.Reached.start {b : SharedBuffer} (hsize : 0 < size) (hfits : size ≤ gap)
    (hiter : 0 < iter) (hb : b.Intact) (hcall : b.call = none)
    (hdone : b.completed = b.passed.length) :
    (BenchClient.start b size ts).Reached size iter ts b.passed := by
  have hread : (readAt ts 0 size).length = size := by simp [readAt]
  have hpos : 0 < (readAt ts 0 size).length := by omega
  have hroom : (readAt ts 0 size).length ≤ gap := by omega
  refine ⟨(hb.withPolled b.completed).storing hcall hdone hpos hroom, ⟨0, Nat.zero_le _, ?_, ?_⟩,
    Nat.le_refl _, hdone.ge⟩
  · simp [BenchClient.start, BenchClient.storing, pieces]
  · exact ⟨rfl, hiter, hdone, hdone, _, rfl, rfl⟩

/-- The messages transmitted are the earlier ones and the first pieces, all but one of them
when the client is behind its loop. -/
theorem BenchClient.Reached.transmitted (hs : s.Reached size iter ts sent) :
    ∃ n ≤ iter, s.buffer.transmitted = sent ++ pieces size ts n ∧
      (s.point = .finished → iter ≤ n + 1) := by
  obtain ⟨j, hj, hpassed, hat⟩ := hs.passed
  have hpolled := hs.polled_le
  have hsent := hs.sent_le
  have hle : s.buffer.completed ≤ sent.length + j := by
    have := hs.intact.completed_le
    rwa [hpassed, List.length_append, length_pieces] at this
  refine ⟨s.buffer.completed - sent.length, by omega, ?_, ?_⟩
  · rw [hs.intact.transmitted_eq, hpassed, List.take_append,
      List.take_of_length_le (by omega), pieces, ← List.map_take, List.take_range,
      Nat.min_eq_left (by omega), pieces]
  · intro hpoint
    simp only [BenchClient.At, hpoint] at hat
    omega

end Steps

/-- A byte of a range that was read. -/
theorem getElem?_readAt {mem : ℕ → UInt8} {start len k : ℕ} (hk : k < len) :
    (readAt mem start len)[k]? = some (mem (start + k)) := by
  simp [readAt, hk]

/-- A server that holds the whole block finds it right exactly if the bytes behind it that
belong to its last group have the letter of the group. -/
theorem checkBlock_of_readAt {bytes : ℕ} {mem ts : ℕ → UInt8}
    (h : readAt mem 0 bytes = readAt (fillBlock bytes ts) 0 bytes) :
    checkBlock bytes mem = true ↔
      ∀ a, bytes ≤ a → 4 * (a / 4) < bytes → mem a = letter (a / 4) := by
  rw [checkBlock_iff bytes mem ts]
  constructor
  · intro hfilled a _ hlt
    rw [hfilled a hlt, fillBlock_apply, if_pos hlt]
  · intro hbehind a hlt
    rcases Nat.lt_or_ge a bytes with hin | hout
    · have hbyte := congrArg (fun l => l[a]?) h
      simpa only [getElem?_readAt hin, Nat.zero_add, Option.some.injEq] using hbyte
    · rw [hbehind a hout hlt, fillBlock_apply, if_pos hlt]

/-- **The stream of the benchmark client.** The client runs on a session whose messages have
completed, for at least one piece. A piece has a byte and fits the send buffer, and the length
of the block is an `int`. The stored bytes, the fetched bytes and the completions come in any
order, and the adapter may refuse postings. What is transmitted is the earlier messages and
then the first pieces of the block, in order. When the client is behind its loop, at most the
last piece is missing. If none is, a server that holds the pieces accepts the block exactly if
the bytes behind the block that fill its last group have the letter of the group. -/
theorem benchmark_streams {sendMem : RdmaMem} {remoteInfo : ℕ × ℕ} {raddrs rkeys : ℕ → ℕ}
    {slices : ℕ} {memory ts : ℕ → UInt8} {setup : List BufferAction} {b : SharedBuffer}
    {size iter : ℕ} {acts : List BenchAction} {s : BenchClient}
    (hsetup : exec SharedBuffer.step (.start sendMem remoteInfo raddrs rkeys slices memory) setup =
      some b)
    (hturn : Meets SharedBuffer.step SharedBuffer.CallsInTurn
      (.start sendMem remoteInfo raddrs rkeys slices memory) setup)
    (hcall : b.call = none) (hdone : b.completed = b.passed.length) (hsize : 0 < size)
    (hfits : size ≤ gap) (hiter : 0 < iter) (hbytes : size * iter < 2 ^ 31)
    (hrun : exec (BenchClient.step size iter (fillBlock (blockBytes size iter) ts))
      (BenchClient.start b size (fillBlock (blockBytes size iter) ts)) acts = some s) :
    ∃ n ≤ iter,
      s.buffer.transmitted = b.passed ++ pieces size (fillBlock (blockBytes size iter) ts) n ∧
      (s.point = .finished → iter ≤ n + 1) ∧
      (n = iter → ∀ mem,
        readAt mem 0 (size * iter) = (s.buffer.transmitted.drop b.passed.length).flatten →
        (checkBlock (blockBytes size iter) mem = true ↔
          ∀ a, size * iter ≤ a → 4 * (a / 4) < size * iter → mem a = letter (a / 4))) := by
  have hb := hturn.invariant SharedBuffer.Intact (fun _ _ _ hs hin hstep => hs.step hin hstep)
    (SharedBuffer.intact_start sendMem remoteInfo raddrs rkeys slices memory) hsetup
  have hs := invariant_of_exec _ (fun _ _ _ hs hstep => hs.step hsize hfits hbytes hstep)
    (BenchClient.Reached.start hsize hfits hiter hb hcall hdone) hrun
  obtain ⟨n, hn, htransmitted, hfinished⟩ := hs.transmitted
  refine ⟨n, hn, htransmitted, hfinished, ?_⟩
  rintro rfl mem hmem
  rw [htransmitted, List.drop_left, flatten_pieces, blockBytes_eq hbytes] at hmem
  rw [blockBytes_eq hbytes]
  exact checkBlock_of_readAt hmem

/-- The session of the sample when one message has been sent. -/
def sampleSetup : List BufferAction := [.call [7], .copy 0, .post true, .fetch 0 0, .complete]

/-- Two pieces of three bytes each. -/
def samplePieces : List BenchAction :=
  [.copy 0, .copy 2, .copy 1, .post true, .fetch 1 0, .fetch 1 2, .fetch 1 1, .complete,
    .query true, .copy 0, .copy 1, .copy 2, .post true]

/-- The client of the sample is behind its loop and has transmitted at least one piece. -/
theorem benchmark_streams_two_pieces :
    ∃ b s, exec SharedBuffer.step sampleBuffer sampleSetup = some b ∧
      exec (BenchClient.step 3 2 (fillBlock (blockBytes 3 2) fun _ => 0))
        (BenchClient.start b 3 (fillBlock (blockBytes 3 2) fun _ => 0)) samplePieces = some s ∧
      ∃ n, 1 ≤ n ∧ s.buffer.transmitted =
        b.passed ++ pieces 3 (fillBlock (blockBytes 3 2) fun _ => 0) n := by
  obtain ⟨b, hb⟩ : ∃ b, exec SharedBuffer.step sampleBuffer sampleSetup = some b :=
    Option.isSome_iff_exists.mp (by decide +kernel)
  have hidle : (exec SharedBuffer.step sampleBuffer sampleSetup).map
      (fun b => (b.call.isNone, b.completed, b.passed.length)) = some (true, 1, 1) := by
    decide +kernel
  have hclient : ((exec SharedBuffer.step sampleBuffer sampleSetup).bind fun b =>
      exec (BenchClient.step 3 2 (fillBlock (blockBytes 3 2) fun _ => 0))
        (BenchClient.start b 3 (fillBlock (blockBytes 3 2) fun _ => 0)) samplePieces).map
      (fun s => s.point) = some .finished := by
    decide +kernel
  rw [hb, Option.bind_some, Option.map_eq_some_iff] at hclient
  obtain ⟨s, hs, hpoint⟩ := hclient
  rw [hb] at hidle
  simp only [Option.map_some, Option.some.injEq, Prod.mk.injEq, Option.isNone_iff_eq_none] at hidle
  obtain ⟨hcall, hcompleted, hpassed⟩ := hidle
  obtain ⟨n, _, htransmitted, hfinished, _⟩ := benchmark_streams hb (by decide +kernel) hcall
    (hcompleted.trans hpassed.symm) (by decide) (by decide) (by decide) (by decide) hs
  exact ⟨b, s, hb, hs, n, Nat.le_of_succ_le_succ (hfinished hpoint), htransmitted⟩

end RdmaTransport
