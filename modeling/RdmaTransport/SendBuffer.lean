import RdmaTransport.SessionSend
import Mathlib.Logic.Function.Basic

/-!
# The shared send buffer

`send(buf,size)` copies the message into the one registered send buffer and posts a work
request for it. The adapter reads the buffer at any time between the posting and the
completion of the work request, and nothing makes the next call wait for that. This file
follows the bytes: the `memcpy` of a call stores them one at a time, and the adapter
fetches them one at a time, in any order. A message arrives as given if every call finds
the buffer free of messages that differ from its own.
-/

namespace RdmaTransport

/-- A call of `send(buf,size)` that has not posted yet. -/
structure SendCall where
  /-- The bytes passed by the caller. -/
  data : List UInt8
  /-- The bytes that `memcpy` has stored. -/
  copied : ℕ → Bool

/-- The send side of a session with its memory, and what the adapter has read. -/
structure SharedBuffer where
  /-- The queue pair and the registered buffer. -/
  side : SendSide
  /-- The memory of the host. -/
  memory : ℕ → UInt8
  /-- The call in progress. -/
  call : Option SendCall
  /-- The messages passed to the calls whose work requests the adapter has taken. -/
  passed : List (List UInt8)
  /-- The number of completed work requests. -/
  completed : ℕ
  /-- What the adapter has fetched for a work request: the byte at a position. -/
  fetched : ℕ → ℕ → Option UInt8
  /-- The messages transmitted, in order. -/
  transmitted : List (List UInt8)

/-- What can happen to the buffer. -/
inductive BufferAction
  /-- `send(buf,size)` is called. -/
  | call (data : List UInt8)
  /-- Its `memcpy` stores a byte. -/
  | copy (k : ℕ)
  /-- It posts the work request, which the adapter takes or refuses, and returns. -/
  | post (ok : Bool)
  /-- The adapter reads a byte for a work request. It may do so more than once. -/
  | fetch (w k : ℕ)
  /-- The oldest work request completes: the bytes fetched have been transmitted. -/
  | complete
  deriving DecidableEq

/-- One action. -/
def SharedBuffer.step (s : SharedBuffer) : BufferAction → Option SharedBuffer
  | .call data =>
      if s.call.isNone ∧ 0 < data.length ∧ data.length ≤ gap then
        some { s with call := some ⟨data, fun _ => false⟩ }
      else none
  | .copy k =>
      s.call.bind fun c => c.data[k]?.map fun b =>
        { s with
          memory := Function.update s.memory (s.side.sendMem.buf + k) b
          call := some ⟨c.data, Function.update c.copied k true⟩ }
  | .post ok =>
      s.call.bind fun c =>
        if ∀ k < c.data.length, c.copied k = true then
          some
            { s with
              side := (s.side.sendBuf c.data.length ok).1
              call := none
              passed := if ok then s.passed ++ [c.data] else s.passed }
        else none
  | .fetch w k =>
      s.side.posted[w]?.bind fun wr =>
        if s.completed ≤ w ∧ k < wr.length then
          some
            { s with
              fetched := Function.update s.fetched w
                (Function.update (s.fetched w) k (some (s.memory (wr.addr + k)))) }
        else none
  | .complete =>
      s.side.posted[s.completed]?.bind fun wr =>
        if ∀ k < wr.length, (s.fetched s.completed k).isSome then
          some
            { s with
              completed := s.completed + 1
              transmitted := s.transmitted ++
                [(List.range wr.length).map fun k => (s.fetched s.completed k).getD 0] }
        else none

/-- A session that has not sent anything. -/
def SharedBuffer.start (sendMem : RdmaMem) (remoteInfo : ℕ × ℕ) (raddrs rkeys : ℕ → ℕ)
    (slices : ℕ) (memory : ℕ → UInt8) : SharedBuffer :=
  ⟨.fresh sendMem remoteInfo raddrs rkeys slices, memory, none, [], 0, fun _ _ => none, []⟩

/-- The messages transmitted are those passed, in order. -/
def SharedBuffer.ArrivesAsGiven (s : SharedBuffer) : Prop :=
  s.transmitted = s.passed.take s.transmitted.length

/-- Two messages do not differ where both have a byte: one is the beginning of the
other. -/
def Agree (l m : List UInt8) : Prop := l <+: m ∨ m <+: l

/-- Whether two messages agree can be evaluated. -/
instance Agree.decidable (l m : List UInt8) : Decidable (Agree l m) :=
  inferInstanceAs (Decidable (l <+: m ∨ m <+: l))

/-- The condition on a call: it agrees with every message that was posted and has not
completed. It is met in particular when none is outstanding. -/
def SharedBuffer.CallsInTurn (s : SharedBuffer) : BufferAction → Prop
  | .call data => ∀ m ∈ s.passed.drop s.completed, Agree data m
  | _ => True

/-- Whether a step meets the condition can be evaluated. -/
instance SharedBuffer.CallsInTurn.decidable (s : SharedBuffer) :
    ∀ a : BufferAction, Decidable (s.CallsInTurn a)
  | .call data => inferInstanceAs (Decidable (∀ m ∈ s.passed.drop s.completed, Agree data m))
  | .copy _ => inferInstanceAs (Decidable True)
  | .post _ => inferInstanceAs (Decidable True)
  | .fetch _ _ => inferInstanceAs (Decidable True)
  | .complete => inferInstanceAs (Decidable True)

/-- Messages that agree have the same bytes. -/
theorem Agree.eq_of_getElem? {l m : List UInt8} (h : Agree l m) {k : ℕ} {a b : UInt8}
    (hl : l[k]? = some a) (hm : m[k]? = some b) : a = b := by
  rcases h with ⟨rest, rfl⟩ | ⟨rest, rfl⟩
  · rw [List.getElem?_append_left (List.getElem?_eq_some_iff.mp hl).1, hl] at hm
    exact Option.some.inj hm
  · rw [List.getElem?_append_left (List.getElem?_eq_some_iff.mp hm).1, hm] at hl
    exact (Option.some.inj hl).symm

/-- What the calls in turn keep: the buffer holds every outstanding message, as far as
that message reaches, and what was fetched is what was passed. -/
structure SharedBuffer.Intact (s : SharedBuffer) : Prop where
  /-- A work request for every message. -/
  posted_length : s.side.posted.length = s.passed.length
  /-- The work request refers to as many bytes of the send buffer as the message has. -/
  posted_eq : ∀ (w : ℕ) (wr : PostedWr) (m : List UInt8), s.side.posted[w]? = some wr →
    s.passed[w]? = some m →
    wr.addr = s.side.sendMem.buf ∧ wr.length = m.length
  /-- The buffer holds the bytes of the outstanding messages. -/
  holds : ∀ (w : ℕ) (m : List UInt8) (k : ℕ) (b : UInt8), s.completed ≤ w →
    s.passed[w]? = some m → m[k]? = some b →
    s.memory (s.side.sendMem.buf + k) = b
  /-- It holds the bytes that the call in progress has stored. -/
  copied : ∀ c ∈ s.call, ∀ (k : ℕ) (b : UInt8), c.copied k = true → c.data[k]? = some b →
    s.memory (s.side.sendMem.buf + k) = b
  /-- The call in progress agrees with the outstanding messages. -/
  agrees : ∀ c ∈ s.call, ∀ (w : ℕ) (m : List UInt8), s.completed ≤ w →
    s.passed[w]? = some m → Agree c.data m
  /-- Its message fits the buffer. -/
  fits : ∀ c ∈ s.call, c.data.length ≤ gap
  /-- The bytes fetched are those passed. -/
  fetched_eq : ∀ (w k : ℕ) (b : UInt8), s.fetched w k = some b →
    ∃ m : List UInt8, s.passed[w]? = some m ∧ m[k]? = some b
  /-- The messages transmitted are the completed ones. -/
  transmitted_eq : s.transmitted = s.passed.take s.completed
  /-- Only posted messages complete. -/
  completed_le : s.completed ≤ s.passed.length

namespace SharedBuffer

variable {s t : SharedBuffer}

/-- Nothing is outstanding at the start. -/
theorem intact_start (sendMem : RdmaMem) (remoteInfo : ℕ × ℕ) (raddrs rkeys : ℕ → ℕ)
    (slices : ℕ) (memory : ℕ → UInt8) :
    (start sendMem remoteInfo raddrs rkeys slices memory).Intact := by
  refine ⟨rfl, ?_, ?_, ?_, ?_, ?_, ?_, rfl, Nat.le_refl 0⟩ <;> simp [start]

/-- A call that agrees with the outstanding messages. -/
theorem Intact.call {data : List UInt8} (hs : s.Intact) (hturn : s.CallsInTurn (.call data))
    (h : s.step (.call data) = some t) : t.Intact := by
  simp only [step, Option.ite_none_right_eq_some, Option.some.injEq] at h
  obtain ⟨⟨_, _, hfits⟩, rfl⟩ := h
  refine ⟨hs.posted_length, hs.posted_eq, hs.holds, ?_, ?_, ?_, hs.fetched_eq, hs.transmitted_eq,
    hs.completed_le⟩
  · rintro c ⟨⟩ k b hcopied
    simp at hcopied
  · rintro c ⟨⟩ w m hw hm
    apply hturn m
    rw [List.mem_iff_getElem?]
    refine ⟨w - s.completed, ?_⟩
    rw [List.getElem?_drop, Nat.add_sub_cancel' hw, hm]
  · rintro c ⟨⟩
    exact hfits

/-- A byte stored by `memcpy` overwrites only equal bytes of outstanding messages. -/
theorem Intact.copy {k : ℕ} (hs : s.Intact) (h : s.step (.copy k) = some t) : t.Intact := by
  simp only [step, Option.bind_eq_some_iff, Option.map_eq_some_iff] at h
  obtain ⟨c, hc, b, hb, rfl⟩ := h
  have hmemory : ∀ k' b', (k' = k → b' = b) →
      (k' ≠ k → s.memory (s.side.sendMem.buf + k') = b') →
      Function.update s.memory (s.side.sendMem.buf + k) b (s.side.sendMem.buf + k') = b' := by
    intro k' b' hsame hother
    by_cases hk : k' = k
    · rw [hk, Function.update_self, hsame hk]
    · rw [Function.update_of_ne (by omega), hother hk]
  refine ⟨hs.posted_length, hs.posted_eq, ?_, ?_, ?_, ?_, hs.fetched_eq, hs.transmitted_eq,
    hs.completed_le⟩
  · intro w m k' b' hw hm hb'
    refine hmemory k' b' ?_ fun _ => hs.holds w m k' b' hw hm hb'
    rintro rfl
    exact ((hs.agrees c hc w m hw hm).eq_of_getElem? hb hb').symm
  · rintro c' ⟨⟩ k' b' hcopied hb'
    refine hmemory k' b' ?_ ?_
    · rintro rfl
      exact Option.some.inj (hb'.symm.trans hb)
    · intro hk
      dsimp only at hcopied
      rw [Function.update_of_ne hk] at hcopied
      exact hs.copied c hc k' b' hcopied hb'
  · rintro c' ⟨⟩
    exact hs.agrees c hc
  · rintro c' ⟨⟩
    exact hs.fits c hc

/-- Posting makes the message of the call an outstanding one. -/
theorem Intact.post {ok : Bool} (hs : s.Intact) (h : s.step (.post ok) = some t) : t.Intact := by
  simp only [step, Option.bind_eq_some_iff, Option.ite_none_right_eq_some, Option.some.injEq] at h
  obtain ⟨c, hc, hall, rfl⟩ := h
  cases ok with
  | false =>
    exact ⟨hs.posted_length, hs.posted_eq, hs.holds, by simp, by simp, by simp, hs.fetched_eq,
      hs.transmitted_eq, hs.completed_le⟩
  | true =>
    have hlength : c.data.length % 2 ^ 32 = c.data.length := by
      have := hs.fits c hc
      rw [gap] at this
      omega
    -- A position of the longer list is an old one or the last.
    have hcases : ∀ {α : Type} {l : List α} {x y : α} {w : ℕ}, (l ++ [x])[w]? = some y →
        l[w]? = some y ∨ (w = l.length ∧ y = x) := by
      intro α l x y w hw
      rcases Nat.lt_or_ge w l.length with hlt | hge
      · rw [List.getElem?_append_left hlt] at hw
        exact .inl hw
      · rw [List.getElem?_append_right hge, List.getElem?_singleton] at hw
        split_ifs at hw with hzero
        exact .inr ⟨by omega, (Option.some.inj hw).symm⟩
    refine ⟨?_, ?_, ?_, by simp, by simp, by simp, ?_, ?_, ?_⟩
    · simp [SendSide.sendBuf, SendSide.sendTask, hs.posted_length]
    · intro w wr m hwr hm
      rcases hcases hwr with hold | ⟨rfl, rfl⟩
      · rcases hcases hm with hold' | ⟨rfl, rfl⟩
        · exact hs.posted_eq w wr m hold hold'
        · rw [List.getElem?_eq_none (Nat.le_of_eq hs.posted_length)] at hold
          cases hold
      · rcases hcases hm with hold' | ⟨_, rfl⟩
        · rw [List.getElem?_eq_none (Nat.le_of_eq hs.posted_length.symm)] at hold'
          cases hold'
        · exact ⟨rfl, hlength⟩
    · intro w m k b hw hm hb
      rcases hcases hm with hold | ⟨_, rfl⟩
      · exact hs.holds w m k b hw hold hb
      · exact hs.copied c hc k b (hall k (List.getElem?_eq_some_iff.mp hb).1) hb
    · intro w k b hb
      obtain ⟨m, hm, hk⟩ := hs.fetched_eq w k b hb
      refine ⟨m, ?_, hk⟩
      rw [if_pos rfl, List.getElem?_append_left (List.getElem?_eq_some_iff.mp hm).1, hm]
    · rw [hs.transmitted_eq, if_pos rfl, List.take_append_of_le_length hs.completed_le]
    · have := hs.completed_le
      simp
      omega

/-- The adapter fetches what the buffer holds, which is what was passed. -/
theorem Intact.fetch {w k : ℕ} (hs : s.Intact) (h : s.step (.fetch w k) = some t) : t.Intact := by
  simp only [step, Option.bind_eq_some_iff, Option.ite_none_right_eq_some, Option.some.injEq] at h
  obtain ⟨wr, hwr, ⟨hopen, hk⟩, rfl⟩ := h
  refine ⟨hs.posted_length, hs.posted_eq, hs.holds, hs.copied, hs.agrees, hs.fits, ?_,
    hs.transmitted_eq, hs.completed_le⟩
  intro w' k' b hb
  by_cases hw : w' = w
  · subst hw
    dsimp only at hb
    rw [Function.update_self] at hb
    by_cases hk' : k' = k
    · subst hk'
      rw [Function.update_self] at hb
      obtain ⟨m, hm⟩ : ∃ m, s.passed[w']? = some m := by
        have hlt := (List.getElem?_eq_some_iff.mp hwr).1
        rw [hs.posted_length] at hlt
        exact ⟨_, List.getElem?_eq_getElem hlt⟩
      obtain ⟨haddr, hlength⟩ := hs.posted_eq w' wr m hwr hm
      have hbyte : m[k']? = some (m.getD k' 0) := by
        rw [List.getD_eq_getElem?_getD, List.getElem?_eq_getElem (by omega), Option.getD_some]
      refine ⟨m, hm, ?_⟩
      rw [haddr, hs.holds w' m k' _ hopen hm hbyte] at hb
      rw [hbyte, hb]
    · rw [Function.update_of_ne hk'] at hb
      exact hs.fetched_eq w' k' b hb
  · dsimp only at hb
    rw [Function.update_of_ne hw] at hb
    exact hs.fetched_eq w' k' b hb

/-- A completed message has been fetched byte by byte. -/
theorem Intact.complete (hs : s.Intact) (h : s.step .complete = some t) : t.Intact := by
  simp only [step, Option.bind_eq_some_iff, Option.ite_none_right_eq_some, Option.some.injEq] at h
  obtain ⟨wr, hwr, hall, rfl⟩ := h
  have hlt : s.completed < s.passed.length := by
    rw [← hs.posted_length]
    exact (List.getElem?_eq_some_iff.mp hwr).1
  have hm : s.passed[s.completed]? = some s.passed[s.completed] := List.getElem?_eq_getElem hlt
  obtain ⟨_, hlength⟩ := hs.posted_eq _ wr _ hwr hm
  have hbytes : ((List.range wr.length).map fun k => (s.fetched s.completed k).getD 0) =
      s.passed[s.completed] := by
    apply List.ext_getElem
    · rw [List.length_map, List.length_range, hlength]
    · intro k hk hk'
      rw [List.length_map, List.length_range] at hk
      obtain ⟨b, hb⟩ := Option.isSome_iff_exists.mp (hall k hk)
      obtain ⟨m, hpassed, hbyte⟩ := hs.fetched_eq _ k b hb
      obtain rfl := Option.some.inj (hm.symm.trans hpassed)
      rw [List.getElem_map, List.getElem_range, hb, Option.getD_some]
      exact (List.getElem?_eq_some_iff.mp hbyte).2.symm
  refine ⟨hs.posted_length, hs.posted_eq, ?_, hs.copied, ?_, hs.fits, hs.fetched_eq, ?_, hlt⟩
  · intro w m k b hw
    exact hs.holds w m k b (Nat.le_of_succ_le hw)
  · intro c hc w m hw
    exact hs.agrees c hc w m (Nat.le_of_succ_le hw)
  · dsimp only
    rw [hbytes, hs.transmitted_eq, List.take_add_one, hm]
    rfl

/-- Every action taken in turn keeps the messages intact. -/
theorem Intact.step {a : BufferAction} (hs : s.Intact) (hturn : s.CallsInTurn a)
    (h : s.step a = some t) : t.Intact := by
  cases a with
  | call data => exact hs.call hturn h
  | copy k => exact hs.copy h
  | post ok => exact hs.post h
  | fetch w k => exact hs.fetch h
  | complete => exact hs.complete h

/-- Messages that are intact arrive as given. -/
theorem Intact.arrivesAsGiven (hs : s.Intact) : s.ArrivesAsGiven := by
  have hlength : s.transmitted.length = s.completed := by
    rw [hs.transmitted_eq, List.length_take, Nat.min_eq_left hs.completed_le]
  rw [ArrivesAsGiven, hlength]
  exact hs.transmitted_eq

end SharedBuffer

/-- **Messages through the shared buffer.** In every run of calls, copied bytes, fetched
bytes and completions, in any order, if every call is made when the messages posted and
not completed agree with its own, then the `i`-th message transmitted is the `i`-th
passed. -/
theorem arrivesAsGiven_of_callsInTurn {sendMem : RdmaMem} {remoteInfo : ℕ × ℕ}
    {raddrs rkeys : ℕ → ℕ} {slices : ℕ} {memory : ℕ → UInt8} {acts : List BufferAction}
    {s : SharedBuffer}
    (hrun : Runs.exec SharedBuffer.step
      (.start sendMem remoteInfo raddrs rkeys slices memory) acts = some s)
    (hturn : Runs.Meets SharedBuffer.step SharedBuffer.CallsInTurn
      (.start sendMem remoteInfo raddrs rkeys slices memory) acts) : s.ArrivesAsGiven := by
  have hintact := hturn.invariant SharedBuffer.Intact
    (fun s a t hs hin hstep => SharedBuffer.Intact.step hs hin hstep)
    (SharedBuffer.intact_start sendMem remoteInfo raddrs rkeys slices memory) hrun
  exact hintact.arrivesAsGiven

/-- A session with its send buffer at address 4096. -/
def sampleBuffer : SharedBuffer :=
  .start ⟨1, 4096, gap⟩ (0, 0) (fun _ => 0) (fun _ => 0) 512 (fun _ => 0)

/-- Two messages, the second one sent when the first has completed. -/
theorem arrivesAsGiven_of_callsInTurn_two :
    ∃ s, Runs.exec SharedBuffer.step sampleBuffer
        [.call [1], .copy 0, .post true, .fetch 0 0, .complete,
          .call [2], .copy 0, .post true, .fetch 1 0, .complete] = some s ∧ s.ArrivesAsGiven := by
  obtain ⟨s, hs⟩ : ∃ s, Runs.exec SharedBuffer.step sampleBuffer
      [.call [1], .copy 0, .post true, .fetch 0 0, .complete,
        .call [2], .copy 0, .post true, .fetch 1 0, .complete] = some s :=
    Option.isSome_iff_exists.mp (by decide +kernel)
  exact ⟨s, hs, arrivesAsGiven_of_callsInTurn hs (by decide +kernel)⟩

/-- Two messages of one byte. The second call copies its byte before the adapter has read
the first message, which then arrives as the second. -/
theorem message_overwritten_in_send_buffer :
    ∃ s ∈ Runs.exec SharedBuffer.step sampleBuffer
        [.call [1], .copy 0, .post true, .call [2], .copy 0, .post true,
          .fetch 0 0, .complete, .fetch 1 0, .complete],
      s.passed = [[1], [2]] ∧ s.transmitted = [[2], [2]] ∧
        ¬s.transmitted = s.passed.take s.transmitted.length := by
  decide +kernel

end RdmaTransport
