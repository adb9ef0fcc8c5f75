import RdmaTransport.Session
import Mathlib.Tactic.SplitIfs

/-!
# Reading in step with posting

The session finds a message through `recv_index`, which `door` and `read` advance by
one for a message they consume. Where the message lies was decided by `post_recv`,
which starts at the first buffer on every call. The two agree exactly as long as no
completion is polled and left aside before a read, and the messages that follow a read
lie where counting from the first message puts them.
-/

namespace RdmaTransport

open Runs

/-- The buffer at the read index is the one filled by the oldest message not consumed,
or the one posted for it if it has not arrived. -/
def Session.InStep (s : Session) : Prop := ∀ buffer ∈ s.posted[s.oldest]?, s.recvIndex = buffer

/-- The action keeps the ring in step. A read needs that no completion was dropped, and
that the message after those it consumes is posted to the buffer with its number modulo
`recv_nums`; if completions were dropped, only a read of a whole turn leaves the index
where it is. When every message posted for is consumed, `post_recv` has to find their
number a multiple of `recv_nums`. -/
def Session.KeepsStep (s : Session) : SessionAction → Prop
  | .read (some j) =>
      if s.dropped = [] then
        ∀ buffer ∈ s.posted[s.polled + j]?, buffer = (s.polled + j) % recvNums
      else j = recvNums
  | .postRecv nums accepted =>
      s.dropped = [] → s.polled = s.posted.length → 0 < postCount nums accepted →
        s.posted.length % recvNums = 0
  | _ => True

/-- Whether the ring is in step can be evaluated. -/
instance Session.decidableInStep (s : Session) : Decidable s.InStep :=
  inferInstanceAs (Decidable (∀ buffer ∈ s.posted[s.oldest]?, s.recvIndex = buffer))

/-- Whether an action keeps the ring in step can be evaluated. -/
instance Session.decidableKeepsStep (s : Session) : ∀ a, Decidable (s.KeepsStep a)
  | .read (some j) => inferInstanceAs (Decidable (if s.dropped = [] then
      ∀ buffer ∈ s.posted[s.polled + j]?, buffer = (s.polled + j) % recvNums else j = recvNums))
  | .postRecv nums accepted => inferInstanceAs (Decidable (s.dropped = [] →
      s.polled = s.posted.length → 0 < postCount nums accepted → s.posted.length % recvNums = 0))
  | .read none => inferInstanceAs (Decidable True)
  | .arrive _ => inferInstanceAs (Decidable True)
  | .door _ => inferInstanceAs (Decidable True)
  | .querySr _ => inferInstanceAs (Decidable True)

/-- What holds in every state of every run. -/
structure Session.WellFormed (s : Session) : Prop where
  /-- Only completions of messages that have arrived are polled. -/
  polled_le : s.polled ≤ s.arrived
  /-- Only as many messages arrive as work requests were posted. -/
  arrived_le : s.arrived ≤ s.posted.length
  /-- A dropped message was polled. -/
  dropped_lt : ∀ m ∈ s.dropped, m < s.polled
  /-- The read index is that of a buffer. -/
  index_lt : s.recvIndex < recvNums
  /-- While nothing was dropped the read index counts the polled messages. -/
  index_eq : s.dropped = [] → s.recvIndex = s.polled % recvNums
  /-- Before `door` only the first call of `post_recv` has posted. -/
  fresh : s.started = false → s.polled = 0 ∧ s.dropped = [] ∧
    ∀ m buffer, s.posted[m]? = some buffer → buffer = m % recvNums

namespace Session

/-- What `init` posts. -/
theorem posted_initial (rbuf : ℕ → UInt8) (accepted : ℕ) :
    (Session.initial rbuf accepted).posted =
      (List.range (postCount 16000 accepted)).map (· % recvNums) := by
  rw [Session.initial, posted_postRecv, List.nil_append]

/-- The session is well formed before `door`. -/
theorem wellFormed_initial (rbuf : ℕ → UInt8) (accepted : ℕ) :
    (Session.initial rbuf accepted).WellFormed where
  polled_le := Nat.le_refl _
  arrived_le := Nat.zero_le _
  dropped_lt := by simp [Session.initial, Session.postRecv]
  index_lt := Nat.zero_lt_succ 1023
  index_eq := fun _ => rfl
  fresh := by
    intro _
    refine ⟨rfl, rfl, ?_⟩
    intro m buffer h
    rw [posted_initial, List.getElem?_map, Option.map_eq_some_iff] at h
    obtain ⟨k, hk, rfl⟩ := h
    obtain ⟨_, rfl⟩ := List.getElem?_eq_some_iff.mp hk
    simp

/-- Every action keeps the session well formed. -/
theorem WellFormed.step {s t : Session} {a : SessionAction} (hwf : s.WellFormed)
    (h : s.step a = some t) : t.WellFormed := by
  obtain ⟨hpolled, harrived, hdropped, hlt, heq, hfresh⟩ := hwf
  cases a with
  | arrive data =>
    obtain ⟨buffer, hbuffer, hposted, hmore, hsame, hindex, hstarted, hkept, _⟩ := arrive_cases h
    obtain ⟨hlength, _⟩ := List.getElem?_eq_some_iff.mp hbuffer
    constructor
    · omega
    · rw [hposted]
      omega
    · rwa [hkept, hsame]
    · rwa [hindex]
    · rwa [hkept, hindex, hsame]
    · rwa [hstarted, hsame, hkept, hposted]
  | door j =>
    obtain ⟨hstarted, ⟨hone, hmax, hle⟩, rfl⟩ := door_cases h
    obtain ⟨hzero, hnil, _⟩ := hfresh hstarted
    have hindex : s.recvIndex = 0 := by
      rw [heq hnil, hzero]
      rfl
    refine ⟨hle, harrived, ?_, ?_, ?_, by simp⟩
    · intro m hm
      simp only [hnil, List.nil_append, List.mem_range'_1] at hm
      simp only
      omega
    · simp [hindex, recvNums]
    · intro hdropped
      obtain rfl : j = 1 := by
        simp only [hnil, List.nil_append, List.range'_eq_nil_iff] at hdropped
        omega
      simp [hindex, hzero, recvNums]
  | read done =>
    cases done with
    | none =>
      obtain rfl := read_none_cases hlt h
      exact ⟨hpolled, harrived, hdropped, hlt, heq, hfresh⟩
    | some j =>
      obtain ⟨hstarted, ⟨hone, hmax, hle⟩, rfl⟩ := read_some_cases h
      refine ⟨hle, harrived, ?_, ?_, ?_, by simp [hstarted]⟩
      · exact fun m hm => Nat.lt_add_right j (hdropped m hm)
      · exact Nat.mod_lt _ (Nat.zero_lt_succ 1023)
      · intro hnil
        simp only [heq hnil, Nat.mod_add_mod]
  | querySr j =>
    obtain ⟨hstarted, ⟨hone, hmax, hle⟩, rfl⟩ := querySr_cases h
    refine ⟨hle, harrived, ?_, hlt, ?_, by simp [hstarted]⟩
    · intro m hm
      rcases List.mem_append.mp hm with hm | hm
      · exact Nat.lt_add_right j (hdropped m hm)
      · exact (List.mem_range'_1.mp hm).2
    · intro hnil
      simp only [List.append_eq_nil_iff, List.range'_eq_nil_iff] at hnil
      omega
  | postRecv nums accepted =>
    obtain ⟨hstarted, postedRecv, rfl⟩ := postRecv_cases h
    refine ⟨hpolled, ?_, hdropped, hlt, heq, by simp [hstarted]⟩
    rw [List.length_append]
    exact Nat.le_add_right_of_le harrived

/-- With nothing dropped the oldest message is the next to be polled. -/
theorem WellFormed.oldest_eq_polled {s : Session} (hwf : s.WellFormed) (hnil : s.dropped = []) :
    s.oldest = s.polled := by
  rw [oldest_eq s hwf.polled_le, hnil]
  rfl

/-- With messages dropped the oldest message is the first of them. -/
theorem WellFormed.oldest_eq_head {s : Session} (hwf : s.WellFormed) {m : ℕ} {rest : List ℕ}
    (hcons : s.dropped = m :: rest) : s.oldest = m := by
  rw [oldest_eq s hwf.polled_le, hcons]
  rfl

/-- The oldest message is not beyond those polled. -/
theorem WellFormed.oldest_le {s : Session} (hwf : s.WellFormed) : s.oldest ≤ s.polled := by
  cases hdropped : s.dropped with
  | nil => exact (hwf.oldest_eq_polled hdropped).le
  | cons m rest =>
    rw [hwf.oldest_eq_head hdropped]
    exact (hwf.dropped_lt m (by simp [hdropped])).le

/-- A read of `j` completions leaves the ring in step exactly when it keeps it so. -/
theorem inStep_read_iff {s t : Session} {j : ℕ} (hwf : s.WellFormed) (hs : s.InStep)
    (h : s.step (.read (some j)) = some t) : t.InStep ↔ s.KeepsStep (.read (some j)) := by
  have hwft := hwf.step h
  obtain ⟨_, ⟨hone, hmax, hle⟩, ht⟩ := read_some_cases h
  have hposted : t.posted = s.posted := by rw [ht]
  have hkept : t.dropped = s.dropped := by rw [ht]
  have hindex : t.recvIndex = (s.recvIndex + j) % recvNums := by rw [ht]
  have hpolled : t.polled = s.polled + j := by rw [ht]
  cases hdropped : s.dropped with
  | nil =>
    have holdest := hwft.oldest_eq_polled (hkept.trans hdropped)
    simp only [InStep, KeepsStep, hposted, holdest, hpolled, hindex, hwf.index_eq hdropped,
      Nat.mod_add_mod, hdropped, if_true]
    exact forall₂_congr fun _ _ => eq_comm
  | cons m rest =>
    -- The oldest message stays the dropped one, so the index has to come back to it.
    have hm : m < s.posted.length := Nat.lt_of_lt_of_le (hwf.dropped_lt m (by simp [hdropped]))
      (hwf.polled_le.trans hwf.arrived_le)
    have hbuffer : s.posted[m]? = some s.recvIndex := by
      have hmem := hs s.posted[m]
      rw [hwf.oldest_eq_head hdropped, List.getElem?_eq_getElem hm] at hmem
      rw [List.getElem?_eq_getElem hm, hmem rfl]
    have hlt := hwf.index_lt
    simp only [InStep, KeepsStep, hposted, hwft.oldest_eq_head (hkept.trans hdropped), hbuffer,
      Option.mem_some_iff, forall_eq', hindex, hdropped, reduceCtorEq, if_false]
    simp only [maxCqe, recvNums] at hmax hlt ⊢
    omega

/-- After further work requests are posted, the ring is in step exactly when they did
not have to start at another buffer than the first. -/
theorem inStep_postRecv_iff {s t : Session} {nums : ℤ} {accepted : ℕ} (hwf : s.WellFormed)
    (hs : s.InStep) (h : s.step (.postRecv nums accepted) = some t) :
    t.InStep ↔ s.KeepsStep (.postRecv nums accepted) := by
  obtain ⟨_, postedRecv, ht⟩ := postRecv_cases h
  have hposted : t.posted =
      s.posted ++ (List.range (postCount nums accepted)).map (· % recvNums) := by rw [ht]
  have holdest : t.oldest = s.oldest := by
    rw [ht]
    rfl
  have hindex : t.recvIndex = s.recvIndex := by rw [ht]
  have hle := hwf.oldest_le
  have hbound := hwf.polled_le.trans hwf.arrived_le
  rw [InStep, hposted, holdest, hindex]
  by_cases hall : s.oldest = s.posted.length
  · have hnil : s.dropped = [] := by
      cases hdropped : s.dropped with
      | nil => rfl
      | cons m rest =>
        have hm := hwf.dropped_lt m (by simp [hdropped])
        rw [hwf.oldest_eq_head hdropped] at hall
        omega
    have hpolled : s.polled = s.posted.length := by
      omega
    rw [hall, List.getElem?_append_right (Nat.le_refl _), Nat.sub_self, hwf.index_eq hnil, hpolled]
    cases hcount : postCount nums accepted with
    | zero => simp [KeepsStep, hcount]
    | succ n => simp [KeepsStep, hcount, hnil, hpolled, List.range_succ_eq_map]
  · rw [List.getElem?_append_left (by omega)]
    refine iff_of_true hs ?_
    intro hnil hpolled
    rw [hwf.oldest_eq_polled hnil] at hall
    exact absurd hpolled hall

/-- A step leaves a ring in step exactly when its action keeps it so. -/
theorem inStep_step_iff {s t : Session} {a : SessionAction} (hwf : s.WellFormed) (hs : s.InStep)
    (h : s.step a = some t) : t.InStep ↔ s.KeepsStep a := by
  have hwft := hwf.step h
  cases a with
  | arrive data =>
    obtain ⟨_, _, hposted, _, hpolled, hindex, _, hkept, _⟩ := arrive_cases h
    refine iff_of_true ?_ trivial
    have holdest : t.oldest = s.oldest := by
      rw [oldest_eq t hwft.polled_le, oldest_eq s hwf.polled_le, hkept, hpolled]
    rwa [InStep, hposted, holdest, hindex]
  | door j =>
    obtain ⟨hstarted, ⟨hone, _, _⟩, ht⟩ := door_cases h
    obtain ⟨hzero, hnil, hbuffers⟩ := hwf.fresh hstarted
    refine iff_of_true ?_ trivial
    intro buffer hbuffer
    have holdest : t.oldest = 1 := by
      rw [oldest_eq t hwft.polled_le, ht]
      obtain ⟨k, rfl⟩ : ∃ k, j = k + 1 := ⟨j - 1, by omega⟩
      cases k <;> simp [hnil, hzero, List.range'_succ]
    rw [holdest, ht] at hbuffer
    rw [hbuffers 1 buffer hbuffer, ht]
    simp [hwf.index_eq hnil, hzero, recvNums]
  | read done =>
    cases done with
    | none =>
      obtain rfl := read_none_cases hwf.index_lt h
      exact iff_of_true hs trivial
    | some j => exact inStep_read_iff hwf hs h
  | querySr j =>
    obtain ⟨_, ⟨hone, _, _⟩, ht⟩ := querySr_cases h
    refine iff_of_true ?_ trivial
    have holdest : t.oldest = s.oldest := by
      rw [oldest_eq t hwft.polled_le, oldest_eq s hwf.polled_le, ht]
      obtain ⟨k, rfl⟩ : ∃ k, j = k + 1 := ⟨j - 1, by omega⟩
      cases s.dropped <;> simp [List.range'_succ]
    rw [InStep, holdest, ht]
    exact hs
  | postRecv nums accepted => exact inStep_postRecv_iff hwf hs h

end Session

/-- **The ring in step.** In a run from `init` the buffer at the read index is, in every
state, the one of the oldest message not consumed exactly when every step kept it so. -/
theorem inStep_along_iff {rbuf : ℕ → UInt8} {accepted : ℕ} {s : Session}
    {acts : List SessionAction} (hrun : exec Session.step (.initial rbuf accepted) acts = some s) :
    Along Session.step Session.InStep (.initial rbuf accepted) acts ↔
      Meets Session.step Session.KeepsStep (.initial rbuf accepted) acts := by
  have hwf := Session.wellFormed_initial rbuf accepted
  have hinit : (Session.initial rbuf accepted).InStep := by
    intro buffer hbuffer
    rw [hwf.oldest_eq_polled rfl] at hbuffer
    exact ((hwf.fresh rfl).2.2 0 buffer hbuffer).symm
  refine along_iff_meets Session.WellFormed (fun _ _ _ => Session.WellFormed.step) ?_ ?_ hwf hinit
    hrun
  · intro s a t hwf hs hkeeps hstep
    exact (Session.inStep_step_iff hwf hs hstep).mpr hkeeps
  · intro s a t hwf hs hkeeps hstep hinStep
    exact hkeeps ((Session.inStep_step_iff hwf hs hstep).mp hinStep)

/-- A table, then one message that is read in place. -/
theorem inStep_along_iff_one_message :
    Along Session.step Session.InStep (.initial (fun _ => 0) 16000)
      [.arrive (List.replicate 25 48), .door 1, .arrive [1], .read (some 1)] := by
  have hsome : (exec Session.step (.initial (fun _ => 0) 16000)
      [.arrive (List.replicate 25 48), .door 1, .arrive [1], .read (some 1)]).isSome := by
    decide +kernel
  obtain ⟨s, hrun⟩ := Option.isSome_iff_exists.mp hsome
  exact (inStep_along_iff hrun).mpr (by decide +kernel)

/-- A message that arrives behind the table before `door` polls is dropped by `door`.
The next read then moves the index past its buffer, although nobody consumed it. -/
theorem read_out_of_step_after_early_message :
    ∃ s ∈ exec Session.step (.initial (fun _ => 0) 16000)
        [.arrive (List.replicate 25 48), .arrive [1], .door 2, .arrive [2], .read (some 1)],
      s.recvIndex = 2 ∧ s.oldest = 1 ∧ s.posted[s.oldest]? = some 1 ∧ ¬s.InStep := by
  decide +kernel

end RdmaTransport
