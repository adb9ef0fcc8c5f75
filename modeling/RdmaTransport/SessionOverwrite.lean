import RdmaTransport.SessionRing

/-!
# Messages written over unread ones

Up to 16000 receive work requests are outstanding on 1024 buffers, and nothing makes
the peer wait for the reader. A message is written over an unread one exactly when the
lead of the arriving message over the oldest unread one reaches back to the previous
use of its buffer. Within one call of `post_recv` that use lies `recv_nums` messages
back; across calls it can be closer.
-/

namespace RdmaTransport

open Runs

/-- The oldest message that is held in its buffer, or the next to arrive. -/
def Session.oldestHeld (s : Session) : ℕ := s.held.head?.getD s.arrived

/-- The number of messages that arrived after the last one written to the buffer: all of
them, if there was none. -/
def Session.sinceLast (s : Session) (buffer : ℕ) : ℕ :=
  (s.posted.take s.arrived).reverse.idxOf buffer

/-- An arriving message has no larger lead over the oldest held message than its buffer
allows. -/
def Session.KeepsBehind (s : Session) : SessionAction → Prop
  | .arrive _ => ∀ buffer ∈ s.posted[s.arrived]?, s.arrived - s.oldestHeld ≤ s.sinceLast buffer
  | _ => True

/-- Whether an arrival keeps behind can be evaluated. -/
instance Session.decidableKeepsBehind (s : Session) : ∀ a, Decidable (s.KeepsBehind a)
  | .arrive _ => inferInstanceAs (Decidable
      (∀ buffer ∈ s.posted[s.arrived]?, s.arrived - s.oldestHeld ≤ s.sinceLast buffer))
  | .door _ => inferInstanceAs (Decidable True)
  | .read _ => inferInstanceAs (Decidable True)
  | .querySr _ => inferInstanceAs (Decidable True)
  | .postRecv _ _ => inferInstanceAs (Decidable True)

/-- The held messages are the waiting ones, in order, behind those that were polled and
not copied. -/
def Session.HoldsWaiting (s : Session) : Prop :=
  ∃ skipped, s.held = skipped ++ List.range' s.polled (s.arrived - s.polled) ∧
    skipped.Pairwise (· < ·) ∧ ∀ m ∈ skipped, m < s.polled

/-- At least `n` entries follow the last occurrence in a list exactly when the value is
not among the last `n` entries. -/
theorem le_idxOf_reverse_iff {l : List ℕ} {n b : ℕ} (hn : n ≤ l.length) :
    n ≤ l.reverse.idxOf b ↔ b ∉ l.drop (l.length - n) := by
  by_cases hb : b ∈ l
  · rw [← Nat.not_lt, ← List.mem_take_iff_idxOf_lt (List.mem_reverse.mpr hb), List.take_reverse,
      List.mem_reverse]
  · rw [List.idxOf_of_notMem (by simpa using hb), List.length_reverse]
    exact iff_of_true hn fun hmem => hb (List.mem_of_mem_drop hmem)

/-- Numbers counted on from a sorted list of smaller ones form a sorted list. -/
theorem pairwise_lt_append_range' {l : List ℕ} {p : ℕ} (hsorted : l.Pairwise (· < ·))
    (hlt : ∀ m ∈ l, m < p) (n : ℕ) :
    (l ++ List.range' p n).Pairwise (· < ·) ∧ ∀ m ∈ l ++ List.range' p n, m < p + n := by
  constructor
  · refine List.pairwise_append.mpr ⟨hsorted, List.pairwise_lt_range', ?_⟩
    intro m hm k hk
    exact Nat.lt_of_lt_of_le (hlt m hm) (List.mem_range'_1.mp hk).1
  · intro m hm
    rcases List.mem_append.mp hm with hm | hm
    · exact Nat.lt_add_right n (hlt m hm)
    · exact (List.mem_range'_1.mp hm).2

namespace Session

/-- The waiting messages are the ones a poll takes and those behind them. -/
theorem waiting_eq_append {s : Session} {j : ℕ} (hle : s.polled + j ≤ s.arrived) :
    List.range' s.polled (s.arrived - s.polled) =
      List.range' s.polled j ++ List.range' (s.polled + j) (s.arrived - (s.polled + j)) := by
  rw [List.range'_append_1]
  congr 1
  omega

/-- Every action leaves the waiting messages held. -/
theorem HoldsWaiting.step {s t : Session} {a : SessionAction} (hwf : s.WellFormed)
    (hs : s.HoldsWaiting) (h : s.step a = some t) : t.HoldsWaiting := by
  obtain ⟨skipped, hheld, hsorted, hlt⟩ := hs
  have hpolled := hwf.polled_le
  cases a with
  | arrive data =>
    obtain ⟨_, _, _, harrived, hsame, _, _, _, hmore, _⟩ := arrive_cases h
    refine ⟨skipped, ?_, hsorted, by rwa [hsame]⟩
    have hcount : s.arrived + 1 - s.polled = s.arrived - s.polled + 1 := by
      omega
    rw [hmore, hheld, harrived, hsame, hcount, List.range'_1_concat, Nat.add_sub_cancel' hpolled,
      List.append_assoc]
  | door j =>
    obtain ⟨hstarted, ⟨hone, _, hle⟩, rfl⟩ := door_cases h
    obtain ⟨hzero, _⟩ := hwf.fresh hstarted
    obtain rfl : skipped = [] := by
      refine List.eq_nil_iff_forall_not_mem.mpr ?_
      intro m hm
      have hneg := hlt m hm
      omega
    obtain ⟨k, rfl⟩ : ∃ k, j = k + 1 := ⟨j - 1, by omega⟩
    refine ⟨List.range' (s.polled + 1) k, ?_, List.pairwise_lt_range', ?_⟩
    · simp only [hheld, List.nil_append, waiting_eq_append hle, List.range'_succ,
        List.cons_append, List.erase_cons_head]
      rfl
    · intro m hm
      have hbound := (List.mem_range'_1.mp hm).2
      simp only
      omega
  | read done =>
    cases done with
    | none =>
      obtain rfl := read_none_cases hwf.index_lt h
      exact ⟨skipped, hheld, hsorted, hlt⟩
    | some j =>
      obtain ⟨_, ⟨_, _, hle⟩, rfl⟩ := read_some_cases h
      obtain ⟨hsorted, hlt⟩ := pairwise_lt_append_range' hsorted hlt j
      refine ⟨(skipped ++ List.range' s.polled j).filter fun m => !s.copies j m, ?_,
        hsorted.filter _, fun m hm => hlt m (List.mem_filter.mp hm).1⟩
      have hbehind : (List.range' (s.polled + j) (s.arrived - (s.polled + j))).filter
          (fun m => !s.copies j m) = List.range' (s.polled + j) (s.arrived - (s.polled + j)) := by
        refine List.filter_eq_self.mpr ?_
        intro m hm
        have hnot := (List.mem_range'_1.mp hm).1
        simp only [copies, Bool.not_eq_true', Bool.and_eq_false_iff, decide_eq_false_iff_not]
        omega
      simp only [hheld, waiting_eq_append hle, ← List.append_assoc]
      rw [List.filter_append, hbehind]
      rfl
  | querySr j =>
    obtain ⟨_, ⟨_, _, hle⟩, rfl⟩ := querySr_cases h
    obtain ⟨hsorted, hlt⟩ := pairwise_lt_append_range' hsorted hlt j
    refine ⟨skipped ++ List.range' s.polled j, ?_, hsorted, hlt⟩
    simp only [hheld, waiting_eq_append hle, List.append_assoc]
    rfl
  | postRecv nums accepted =>
    obtain ⟨_, _, rfl⟩ := postRecv_cases h
    exact ⟨skipped, hheld, hsorted, hlt⟩

/-- A held message has arrived, and not before the oldest one. -/
theorem HoldsWaiting.of_mem_held {s : Session} (hwf : s.WellFormed) (hs : s.HoldsWaiting) {m : ℕ}
    (hm : m ∈ s.held) : s.oldestHeld ≤ m ∧ m < s.arrived := by
  obtain ⟨skipped, hheld, hsorted, hlt⟩ := hs
  obtain ⟨hsorted, hlt⟩ := pairwise_lt_append_range' hsorted hlt (s.arrived - s.polled)
  rw [← hheld] at hsorted hlt
  rw [Nat.add_sub_cancel' hwf.polled_le] at hlt
  refine ⟨?_, hlt m hm⟩
  rw [oldestHeld]
  cases hcons : s.held with
  | nil => simp [hcons] at hm
  | cons first rest =>
    rw [hcons] at hm hsorted
    rcases List.mem_cons.mp hm with rfl | hm
    · exact Nat.le_refl _
    · exact (List.rel_of_pairwise_cons hsorted hm).le

/-- The oldest held message has arrived, or is the next to arrive. -/
theorem HoldsWaiting.oldestHeld_le {s : Session} (hwf : s.WellFormed) (hs : s.HoldsWaiting) :
    s.oldestHeld ≤ s.arrived := by
  rw [oldestHeld]
  cases hcons : s.held with
  | nil => exact Nat.le_refl _
  | cons first rest =>
    have hfirst : first ∈ s.held := by
      simp [hcons]
    exact (hs.of_mem_held hwf hfirst).2.le

/-- If every polled message was copied out, exactly the waiting messages are held. -/
theorem HoldsWaiting.mem_held_iff {s : Session} (hs : s.HoldsWaiting)
    (hcopied : ∀ m ∈ s.held, s.polled ≤ m) {m : ℕ} :
    m ∈ s.held ↔ s.oldestHeld ≤ m ∧ m < s.arrived := by
  obtain ⟨skipped, hheld, _, hlt⟩ := hs
  obtain rfl : skipped = [] := by
    refine List.eq_nil_iff_forall_not_mem.mpr ?_
    intro m hm
    have hle := hcopied m (hheld ▸ List.mem_append_left _ hm)
    exact Nat.not_lt.mpr hle (hlt m hm)
  rw [List.nil_append] at hheld
  rcases Nat.lt_or_ge s.polled s.arrived with hwaiting | hnone
  · obtain ⟨n, hn⟩ : ∃ n, s.arrived - s.polled = n + 1 := ⟨s.arrived - s.polled - 1, by omega⟩
    have holdest : s.oldestHeld = s.polled := by
      rw [oldestHeld, hheld, hn, List.range'_succ]
      rfl
    rw [holdest, hheld, List.mem_range'_1]
    omega
  · have hnil : s.held = [] := by
      rw [hheld, Nat.sub_eq_zero_of_le hnone]
      rfl
    simp [oldestHeld, hnil]

/-- The lead of an arriving message stays within what its buffer allows exactly when no
message from the oldest held one on was written to that buffer. -/
theorem lead_le_iff {s : Session} (hwf : s.WellFormed) (hs : s.HoldsWaiting) (buffer : ℕ) :
    s.arrived - s.oldestHeld ≤ s.sinceLast buffer ↔
      ∀ m, s.oldestHeld ≤ m → m < s.arrived → s.posted[m]? ≠ some buffer := by
  have hlength : (s.posted.take s.arrived).length = s.arrived := by
    rw [List.length_take, Nat.min_eq_left hwf.arrived_le]
  rw [sinceLast, le_idxOf_reverse_iff (by omega), hlength,
    Nat.sub_sub_self (hs.oldestHeld_le hwf), List.mem_iff_getElem?, not_exists]
  constructor
  · intro h m hle hlt
    have hnot := h (m - s.oldestHeld)
    rwa [List.getElem?_drop, Nat.add_sub_cancel' hle, List.getElem?_take_of_lt hlt] at hnot
  · intro h i
    rw [List.getElem?_drop, List.getElem?_take]
    split
    · exact h _ (Nat.le_add_right _ _) ‹_›
    · simp

/-- As long as only the first call of `post_recv` has posted, the lead a buffer allows is
less than the number of buffers. -/
theorem lead_le_iff_lt {s : Session} (hwf : s.WellFormed) (hs : s.HoldsWaiting)
    (hfirst : ∀ m buffer, s.posted[m]? = some buffer → buffer = m % recvNums) {buffer : ℕ}
    (hbuffer : s.posted[s.arrived]? = some buffer) :
    s.arrived - s.oldestHeld ≤ s.sinceLast buffer ↔ s.arrived - s.oldestHeld < recvNums := by
  have hnext := hfirst _ _ hbuffer
  rw [lead_le_iff hwf hs]
  constructor
  · intro h
    by_contra hlead
    have hle := hwf.arrived_le
    simp only [recvNums, Nat.not_lt] at hlead hnext hfirst
    have hlt : s.arrived - 1024 < s.posted.length := by
      omega
    have hsame : s.posted[s.arrived - 1024] = buffer := by
      have hturn := hfirst _ _ (List.getElem?_eq_getElem hlt)
      omega
    exact h (s.arrived - 1024) (by omega) (by omega) (hsame ▸ List.getElem?_eq_getElem hlt)
  · intro hlead m hle hlt hm
    have hsame := hfirst _ _ hm
    simp only [recvNums] at hlead hsame hnext
    omega

/-- No step that keeps behind writes over a held message. -/
theorem overwritten_step {s t : Session} {a : SessionAction} (hwf : s.WellFormed)
    (hs : s.HoldsWaiting) (hbehind : s.KeepsBehind a) (h : s.step a = some t) :
    t.overwritten = s.overwritten := by
  cases a with
  | arrive data =>
    obtain ⟨buffer, hbuffer, _, _, _, _, _, _, _, hover⟩ := arrive_cases h
    have hnone : s.held.filter (fun m => s.posted[m]? = some buffer) = [] := by
      rw [List.filter_eq_nil_iff]
      intro m hm
      obtain ⟨hle, hlt⟩ := hs.of_mem_held hwf hm
      simpa using (lead_le_iff hwf hs buffer).mp (hbehind buffer hbuffer) m hle hlt
    rw [hover, hnone, List.append_nil]
  | door j =>
    obtain ⟨_, _, rfl⟩ := door_cases h
    rfl
  | read done =>
    cases done with
    | none => rw [read_none_cases hwf.index_lt h]
    | some j =>
      obtain ⟨_, _, rfl⟩ := read_some_cases h
      rfl
  | querySr j =>
    obtain ⟨_, _, rfl⟩ := querySr_cases h
    rfl
  | postRecv nums accepted =>
    obtain ⟨_, _, rfl⟩ := postRecv_cases h
    rfl

/-- Every polled message was copied out of its buffer, and none was overwritten. -/
def Intact (s : Session) : Prop := (∀ m ∈ s.held, s.polled ≤ m) ∧ s.overwritten = []

/-- A message polled and not copied stays held, and an overwritten one stays overwritten.
So a step that ends with everything intact began so, and an arriving message kept
behind. -/
theorem Intact.of_step {s t : Session} {a : SessionAction} (hwf : s.WellFormed)
    (hs : s.HoldsWaiting) (h : s.step a = some t) (ht : t.Intact) : s.Intact ∧ s.KeepsBehind a := by
  obtain ⟨hcopied, hover⟩ := ht
  cases a with
  | arrive data =>
    obtain ⟨buffer, hbuffer, _, _, hpolled, _, _, _, hmore, hwritten⟩ := arrive_cases h
    rw [hmore, hpolled] at hcopied
    rw [hwritten, List.append_eq_nil_iff, List.filter_eq_nil_iff] at hover
    obtain ⟨hsame, hnone⟩ := hover
    have hcopied : ∀ m ∈ s.held, s.polled ≤ m := fun m hm =>
      hcopied m (List.mem_append_left _ hm)
    refine ⟨⟨hcopied, hsame⟩, ?_⟩
    intro buffer' hbuffer'
    obtain rfl : buffer = buffer' := Option.some.inj (hbuffer.symm.trans hbuffer')
    refine (lead_le_iff hwf hs buffer).mpr ?_
    intro m hle hlt
    simpa using hnone m ((hs.mem_held_iff hcopied).mpr ⟨hle, hlt⟩)
  | door j =>
    obtain ⟨hstarted, _, rfl⟩ := door_cases h
    obtain ⟨hzero, _⟩ := hwf.fresh hstarted
    exact ⟨⟨fun m _ => by omega, hover⟩, trivial⟩
  | read done =>
    cases done with
    | none =>
      obtain rfl := read_none_cases hwf.index_lt h
      exact ⟨⟨hcopied, hover⟩, trivial⟩
    | some j =>
      obtain ⟨_, _, rfl⟩ := read_some_cases h
      refine ⟨⟨?_, hover⟩, trivial⟩
      intro m hm
      by_contra hlt
      have hkept : m ∈ s.held.filter fun m => !s.copies j m := by
        simp [List.mem_filter, hm, copies, hlt]
      exact hlt ((Nat.le_add_right _ _).trans (hcopied m hkept))
  | querySr j =>
    obtain ⟨_, _, rfl⟩ := querySr_cases h
    exact ⟨⟨fun m hm => (Nat.le_add_right _ _).trans (hcopied m hm), hover⟩, trivial⟩
  | postRecv nums accepted =>
    obtain ⟨_, _, rfl⟩ := postRecv_cases h
    exact ⟨⟨hcopied, hover⟩, trivial⟩

/-- A message can arrive as long as a work request is posted for it. -/
theorem exists_step_arrive {s : Session} (data : List UInt8) (hdata : data.length ≤ gap)
    (h : s.arrived < s.posted.length) : ∃ t, s.step (.arrive data) = some t := by
  simp [Session.step, Session.arrive, hdata, List.getElem?_eq_getElem h]

/-- Messages can arrive one after the other as long as work requests are posted. -/
theorem exists_exec_arrivals (data : List UInt8) (hdata : data.length ≤ gap) (n : ℕ)
    {s : Session} (hn : s.arrived + n ≤ s.posted.length) :
    ∃ t, exec Session.step s (List.replicate n (.arrive data)) = some t ∧
      t.arrived = s.arrived + n ∧ t.posted = s.posted ∧ t.polled = s.polled := by
  induction n generalizing s with
  | zero => exact ⟨s, rfl, rfl, rfl, rfl⟩
  | succ n ih =>
    obtain ⟨u, hu⟩ := exists_step_arrive data hdata (show s.arrived < s.posted.length by omega)
    obtain ⟨_, _, hposted, harrived, hpolled, _⟩ := arrive_cases hu
    obtain ⟨t, ht, hmore, hposted', hpolled'⟩ := ih (s := u) (by rw [hposted]; omega)
    refine ⟨t, ?_, by omega, hposted'.trans hposted, hpolled'.trans hpolled⟩
    rw [List.replicate_succ, exec_cons_eq_some]
    exact ⟨u, hu, ht⟩

end Session

/-- Before `door` no message is held. -/
theorem Session.holdsWaiting_initial (rbuf : ℕ → UInt8) (accepted : ℕ) :
    (Session.initial rbuf accepted).HoldsWaiting :=
  ⟨[], rfl, List.Pairwise.nil, by simp⟩

/-- In every run the waiting messages are held. -/
theorem Session.wellFormed_and_holdsWaiting_step {s t : Session} {a : SessionAction}
    (h : s.WellFormed ∧ s.HoldsWaiting) (hstep : s.step a = some t) :
    t.WellFormed ∧ t.HoldsWaiting :=
  ⟨h.1.step hstep, h.2.step h.1 hstep⟩

/-- **No unread message is overwritten.** In a run from `init` in which every arriving
message keeps behind, no message is written over one that is still held. If every polled
message was copied out, that is also the only way. -/
theorem overwritten_eq_nil_iff {rbuf : ℕ → UInt8} {accepted : ℕ} {s : Session}
    {acts : List SessionAction} (hrun : exec Session.step (.initial rbuf accepted) acts = some s) :
    (Meets Session.step Session.KeepsBehind (.initial rbuf accepted) acts → s.overwritten = []) ∧
      ((∀ m ∈ s.held, s.polled ≤ m) → s.overwritten = [] →
        Meets Session.step Session.KeepsBehind (.initial rbuf accepted) acts) := by
  have hinit := And.intro (Session.wellFormed_initial rbuf accepted)
    (Session.holdsWaiting_initial rbuf accepted)
  constructor
  · intro hmeets
    refine (hmeets.invariant (fun s => (s.WellFormed ∧ s.HoldsWaiting) ∧ s.overwritten = []) ?_
      ⟨hinit, rfl⟩ hrun).2
    rintro s a t ⟨hinv, hnil⟩ hbehind hstep
    exact ⟨Session.wellFormed_and_holdsWaiting_step hinv hstep,
      (Session.overwritten_step hinv.1 hinv.2 hbehind hstep).trans hnil⟩
  · intro hcopied hover
    exact (meets_of_exec (fun s => s.WellFormed ∧ s.HoldsWaiting) Session.Intact
      (fun _ _ _ => Session.wellFormed_and_holdsWaiting_step)
      (fun _ _ _ h => Session.Intact.of_step h.1 h.2) hinit hrun ⟨hcopied, hover⟩).2

/-- A table and two messages, of which the first is read before the second arrives. -/
theorem overwritten_eq_nil_iff_two_messages :
    ∃ s, exec Session.step (.initial (fun _ => 0) 16000)
        [.arrive (List.replicate 25 48), .door 1, .arrive [1], .read (some 1), .arrive [2]] =
          some s ∧
      s.overwritten = [] := by
  have hsome : (exec Session.step (.initial (fun _ => 0) 16000)
      [.arrive (List.replicate 25 48), .door 1, .arrive [1], .read (some 1),
        .arrive [2]]).isSome := by
    decide +kernel
  obtain ⟨s, hrun⟩ := Option.isSome_iff_exists.mp hsome
  exact ⟨s, hrun, (overwritten_eq_nil_iff hrun).1 (by decide +kernel)⟩

/-- After the table was consumed, one completion is polled and the work requests posted
by `init` are the only ones. -/
theorem Session.exists_exec_table :
    ∃ s, exec Session.step (.initial (fun _ => 0) 16000)
        [.arrive (List.replicate 25 48), .door 1] = some s ∧
      s.arrived = 1 ∧ s.polled = 1 ∧ s.posted = (List.range 16000).map (· % recvNums) := by
  have hsome : (exec Session.step (.initial (fun _ => 0) 16000)
      [.arrive (List.replicate 25 48), .door 1]).isSome := by
    decide +kernel
  obtain ⟨s, hs⟩ := Option.isSome_iff_exists.mp hsome
  obtain ⟨t, ht, hdoor⟩ := exec_cons_eq_some.mp hs
  obtain ⟨_, _, hposted, harrived, hpolled, _⟩ := Session.arrive_cases ht
  obtain ⟨u, hu, hend⟩ := exec_cons_eq_some.mp hdoor
  obtain rfl : u = s := by simpa using hend
  obtain ⟨_, _, rfl⟩ := Session.door_cases hu
  exact ⟨_, hs, harrived, congrArg (· + 1) hpolled, hposted.trans (Session.posted_initial _ _)⟩

/-- A peer that sends 1025 messages after its table, all before the first read, has its
first message overwritten by the last. -/
theorem unread_message_overwritten_by_fast_peer :
    ∃ s, exec Session.step (.initial (fun _ => 0) 16000)
        ([.arrive (List.replicate 25 48), .door 1] ++ List.replicate 1024 (.arrive [1]) ++
          [.arrive [2]]) = some s ∧
      1 ∈ s.overwritten := by
  obtain ⟨u, hu, harrived, hpolled, hbuffers⟩ := Session.exists_exec_table
  have hlength : u.posted.length = 16000 := by
    rw [hbuffers, List.length_map, List.length_range]
  obtain ⟨v, hv, hmany, hkept, hwaiting⟩ :=
    Session.exists_exec_arrivals [1] (by decide) 1024 (s := u) (by omega)
  have hrun : exec Session.step (.initial (fun _ => 0) 16000)
      ([.arrive (List.replicate 25 48), .door 1] ++ List.replicate 1024 (.arrive [1])) =
        some v := by
    rw [exec_append, hu, Option.bind_some, hv]
  obtain ⟨w, hw⟩ := Session.exists_step_arrive (s := v) [2] (by decide) (by rw [hkept]; omega)
  obtain ⟨buffer, hbuffer, _, _, _, _, _, _, _, hover⟩ := Session.arrive_cases hw
  obtain rfl : 1 = buffer := by
    rw [hkept, hbuffers, hmany, harrived] at hbuffer
    simpa [recvNums] using hbuffer
  refine ⟨w, ?_, ?_⟩
  · rw [exec_append, hrun, Option.bind_some, exec_cons_eq_some]
    exact ⟨w, hw, rfl⟩
  · obtain ⟨skipped, hheld, _⟩ := (invariant_of_exec (fun s => s.WellFormed ∧ s.HoldsWaiting)
      (fun _ _ _ => Session.wellFormed_and_holdsWaiting_step)
      ⟨Session.wellFormed_initial _ _, Session.holdsWaiting_initial _ _⟩ hrun).2
    rw [hover]
    refine List.mem_append_right _ (List.mem_filter.mpr ⟨?_, ?_⟩)
    · rw [hheld, hwaiting, hmany, harrived, hpolled]
      exact List.mem_append_right _ (List.mem_range'_1.mpr (by omega))
    · rw [hkept, hbuffers]
      simp [recvNums]

end RdmaTransport
