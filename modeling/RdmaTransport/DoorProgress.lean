import RdmaTransport.Door

/-!
# The doors are passed

Two sessions that both wait for the table of the other before they send their own wait
forever, since nobody times out. This file shows that this is the only way for `door` to
get stuck, as long as the adapters take a receive work request on either side: from every
state the two constructors can be completed, in a bounded number of steps and whatever the
constructed session did in the meantime.
-/

namespace RdmaTransport

open Runs

/-- The number of points a side has still to pass. -/
def DoorConfig.left (c : DoorConfig) : DoorPoint → ℕ
  | .init => 5
  | .startRw => if c.flag = 1 then 4 else 2
  | .pollSent => if c.flag = 1 then 3 else 1
  | .pollTable => if c.flag = 1 then 2 else 4
  | .startRemote _ => if c.flag = 1 then 1 else 3
  | .done => 0

/-- The steps left to a side: the points, and the arrival of the table. -/
def DoorSide.left (c : DoorConfig) (d : DoorSide) : ℕ :=
  c.left d.point + if d.session.arrived = 0 then 1 else 0

/-- Passing a point leaves less to do for a side. -/
theorem DoorSide.left_lt {c : DoorConfig} {d e : DoorSide} {p : DoorPoint} (hd : d.point = p)
    (hless : c.left e.point < c.left p) (harrived : e.session.arrived = d.session.arrived) :
    e.left c < d.left c := by
  rw [DoorSide.left, DoorSide.left, harrived, hd]
  omega

/-- The points are passed in the order given by `flag`. -/
theorem DoorConfig.left_decreases (c : DoorConfig) (n : UInt32) :
    c.left c.afterInit < c.left .init ∧ c.left .pollSent < c.left .startRw ∧
      c.left c.afterSent < c.left .pollSent ∧ c.left (.startRemote n) < c.left .pollTable ∧
      c.left c.afterRemote < c.left (.startRemote n) := by
  by_cases hflag : c.flag = 1 <;>
    simp [DoorConfig.left, DoorConfig.afterInit, DoorConfig.afterSent, DoorConfig.afterRemote,
      hflag]

/-- The steps left to both sides. -/
def doorsLeft (c : Bool → DoorConfig) (s : Bool → DoorSide) : ℕ :=
  (s false).left (c false) + (s true).left (c true)

/-- Every move is made by a successful action. -/
theorem DoorMove.step_eq {c : DoorConfig} {peer d e : DoorSide} {a : DoorAction} (hfits : c.Fits)
    (hmove : DoorMove c peer d a e) : a.Succeeds ∧ d.step c peer a = some e := by
  cases hmove with
  | init hpoint => exact ⟨rfl, by simp [DoorSide.step, hpoint]⟩
  | startRw hpoint => exact ⟨rfl, by simp [DoorSide.step, hpoint, hfits.startRwBytes_eq]⟩
  | pollSent hpoint hsent harrived =>
    exact ⟨rfl, by simp [DoorSide.step, hpoint, hsent, harrived]⟩
  | pollTable hpoint hdoor => exact ⟨rfl, by simp [DoorSide.step, hpoint, hdoor]⟩
  | startRemote hpoint => exact ⟨rfl, by simp [DoorSide.step, hpoint]⟩
  | deliver hmessage harrive => exact ⟨rfl, by simp [DoorSide.step, hmessage, harrive]⟩
  | send hpoint hlength => exact ⟨rfl, by simp [DoorSide.step, hpoint, hlength]⟩
  | call hpoint hcall hstep => exact ⟨rfl, by simp [DoorSide.step, hpoint, hcall, hstep]⟩

/-- A successful action is enabled that leaves less to do. -/
def DoorsAdvance (c : Bool → DoorConfig) (s : Bool → DoorSide) : Prop :=
  ∃ a t, a.Succeeds ∧ doorStep c s a = some t ∧ doorsLeft c t < doorsLeft c s

section Advance

variable {c : Bool → DoorConfig} {s : Bool → DoorSide} {i : Bool}

/-- What leaves less to do for one side leaves less to do for both. -/
theorem DoorsAdvance.of_move {a : DoorAction} {e : DoorSide} (hfits : ∀ i, (c i).Fits)
    (hside : a.side = i) (hmove : DoorMove (c i) (s !i) (s i) a e)
    (hless : e.left (c i) < (s i).left (c i)) : DoorsAdvance c s := by
  subst hside
  obtain ⟨hok, hstep⟩ := hmove.step_eq (hfits _)
  refine ⟨a, Function.update s a.side e, hok, by simp [doorStep, hstep], ?_⟩
  cases hi : a.side <;> rw [hi] at hless <;> simp [doorsLeft, hless]

/-- A side that is not constructed can go on, or it waits for a message to arrive. -/
theorem DoorsReached.advance_or_waits (hfits : ∀ i, (c i).Fits) (hs : DoorsReached c s)
    (hpoint : (s i).point ≠ .done) :
    DoorsAdvance c s ∨ ((s i).point = .pollSent ∧ (s !i).session.arrived = 0) ∨
      ((s i).point = .pollTable ∧ (s i).session.arrived = 0) := by
  obtain ⟨hinit, hrw, hsent, _, _⟩ := (c i).left_decreases 0
  cases h : (s i).point with
  | init => exact .inl (.of_move (i := i) hfits rfl (.init h) (DoorSide.left_lt h hinit rfl))
  | startRw => exact .inl (.of_move (i := i) hfits rfl (.startRw h) (DoorSide.left_lt h hrw rfl))
  | pollSent =>
    rcases Nat.eq_zero_or_pos (s !i).session.arrived with hzero | hpos
    · exact .inr (.inl ⟨rfl, hzero⟩)
    · have hhead := (hs.sends i).sent_head (by rw [h]; rfl)
      have hne : (s i).sent ≠ [] := by
        intro hnil
        simp [hnil] at hhead
      refine .inl (.of_move (i := i) hfits rfl (.pollSent h hne hpos) ?_)
      exact DoorSide.left_lt h hsent rfl
  | pollTable =>
    rcases Nat.eq_zero_or_pos (s i).session.arrived with hzero | hpos
    · exact .inr (.inr ⟨rfl, hzero⟩)
    · have hstarted := (hs.polls i).started_eq
      rw [h] at hstarted
      have hpolled := ((hs.polls i).wellFormed.fresh hstarted).1
      have hpoll : (s i).session.poll 1 = some { (s i).session with polled := 1 } := by
        rw [Session.poll_eq_some, hpolled]
        exact ⟨⟨le_rfl, by decide, hpos⟩, rfl⟩
      have hdoor : ∃ session, (s i).session.door 1 = some session ∧
          session.arrived = (s i).session.arrived := by
        rw [Session.door, hpoll]
        exact ⟨_, rfl, rfl⟩
      obtain ⟨session, hdoor, hsame⟩ := hdoor
      refine .inl (.of_move (i := i) hfits rfl (.pollTable h hdoor) ?_)
      exact DoorSide.left_lt h ((c i).left_decreases _).2.2.2.1 hsame
  | startRemote n =>
    refine .inl (.of_move (i := i) hfits rfl (.startRemote h) ?_)
    exact DoorSide.left_lt h ((c i).left_decreases n).2.2.2.2 rfl
  | done => exact absurd h hpoint

/-- A table on its way to a side that has not got it yet can arrive, once the side has
posted its buffers. -/
theorem DoorsReached.advance_of_sent (hfits : ∀ i, (c i).Fits) (hs : DoorsReached c s)
    (haccepted : 0 < (c i).accepted) (hsent : (s !i).sent ≠ [])
    (harrived : (s i).session.arrived = 0) : DoorsAdvance c s := by
  have hdone : (s i).point ≠ .done := by
    intro hdone
    have hpos := hs.arrived_pos hdone
    omega
  by_cases hinit : (s i).point = .init
  · rcases hs.advance_or_waits hfits hdone with h | ⟨h, _⟩ | ⟨h, _⟩
    · exact h
    · simp [hinit] at h
    · simp [hinit] at h
  · obtain ⟨message, rest, hmessage⟩ := List.exists_cons_of_ne_nil hsent
    have hfirst : (s !i).sent[(s i).session.arrived]? = some message := by
      rw [harrived, hmessage]
      rfl
    have hlength : message.length ≤ gap :=
      (hs.sends !i).sent_fits message (by rw [hmessage]; exact List.mem_cons_self)
    have hbuffer : (s i).session.posted[(s i).session.arrived]? = some 0 := by
      have hcount : 0 < postCount 16000 (c i).accepted := by
        simp only [postCount, postLimit]
        omega
      rw [(hs.polls i).posted hinit hdone, harrived, List.getElem?_map,
        List.getElem?_eq_getElem (by simpa using hcount)]
      simp
    have harrive : ∃ session, (s i).session.arrive message = some session ∧
        session.arrived = (s i).session.arrived + 1 := by
      rw [Session.arrive, if_pos hlength, hbuffer]
      exact ⟨_, rfl, by simp [Session.arrived]⟩
    obtain ⟨session, harrive, hmore⟩ := harrive
    refine .of_move (i := i) hfits rfl (.deliver hfirst harrive) ?_
    simp [DoorSide.left, harrived, hmore]

/-- As long as something is left to do, something can be done, if one of the sides sends
first. -/
theorem DoorsReached.advance (hfits : ∀ i, (c i).Fits) (hs : DoorsReached c s)
    (hflag : ∃ i, (c i).flag = 1) (haccepted : ∀ i, 0 < (c i).accepted)
    (hleft : 0 < doorsLeft c s) : DoorsAdvance c s := by
  -- A side that has sent waits for nobody but the adapter.
  have hflight : ∀ i, (c i).hasSent (s i).point → (s !i).session.arrived = 0 →
      DoorsAdvance c s := by
    intro i hhas hzero
    refine hs.advance_of_sent hfits (haccepted !i) ?_ hzero
    have hhead := (hs.sends i).sent_head hhas
    intro hnil
    rw [Bool.not_not] at hnil
    simp [hnil] at hhead
  obtain ⟨i, hi⟩ : ∃ i, (s i).point ≠ .done := by
    by_contra hall
    push Not at hall
    have hzero : ∀ i, (s i).left (c i) = 0 := by
      intro i
      have hne : (s i).session.arrived ≠ 0 := (hs.arrived_pos (hall i)).ne'
      simp [DoorSide.left, hall i, DoorConfig.left, hne]
    simp [doorsLeft, hzero] at hleft
  rcases hs.advance_or_waits hfits hi with h | ⟨hpoint, hzero⟩ | ⟨hpoint, hzero⟩
  · exact h
  · exact hflight i (by rw [hpoint]; rfl) hzero
  · by_cases hsent : (c !i).hasSent (s !i).point
    · exact hflight (!i) hsent (by rwa [Bool.not_not])
    · -- The peer has not sent: it goes on by itself, or it waits for the table of this side.
      have hpeer : (s !i).point ≠ .done := by
        intro hdone
        simp [hdone, DoorConfig.hasSent] at hsent
      rcases hs.advance_or_waits hfits hpeer with h | ⟨hpoint', _⟩ | ⟨hpoint', hzero'⟩
      · exact h
      · simp [hpoint', DoorConfig.hasSent] at hsent
      · refine hflight i ?_ hzero'
        have hpeerFlag : (c !i).flag ≠ 1 := by simpa [hpoint', DoorConfig.hasSent] using hsent
        obtain ⟨k, hk⟩ := hflag
        obtain rfl : k = i := by
          by_contra hne
          rw [Bool.eq_not_of_ne hne] at hk
          exact hpeerFlag hk
        simp [hpoint, DoorConfig.hasSent, hk]

/-- At the beginning there are twelve steps to do, and never more. -/
theorem doorsLeft_le (c : Bool → DoorConfig) (s : Bool → DoorSide) : doorsLeft c s ≤ 12 := by
  have hside : ∀ i, (s i).left (c i) ≤ 6 := by
    intro i
    have hpoint : (c i).left (s i).point ≤ 5 := by
      unfold DoorConfig.left
      split <;> (try split_ifs) <;> omega
    unfold DoorSide.left
    split_ifs <;> omega
  have hfalse := hside false
  have htrue := hside true
  unfold doorsLeft
  omega

/-- With nothing left to do both sides are constructed. -/
theorem done_of_doorsLeft_eq_zero (hleft : doorsLeft c s = 0) (i : Bool) : (s i).point = .done := by
  have hside : (c i).left (s i).point = 0 := by
    unfold doorsLeft DoorSide.left at hleft
    cases i <;> omega
  cases hpoint : (s i).point with
  | done => rfl
  | init => simp [hpoint, DoorConfig.left] at hside
  | startRw | pollSent | pollTable | startRemote _ =>
    simp only [hpoint, DoorConfig.left] at hside
    split_ifs at hside

/-- If neither side sends first, nothing is ever sent. -/
theorem DoorsReached.sent_nil_step (hfits : ∀ i, (c i).Fits) (hs : DoorsReached c s)
    (hflag : ∀ i, (c i).flag ≠ 1) (hnil : ∀ i, (s i).sent = []) {t : Bool → DoorSide}
    {a : DoorAction} (hok : a.Succeeds) (h : doorStep c s a = some t) : ∀ i, (t i).sent = [] := by
  obtain ⟨i, e, _, hmove, rfl⟩ := move_of_doorStep hfits hok h
  have hquiet : (s i).session.started = false := by
    by_contra hstarted
    have harrived := hs.arrived_pos_of_started (i := i) (by simpa using hstarted)
    have hle := hs.arrived_le i
    rw [hnil] at hle
    exact absurd hle (Nat.not_le.mpr harrived)
  have hstarted := (hs.polls i).started_eq
  rw [hquiet] at hstarted
  have he : e.sent = [] := by
    cases hmove with
    | startRw hpoint => simp [hpoint, DoorConfig.hasPolled, hflag i] at hstarted
    | send hpoint hlength => simp [hpoint, DoorConfig.hasPolled] at hstarted
    | _ => exact hnil i
  intro k
  by_cases hk : k = i
  · subst hk
    rwa [Function.update_self]
  · rw [Function.update_of_ne hk]
    exact hnil k

end Advance

/-- **Completion of the doors.** Let the addresses have at most 16 digits, the tables fit a
buffer, and `data` and `tmp` have room for the NULs, which the arrays of the source lack.
After every run of two sessions in which no work request is refused and no poll fails, the
two constructors can be completed without such a failure, in at most twelve steps, exactly if
one of the sides sends its table first and both adapters have taken a receive work request.
Otherwise no run without such a failure completes them. -/
theorem doors_completable_iff {c : Bool → DoorConfig} (hfits : ∀ i, (c i).Fits)
    {acts : List DoorAction} {s : Bool → DoorSide}
    (hrun : exec (doorStep c) (doorStart c) acts = some s) (hok : ∀ a ∈ acts, a.Succeeds) :
    (∃ more t, exec (doorStep c) s more = some t ∧ (∀ a ∈ more, a.Succeeds) ∧ more.length ≤ 12 ∧
      ∀ i, (t i).point = .done) ↔ (∃ i, (c i).flag = 1) ∧ ∀ i, 0 < (c i).accepted := by
  have hreach : ∀ {acts : List DoorAction} {s t : Bool → DoorSide}, DoorsReached c s →
      exec (doorStep c) s acts = some t → (∀ a ∈ acts, a.Succeeds) → DoorsReached c t :=
    fun hs hrun hok => ((meets_iff_forall hrun).mpr hok).invariant (DoorsReached c)
      (fun _ _ _ hs hok h => hs.step hfits hok h) hs hrun
  have hs : DoorsReached c s := hreach (DoorsReached.start c) hrun hok
  constructor
  · rintro ⟨more, t, hmore, hokMore, _, hdone⟩
    have ht : DoorsReached c t := hreach hs hmore hokMore
    refine ⟨?_, fun i => (ht.polls i).accepted_pos (ht.arrived_pos (hdone i))⟩
    by_contra hflag
    push Not at hflag
    -- The whole run from the start on sends nothing.
    have hwhole : exec (doorStep c) (doorStart c) (acts ++ more) = some t := by
      rw [exec_append, hrun, Option.bind_some, hmore]
    have hokWhole : ∀ a ∈ acts ++ more, a.Succeeds := by
      intro a ha
      rcases List.mem_append.mp ha with ha | ha
      · exact hok a ha
      · exact hokMore a ha
    have hquiet := ((meets_iff_forall hwhole).mpr hokWhole).invariant
      (fun s => DoorsReached c s ∧ ∀ i, (s i).sent = [])
      (fun _ _ _ hs hok h => ⟨hs.1.step hfits hok h, hs.1.sent_nil_step hfits hflag hs.2 hok h⟩)
      ⟨DoorsReached.start c, fun _ => rfl⟩ hwhole
    have hle := ht.arrived_le true
    rw [hquiet.2, List.length_nil] at hle
    exact absurd hle (Nat.not_le.mpr (ht.arrived_pos (hdone true)))
  · rintro ⟨hflag, haccepted⟩
    obtain ⟨more, t, hmore, _, hzero, hokMore, hlength⟩ :=
      exists_exec_of_progress (DoorsReached c) (doorsLeft c) (P := fun a : DoorAction => a.Succeeds)
        (fun s hs hleft => by
          obtain ⟨a, t, hok, hstep, hless⟩ := hs.advance hfits hflag haccepted hleft
          exact ⟨a, t, hok, hstep, hs.step hfits hok hstep, hless⟩) hs
    exact ⟨more, t, hmore, hokMore, hlength.trans (doorsLeft_le c s),
      done_of_doorsLeft_eq_zero hzero⟩

/-- The sample sessions after the second one has been reached by the table of the first. -/
theorem doors_completable_sample :
    ∃ s more t,
      exec (doorStep sampleDoors) (doorStart sampleDoors) (sampleDoorActions.take 4) = some s ∧
      exec (doorStep sampleDoors) s more = some t ∧ ∀ i, (t i).point = .done := by
  have hfits : ∀ i, (sampleDoors i).Fits := by
    intro i
    cases i <;> exact ⟨by simp [sampleDoors], by decide, by decide, by decide⟩
  obtain ⟨more, t, hmore, _, _, hdone⟩ :=
    (@doors_completable_iff sampleDoors hfits (sampleDoorActions.take 4) _ rfl (by decide)).mpr
      ⟨⟨true, rfl⟩, fun i => by cases i <;> decide⟩
  exact ⟨_, more, t, rfl, hmore, hdone⟩

end RdmaTransport
