import RdmaTransport.Bulk

/-!
# What a failed bulk transfer leaves behind

Each of the four loops of `bulk` can fail at any iteration, and `bulk` then returns -1 at
once. Only the last loop deregisters, so an earlier failure leaves the regions of the call
registered and its writes outstanding, and a failed deregistration leaves the regions
behind it. `rdma` moves the index of the slot before it knows whether the work request is
taken. This file finds the failures after which nothing is left to clean up.

A write is outstanding as long as its completion was not polled.
-/

namespace RdmaTransport

open Runs

/-- The call tried to deregister a region it had registered, and the adapter refused. -/
def BulkOutcome.DeregFailed (s : SendSide) (env : BulkEnv) (out : BulkOutcome) (mr : ℕ) : Prop :=
  out.beforeDereg.isSome ∧ ∃ k < out.num, mr = s.nextMr + k ∧ env.deregisters k = false ∧
    ∀ j < k, env.deregisters j = true

/-- What a call that returns -1 has to leave. The regions of the call are those numbered
from `nextMr` before it, and its writes are those behind the work requests posted before
it. -/
structure BulkOutcome.CleansUp (s : SendSide) (env : BulkEnv) (out : BulkOutcome) : Prop where
  /-- A region of the call is still registered only if its deregistration failed. -/
  regions : ∀ m ∈ out.state.regions, s.nextMr ≤ m.mr → out.DeregFailed s env m.mr
  /-- A write of the call is outstanding only on such a region. -/
  writes : ∀ w wr, out.state.posted[w]? = some wr → s.posted.length ≤ w →
    out.state.polled ≤ w → out.DeregFailed s env wr.lkey
  /-- The index has moved on by the number of writes the adapter took. -/
  index : out.state.rdmaIndex =
    (s.rdmaIndex + (out.state.posted.length - s.posted.length)) % s.slices

/-- The polls return `num` successful completions before any of them fails. -/
def BulkEnv.PollsEnough (env : BulkEnv) (num : ℕ) : Prop :=
  ∃ (counts : List ℕ) (rest : List Poll), env.polls = counts.map Poll.got ++ rest ∧
    counts.sum = num

/-- The verbs of a call of `num` pieces fail at the first registration, or nowhere before the
last deregistration. In the second case at most one completion of an earlier work request
was waiting, unless there is only one piece. -/
def BulkEnv.FailsAtEnds (env : BulkEnv) (num waiting : ℕ) : Prop :=
  env.registers 0 = false ∨
    (∀ i < num, env.registers i = true) ∧ (∀ i < num, env.posts i = true) ∧
    env.PollsEnough num ∧ (∀ i, i + 1 < num → env.deregisters i = true) ∧
    (num = 1 ∨ waiting ≤ 1)

/-- The send side during a call that has registered `pieces`, posted `wrs` and polled. -/
def SendSide.during (s : SendSide) (pieces : List RdmaMem) (wrs : List PostedWr)
    (index polled : ℕ) : SendSide :=
  { s with
    regions := s.regions ++ pieces
    nextMr := s.nextMr + pieces.length
    posted := s.posted ++ wrs
    rdmaIndex := index
    polled := polled }

/-- The pieces a call registers: they get the next numbers, one for each registration that
succeeds. -/
structure BulkEnv.Registers (env : BulkEnv) (s : SendSide) (pieces : List RdmaMem) : Prop where
  /-- The regions are numbered in order. -/
  mrs : pieces.map RdmaMem.mr = List.range' s.nextMr pieces.length
  /-- The registrations succeed. -/
  registers : ∀ k < pieces.length, env.registers k = true

/-- The ways in which a call of `num` pieces can stand when it is left. -/
inductive BulkExit (s : SendSide) (num : ℕ) (env : BulkEnv) : BulkOutcome → Prop
  /-- A registration fails. -/
  | register (pieces : List RdmaMem) (hpieces : env.Registers s pieces)
      (hfewer : pieces.length < num) (hbad : env.registers pieces.length = false) :
      BulkExit s num env ⟨s.during pieces [] s.rdmaIndex s.polled, some (-1), num, [], none⟩
  /-- A work request is refused. -/
  | post (pieces : List RdmaMem) (wrs : List PostedWr) (index : ℕ)
      (hpieces : env.Registers s pieces) (hlength : pieces.length = num)
      (hindex : index % s.slices = index) (hfewer : wrs.length < num)
      (hbad : env.posts wrs.length = false) :
      BulkExit s num env ⟨s.during pieces wrs index s.polled, some (-1), num, [], none⟩
  /-- A poll fails, or completions are missing. -/
  | poll (pieces : List RdmaMem) (wrs : List PostedWr) (polled : ℕ) (acks : List ℕ)
      (result : Option ℤ) (hpieces : env.Registers s pieces) (hlength : pieces.length = num)
      (hresult : result ≠ some 0) (hpolls : ¬env.PollsEnough num) :
      BulkExit s num env ⟨s.during pieces wrs ((s.rdmaIndex + num) % s.slices) polled, result, num,
        acks, none⟩
  /-- The first `n` pieces are deregistered. -/
  | deregister (pieces : List RdmaMem) (wrs : List PostedWr) (acks : List ℕ) (n : ℕ) (ok : Bool)
      (hpieces : env.Registers s pieces) (hlength : pieces.length = num)
      (hkeys : wrs.map PostedWr.lkey = pieces.map RdmaMem.mr)
      (hposts : ∀ k < num, env.posts k = true) (hpolls : env.PollsEnough num)
      (hderegs : ∀ k < n, env.deregisters k = true)
      (hok : ok = true ∧ n = num ∨ ok = false ∧ n < num ∧ env.deregisters n = false) :
      BulkExit s num env ⟨{ s.during pieces wrs ((s.rdmaIndex + num) % s.slices)
          (s.polled + num) with regions := s.regions ++ pieces.drop n },
        some (if ok then 0 else -1), num, acks,
        some (s.during pieces wrs ((s.rdmaIndex + num) % s.slices) (s.polled + num))⟩

/-- Regions registered later get other numbers, and the index is that of a slot. -/
def SendSide.Numbered (s : SendSide) : Prop :=
  (∀ m ∈ s.regions, m.mr < s.nextMr) ∧ s.rdmaIndex % s.slices = s.rdmaIndex

/-- The numbers of the pieces are new. -/
theorem BulkEnv.Registers.bounds {env : BulkEnv} {s : SendSide} {pieces : List RdmaMem}
    (h : env.Registers s pieces) {m : RdmaMem} (hm : m ∈ pieces) :
    s.nextMr ≤ m.mr ∧ m.mr < s.nextMr + pieces.length := by
  have hmem : m.mr ∈ pieces.map RdmaMem.mr := List.mem_map_of_mem hm
  rwa [h.mrs, List.mem_range'_1] at hmem

/-- The piece at a place has the number of that place. -/
theorem BulkEnv.Registers.mr_eq {env : BulkEnv} {s : SendSide} {pieces : List RdmaMem}
    (h : env.Registers s pieces) {k : ℕ} {m : RdmaMem} (hm : pieces[k]? = some m) :
    m.mr = s.nextMr + k := by
  obtain ⟨hk, rfl⟩ := List.getElem?_eq_some_iff.mp hm
  have hget : (pieces.map RdmaMem.mr)[k]? = some (s.nextMr + k) := by
    rw [h.mrs, List.getElem?_range' hk, Nat.one_mul]
  rw [List.getElem?_map, hm] at hget
  exact Option.some.inj hget

/-- If there is a piece, the first registration succeeded. -/
theorem BulkEnv.Registers.first_ne {env : BulkEnv} {s : SendSide} {pieces : List RdmaMem}
    (h : env.Registers s pieces) (hsome : 0 < pieces.length) : env.registers 0 ≠ false := by
  rw [h.registers 0 hsome]
  decide

/-- The work request at a place names the region with the number of that place. -/
theorem BulkEnv.Registers.lkey_eq {env : BulkEnv} {s : SendSide} {pieces : List RdmaMem}
    (h : env.Registers s pieces) {wrs : List PostedWr}
    (hkeys : wrs.map PostedWr.lkey = pieces.map RdmaMem.mr) {k : ℕ} {wr : PostedWr}
    (hwr : wrs[k]? = some wr) : wr.lkey = s.nextMr + k := by
  have hget : (wrs.map PostedWr.lkey)[k]? = some wr.lkey := by
    rw [List.getElem?_map, hwr, Option.map_some]
  rw [hkeys, List.getElem?_map, Option.map_eq_some_iff] at hget
  obtain ⟨m, hm, hsame⟩ := hget
  rw [← hsame, h.mr_eq hm]

/-- Only the first deregistration that the adapter refuses has failed: the loop ends there. -/
theorem BulkOutcome.deregFailed_iff {s : SendSide} {env : BulkEnv} {out : BulkOutcome} {n : ℕ}
    (hderegs : ∀ k < n, env.deregisters k = true) (hfewer : n < out.num)
    (hbad : env.deregisters n = false) (hbefore : out.beforeDereg.isSome) (k : ℕ) :
    out.DeregFailed s env (s.nextMr + k) ↔ k = n := by
  constructor
  · rintro ⟨_, j, _, hj, hfalse, htrue⟩
    obtain rfl : k = j := Nat.add_left_cancel hj
    rcases Nat.lt_trichotomy k n with hlt | heq | hgt
    · rw [hderegs k hlt] at hfalse
      cases hfalse
    · exact heq
    · rw [htrue n hgt] at hbad
      cases hbad
  · rintro rfl
    exact ⟨hbefore, k, hfewer, rfl, hbad, hderegs⟩

namespace SendSide

/-- Erasing the pieces behind older regions leaves those regions and the other pieces. -/
theorem foldl_erase_append {old front : List RdmaMem} (back : List RdmaMem)
    (hold : ∀ m ∈ front, m ∉ old) :
    front.foldl List.erase (old ++ (front ++ back)) = old ++ back := by
  induction front with
  | nil => rfl
  | cons m front ih =>
    rw [List.forall_mem_cons] at hold
    rw [List.foldl_cons, List.erase_append_right _ hold.1, List.cons_append, List.erase_cons_head,
      ih hold.2]

/-- A call of `bulk` is left in one of these ways. -/
theorem bulk_exit {s : SendSide} {ptr size : ℕ} {env : BulkEnv} {out : BulkOutcome}
    (hs : s.Sound) (hn : s.Numbered) (h : s.bulk ptr size env = some out) :
    BulkExit s (bulkNum s.rdmaGap size) env out := by
  obtain ⟨pieces, _, _, rfl, hmrs, hgood, hcases⟩ := bulk_cases hs.rdmaGap_pos h
  have hpieces : env.Registers s pieces := ⟨hmrs, hgood⟩
  rcases hcases with ⟨hbad, hfewer, rfl⟩ | ⟨hlength, hrest⟩
  · have hexit := BulkExit.register pieces hpieces hfewer hbad
    rwa [during, List.append_nil] at hexit
  rcases hrest with ⟨u, hpost, rfl⟩ | ⟨u, acked, hpost, hack, hrest⟩
  · obtain ⟨wrs, index, rfl, _, hindex, _, hcases⟩ := postLoop_cases hpost
    rcases hcases with ⟨hall, _⟩ | ⟨_, hfewer, hbad⟩
    · cases hall
    · rw [Nat.zero_add] at hbad
      exact .post pieces wrs index hpieces hlength (hindex hn.2).1 hfewer hbad
  obtain ⟨wrs, index, rfl, hsges, hindex, hposts, hcases⟩ := postLoop_cases hpost
  rcases hcases with ⟨_, hall⟩ | ⟨hsome, _⟩
  swap
  · cases hsome
  obtain rfl := (hindex hn.2).2 rfl
  obtain ⟨polled, hstate⟩ := ackLoop_state hack
  have hended := ackLoop_ended_iff hack
  have hsome : s.polled ≤ (s.posted ++ wrs).length := by
    rw [List.length_append]
    exact hs.1.trans (Nat.le_add_right _ _)
  obtain ⟨_, _, _, hcount, _⟩ := ackLoop_spec hsome hack
  simp only [Nat.zero_add] at hended hposts
  rcases hrest with ⟨result, rfl, hresult, hnot⟩ | ⟨v, ok, htrue, hdereg, rfl⟩
  · rw [hstate]
    exact .poll pieces wrs polled acked.acks result hpieces hlength hresult
      fun h => hnot (hended.mpr h)
  · have hpolled := hcount htrue
    rw [hstate] at hdereg hpolled ⊢
    obtain ⟨n, rfl, hderegs, hok⟩ := deregLoop_cases hdereg
    simp only [Nat.zero_add] at hderegs hok
    simp only [Nat.add_zero] at hpolled
    have hregions : ((pieces.drop 0).take n).foldl List.erase (s.regions ++ pieces) =
        s.regions ++ pieces.drop n := by
      have hnew : ∀ m ∈ pieces.take n, m ∉ s.regions := by
        intro m hm hold
        have hlt := hn.1 m hold
        have hle := (hpieces.bounds (List.mem_of_mem_take hm)).1
        omega
      have herase := foldl_erase_append (pieces.drop n) hnew
      rwa [List.take_append_drop] at herase
    rw [hregions, hpolled]
    refine .deregister pieces wrs acked.acks n ok hpieces hlength ?_ (hall ▸ hposts)
      (hended.mp htrue) hderegs hok
    rw [hall, ← hlength, List.drop_zero, List.take_length] at hsges
    have hkeys := congrArg (List.map Sge.lkey) hsges
    rwa [List.map_map, List.map_map] at hkeys

/-- The pieces of a call get numbers of their own. -/
theorem Numbered.during {s : SendSide} {env : BulkEnv} {pieces : List RdmaMem} {index : ℕ}
    (hn : s.Numbered) (hpieces : env.Registers s pieces) (hindex : index % s.slices = index)
    (wrs : List PostedWr) (polled : ℕ) : (s.during pieces wrs index polled).Numbered := by
  refine ⟨fun m hm => ?_, hindex⟩
  rcases List.mem_append.mp hm with hold | hnew
  · exact Nat.lt_add_right _ (hn.1 m hold)
  · exact (hpieces.bounds hnew).2

/-- However a call is left, the regions have different numbers. -/
theorem Numbered.exit {s : SendSide} {num : ℕ} {env : BulkEnv} {out : BulkOutcome}
    (hn : s.Numbered) (h : BulkExit s num env out) : out.state.Numbered := by
  cases h with
  | register pieces hpieces => exact hn.during hpieces hn.2 [] s.polled
  | post pieces wrs index hpieces _ hindex => exact hn.during hpieces hindex wrs s.polled
  | poll pieces wrs polled _ _ hpieces => exact hn.during hpieces (Nat.mod_mod _ _) wrs polled
  | deregister pieces wrs acks n _ hpieces =>
    have hall := hn.during hpieces (Nat.mod_mod (s.rdmaIndex + num) _) wrs (s.polled + num)
    refine ⟨fun m hm => hall.1 m ?_, hall.2⟩
    rcases List.mem_append.mp hm with hold | hnew
    · exact List.mem_append_left _ hold
    · exact List.mem_append_right _ (List.mem_of_mem_drop hnew)

/-- Posting and polling leave the regions and the index alone. -/
theorem Numbered.sendTask {s : SendSide} (hn : s.Numbered) (task : RdmaTask) (ok : Bool) :
    (s.sendTask task ok).1.Numbered := by
  cases ok <;> exact hn

/-- The same for a query. -/
theorem Numbered.queryCq {s t : SendSide} (hn : s.Numbered) {poll : Poll} {result : Option ℕ}
    (h : s.queryCq poll = some (t, result)) : t.Numbered := by
  obtain ⟨polled, rfl⟩ := queryCq_state h
  exact hn

/-- Every operation keeps the numbers of the regions different. -/
theorem Numbered.step {s t : SendSide} {op : SendOp} (hs : s.Sound) (hn : s.Numbered)
    (h : s.step op = some t) : t.Numbered := by
  refine (invariant_step (fun s => s.Sound ∧ s.Numbered) ?_ ?_ ?_ ⟨hs, hn⟩ h).2
  · intro s task ok hs
    exact ⟨hs.1.sendTask task ok, hs.2.sendTask task ok⟩
  · intro s t poll result hs hquery
    exact ⟨hs.1.queryCq hquery, hs.2.queryCq hquery⟩
  · intro s ptr size env out hs hbulk
    exact ⟨hs.1.bulk hbulk, hs.2.exit (bulk_exit hs.1 hs.2 hbulk)⟩

/-- `init` numbers the regions. -/
theorem numbered_startRw {sendMem : RdmaMem} {remoteInfo : ℕ × ℕ} {raddrs rkeys : ℕ → ℕ}
    {slices : ℕ} {ok : Bool} {poll : Poll} {s : SendSide}
    (h : (fresh sendMem remoteInfo raddrs rkeys slices).startRw ok poll = some s) :
    s.Numbered := by
  obtain ⟨⟨u, result⟩, hquery, rfl⟩ := Option.map_eq_some_iff.mp h
  have hfresh : (fresh sendMem remoteInfo raddrs rkeys slices).Numbered := by
    refine ⟨fun m hm => ?_, Nat.zero_mod _⟩
    rw [List.mem_singleton.mp hm]
    exact Nat.lt_succ_self _
  exact (hfresh.sendTask _ ok).queryCq hquery

/-- A call that fails before it deregisters leaves its pieces registered. -/
theorem not_cleansUp {s : SendSide} {env : BulkEnv} {out : BulkOutcome} {pieces : List RdmaMem}
    (hpieces : env.Registers s pieces) (hsome : 0 < pieces.length)
    (hregions : out.state.regions = s.regions ++ pieces) (hbefore : out.beforeDereg = none) :
    ¬out.CleansUp s env := by
  intro h
  have hfirst : pieces[0] ∈ pieces := List.getElem_mem hsome
  have hleft := h.regions pieces[0] (hregions ▸ List.mem_append_right _ hfirst)
    (hpieces.bounds hfirst).1
  have hreached := hleft.1
  rw [hbefore] at hreached
  cases hreached

/-- A call whose first registration fails has nothing to clean up. -/
theorem cleansUp_of_first {s : SendSide} {env : BulkEnv} {out : BulkOutcome} (hn : s.Numbered)
    (hregions : out.state.regions = s.regions) (hposted : out.state.posted = s.posted)
    (hindex : out.state.rdmaIndex = s.rdmaIndex) : out.CleansUp s env := by
  refine ⟨?_, ?_, ?_⟩
  · intro m hm hnew
    rw [hregions] at hm
    exact absurd (hn.1 m hm) (Nat.not_lt.mpr hnew)
  · intro w wr hwr hw
    rw [hposted, List.getElem?_eq_none hw] at hwr
    cases hwr
  · rw [hposted, hindex, Nat.sub_self, Nat.add_zero, hn.2]

/-- A call whose deregistration of piece `n` fails cleans up exactly when that is the last
piece and no write is outstanding on another one. -/
theorem cleansUp_deregister_iff {s : SendSide} {env : BulkEnv} {out : BulkOutcome}
    {pieces : List RdmaMem} {wrs : List PostedWr} {n : ℕ} (hs : s.Sound) (hn : s.Numbered)
    (hpieces : env.Registers s pieces) (hlength : pieces.length = out.num)
    (hkeys : wrs.map PostedWr.lkey = pieces.map RdmaMem.mr)
    (hderegs : ∀ k < n, env.deregisters k = true) (hfewer : n < out.num)
    (hbad : env.deregisters n = false) (hregions : out.state.regions = s.regions ++ pieces.drop n)
    (hposted : out.state.posted = s.posted ++ wrs)
    (hpolled : out.state.polled = s.polled + out.num)
    (hindex : out.state.rdmaIndex = (s.rdmaIndex + out.num) % s.slices)
    (hbefore : out.beforeDereg.isSome) :
    out.CleansUp s env ↔
      n + 1 = out.num ∧ (out.num = 1 ∨ s.posted.length - s.polled ≤ 1) := by
  have hwrs : wrs.length = out.num := by
    rw [← List.length_map PostedWr.lkey, hkeys, List.length_map, hlength]
  have hfailed : ∀ k, out.DeregFailed s env (s.nextMr + k) ↔ k = n :=
    BulkOutcome.deregFailed_iff hderegs hfewer hbad hbefore
  have hwaiting := hs.1
  constructor
  · intro h
    have hlast : n + 1 = out.num := by
      by_contra hmore
      -- The piece behind the one that failed is still registered.
      have hi : n + 1 < pieces.length := by omega
      have hmem : pieces[n + 1] ∈ pieces.drop n := List.mem_drop_iff_getElem.mpr ⟨1, by omega, rfl⟩
      have hmr := hpieces.mr_eq (List.getElem?_eq_getElem hi)
      have hleft := h.regions pieces[n + 1] (hregions ▸ List.mem_append_right _ hmem) (by omega)
      rw [hmr, hfailed] at hleft
      omega
    refine ⟨hlast, ?_⟩
    by_contra hmany
    -- With two completions waiting before, the last two writes are outstanding.
    have hi : out.num - 2 < wrs.length := by omega
    have hwr : out.state.posted[s.posted.length + (out.num - 2)]? = some wrs[out.num - 2] := by
      rw [hposted, List.getElem?_append_right (by omega), Nat.add_sub_cancel_left,
        List.getElem?_eq_getElem hi]
    have hleft := h.writes _ _ hwr (by omega) (by omega)
    rw [hpieces.lkey_eq hkeys (List.getElem?_eq_getElem hi), hfailed] at hleft
    omega
  · rintro ⟨hlast, hfew⟩
    refine ⟨?_, ?_, ?_⟩
    · intro m hm hnew
      rw [hregions] at hm
      rcases List.mem_append.mp hm with hold | hpiece
      · exact absurd (hn.1 m hold) (Nat.not_lt.mpr hnew)
      · obtain ⟨k, hk⟩ := List.mem_iff_getElem?.mp hpiece
        rw [List.getElem?_drop] at hk
        have hlt := (List.getElem?_eq_some_iff.mp hk).1
        rw [hpieces.mr_eq hk, hfailed]
        omega
    · intro w wr hwr hw houtstanding
      obtain ⟨k, rfl⟩ := Nat.exists_eq_add_of_le hw
      rw [hposted, List.getElem?_append_right hw, Nat.add_sub_cancel_left] at hwr
      have hk : k < wrs.length := (List.getElem?_eq_some_iff.mp hwr).1
      rw [hpieces.lkey_eq hkeys hwr, hfailed]
      omega
    · rw [hposted, hindex, List.length_append, Nat.add_sub_cancel_left, hwrs]

end SendSide

/-- **Cleanup of a failed bulk transfer.** In every state that a run of the session reaches,
a call of `bulk` that returns -1 has cleaned up exactly when it failed at its first
registration, or at its last deregistration with at most one completion of an earlier
work request waiting before the call, or only one piece to transfer. -/
theorem bulk_cleansUp_iff {sendMem : RdmaMem} {remoteInfo : ℕ × ℕ} {raddrs rkeys : ℕ → ℕ}
    {slices : ℕ} {ok : Bool} {poll : Poll} {start s : SendSide} {ops : List SendOp}
    (hstart : (SendSide.fresh sendMem remoteInfo raddrs rkeys slices).startRw ok poll =
      some start)
    (hrun : exec SendSide.step start ops = some s) {ptr size : ℕ} {env : BulkEnv}
    {out : BulkOutcome} (hbulk : s.bulk ptr size env = some out)
    (hfailed : out.result = some (-1)) :
    out.CleansUp s env ↔
      env.FailsAtEnds (bulkNum s.rdmaGap size) (s.posted.length - s.polled) := by
  obtain ⟨hs, hn⟩ := invariant_of_exec (fun s => SendSide.Sound s ∧ s.Numbered)
    (fun _ _ _ h hstep => ⟨h.1.step hstep, SendSide.Numbered.step h.1 h.2 hstep⟩)
    ⟨SendSide.sound_startRw hstart, SendSide.numbered_startRw hstart⟩ hrun
  have hexit := SendSide.bulk_exit hs hn hbulk
  generalize bulkNum s.rdmaGap size = num at hexit ⊢
  cases hexit with
  | register pieces hpieces hfewer hbad =>
    rcases Nat.eq_zero_or_pos pieces.length with hnone | hsome
    · obtain rfl := List.length_eq_zero_iff.mp hnone
      exact iff_of_true (SendSide.cleansUp_of_first hn (List.append_nil _) (List.append_nil _) rfl)
        (.inl hbad)
    · refine iff_of_false (SendSide.not_cleansUp hpieces hsome rfl rfl) ?_
      rintro (hfirst | ⟨hall, _⟩)
      · exact hpieces.first_ne hsome hfirst
      · rw [hall _ hfewer] at hbad
        cases hbad
  | post pieces wrs index hpieces hlength _ hfewer hbad =>
    refine iff_of_false (SendSide.not_cleansUp hpieces (by omega) rfl rfl) ?_
    rintro (hfirst | ⟨_, hall, _⟩)
    · exact hpieces.first_ne (by omega) hfirst
    · rw [hall _ hfewer] at hbad
      cases hbad
  | poll pieces wrs polled acks result hpieces hlength _ hpolls =>
    have hsome : 0 < pieces.length := by
      rw [hlength]
      by_contra hzero
      exact hpolls ⟨[], env.polls, rfl, by simp; omega⟩
    refine iff_of_false (SendSide.not_cleansUp hpieces hsome rfl rfl) ?_
    rintro (hfirst | ⟨_, _, hall, _⟩)
    · exact hpieces.first_ne hsome hfirst
    · exact hpolls hall
  | deregister pieces wrs acks n ok hpieces hlength hkeys hposts hpolls hderegs hok =>
    rcases hok with ⟨rfl, _⟩ | ⟨_, hfewer, hbad⟩
    · exact absurd hfailed (by simp)
    · rw [SendSide.cleansUp_deregister_iff hs hn hpieces hlength hkeys hderegs hfewer hbad rfl rfl
        rfl rfl rfl]
      dsimp only
      constructor
      · rintro ⟨hlast, hfew⟩
        refine .inr ⟨hlength ▸ hpieces.registers, hposts, hpolls, ?_, hfew⟩
        intro i hi
        exact hderegs i (by omega)
      · rintro (hfirst | ⟨_, _, _, hall, hfew⟩)
        · exact absurd hfirst (hpieces.first_ne (by omega))
        · refine ⟨?_, hfew⟩
          by_contra hmore
          rw [hall n (by omega)] at hbad
          cases hbad

/-- A transfer of two pieces, whose second deregistration fails, with no completion waiting
before it. -/
theorem bulk_cleansUp_iff_two_pieces :
    ∃ start s out, (SendSide.fresh ⟨0, 0, gap⟩ (0, 0) (fun _ => 1) (fun _ => 1) 512).startRw true
        (.got 1) = some start ∧
      exec SendSide.step start [.latency 1 true (.got 1)] = some s ∧
      s.bulk 0 (rdmaGapInit + 1) ⟨fun _ => true, fun _ => true, [.got 2], fun k => k == 0⟩ =
        some out ∧
      out.result = some (-1) ∧
      out.CleansUp s ⟨fun _ => true, fun _ => true, [.got 2], fun k => k == 0⟩ := by
  have hnum : bulkNum rdmaGapInit (rdmaGapInit + 1) = 2 := by decide
  have hclean : ∀ start s out, (SendSide.fresh ⟨0, 0, gap⟩ (0, 0) (fun _ => 1) (fun _ => 1)
      512).startRw true (.got 1) = some start →
      exec SendSide.step start [.latency 1 true (.got 1)] = some s →
      s.bulk 0 (rdmaGapInit + 1) ⟨fun _ => true, fun _ => true, [.got 2], fun k => k == 0⟩ =
        some out →
      out.result = some (-1) → s.rdmaGap = rdmaGapInit → s.posted.length - s.polled ≤ 1 →
      out.CleansUp s ⟨fun _ => true, fun _ => true, [.got 2], fun k => k == 0⟩ := by
    intro start s out hstart hrun hbulk hfailed hgap hwaiting
    rw [bulk_cleansUp_iff hstart hrun hbulk hfailed, hgap, hnum]
    refine .inr ⟨fun _ _ => rfl, fun _ _ => rfl, ⟨[2], [], rfl, by decide⟩, ?_, .inr hwaiting⟩
    intro i hi
    obtain rfl : i = 0 := by omega
    rfl
  exact ⟨_, _, _, rfl, rfl, rfl, rfl, hclean _ _ _ rfl rfl rfl rfl rfl (by decide)⟩

/-- When the second registration of a transfer of two pieces fails, the first piece stays
registered. -/
theorem bulk_leaves_region_registered :
    ∃ start s out, (SendSide.fresh ⟨0, 0, gap⟩ (0, 0) (fun _ => 1) (fun _ => 1) 512).startRw true
        (.got 1) = some start ∧
      exec SendSide.step start [] = some s ∧
      s.bulk 0 (rdmaGapInit + 1) ⟨fun k => k == 0, fun _ => true, [.got 2], fun _ => true⟩ =
        some out ∧
      out.result = some (-1) ∧
      ¬out.CleansUp s ⟨fun k => k == 0, fun _ => true, [.got 2], fun _ => true⟩ := by
  refine ⟨_, _, _, rfl, rfl, rfl, rfl, ?_⟩
  intro h
  have hleft := h.regions ⟨1, 0, rdmaGapInit⟩ (by decide) (by decide)
  exact absurd hleft.1 (by decide)

end RdmaTransport
