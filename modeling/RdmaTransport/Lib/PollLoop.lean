import RdmaTransport.Lib.DrainLoop

/-!
# A drain loop against its poll results

The consumer of `Lib.DrainLoop` as one function of the results its polls return. A poll
returns entries, possibly none, or an error. The loop polls again after any result but an
empty one; after the first empty one it rearms the queue and polls again, and after the
second it returns. An entry whose processing fails ends the program.

Two facts are proved: exactly which poll results make the loop return, and that the
division of the entries into polls does not matter.
-/

namespace RdmaTransport.DrainLoop

variable {α σ : Type*}

/-- What a poll returns. -/
inductive PollResult (α : Type*)
  /-- Entries, oldest first, or none. -/
  | got (entries : List α)
  /-- An error. -/
  | failed

/-- How the loop stands. -/
inductive LoopOutcome (σ : Type*)
  /-- It has returned. -/
  | returned (s : σ)
  /-- The program has ended. -/
  | aborted
  /-- It is about to poll again. -/
  | running (rearmed : Bool) (s : σ)

/-- The loop, for the results of its polls. An error is a result other than zero, so that
the loop polls again. -/
def againLoop (handle : σ → α → Option σ) : List (PollResult α) → Bool → σ → LoopOutcome σ
  | [], rearmed, s => .running rearmed s
  | .failed :: polls, rearmed, s => againLoop handle polls rearmed s
  | .got entries :: polls, rearmed, s =>
      match entries.foldlM handle s with
      | none => .aborted
      | some t =>
          if entries.length ≠ 0 then againLoop handle polls rearmed t
          else if rearmed then .returned t
          else againLoop handle polls true t

/-- The loop returns after finitely many of a sequence of poll results. -/
def Returns (handle : σ → α → Option σ) (poll : ℕ → PollResult α) (s : σ) : Prop :=
  ∃ n t, againLoop handle ((List.range n).map poll) false s = .returned t

/-- All entries that a poll returned have a property. -/
def PollResult.All (P : α → Prop) (result : PollResult α) : Prop :=
  match result with
  | .got entries => ∀ a ∈ entries, P a
  | .failed => True

/-- An empty poll result before the rearming. -/
@[simp] theorem againLoop_empty_false (handle : σ → α → Option σ) (polls : List (PollResult α))
    (s : σ) : againLoop handle (.got [] :: polls) false s = againLoop handle polls true s := rfl

/-- An empty poll result after the rearming. -/
@[simp] theorem againLoop_empty_true (handle : σ → α → Option σ) (polls : List (PollResult α))
    (s : σ) : againLoop handle (.got [] :: polls) true s = .returned s := rfl

/-- A poll that returns entries. -/
theorem againLoop_entries (handle : σ → α → Option σ) (polls : List (PollResult α)) (rearmed : Bool)
    {entries : List α} (hentries : entries ≠ []) (s : σ) :
    againLoop handle (.got entries :: polls) rearmed s =
      match entries.foldlM handle s with
      | none => .aborted
      | some t => againLoop handle polls rearmed t := by
  have hlength : entries.length ≠ 0 := mt List.length_eq_zero_iff.mp hentries
  rw [againLoop]
  cases entries.foldlM handle s with
  | none => rfl
  | some t => simp only [if_pos hlength]

/-- **Batching does not matter.** Polls that return entries process them one after the
other. -/
theorem againLoop_batches (handle : σ → α → Option σ) {batches : List (List α)}
    (hbatches : ∀ b ∈ batches, b ≠ []) (polls : List (PollResult α)) (rearmed : Bool) (s : σ) :
    againLoop handle (batches.map .got ++ polls) rearmed s =
      match batches.flatten.foldlM handle s with
      | none => .aborted
      | some t => againLoop handle polls rearmed t := by
  induction batches generalizing s with
  | nil => rfl
  | cons b batches ih =>
    have hmore := ih fun x hx => hbatches x (List.mem_cons_of_mem _ hx)
    rw [List.map_cons, List.cons_append,
      againLoop_entries handle _ _ (hbatches b List.mem_cons_self), List.flatten_cons,
      List.foldlM_append]
    cases b.foldlM handle s with
    | none => rfl
    | some t => exact hmore t

/-- Entries are processed without trouble exactly when all of them are good. -/
theorem isSome_foldlM_iff {handle : σ → α → Option σ} {Good : α → Prop}
    (hgood : ∀ s a, (handle s a).isSome ↔ Good a) (entries : List α) (s : σ) :
    (entries.foldlM handle s).isSome ↔ ∀ a ∈ entries, Good a := by
  induction entries generalizing s with
  | nil => simp
  | cons a entries ih =>
    rw [List.foldlM_cons, List.forall_mem_cons, ← hgood s a]
    cases handle s a with
    | none => simp
    | some t => simpa using ih t

/-- The poll results that make the loop return: an empty one after the rearming, with only
good entries before it. -/
def Ending (Good : α → Prop) (rearmed : Bool) (polls : List (PollResult α)) : Prop :=
  ∃ front back, polls = front ++ .got [] :: back ∧ (∀ p ∈ front, p.All Good) ∧
    (rearmed = true ∨ .got [] ∈ front)

/-- The first poll result, unless it is the one that ends the loop. -/
theorem ending_cons_iff {Good : α → Prop} {rearmed : Bool} (rearmed' : Bool) {p : PollResult α}
    {polls : List (PollResult α)} (hfirst : p ≠ .got [] ∨ rearmed = false)
    (hrearmed : rearmed' = true ↔ rearmed = true ∨ p = .got []) :
    Ending Good rearmed (p :: polls) ↔ p.All Good ∧ Ending Good rearmed' polls := by
  constructor
  · rintro ⟨front, back, hpolls, hfront, harmed⟩
    cases front with
    | nil =>
      obtain ⟨rfl, _⟩ := List.cons.inj hpolls
      simp_all
    | cons q front =>
      obtain ⟨rfl, hrest⟩ := List.cons.inj hpolls
      rw [List.forall_mem_cons] at hfront
      refine ⟨hfront.1, front, back, hrest, hfront.2, ?_⟩
      rw [hrearmed, or_assoc]
      rcases harmed with harmed | hmem
      · exact .inl harmed
      · rcases List.mem_cons.mp hmem with heq | hmem
        · exact .inr (.inl heq.symm)
        · exact .inr (.inr hmem)
  · rintro ⟨hp, front, back, rfl, hfront, harmed⟩
    refine ⟨p :: front, back, rfl, List.forall_mem_cons.mpr ⟨hp, hfront⟩, ?_⟩
    rw [hrearmed, or_assoc] at harmed
    rcases harmed with harmed | rfl | hmem
    · exact .inl harmed
    · exact .inr List.mem_cons_self
    · exact .inr (List.mem_cons_of_mem _ hmem)

/-- The loop returns for exactly these poll results. -/
theorem againLoop_returned_iff {handle : σ → α → Option σ} {Good : α → Prop}
    (hgood : ∀ s a, (handle s a).isSome ↔ Good a) (polls : List (PollResult α)) (rearmed : Bool)
    (s : σ) :
    (∃ t, againLoop handle polls rearmed s = .returned t) ↔ Ending Good rearmed polls := by
  induction polls generalizing rearmed s with
  | nil => simp [againLoop, Ending]
  | cons p polls ih =>
    cases p with
    | failed =>
      rw [ending_cons_iff rearmed (.inl (by simp)) (by simp)]
      simpa [againLoop, PollResult.All] using ih rearmed s
    | got entries =>
      cases entries with
      | nil =>
        cases rearmed with
        | true => exact ⟨fun _ => ⟨[], polls, rfl, by simp, .inl rfl⟩, fun _ => ⟨s, rfl⟩⟩
        | false =>
          rw [ending_cons_iff true (.inr rfl) (by simp), againLoop_empty_false, ih]
          simp [PollResult.All]
      | cons a entries =>
        rw [ending_cons_iff rearmed (.inl (by simp)) (by simp),
          againLoop_entries handle _ _ (by simp)]
        have hall := isSome_foldlM_iff hgood (a :: entries) s
        cases hfold : (a :: entries).foldlM handle s with
        | none =>
          rw [hfold] at hall
          have hbad : ¬(PollResult.got (a :: entries)).All Good := fun h => by
            simpa using hall.mpr h
          simp [hbad]
        | some t =>
          rw [hfold] at hall
          have hfine : (PollResult.got (a :: entries)).All Good := hall.mp rfl
          simpa [hfine] using ih rearmed t

/-- **When the loop returns.** It returns after finitely many polls exactly when two of the
polls return nothing, and no entry before the second of them is bad. -/
theorem returns_iff {handle : σ → α → Option σ} {Good : α → Prop}
    (hgood : ∀ s a, (handle s a).isSome ↔ Good a) (poll : ℕ → PollResult α) (s : σ) :
    Returns handle poll s ↔ ∃ i j, i < j ∧ poll i = .got [] ∧ poll j = .got [] ∧
      ∀ k < j, (poll k).All Good := by
  have hreturns : Returns handle poll s ↔ ∃ n, Ending Good false ((List.range n).map poll) := by
    simp only [Returns, againLoop_returned_iff hgood]
  rw [hreturns]
  constructor
  · rintro ⟨n, front, back, hpolls, hfront, harmed⟩
    have hpoll : ∀ k < n, ((List.range n).map poll)[k]? = some (poll k) := by
      intro k hk
      simp [hk]
    have hlength : front.length < n := by
      have h := congrArg List.length hpolls
      simp at h
      omega
    have hbefore : ∀ k < front.length, front[k]? = some (poll k) := by
      intro k hk
      rw [← hpoll k (by omega), hpolls, List.getElem?_append_left hk]
    have hlast : poll front.length = .got [] := by
      have h := hpoll front.length hlength
      rw [hpolls, List.getElem?_append_right (Nat.le_refl _)] at h
      simpa using h.symm
    obtain ⟨i, hi⟩ := List.mem_iff_getElem?.mp (harmed.resolve_left (by simp))
    have hlt : i < front.length := (List.getElem?_eq_some_iff.mp hi).1
    refine ⟨i, front.length, hlt, ?_, hlast, ?_⟩
    · have h := (hbefore i hlt).symm.trans hi
      exact Option.some.inj h
    · intro k hk
      exact hfront _ (List.mem_of_getElem? (hbefore k hk))
  · rintro ⟨i, j, hij, hi, hj, hall⟩
    refine ⟨j + 1, (List.range j).map poll, [], ?_, ?_, .inr ?_⟩
    · rw [List.range_succ, List.map_append, List.map_singleton, hj]
    · intro p hp
      obtain ⟨k, hk, rfl⟩ := List.mem_map.mp hp
      exact hall k (List.mem_range.mp hk)
    · exact List.mem_map.mpr ⟨i, List.mem_range.mpr hij, hi⟩

/-- From a point of the consumer the loop can go on and return in the state `t`. -/
def Finishes (handle : σ → α → Option σ) (point : Point α) (s t : σ) : Prop :=
  match point with
  | .idle => s = t
  | .again rearmed => ∃ polls, againLoop handle polls rearmed s = .returned t
  | .batch rearmed polled => ∃ u polls, polled.foldlM handle s = some u ∧
      againLoop handle polls rearmed u = .returned t
  | .drained => ∃ polls, againLoop handle polls true s = .returned t

/-- A step of the consumer is a part of the loop: what the loop can do after the step it can
do before, by one more poll. -/
theorem Finishes.of_advance {handle : σ → α → Option σ} {limit n : ℕ} {c c' : Control α}
    {e : Effect α} {s s' t : σ} (hadvance : c.advance limit n = some (c', e))
    (hhandled : e.handled.foldlM handle s = some s') (h : Finishes handle c'.point s' t) :
    Finishes handle c.point s t := by
  rcases Control.advance_cases hadvance with ⟨hp, _, rfl, rfl⟩ | ⟨hp, _, rfl, rfl⟩ |
    ⟨r, hp, hpos, _, hle, rfl, rfl⟩ | ⟨r, hp, rfl, rfl⟩ | ⟨r, a, rest, hp, rfl, rfl⟩ |
    ⟨hp, rfl, rfl⟩
  · obtain rfl : s = s' := Option.some.inj hhandled
    obtain rfl : s = t := h
    rw [hp]
    exact ⟨[.got []], rfl⟩
  · obtain rfl : s = s' := Option.some.inj hhandled
    obtain ⟨polls, hpolls⟩ := h
    rw [hp]
    exact ⟨.got [] :: polls, hpolls⟩
  · obtain rfl : s = s' := Option.some.inj hhandled
    obtain ⟨u, polls, hu, hpolls⟩ := h
    have hne : c.queue.entries.take n ≠ [] := by
      intro hnil
      have hlength := congrArg List.length hnil
      rw [List.length_take, List.length_nil] at hlength
      omega
    rw [hp]
    refine ⟨.got (c.queue.entries.take n) :: polls, ?_⟩
    rw [againLoop_entries handle _ _ hne, hu]
    exact hpolls
  · obtain rfl : s = s' := Option.some.inj hhandled
    obtain ⟨polls, hpolls⟩ := h
    rw [hp]
    exact ⟨s, polls, rfl, hpolls⟩
  · obtain ⟨u, polls, hu, hpolls⟩ := h
    have hone : handle s a = some s' := by
      simpa [Effect.handled] using hhandled
    rw [hp]
    refine ⟨u, polls, ?_, hpolls⟩
    rw [List.foldlM_cons, hone]
    exact hu
  · obtain rfl : s = s' := Option.some.inj hhandled
    rw [hp]
    exact h

end RdmaTransport.DrainLoop
