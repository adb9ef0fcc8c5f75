import RdmaTransport.Lib.Transfer

/-!
# Writing round a ring of places

A memory has a number of places that are apart. Ranges are written to them one after the
other, going round; every write reads from a memory of its own, since what is read changes
between the writes. A place holds what was written to it until the writes have gone round
once. Nothing here depends on a particular program.
-/

namespace RdmaTransport.Transfer

variable {β : Type*}

/-- The memory `dst` after writes that each read from a memory of their own. -/
def runEach (writes : List ((ℕ → β) × Write)) (dst : ℕ → β) : ℕ → β :=
  writes.foldl (fun dst w => w.2.run w.1 dst) dst

/-- The first `n` places, of `width` cells each, are apart. -/
def PlacesApart (place : ℕ → ℕ) (n width : ℕ) : Prop :=
  ∀ i < n, ∀ j < n, i ≠ j → Apart (place i, width) (place j, width)

/-- The writes go round `n` places from the place `first` on. None is empty, and each fits
its place. -/
structure GoesRound (place : ℕ → ℕ) (n width first : ℕ) (writes : List ((ℕ → β) × Write)) :
    Prop where
  /-- Each write goes to the beginning of the next place. -/
  target_eq : ∀ k w, writes[k]? = some w → w.2.target = place ((first + k) % n)
  /-- Each write fits its place. -/
  length_le : ∀ w ∈ writes, 1 ≤ w.2.length ∧ w.2.length ≤ width

/-- Writes from one memory are a special case. -/
theorem runEach_map (src : ℕ → β) (writes : List Write) (dst : ℕ → β) :
    runEach (writes.map (src, ·)) dst = runAll src writes dst := by
  rw [runEach, runAll, List.foldl_map]

/-- One list of writes after the other. -/
theorem runEach_append (front back : List ((ℕ → β) × Write)) (dst : ℕ → β) :
    runEach (front ++ back) dst = runEach back (runEach front dst) :=
  List.foldl_append

/-- Writes leave the ranges apart from them. -/
theorem readAt_runEach_of_apart {writes : List ((ℕ → β) × Write)} (dst : ℕ → β) {start len : ℕ}
    (h : ∀ w ∈ writes, Apart w.2.filled (start, len)) :
    readAt (runEach writes dst) start len = readAt dst start len := by
  induction writes generalizing dst with
  | nil => rfl
  | cons w writes ih =>
    rw [List.forall_mem_cons] at h
    exact (ih (w.2.run w.1 dst) h.2).trans (w.2.readAt_run_of_apart w.1 dst h.1)

/-- Writes to places that are apart can all be read back. -/
theorem readAt_runEach_self {writes : List ((ℕ → β) × Write)} (dst : ℕ → β)
    (hapart : writes.Pairwise fun v w => Apart w.2.filled v.2.filled) :
    ∀ w ∈ writes, readAt (runEach writes dst) w.2.target w.2.length =
      readAt w.1 w.2.source w.2.length := by
  induction writes generalizing dst with
  | nil => simp
  | cons v writes ih =>
    rw [List.pairwise_cons] at hapart
    rw [List.forall_mem_cons]
    refine ⟨?_, ih (v.2.run v.1 dst) hapart.2⟩
    exact (readAt_runEach_of_apart (v.2.run v.1 dst) hapart.1).trans (v.2.readAt_run v.1 dst)

/-- A cell at which all writes that reach it store the same value, and that one of them
reaches. -/
theorem runEach_apply_eq {writes : List ((ℕ → β) × Write)} {dst : ℕ → β} {a : ℕ} {b : β}
    (hvalue : ∀ w ∈ writes, w.2.target ≤ a → a < w.2.target + w.2.length →
      w.1 (w.2.source + (a - w.2.target)) = b)
    (hsome : dst a = b ∨ ∃ w ∈ writes, w.2.target ≤ a ∧ a < w.2.target + w.2.length) :
    runEach writes dst a = b := by
  induction writes generalizing dst with
  | nil => simpa [runEach] using hsome
  | cons v writes ih =>
    rw [List.forall_mem_cons] at hvalue
    change runEach writes (v.2.run v.1 dst) a = b
    refine ih hvalue.2 ?_
    by_cases hreached : v.2.target ≤ a ∧ a < v.2.target + v.2.length
    · left
      rw [Write.run, if_pos hreached]
      exact hvalue.1 hreached.1 hreached.2
    · rw [Write.run, if_neg hreached]
      rcases hsome with hsome | ⟨w, hw, hcovers⟩
      · exact .inl hsome
      · rcases List.mem_cons.mp hw with rfl | hw
        · exact absurd hcovers hreached
        · exact .inr ⟨w, hw, hcovers⟩

namespace GoesRound

variable {place : ℕ → ℕ} {n width first : ℕ} {front back writes : List ((ℕ → β) × Write)}

/-- Further writes continue where the first ones stopped. -/
theorem append (hfront : GoesRound place n width first front)
    (hback : GoesRound place n width ((first + front.length) % n) back) :
    GoesRound place n width first (front ++ back) where
  target_eq := by
    intro k w hw
    rcases Nat.lt_or_ge k front.length with hk | hk
    · rw [List.getElem?_append_left hk] at hw
      exact hfront.target_eq k w hw
    · rw [List.getElem?_append_right hk] at hw
      rw [hback.target_eq _ w hw, Nat.mod_add_mod]
      congr 2
      omega
  length_le := by
    intro w hw
    rcases List.mem_append.mp hw with hw | hw
    · exact hfront.length_le w hw
    · exact hback.length_le w hw

/-- Before the writes have gone round they do not disturb each other. -/
theorem pairwise_apart (h : GoesRound place n width first writes)
    (hplaces : PlacesApart place n width) (hlength : writes.length ≤ n) :
    writes.Pairwise fun v w => Apart w.2.filled v.2.filled := by
  rw [List.pairwise_iff_getElem]
  intro j k hj hk hjk
  have hn : 0 < n := by omega
  have hne : (first + k) % n ≠ (first + j) % n := by
    intro hsame
    have hmod : (first + k - (first + j)) % n = 0 := Nat.sub_mod_eq_zero_of_mod_eq hsame
    rw [Nat.add_sub_add_left, Nat.mod_eq_of_lt (by omega)] at hmod
    omega
  have hapart := hplaces _ (Nat.mod_lt _ hn) _ (Nat.mod_lt _ hn) hne
  have hj' := h.target_eq j _ (List.getElem?_eq_getElem hj)
  have hk' := h.target_eq k _ (List.getElem?_eq_getElem hk)
  have hjwidth := (h.length_le _ (List.getElem_mem hj)).2
  have hkwidth := (h.length_le _ (List.getElem_mem hk)).2
  simp only [Apart, Write.filled, hj', hk'] at hapart ⊢
  omega

/-- **A ring keeps what fits it.** As long as there are no more writes than places, each of
them can be read back. -/
theorem readAt_runEach (h : GoesRound place n width first writes)
    (hplaces : PlacesApart place n width) (hlength : writes.length ≤ n) (dst : ℕ → β) :
    ∀ w ∈ writes, readAt (runEach writes dst) w.2.target w.2.length =
      readAt w.1 w.2.source w.2.length :=
  readAt_runEach_self dst (h.pairwise_apart hplaces hlength)

/-- **A ring loses what it has gone round over.** If there are more writes than places, the
first cell of the first place holds what the later writes begin with. -/
theorem runEach_place (h : GoesRound place n width first writes)
    (hplaces : PlacesApart place n width) (hn : 0 < n) (hlength : n < writes.length) {b : β}
    (hvalue : ∀ w ∈ writes.tail, w.1 w.2.source = b) (dst : ℕ → β) :
    runEach writes dst (place (first % n)) = b := by
  obtain ⟨v, rest, rfl⟩ := List.exists_cons_of_length_pos (Nat.zero_lt_of_lt hlength)
  rw [List.tail_cons] at hvalue
  have hfirst : first % n < n := Nat.mod_lt _ hn
  -- A write reaches the cell only from the first place, and then with its first cell.
  have hstart : ∀ w ∈ rest, w.2.target ≤ place (first % n) →
      place (first % n) < w.2.target + w.2.length → w.2.target = place (first % n) := by
    intro w hw hle hlt
    obtain ⟨k, hk⟩ := List.mem_iff_getElem?.mp hw
    have htarget := h.target_eq (k + 1) w (by rwa [List.getElem?_cons_succ])
    by_contra hother
    have hne : (first + (k + 1)) % n ≠ first % n := by
      intro hsame
      exact hother (by rw [htarget, hsame])
    have hapart := hplaces _ (Nat.mod_lt _ hn) _ hfirst hne
    have hbounds := h.length_le w (List.mem_cons_of_mem v hw)
    simp only [Apart, ← htarget] at hapart
    omega
  change runEach rest (v.2.run v.1 dst) (place (first % n)) = b
  refine runEach_apply_eq ?_ (.inr ?_)
  · intro w hw hle hlt
    rw [← hstart w hw hle hlt, Nat.sub_self, Nat.add_zero]
    exact hvalue w hw
  · rw [List.length_cons] at hlength
    have hindex : n - 1 < rest.length := by omega
    refine ⟨rest[n - 1], List.getElem_mem hindex, ?_⟩
    have htarget := h.target_eq n rest[n - 1] (by
      obtain ⟨m, rfl⟩ : ∃ m, n = m + 1 := ⟨n - 1, by omega⟩
      simp)
    have hbounds := h.length_le _ (List.mem_cons_of_mem v (List.getElem_mem hindex))
    rw [htarget, Nat.add_mod_right]
    omega

end GoesRound

end RdmaTransport.Transfer
