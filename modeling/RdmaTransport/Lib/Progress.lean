import RdmaTransport.Lib.Runs
import Mathlib.Algebra.GroupWithZero.Nat
import Mathlib.Algebra.BigOperators.Group.List.Basic

/-!
# Progress of a partial step function

A system makes progress if, as long as a quantity is positive, an action is enabled that
decreases it. The first rule turns this into an execution after which the quantity is
zero. The other rules add up what the actions of a run take from a quantity and give to it,
which bounds how often they can be taken. Nothing here depends on a particular system.
-/

namespace RdmaTransport.Runs

variable {State Action : Type*} {step : State → Action → Option State}

/-- **Progress rule.** If in every state of an invariant with a positive quantity some
action of a given kind is enabled, keeps the invariant and decreases the quantity, then
actions of that kind lead to a state in which it is zero. There are no more of them than
the quantity said. -/
theorem exists_exec_of_progress {P : Action → Prop} (Inv : State → Prop) (left : State → ℕ)
    (hprogress : ∀ s, Inv s → 0 < left s →
      ∃ a t, P a ∧ step s a = some t ∧ Inv t ∧ left t < left s)
    {s : State} (hs : Inv s) :
    ∃ acts t, exec step s acts = some t ∧ Inv t ∧ left t = 0 ∧ (∀ a ∈ acts, P a) ∧
      acts.length ≤ left s := by
  induction hn : left s using Nat.strongRecOn generalizing s with
  | _ n ih =>
    rcases Nat.eq_zero_or_pos (left s) with hzero | hpos
    · exact ⟨[], s, rfl, hs, hzero, by simp, Nat.zero_le _⟩
    · obtain ⟨a, t, ha, ht, hinv, hless⟩ := hprogress s hs hpos
      obtain ⟨acts, u, hrun, hu, hzero, hacts, hlength⟩ := ih (left t) (hn ▸ hless) hinv rfl
      refine ⟨a :: acts, u, exec_cons_eq_some.mpr ⟨t, ht, hrun⟩, hu, hzero, ?_, ?_⟩
      · exact List.forall_mem_cons.mpr ⟨ha, hacts⟩
      · rw [List.length_cons]
        omega

/-- **Accounting rule.** If every action takes its cost from a quantity and adds its gain to
it, a whole run takes the sum of the costs and adds the sum of the gains. -/
theorem sum_cost_of_exec (Inv : State → Prop) (left : State → ℕ) (cost gain : Action → ℕ)
    (hstep : ∀ s a t, Inv s → step s a = some t → Inv t ∧ cost a + left t = left s + gain a)
    {s u : State} {acts : List Action} (hs : Inv s) (hrun : exec step s acts = some u) :
    (acts.map cost).sum + left u = left s + (acts.map gain).sum := by
  induction acts generalizing s with
  | nil =>
    obtain rfl : s = u := by simpa using hrun
    simp
  | cons a rest ih =>
    obtain ⟨t, ht, hrest⟩ := exec_cons_eq_some.mp hrun
    obtain ⟨hinv, hfirst⟩ := hstep s a t hs ht
    have hlater := ih hinv hrest
    rw [List.map_cons, List.map_cons, List.sum_cons, List.sum_cons]
    omega

/-- The rule for a quantity to which an action adds at most its gain. -/
theorem sum_cost_le_of_exec (left : State → ℕ) (cost gain : Action → ℕ)
    (hstep : ∀ s a t, step s a = some t → cost a + left t ≤ left s + gain a)
    {s u : State} {acts : List Action} (hrun : exec step s acts = some u) :
    (acts.map cost).sum + left u ≤ left s + (acts.map gain).sum := by
  induction acts generalizing s with
  | nil =>
    obtain rfl : s = u := by simpa using hrun
    simp
  | cons a rest ih =>
    obtain ⟨t, ht, hrest⟩ := exec_cons_eq_some.mp hrun
    have hfirst := hstep s a t ht
    have hlater := ih hrest
    rw [List.map_cons, List.map_cons, List.sum_cons, List.sum_cons]
    omega

end RdmaTransport.Runs
