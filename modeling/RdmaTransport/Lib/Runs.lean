import Mathlib.Data.Nat.Basic

/-!
# Executions of a partial step function

A system is a state type, an action type and a partial step function. An action
without a successor is not enabled. This file fixes the three readings of an
execution used later: the state it ends in, a condition met by every step, and a
property of every state passed. The rules at the end turn facts about one step
into facts about every execution. A loop that skips some of its inputs is described by
`Until`: the input that matters comes after inputs that are skipped. Nothing here depends
on a particular system.
-/

namespace RdmaTransport.Runs

variable {State Action : Type*} {step : State → Action → Option State}

/-- The state reached by a list of actions, provided all of them are enabled. -/
def exec (step : State → Action → Option State) : State → List Action → Option State
  | s, [] => some s
  | s, a :: rest => (step s a).bind fun t => exec step t rest

/-- Every action is taken in a state that meets the given condition. -/
def Meets (step : State → Action → Option State) (P : State → Action → Prop) :
    State → List Action → Prop
  | _, [] => True
  | s, a :: rest => P s a ∧ ∀ t, step s a = some t → Meets step P t rest

/-- Every state passed by the execution, the first included, has the property. -/
def Along (step : State → Action → Option State) (Q : State → Prop) :
    State → List Action → Prop
  | s, [] => Q s
  | s, a :: rest => Q s ∧ ∀ t, step s a = some t → Along step Q t rest

/-- Whether an execution meets a decidable condition can be evaluated. -/
instance Meets.decidable (P : State → Action → Prop) [∀ s a, Decidable (P s a)] :
    ∀ (s : State) (acts : List Action), Decidable (Meets step P s acts)
  | _, [] => inferInstanceAs (Decidable True)
  | s, a :: rest =>
      match h : step s a with
      | none => decidable_of_iff (P s a) (by simp [Meets, h])
      | some t =>
          have := Meets.decidable P t rest
          decidable_of_iff (P s a ∧ Meets step P t rest) (by simp [Meets, h])

/-- The empty execution stays where it is. -/
@[simp] theorem exec_nil (s : State) : exec step s [] = some s := rfl

/-- A nonempty execution is an enabled first step followed by an execution. -/
theorem exec_cons_eq_some {s u : State} {a : Action} {rest : List Action} :
    exec step s (a :: rest) = some u ↔ ∃ t, step s a = some t ∧ exec step t rest = some u := by
  simp only [exec, Option.bind_eq_some_iff]

/-- An execution can be cut in two. -/
theorem exec_append (s : State) (acts more : List Action) :
    exec step s (acts ++ more) = (exec step s acts).bind fun t => exec step t more := by
  induction acts generalizing s with
  | nil => rfl
  | cons a rest ih => simp only [List.cons_append, exec, ih, Option.bind_assoc]

/-- Where every action is enabled, every list of actions is an execution. -/
theorem exists_exec (hstep : ∀ s a, ∃ t, step s a = some t) (s : State) (acts : List Action) :
    ∃ u, exec step s acts = some u := by
  induction acts generalizing s with
  | nil => exact ⟨s, rfl⟩
  | cons a rest ih =>
    obtain ⟨t, ht⟩ := hstep s a
    obtain ⟨u, hu⟩ := ih t
    exact ⟨u, exec_cons_eq_some.mpr ⟨t, ht, hu⟩⟩

/-- A condition on the actions alone is met by an execution exactly when all its
actions have it. -/
theorem meets_iff_forall {P : Action → Prop} {s u : State} {acts : List Action}
    (hrun : exec step s acts = some u) : Meets step (fun _ a => P a) s acts ↔ ∀ a ∈ acts, P a := by
  induction acts generalizing s with
  | nil => simp [Meets]
  | cons a rest ih =>
    obtain ⟨t, ht, hrest⟩ := exec_cons_eq_some.mp hrun
    simp [Meets, ht, ih hrest]

/-- **Invariant rule.** A property preserved by every step that meets the
condition holds at the end of every execution whose steps all meet it. -/
theorem Meets.invariant {P : State → Action → Prop} (Inv : State → Prop)
    (hstep : ∀ s a t, Inv s → P s a → step s a = some t → Inv t)
    {s u : State} {acts : List Action} (hmeets : Meets step P s acts)
    (hs : Inv s) (hrun : exec step s acts = some u) : Inv u := by
  induction acts generalizing s with
  | nil =>
    obtain rfl : s = u := by simpa using hrun
    exact hs
  | cons a rest ih =>
    obtain ⟨t, ht, hrest⟩ := exec_cons_eq_some.mp hrun
    exact ih (hmeets.2 t ht) (hstep s a t hs hmeets.1 ht) hrest

/-- The invariant rule without a condition on the steps. -/
theorem invariant_of_exec (Inv : State → Prop)
    (hstep : ∀ s a t, Inv s → step s a = some t → Inv t)
    {s u : State} {acts : List Action} (hs : Inv s) (hrun : exec step s acts = some u) : Inv u :=
  ((meets_iff_forall hrun).mpr fun _ _ => trivial : Meets step (fun _ _ => True) s acts).invariant
    Inv (fun s a t hi _ => hstep s a t hi) hs hrun

/-- A condition that holds in all states of an invariant is met by every execution. -/
theorem meets_of_invariant {P : State → Action → Prop} (Inv : State → Prop)
    (hstep : ∀ s a t, Inv s → step s a = some t → Inv t) (hP : ∀ s a, Inv s → P s a) {s : State}
    (hs : Inv s) (acts : List Action) : Meets step P s acts := by
  induction acts generalizing s with
  | nil => trivial
  | cons a rest ih => exact ⟨hP s a hs, fun t ht => ih (hstep s a t hs ht)⟩

/-- Conditions that agree in all states of an invariant are met by the same executions. -/
theorem meets_congr {P Q : State → Action → Prop} (Inv : State → Prop)
    (hstep : ∀ s a t, Inv s → step s a = some t → Inv t)
    (hPQ : ∀ s a t, Inv s → step s a = some t → (P s a ↔ Q s a)) {s u : State}
    {acts : List Action} (hs : Inv s) (hrun : exec step s acts = some u) :
    Meets step P s acts ↔ Meets step Q s acts := by
  induction acts generalizing s with
  | nil => rfl
  | cons a rest ih =>
    obtain ⟨t, ht, hrest⟩ := exec_cons_eq_some.mp hrun
    simp [Meets, ht, hPQ s a t hs ht, ih (hstep s a t hs ht) hrest]

/-- **Exact condition for a quantity to be kept.** Suppose a quantity never
increases, is kept by the steps that meet a condition and is lost by the others.
Then it is the same at the end of an execution exactly when every step of it met
the condition. `Clean` is what the steps meeting the condition preserve. -/
theorem amount_eq_iff_meets {P : State → Action → Prop} (Inv Clean : State → Prop)
    (amount : State → ℕ)
    (hinv : ∀ s a t, Inv s → step s a = some t → Inv t ∧ amount t ≤ amount s)
    (hkeep : ∀ s a t, Inv s → Clean s → P s a → step s a = some t →
      Clean t ∧ amount t = amount s)
    (hlose : ∀ s a t, Inv s → Clean s → ¬P s a → step s a = some t → amount t < amount s)
    {s u : State} {acts : List Action} (hs : Inv s) (hclean : Clean s)
    (hrun : exec step s acts = some u) : amount u = amount s ↔ Meets step P s acts := by
  have hmono : ∀ {acts : List Action} {s u : State}, Inv s → exec step s acts = some u →
      amount u ≤ amount s := by
    intro acts
    induction acts with
    | nil =>
      intro s u _ hrun
      obtain rfl : s = u := by simpa using hrun
      exact Nat.le_refl _
    | cons a rest ih =>
      intro s u hs hrun
      obtain ⟨t, ht, hrest⟩ := exec_cons_eq_some.mp hrun
      obtain ⟨ht', hle⟩ := hinv s a t hs ht
      exact Nat.le_trans (ih ht' hrest) hle
  induction acts generalizing s with
  | nil =>
    obtain rfl : s = u := by simpa using hrun
    simp [Meets]
  | cons a rest ih =>
    obtain ⟨t, ht, hrest⟩ := exec_cons_eq_some.mp hrun
    obtain ⟨hit, _⟩ := hinv s a t hs ht
    by_cases hP : P s a
    · obtain ⟨hct, hamount⟩ := hkeep s a t hs hclean hP ht
      rw [← hamount]
      refine (ih hit hct hrest).trans ?_
      simp [Meets, hP, ht]
    · have hless := hlose s a t hs hclean hP ht
      have hle := hmono hit hrest
      simp only [Meets, hP, false_and, iff_false]
      omega

/-- **Exact condition for a property of every state.** If, in the states of an
invariant, steps meeting the condition keep the property and all others break it at
once, the property holds along an execution exactly when every step met the
condition. -/
theorem along_iff_meets {P : State → Action → Prop} {Q : State → Prop} (Inv : State → Prop)
    (hinv : ∀ s a t, Inv s → step s a = some t → Inv t)
    (hkeep : ∀ s a t, Inv s → Q s → P s a → step s a = some t → Q t)
    (hbreak : ∀ s a t, Inv s → Q s → ¬P s a → step s a = some t → ¬Q t)
    {s u : State} {acts : List Action} (hi : Inv s) (hs : Q s)
    (hrun : exec step s acts = some u) : Along step Q s acts ↔ Meets step P s acts := by
  induction acts generalizing s with
  | nil => simpa [Along, Meets] using hs
  | cons a rest ih =>
    obtain ⟨t, ht, hrest⟩ := exec_cons_eq_some.mp hrun
    have hit := hinv s a t hi ht
    by_cases hP : P s a
    · simp [Along, Meets, hs, hP, ht, ih hit (hkeep s a t hi hs hP ht) hrest]
    · have hnot : ¬Along step Q t rest := by
        intro h
        apply hbreak s a t hi hs hP ht
        cases rest with
        | nil => exact h
        | cons _ _ => exact h.1
      simp [Along, Meets, hP, ht, hnot]

/-- **Backward rule.** If, in the states of an invariant, a property of the state after
a step shows that the state before had it and that the step met the condition, then the
property at the end of an execution shows that every step met the condition. -/
theorem meets_of_exec {P : State → Action → Prop} (Inv Good : State → Prop)
    (hinv : ∀ s a t, Inv s → step s a = some t → Inv t)
    (hback : ∀ s a t, Inv s → step s a = some t → Good t → Good s ∧ P s a)
    {s u : State} {acts : List Action} (hs : Inv s) (hrun : exec step s acts = some u)
    (hu : Good u) : Good s ∧ Meets step P s acts := by
  induction acts generalizing s with
  | nil =>
    obtain rfl : s = u := by simpa using hrun
    exact ⟨hu, trivial⟩
  | cons a rest ih =>
    obtain ⟨t, ht, hrest⟩ := exec_cons_eq_some.mp hrun
    obtain ⟨hgood, hmeets⟩ := ih (hinv s a t hs ht) hrest
    obtain ⟨hbefore, hP⟩ := hback s a t hs ht hgood
    refine ⟨hbefore, hP, ?_⟩
    intro t' ht'
    obtain rfl : t = t' := Option.some.inj (ht.symm.trans ht')
    exact hmeets

section Until

variable {α : Type*} {P Q : α → Prop}

/-- An element of the list has the property `Q`, and all elements before it have the
property `P`. -/
def Until (P Q : α → Prop) (l : List α) : Prop :=
  ∃ before a after, l = before ++ a :: after ∧ (∀ b ∈ before, P b) ∧ Q a

/-- There is no such element in the empty list. -/
@[simp] theorem not_until_nil : ¬Until P Q [] := by
  rintro ⟨before, a, after, h, _⟩
  simp at h

/-- It is the first element, or the first element is skipped. -/
theorem until_cons_iff {a : α} {l : List α} : Until P Q (a :: l) ↔ Q a ∨ P a ∧ Until P Q l := by
  constructor
  · rintro ⟨before, b, after, h, hbefore, hb⟩
    cases before with
    | nil =>
      obtain ⟨rfl, _⟩ := List.cons.inj h
      exact .inl hb
    | cons c before =>
      obtain ⟨rfl, hl⟩ := List.cons.inj h
      rw [List.forall_mem_cons] at hbefore
      exact .inr ⟨hbefore.1, before, b, after, hl, hbefore.2, hb⟩
  · rintro (ha | ⟨ha, before, b, after, rfl, hbefore, hb⟩)
    · exact ⟨[], a, l, rfl, by simp, ha⟩
    · exact ⟨a :: before, b, after, rfl, List.forall_mem_cons.mpr ⟨ha, hbefore⟩, hb⟩

/-- A first element that settles the matter and is not skipped. -/
theorem until_cons_of_not {a : α} {l : List α} (ha : ¬P a) : Until P Q (a :: l) ↔ Q a := by
  simp [until_cons_iff, ha]

end Until

end RdmaTransport.Runs
