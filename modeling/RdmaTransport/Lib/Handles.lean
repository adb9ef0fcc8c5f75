import RdmaTransport.Lib.Ledger
import RdmaTransport.Lib.Runs

/-!
# Opening and closing handles

A process opens handles and closes them. Opening acquires resources and gives a handle or
fails; closing releases resources and ends the handle or fails, after which it may be tried
again. Resources of different handles have nothing to do with each other, so every opening
has a ledger of its own. The rule at the end reduces a statement about whole runs, that
nothing is alive but what the open handles own, to one fact about opening and one about
closing. Nothing here depends on a particular kind of resource.
-/

namespace RdmaTransport.Resources

open Runs

variable {α Handle Opening Closing : Type*}

/-- What a call that opens a handle has left. -/
structure Opened (α Handle : Type*) where
  /-- The resources of the call. -/
  resources : Ledger α
  /-- The handle, while it is open. -/
  handle : Option Handle

/-- The calls of a process. -/
inductive HandleAction (Opening Closing : Type*)
  /-- A handle is opened, with the outcomes given. -/
  | opens (o : Opening)
  /-- The handle of the `k`-th opening is closed. -/
  | closes (k : ℕ) (c : Closing)

/-- The functions that open and close handles, and the resources that belong to a handle. -/
structure HandleKind (α Handle Opening Closing : Type*) where
  /-- Opening a handle. -/
  opening : Opening → Ledger α × Option Handle
  /-- Closing a handle, and whether that succeeds. -/
  closing : Handle → Closing → Ledger α → Ledger α × Bool
  /-- The resources of an open handle. -/
  owned : Handle → List α

variable (kind : HandleKind α Handle Opening Closing)

namespace HandleKind

/-- What remains of a handle that is being closed. -/
def close (h : Handle) (c : Closing) (l : Ledger α) : Opened α Handle :=
  let (resources, ok) := kind.closing h c l
  ⟨resources, if ok then none else some h⟩

/-- One call. -/
def step (s : List (Opened α Handle)) :
    HandleAction Opening Closing → Option (List (Opened α Handle))
  | .opens o => some (s ++ [⟨(kind.opening o).1, (kind.opening o).2⟩])
  | .closes k c =>
      s[k]?.bind fun opened => opened.handle.map fun h =>
        s.set k (kind.close h c opened.resources)

/-- The live resources of a call are those of its handle, while this is open, and nothing was
released that was not alive. -/
def Balanced (opened : Opened α Handle) : Prop :=
  opened.resources = ⟨(opened.handle.map kind.owned).getD [], []⟩

variable (tidyOpening : Opening → Prop) (tidyClosing : Handle → Closing → Prop)

/-- A condition on openings and closings as a condition on calls. -/
def Tidy (s : List (Opened α Handle)) : HandleAction Opening Closing → Prop
  | .opens o => tidyOpening o
  | .closes k c => ∀ opened ∈ s[k]?, ∀ h ∈ opened.handle, tidyClosing h c

/-- Whether a call meets the condition can be evaluated. -/
instance Tidy.decidable [DecidablePred tidyOpening] [∀ h c, Decidable (tidyClosing h c)]
    (s : List (Opened α Handle)) :
    ∀ a : HandleAction Opening Closing, Decidable (Tidy tidyOpening tidyClosing s a)
  | .opens o => inferInstanceAs (Decidable (tidyOpening o))
  | .closes k c => inferInstanceAs
      (Decidable (∀ opened ∈ s[k]?, ∀ h ∈ opened.handle, tidyClosing h c))

variable {kind} {tidyOpening} {tidyClosing}

/-- A call keeps everything balanced exactly under its condition. -/
theorem balanced_step_iff
    (hopens : ∀ o, kind.Balanced ⟨(kind.opening o).1, (kind.opening o).2⟩ ↔ tidyOpening o)
    (hcloses : ∀ h c, kind.Balanced (kind.close h c ⟨kind.owned h, []⟩) ↔ tidyClosing h c)
    {s t : List (Opened α Handle)} {a : HandleAction Opening Closing}
    (hs : ∀ opened ∈ s, kind.Balanced opened) (hstep : kind.step s a = some t) :
    (∀ opened ∈ t, kind.Balanced opened) ↔ Tidy tidyOpening tidyClosing s a := by
  cases a with
  | opens o =>
    obtain rfl := Option.some.inj hstep
    rw [Tidy, ← hopens, List.forall_mem_append, List.forall_mem_singleton]
    exact and_iff_right hs
  | closes k c =>
    obtain ⟨opened, hopened, hmap⟩ := Option.bind_eq_some_iff.mp hstep
    obtain ⟨h, hh, rfl⟩ := Option.map_eq_some_iff.mp hmap
    have hresources : opened.resources = ⟨kind.owned h, []⟩ := by
      have hbalanced := hs opened (List.mem_of_getElem? hopened)
      rwa [Balanced, hh] at hbalanced
    have htidy : Tidy tidyOpening tidyClosing s (.closes k c) ↔ tidyClosing h c := by
      simp [Tidy, hopened, hh]
    rw [htidy, ← hcloses, hresources]
    constructor
    · intro hall
      obtain ⟨hk, _⟩ := List.getElem?_eq_some_iff.mp hopened
      exact hall _ (List.mem_set hk _)
    · intro hnew other hother
      rcases List.mem_or_eq_of_mem_set hother with hold | rfl
      · exact hs other hold
      · exact hnew

/-- **Handle rule.** If opening and closing are balanced exactly under given conditions, then in
every state of a run nothing is alive but what the open handles own exactly if every call
meets its condition. -/
theorem balanced_along_iff
    (hopens : ∀ o, kind.Balanced ⟨(kind.opening o).1, (kind.opening o).2⟩ ↔ tidyOpening o)
    (hcloses : ∀ h c, kind.Balanced (kind.close h c ⟨kind.owned h, []⟩) ↔ tidyClosing h c)
    {acts : List (HandleAction Opening Closing)} {s : List (Opened α Handle)}
    (hrun : exec kind.step [] acts = some s) :
    Along kind.step (fun s => ∀ opened ∈ s, kind.Balanced opened) [] acts ↔
      Meets kind.step (Tidy tidyOpening tidyClosing) [] acts := by
  refine along_iff_meets (fun _ => True) (fun _ _ _ _ _ => trivial) ?_ ?_ trivial (by simp) hrun
  · intro s a t _ hs htidy hstep
    exact (balanced_step_iff hopens hcloses hs hstep).mpr htidy
  · intro s a t _ hs htidy hstep ht
    exact htidy ((balanced_step_iff hopens hcloses hs hstep).mp ht)

end HandleKind

end RdmaTransport.Resources
