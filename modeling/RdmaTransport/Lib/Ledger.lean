import Mathlib.Data.List.Basic

/-!
# Acquiring and releasing resources

A ledger records which resources are alive, and which were released while they were not
alive: a second release, or the release of something that was never acquired. Nothing here
depends on a particular kind of resource.
-/

namespace RdmaTransport.Resources

variable {α : Type*} [DecidableEq α]

/-- The resources alive, in the order they were acquired, and the wrong releases. -/
structure Ledger (α : Type*) where
  /-- The resources acquired and not yet released. -/
  live : List α
  /-- The resources released while they were not alive. -/
  misused : List α
  deriving DecidableEq

/-- The ledger of a program that has not acquired anything. -/
def Ledger.empty : Ledger α := ⟨[], []⟩

/-- A resource is acquired. -/
def Ledger.acquire (l : Ledger α) (a : α) : Ledger α := { l with live := l.live ++ [a] }

/-- A resource is released. -/
def Ledger.release (l : Ledger α) (a : α) : Ledger α :=
  if a ∈ l.live then { l with live := l.live.erase a } else { l with misused := l.misused ++ [a] }

omit [DecidableEq α] in
/-- Acquiring adds to the live resources. -/
@[simp] theorem Ledger.live_acquire (l : Ledger α) (a : α) :
    (l.acquire a).live = l.live ++ [a] := rfl

/-- Releasing what is not alive is recorded. -/
theorem Ledger.release_of_notMem {l : Ledger α} {a : α} (h : a ∉ l.live) :
    l.release a = { l with misused := l.misused ++ [a] } := by
  rw [release, if_neg h]

/-- Releasing what is alive is not. -/
theorem Ledger.release_of_mem {l : Ledger α} {a : α} (h : a ∈ l.live) :
    l.release a = { l with live := l.live.erase a } := by
  rw [release, if_pos h]

/-- Releasing a new resource right away undoes its acquisition. -/
theorem Ledger.release_acquire {l : Ledger α} {a : α} (h : a ∉ l.live) :
    (l.acquire a).release a = l := by
  rw [release_of_mem (by simp), acquire]
  simp [List.erase_append_right _ h]

/-- Releasing it again is wrong. -/
theorem Ledger.release_release_acquire {l : Ledger α} {a : α} (h : a ∉ l.live) :
    ((l.acquire a).release a).release a = { l with misused := l.misused ++ [a] } := by
  rw [release_acquire h, release_of_notMem h]

/-- Resources that stand together and are released in their order all go. -/
theorem Ledger.foldl_release_middle (before mid after misused : List α)
    (h : ∀ a ∈ mid, a ∉ before) :
    mid.foldl Ledger.release ⟨before ++ (mid ++ after), misused⟩ = ⟨before ++ after, misused⟩ := by
  induction mid with
  | nil => rfl
  | cons a rest ih =>
    have ha : a ∉ before := h a (List.mem_cons_self ..)
    rw [List.foldl_cons, release_of_mem (by simp), List.erase_append_right _ ha, List.cons_append,
      List.erase_cons_head]
    exact ih fun c hc => h c (List.mem_cons_of_mem _ hc)

/-- A ledger seen by a caller that has acquired other resources before. -/
def Ledger.within (l : Ledger α) (before : List α) : Ledger α := ⟨before ++ l.live, l.misused⟩

omit [DecidableEq α] in
/-- What the caller has acquired does not matter to an acquisition. -/
theorem Ledger.acquire_within (l : Ledger α) (before : List α) (a : α) :
    (l.within before).acquire a = (l.acquire a).within before := by
  simp [within, acquire]

/-- Nor to the release of something the caller has not acquired. -/
theorem Ledger.release_within {l : Ledger α} {before : List α} {a : α} (h : a ∉ before) :
    (l.within before).release a = (l.release a).within before := by
  by_cases ha : a ∈ l.live
  · rw [release_of_mem ha, release_of_mem (by simp [within, ha])]
    simp [within, List.erase_append_right _ h]
  · rw [release_of_notMem ha, release_of_notMem (by simp [within, h, ha])]
    rfl

/-- A release makes nothing alive. -/
theorem Ledger.live_release_subset (l : Ledger α) (a : α) : (l.release a).live ⊆ l.live := by
  unfold release
  split
  · exact List.erase_subset
  · exact List.Subset.refl _

/-- A release takes no other resource away. -/
theorem Ledger.mem_live_release {l : Ledger α} {a b : α} (hb : b ∈ l.live) (hne : b ≠ a) :
    b ∈ (l.release a).live := by
  unfold release
  split
  · exact (List.mem_erase_of_ne hne).mpr hb
  · exact hb

/-- A release takes at most one live resource away. -/
theorem Ledger.length_live_le_release (l : Ledger α) (a : α) :
    l.live.length ≤ (l.release a).live.length + 1 := by
  unfold release
  split
  case isTrue hmem =>
    have hlength := List.length_erase_add_one hmem
    exact Nat.le_of_eq hlength.symm
  case isFalse => exact Nat.le_succ _

end RdmaTransport.Resources
