import Mathlib.Algebra.GroupWithZero.Nat
import Mathlib.Order.Interval.Finset.Nat

/-!
# Ranges of memory, and moving a block piece by piece

A block of memory is cut into consecutive pieces, and every piece is written to a place
of another memory. If the places are apart, reading them in the order of the pieces gives
the block. Ranges that are apart and lie inside a block take up no more than the block.
Memory is a function from addresses to cells of any type, and a range is its
first address and its length. Nothing here depends on a particular program.
-/

namespace RdmaTransport.Transfer

variable {β : Type*}

/-- The cells of a range. -/
def readAt (mem : ℕ → β) (start len : ℕ) : List β := (List.range len).map fun i => mem (start + i)

/-- Consecutive ranges from `lo` to `hi`: each begins where the one before it ends. -/
def Tiles : ℕ → ℕ → List (ℕ × ℕ) → Prop
  | lo, hi, [] => lo = hi
  | lo, hi, piece :: pieces => piece.1 = lo ∧ Tiles (lo + piece.2) hi pieces

/-- Two ranges have no address in common. -/
def Apart (r q : ℕ × ℕ) : Prop := r.1 + r.2 ≤ q.1 ∨ q.1 + q.2 ≤ r.1

/-- A range lies inside another one. -/
def Inside (r q : ℕ × ℕ) : Prop := q.1 ≤ r.1 ∧ r.1 + r.2 ≤ q.1 + q.2

/-- Whether two ranges are apart can be evaluated. -/
instance (r q : ℕ × ℕ) : Decidable (Apart r q) := inferInstanceAs (Decidable (_ ∨ _))

/-- Whether a range lies inside another one can be evaluated. -/
instance (r q : ℕ × ℕ) : Decidable (Inside r q) := inferInstanceAs (Decidable (_ ∧ _))

/-- A range of one memory and the address of another one where it goes. -/
structure Write where
  /-- The first address of the range. -/
  source : ℕ
  /-- The address it goes to. -/
  target : ℕ
  /-- The number of cells. -/
  length : ℕ

/-- The range a write fills. -/
def Write.filled (w : Write) : ℕ × ℕ := (w.target, w.length)

/-- The memory `dst` after a write from the memory `src`. -/
def Write.run (src : ℕ → β) (w : Write) (dst : ℕ → β) : ℕ → β := fun a =>
  if w.target ≤ a ∧ a < w.target + w.length then src (w.source + (a - w.target)) else dst a

/-- The memory `dst` after a list of writes. -/
def runAll (src : ℕ → β) (writes : List Write) (dst : ℕ → β) : ℕ → β :=
  writes.foldl (fun dst w => w.run src dst) dst

/-- A range is read in two parts. -/
theorem readAt_add (mem : ℕ → β) (start a b : ℕ) :
    readAt mem start (a + b) = readAt mem start a ++ readAt mem (start + a) b := by
  simp [readAt, List.range_add, Nat.add_assoc, Function.comp_def]

/-- The lengths of ranges that are apart add up to no more than the number of addresses they
are taken from. -/
theorem sum_le_card_of_apart {ranges : List (ℕ × ℕ)} (addresses : Finset ℕ)
    (hapart : ranges.Pairwise Apart)
    (hin : ∀ r ∈ ranges, Finset.Ico r.1 (r.1 + r.2) ⊆ addresses) :
    (ranges.map Prod.snd).sum ≤ addresses.card := by
  induction ranges generalizing addresses with
  | nil => simp
  | cons r ranges ih =>
    rw [List.pairwise_cons] at hapart
    rw [List.forall_mem_cons] at hin
    -- The other ranges have only the addresses behind the first one's.
    have hrest := ih (addresses \ Finset.Ico r.1 (r.1 + r.2)) hapart.2 (by
      intro q hq a ha
      rw [Finset.mem_sdiff]
      refine ⟨hin.2 q hq ha, ?_⟩
      have hqr := hapart.1 q hq
      rw [Finset.mem_Ico] at ha ⊢
      unfold Apart at hqr
      omega)
    have hcard := Finset.card_sdiff_add_card_eq_card hin.1
    rw [Nat.card_Ico] at hcard
    rw [List.map_cons, List.sum_cons]
    omega

/-- Ranges that are apart and inside a block take up no more than the block. -/
theorem sum_le_of_apart_of_inside {ranges : List (ℕ × ℕ)} {block : ℕ × ℕ}
    (hapart : ranges.Pairwise Apart) (hinside : ∀ r ∈ ranges, Inside r block) :
    (ranges.map Prod.snd).sum ≤ block.2 := by
  have hsum := sum_le_card_of_apart (Finset.Ico block.1 (block.1 + block.2)) hapart fun r hr =>
    Finset.Ico_subset_Ico (hinside r hr).1 (hinside r hr).2
  rwa [Nat.card_Ico, Nat.add_sub_cancel_left] at hsum

/-- Consecutive ranges do not end before they begin. -/
theorem Tiles.le {lo hi : ℕ} {pieces : List (ℕ × ℕ)} (h : Tiles lo hi pieces) : lo ≤ hi := by
  induction pieces generalizing lo with
  | nil => exact Nat.le_of_eq h
  | cons piece pieces ih =>
    have hle := ih h.2
    omega

/-- Reading consecutive ranges one after the other reads the whole. -/
theorem Tiles.flatMap_readAt {lo hi : ℕ} {pieces : List (ℕ × ℕ)} (h : Tiles lo hi pieces)
    (mem : ℕ → β) : pieces.flatMap (fun p => readAt mem p.1 p.2) = readAt mem lo (hi - lo) := by
  induction pieces generalizing lo with
  | nil =>
    obtain rfl : lo = hi := h
    simp [readAt]
  | cons piece pieces ih =>
    obtain ⟨rfl, hrest⟩ := h
    have hle := hrest.le
    have hlength : hi - piece.1 = piece.2 + (hi - (piece.1 + piece.2)) := by
      omega
    rw [List.flatMap_cons, ih hrest, hlength, readAt_add]

/-- What a write has filled is what it read. -/
theorem Write.readAt_run (src dst : ℕ → β) (w : Write) :
    readAt (w.run src dst) w.target w.length = readAt src w.source w.length := by
  apply List.map_congr_left
  intro i hi
  have hlt : i < w.length := List.mem_range.mp hi
  simp [run, hlt]

/-- A write leaves the ranges apart from it. -/
theorem Write.readAt_run_of_apart (src dst : ℕ → β) {w : Write} {start len : ℕ}
    (h : Apart w.filled (start, len)) :
    readAt (w.run src dst) start len = readAt dst start len := by
  apply List.map_congr_left
  intro i hi
  have hlt : i < len := List.mem_range.mp hi
  have hout : ¬(w.target ≤ start + i ∧ start + i < w.target + w.length) := by
    simp only [Apart, filled] at h
    omega
  rw [run, if_neg hout]

/-- So does a list of writes. -/
theorem readAt_runAll_of_apart (src dst : ℕ → β) {writes : List Write} {start len : ℕ}
    (h : ∀ w ∈ writes, Apart w.filled (start, len)) :
    readAt (runAll src writes dst) start len = readAt dst start len := by
  induction writes generalizing dst with
  | nil => rfl
  | cons w writes ih =>
    rw [List.forall_mem_cons] at h
    exact (ih (w.run src dst) h.2).trans (w.readAt_run_of_apart src dst h.1)

/-- Writes to places that are apart do not disturb each other. -/
theorem flatMap_readAt_runAll (src dst : ℕ → β) {writes : List Write}
    (h : writes.Pairwise fun v w => Apart w.filled v.filled) :
    writes.flatMap (fun w => readAt (runAll src writes dst) w.target w.length) =
      writes.flatMap fun w => readAt src w.source w.length := by
  induction writes generalizing dst with
  | nil => rfl
  | cons w writes ih =>
    rw [List.pairwise_cons] at h
    have hfirst : readAt (runAll src (w :: writes) dst) w.target w.length =
        readAt src w.source w.length :=
      (readAt_runAll_of_apart src (w.run src dst) h.1).trans (w.readAt_run src dst)
    rw [List.flatMap_cons, List.flatMap_cons, hfirst]
    exact congrArg _ (ih (w.run src dst) h.2)

/-- **Moving a block.** If consecutive pieces are written to places that are apart, reading
the places in the order of the pieces gives the block. -/
theorem Tiles.flatMap_runAll {lo hi : ℕ} {writes : List Write}
    (h : Tiles lo hi (writes.map fun w => (w.source, w.length)))
    (hapart : writes.Pairwise fun v w => Apart w.filled v.filled) (src dst : ℕ → β) :
    writes.flatMap (fun w => readAt (runAll src writes dst) w.target w.length) =
      readAt src lo (hi - lo) := by
  rw [flatMap_readAt_runAll src dst hapart, ← h.flatMap_readAt src, List.flatMap_map]

end RdmaTransport.Transfer
