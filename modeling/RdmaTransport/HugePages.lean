import RdmaTransport.Lib.Blocks
import RdmaTransport.Lib.Ledger
import RdmaTransport.Lib.Transfer

/-!
# The huge page allocator

`malloc_huge_pages` obtains a block from `mmap` or, when there are no huge pages, from
`malloc`. The first page holds the size of the block, or 0 for a block of `malloc`; the
address returned is one page after the base. `free_huge_pages` goes back by a page and
reads that word to find the deallocator. Sizes are computed modulo 2⁶⁴. The block has room
for the size asked for exactly when that is at least two pages below 2⁶⁴.
-/

namespace RdmaTransport

open Blocks Resources Transfer

/-- `HUGE_PAGE_SIZE`. -/
def hugePageSize : ℕ := 2 * 1024 * 1024

/-- `ALIGN_TO_PAGE_SIZE`, in 64-bit arithmetic. -/
def alignToPageSize (x : ℕ) : ℕ := (x + hugePageSize - 1) % 2 ^ 64 / hugePageSize * hugePageSize

/-- The `real_size` of `malloc_huge_pages`. -/
def realSize (size : ℕ) : ℕ := alignToPageSize ((size + hugePageSize) % 2 ^ 64)

/-- The memory of a process that runs a session. -/
structure SessionHeap where
  /-- The blocks obtained. -/
  table : Table
  /-- The words `malloc_huge_pages` stores at the base of its blocks. -/
  saved : ℕ → ℕ
  /-- The addresses returned by `malloc_huge_pages` and given back to `free_huge_pages`. -/
  huge : Ledger ℕ
  /-- The memory regions registered and deregistered. -/
  regions : Ledger ℕ
  /-- The number of regions registered so far. -/
  registered : ℕ

section

variable (A : Allocator) (maps : ℕ → Bool)

/-- `malloc`, `calloc` and `memalign`, which succeed. -/
def SessionHeap.malloc (h : SessionHeap) (size : ℕ) : SessionHeap × ℕ :=
  let out := h.table.obtain A .malloc size
  ({ h with table := out.1 }, out.2)

/-- `malloc_huge_pages`. Whether `mmap` finds huge pages is a parameter; `malloc` is used
when it does not, and the word stored is then 0. -/
def SessionHeap.mallocHugePages (h : SessionHeap) (size : ℕ) : SessionHeap × ℕ :=
  let mapped := maps h.table.obtained
  let out := h.table.obtain A (if mapped then .mmap else .malloc) (realSize size)
  ({ h with
      table := out.1
      saved := Function.update h.saved out.2 (if mapped then realSize size else 0)
      huge := h.huge.acquire (out.2 + hugePageSize) }, out.2 + hugePageSize)

/-- `free`. -/
def SessionHeap.free (h : SessionHeap) (ptr : ℕ) : SessionHeap :=
  { h with table := h.table.free ptr }

/-- `free_huge_pages`. A failed assertion is `none`. -/
def SessionHeap.freeHugePages (h : SessionHeap) (ptr : ℕ) : Option SessionHeap :=
  if ptr = 0 then some h
  else
    let realPtr := ptr - hugePageSize
    let size := h.saved realPtr
    if size % hugePageSize = 0 then
      some { h with
        table := if size ≠ 0 then h.table.munmap realPtr size else h.table.free realPtr
        huge := h.huge.release ptr }
    else none

end

/-- Up to two pages below 2⁶⁴ the block is a positive number of pages with room for the first
page and the size asked for. -/
theorem realSize_of_le {size : ℕ} (hsize : size ≤ 2 ^ 64 - 2 * hugePageSize) :
    hugePageSize + size ≤ realSize size ∧ realSize size % hugePageSize = 0 ∧
      realSize size ≠ 0 := by
  unfold realSize alignToPageSize
  simp only [hugePageSize] at *
  omega

/-- Beyond that the size wraps, and the block is at most one page. -/
theorem realSize_of_lt {size : ℕ} (hsize : 2 ^ 64 - 2 * hugePageSize < size)
    (hlt : size < 2 ^ 64) : realSize size ≤ hugePageSize := by
  unfold realSize alignToPageSize
  simp only [hugePageSize] at *
  omega

/-- `free_huge_pages` when the assertion passes. -/
theorem SessionHeap.freeHugePages_eq {h : SessionHeap} {base : ℕ}
    (hsaved : h.saved base % hugePageSize = 0) :
    h.freeHugePages (base + hugePageSize) = some { h with
      table := if h.saved base ≠ 0 then h.table.munmap base (h.saved base) else h.table.free base
      huge := h.huge.release (base + hugePageSize) } := by
  have hne : base + hugePageSize ≠ 0 := by
    simp [hugePageSize]
  rw [freeHugePages, if_neg hne]
  simp only [Nat.add_sub_cancel, hsaved, if_true]

/-- **The limit of the huge page allocator.** Wherever the blocks are placed, for every 64-bit
size, `malloc_huge_pages` returns an address whose range of that size lies inside the
block and after the page of the header exactly when the size is at least two pages below
2⁶⁴. For such a size, as long as the word at the base is as it was left,
`free_huge_pages` passes its assertion and gives the block back to the call it came
from. -/
theorem hugePages_inside_iff (A : Allocator) (maps : ℕ → Bool) {h out : SessionHeap} {ret : ℕ}
    (size : UInt64) (hmalloc : h.mallocHugePages A maps size.toNat = (out, ret)) :
    ∃ base, ret = base + hugePageSize ∧
      (⟨base, realSize size.toNat, if maps h.table.obtained then .mmap else .malloc⟩ : Block) ∈
        out.table.live ∧
      (base + hugePageSize ≤ ret ∧ Inside (ret, size.toNat) (base, realSize size.toNat) ↔
        size.toNat ≤ 2 ^ 64 - 2 * hugePageSize) ∧
      (size.toNat ≤ 2 ^ 64 - 2 * hugePageSize → ∀ later : SessionHeap,
        later.saved base = out.saved base →
        later.freeHugePages ret = some { later with
          table :=
            if maps h.table.obtained then later.table.munmap base (realSize size.toNat)
            else later.table.free base
          huge := later.huge.release ret }) := by
  obtain ⟨rfl, rfl⟩ := Prod.mk.inj hmalloc
  refine ⟨A.place h.table.obtained h.table.live (realSize size.toNat), rfl,
    List.mem_append_right _ (List.mem_singleton_self _), ?_, ?_⟩
  · simp only [Table.obtain, Inside]
    constructor
    · rintro ⟨_, _, hroom⟩
      by_contra hlarge
      have hbeyond : 2 ^ 64 - 2 * hugePageSize < size.toNat := Nat.lt_of_not_le hlarge
      have hreal := realSize_of_lt hbeyond size.toNat_lt
      omega
    · intro hsize
      have hreal := (realSize_of_le hsize).1
      omega
  · intro hsize later hsaved
    obtain ⟨_, haligned, hne⟩ := realSize_of_le hsize
    simp only [Table.obtain, Function.update_self] at hsaved ⊢
    cases hmaps : maps h.table.obtained with
    | true =>
      rw [hmaps, if_pos rfl] at hsaved
      rw [SessionHeap.freeHugePages_eq (by rw [hsaved, haligned]), hsaved, if_pos hne, if_pos rfl]
    | false =>
      rw [hmaps, if_neg (by decide)] at hsaved
      rw [SessionHeap.freeHugePages_eq (by rw [hsaved, Nat.zero_mod]), hsaved, if_neg (by simp),
        if_neg (by decide)]

/-- The first page that starts after all live blocks. -/
def nextPage (live : List Block) : ℕ :=
  live.foldr (fun c top => max top ((c.stop / hugePageSize + 1) * hugePageSize)) hugePageSize

/-- No block is on page 0. -/
theorem hugePageSize_le_nextPage (live : List Block) : hugePageSize ≤ nextPage live := by
  induction live with
  | nil => exact Nat.le_refl _
  | cons c rest ih => exact Nat.le_trans ih (Nat.le_max_left ..)

/-- The next page starts after every live block. -/
theorem stop_le_nextPage {live : List Block} {c : Block} (hc : c ∈ live) :
    c.stop ≤ nextPage live := by
  induction live with
  | nil => cases hc
  | cons d rest ih =>
    rcases List.mem_cons.mp hc with rfl | hrest
    · have hpage : c.stop < (c.stop / hugePageSize + 1) * hugePageSize := by
        rw [Nat.mul_comm]
        exact Nat.lt_mul_div_succ _ (by decide)
      exact Nat.le_trans (Nat.le_of_lt hpage) (Nat.le_max_right ..)
    · exact Nat.le_trans (ih hrest) (Nat.le_max_left ..)

/-- A system that puts every block on a page of its own. -/
def pageAllocator : Allocator where
  place _ live _ := nextPage live
  place_pos _ live _ := Nat.lt_of_lt_of_le (by decide) (hugePageSize_le_nextPage live)
  apart _ _ _ _ _ hc := .inr (stop_le_nextPage hc)

/-- Five bytes on huge pages: they fit the second page of the block, which `munmap` gets
back. -/
theorem hugePages_inside_iff_five_bytes :
    ∃ out, (⟨⟨[], 0, []⟩, fun _ => 0, .empty, .empty, 0⟩ : SessionHeap).mallocHugePages
        pageAllocator (fun _ => true) 5 = (out, 2 * hugePageSize) ∧
      Inside (2 * hugePageSize, 5) (hugePageSize, 2 * hugePageSize) ∧
      ∃ freed, out.freeHugePages (2 * hugePageSize) = some freed ∧ freed.table.live = [] := by
  obtain ⟨base, hbase, _, hinside, hfree⟩ := hugePages_inside_iff pageAllocator (fun _ => true) 5
    (show (⟨⟨[], 0, []⟩, fun _ => 0, .empty, .empty, 0⟩ : SessionHeap).mallocHugePages
      pageAllocator (fun _ => true) 5 = (_, 2 * hugePageSize) from rfl)
  obtain rfl : hugePageSize = base := by omega
  exact ⟨_, rfl, (hinside.mpr (by decide)).2, _, hfree (by decide) _ rfl, by decide⟩

end RdmaTransport
