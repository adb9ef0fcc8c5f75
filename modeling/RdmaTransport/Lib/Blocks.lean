import Mathlib.Data.List.Basic

/-!
# Blocks of memory and their deallocators

A table records the blocks of memory a process has obtained and not given back, with the
call each of them came from: a block of `malloc` goes back through `free` and a block of
`mmap` through `munmap`, each at its own base. Where a new block is placed is up to the
system, which only promises to keep it apart from the blocks alive. Nothing here depends
on a particular program.
-/

namespace RdmaTransport.Blocks

/-- The call a block was obtained from. -/
inductive BlockKind
  | mmap
  | malloc
  deriving DecidableEq

/-- A block of memory. -/
structure Block where
  /-- The address of the first byte. -/
  base : ℕ
  /-- The number of bytes. -/
  size : ℕ
  /-- The call the block was obtained from. -/
  kind : BlockKind
  deriving DecidableEq

/-- The first address after a block. An empty block takes up one address, as it has an
address of its own. -/
def Block.stop (b : Block) : ℕ := b.base + max b.size 1

/-- Two blocks have no address in common. -/
def Block.Apart (b c : Block) : Prop := b.stop ≤ c.base ∨ c.stop ≤ b.base

/-- The system's choice of addresses. -/
structure Allocator where
  /-- The base of the block obtained after so many others, given the blocks alive and the
  size asked for. -/
  place : ℕ → List Block → ℕ → ℕ
  /-- No block starts at the null address. -/
  place_pos : ∀ n live size, 0 < place n live size
  /-- A new block is apart from the blocks alive. -/
  apart : ∀ n live size kind, ∀ c ∈ live, (⟨place n live size, size, kind⟩ : Block).Apart c

/-- The blocks of a process. -/
structure Table where
  /-- The blocks obtained and not given back. -/
  live : List Block
  /-- The number of blocks obtained so far. -/
  obtained : ℕ
  /-- The addresses passed to a deallocator that were not the base of a live block of its
  kind. -/
  misused : List (BlockKind × ℕ)
  deriving DecidableEq

/-- A block is obtained. The result holds its base. -/
def Table.obtain (t : Table) (A : Allocator) (kind : BlockKind) (size : ℕ) : Table × ℕ :=
  let base := A.place t.obtained t.live size
  ({ t with live := t.live ++ [⟨base, size, kind⟩], obtained := t.obtained + 1 }, base)

/-- `free`. -/
def Table.free (t : Table) (ptr : ℕ) : Table :=
  if ptr = 0 then t
  else
    match t.live.find? fun b => b.kind = .malloc && b.base = ptr with
    | some b => { t with live := t.live.erase b }
    | none => { t with misused := t.misused ++ [(.malloc, ptr)] }

/-- `munmap`. -/
def Table.munmap (t : Table) (ptr size : ℕ) : Table :=
  if (⟨ptr, size, .mmap⟩ : Block) ∈ t.live then { t with live := t.live.erase ⟨ptr, size, .mmap⟩ }
  else { t with misused := t.misused ++ [(.mmap, ptr)] }

/-- A block is alive and apart from all others. -/
def Table.Guards (t : Table) (b : Block) : Prop :=
  b ∈ t.live ∧ ∀ c ∈ t.live, c = b ∨ b.Apart c

/-- No live block starts at an address. -/
def Table.Unowned (t : Table) (ptr : ℕ) : Prop := ∀ c ∈ t.live, c.base ≠ ptr

variable {A : Allocator} {t : Table} {b : Block} {kind : BlockKind} {size ptr : ℕ}

/-- A block ends after its base. -/
theorem Block.base_lt_stop (b : Block) : b.base < b.stop := by
  unfold stop
  omega

/-- Being apart is symmetric. -/
theorem Block.Apart.symm {c : Block} (h : b.Apart c) : c.Apart b := Or.symm h

/-- Blocks that are apart have different bases. -/
theorem Block.Apart.base_ne {c : Block} (h : b.Apart c) : b.base ≠ c.base := by
  have hb := b.base_lt_stop
  have hc := c.base_lt_stop
  unfold Block.Apart at h
  omega

/-- A new block is apart from all others. -/
theorem Table.guards_obtain (t : Table) (A : Allocator) (kind : BlockKind) (size : ℕ) :
    (t.obtain A kind size).1.Guards ⟨(t.obtain A kind size).2, size, kind⟩ := by
  refine ⟨List.mem_append_right _ (List.mem_singleton_self _), ?_⟩
  intro c hc
  rcases List.mem_append.mp hc with hold | hnew
  · exact .inr (A.apart _ _ _ _ c hold)
  · exact .inl (List.mem_singleton.mp hnew)

/-- A block stays apart from the blocks obtained after it. -/
theorem Table.Guards.obtain (hb : t.Guards b) : (t.obtain A kind size).1.Guards b := by
  refine ⟨List.mem_append_left _ hb.1, ?_⟩
  intro c hc
  rcases List.mem_append.mp hc with hold | hnew
  · exact hb.2 c hold
  · rw [List.mem_singleton.mp hnew]
    exact .inr (A.apart _ _ _ _ b hb.1).symm

/-- A block obtained later has another base. -/
theorem Table.Guards.obtain_ne (hb : t.Guards b) (kind : BlockKind) (size : ℕ) :
    (t.obtain A kind size).2 ≠ b.base :=
  (A.apart t.obtained t.live size kind b hb.1).base_ne

/-- What `free` does with an address that is not null. -/
theorem Table.free_cases (t : Table) (hptr : ptr ≠ 0) :
    (∃ c ∈ t.live, c.base = ptr ∧ t.free ptr = { t with live := t.live.erase c }) ∨
    ((∀ c ∈ t.live, c.kind = .malloc → c.base ≠ ptr) ∧
      t.free ptr = { t with misused := t.misused ++ [(.malloc, ptr)] }) := by
  unfold free
  rw [if_neg hptr]
  split
  case h_1 c hfind =>
    left
    have hc := List.find?_some hfind
    simp only [Bool.and_eq_true, decide_eq_true_eq] at hc
    exact ⟨c, List.mem_of_find?_eq_some hfind, hc.2, rfl⟩
  case h_2 hfind =>
    right
    refine ⟨?_, rfl⟩
    intro c hc hkind hbase
    have hnone := List.find?_eq_none.mp hfind c hc
    simp [hkind, hbase] at hnone

/-- Freeing an address leaves only blocks that were alive. -/
theorem Table.live_free_subset (t : Table) (ptr : ℕ) : (t.free ptr).live ⊆ t.live := by
  by_cases hptr : ptr = 0
  · rw [free, if_pos hptr]
    exact List.Subset.refl _
  · rcases t.free_cases hptr with ⟨c, _, _, heq⟩ | ⟨_, heq⟩
    · rw [heq]
      exact List.erase_subset
    · rw [heq]
      exact List.Subset.refl _

/-- A block stays alive and apart when another address is freed. -/
theorem Table.Guards.free (hb : t.Guards b) (hne : ptr ≠ b.base) : (t.free ptr).Guards b := by
  refine ⟨?_, fun c hc => hb.2 c (t.live_free_subset ptr hc)⟩
  by_cases hptr : ptr = 0
  · rw [Table.free, if_pos hptr]
    exact hb.1
  · rcases t.free_cases hptr with ⟨c, _, hbase, heq⟩ | ⟨_, heq⟩
    · rw [heq]
      refine (List.mem_erase_of_ne ?_).mpr hb.1
      rintro rfl
      exact hne hbase.symm
    · rw [heq]
      exact hb.1

/-- No block starts inside a block that is apart from all others. -/
theorem Table.Guards.unowned (hb : t.Guards b) (hlow : b.base < ptr) (hhigh : ptr < b.stop) :
    t.Unowned ptr := by
  intro c hc hbase
  rcases hb.2 c hc with rfl | hapart
  · omega
  · have hstop := c.base_lt_stop
    unfold Block.Apart at hapart
    omega

/-- Freeing makes no block start at an address. -/
theorem Table.Unowned.free (h : t.Unowned ptr) (other : ℕ) : (t.free other).Unowned ptr :=
  fun c hc => h c (t.live_free_subset other hc)

/-- Freeing an address at which no block starts is recorded. -/
theorem Table.Unowned.mem_misused (h : t.Unowned ptr) (hptr : ptr ≠ 0) :
    (.malloc, ptr) ∈ (t.free ptr).misused := by
  rcases t.free_cases hptr with ⟨c, hc, hbase, _⟩ | ⟨_, heq⟩
  · exact absurd hbase (h c hc)
  · rw [heq]
    exact List.mem_append_right _ (List.mem_singleton_self _)

/-- `free` forgets no wrong address. -/
theorem Table.misused_free_subset (t : Table) (ptr : ℕ) : t.misused ⊆ (t.free ptr).misused := by
  by_cases hptr : ptr = 0
  · rw [free, if_pos hptr]
    exact List.Subset.refl _
  · rcases t.free_cases hptr with ⟨c, _, _, heq⟩ | ⟨_, heq⟩
    · rw [heq]
      exact List.Subset.refl _
    · rw [heq]
      exact List.subset_append_left ..

/-- `munmap` forgets no wrong address. -/
theorem Table.misused_munmap_subset (t : Table) (ptr size : ℕ) :
    t.misused ⊆ (t.munmap ptr size).misused := by
  unfold munmap
  split
  · exact List.Subset.refl _
  · exact List.subset_append_left ..

end RdmaTransport.Blocks
