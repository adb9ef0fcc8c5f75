import Mathlib.Data.List.Basic

/-!
# Objects and pointers

A heap is a list of allocations, each of them an array of objects. A pointer is null or
refers to a place in one allocation; adding to it moves within that allocation, and an
access behind its end is an access to no object, whatever is allocated next. The loop that
walks a pointer until it is null or refers to the object looked for is fixed here. Nothing
here depends on a particular program.
-/

namespace RdmaTransport.Objects

variable {α : Type*}

/-- A pointer to an object. -/
inductive Ptr
  /-- The null pointer. -/
  | null
  /-- The pointer to a place of an allocation. -/
  | into (alloc offset : ℕ)
  deriving DecidableEq

/-- The pointer `r + 1`. -/
def Ptr.next : Ptr → Ptr
  | .null => .null
  | .into alloc offset => .into alloc (offset + 1)

/-- The allocations made so far, with their objects. -/
structure Heap (α : Type*) where
  /-- The array of each allocation. -/
  allocs : List (List α)

/-- A new allocation for the given objects, and the pointer to the first of them. -/
def Heap.new (h : Heap α) (objects : List α) : Heap α × Ptr :=
  (⟨h.allocs ++ [objects]⟩, .into h.allocs.length 0)

/-- The objects of an allocation. -/
def Heap.objects (h : Heap α) (alloc : ℕ) : List α := h.allocs.getD alloc []

/-- The object a pointer refers to, if there is one. -/
def Heap.load (h : Heap α) : Ptr → Option α
  | .null => none
  | .into alloc offset => (h.objects alloc)[offset]?

/-- What a walk does. -/
structure Walk where
  /-- The pointers whose object is accessed, in order. -/
  inspected : List Ptr
  /-- The pointer returned, or `none` after an access to no object. -/
  result : Option Ptr
  deriving DecidableEq

/-- The walk from a place of an allocation on, given the objects from there on. -/
def walkFrom (found : α → Bool) (alloc : ℕ) : (offset : ℕ) → List α → Walk
  | offset, [] => ⟨[.into alloc offset], none⟩
  | offset, a :: rest =>
      if found a then ⟨[.into alloc offset], some (.into alloc offset)⟩
      else
        let more := walkFrom found alloc (offset + 1) rest
        ⟨.into alloc offset :: more.inspected, more.result⟩

/-- The loop `for(r = p; r; ++r) if(found(*r)) return r;` followed by `return NULL`. -/
def Heap.walk (h : Heap α) (found : α → Bool) : Ptr → Walk
  | .null => ⟨[], some .null⟩
  | .into alloc offset => walkFrom found alloc offset ((h.objects alloc).drop offset)

/-- One round of the loop. -/
theorem Heap.walk_eq (h : Heap α) (found : α → Bool) (r : Ptr) :
    h.walk found r =
      if r = .null then ⟨[], some .null⟩
      else match h.load r with
        | none => ⟨[r], none⟩
        | some a =>
            if found a then ⟨[r], some r⟩
            else ⟨r :: (h.walk found r.next).inspected, (h.walk found r.next).result⟩ := by
  cases r with
  | null => rfl
  | into alloc offset =>
    rw [if_neg (by simp), walk, load]
    cases hload : (h.objects alloc)[offset]? with
    | none =>
      rw [List.drop_eq_nil_of_le (List.getElem?_eq_none_iff.mp hload)]
      rfl
    | some a =>
      obtain ⟨hlt, rfl⟩ := List.getElem?_eq_some_iff.mp hload
      rw [List.drop_eq_getElem_cons hlt]
      rfl

/-- The objects in the allocations made later. -/
theorem Heap.load_append_right (h : Heap α) (more : List (List α)) (i offset : ℕ) :
    (⟨h.allocs ++ more⟩ : Heap α).load (.into (h.allocs.length + i) offset) =
      (more.getD i [])[offset]? := by
  rw [load, objects, List.getD_eq_getElem?_getD, List.getElem?_append_right (Nat.le_add_right _ _),
    Nat.add_sub_cancel_left, List.getD_eq_getElem?_getD]

end RdmaTransport.Objects
