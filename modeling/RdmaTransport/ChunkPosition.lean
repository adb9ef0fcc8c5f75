import RdmaTransport.Chunk
import RdmaTransport.Lib.Runs
import RdmaTransport.Lib.Transfer

/-!
# The position of a chunk

`Chunk::read` and `Chunk::write` share one position. A write that asks for more than is
left stops at the end of the buffer, a read that does so goes back to the start. The
arithmetic mixes 32-bit and 64-bit unsigned numbers. This file follows the position through
any sequence of calls: it never leaves the buffer, so that no subtraction borrows and no
addition carries, and writes alone fill the buffer with what they accept.
-/

namespace RdmaTransport

open Memory Runs Transfer

/-- A call on a chunk. -/
inductive ChunkCall
  /-- `read(buf,len)`. -/
  | read (len : ℕ)
  /-- `write(buf,len)`, with the bytes at `buf`. -/
  | write (data : List UInt8)

/-- The length asked for. -/
def ChunkCall.len : ChunkCall → ℕ
  | .read len => len
  | .write data => data.length

/-- A call: the new chunk and the returned count. -/
def Chunk.call (c : Chunk) : ChunkCall → Chunk × ℕ
  | .read len => ((c.read len).1, (c.read len).2.2)
  | .write data => c.write data

/-- A call always returns. -/
def Chunk.step (c : Chunk) (call : ChunkCall) : Option Chunk := some (c.call call).1

/-- The range of the buffer that the `memcpy` of a call touches. -/
def Chunk.touched (c : Chunk) (len : ℕ) : ℕ × ℕ :=
  let left := sizeSub c.bytes c.offset
  if len ≤ left then (c.offset, len) else (c.offset, left)

/-- The call copies between the caller's memory and that range. -/
def Chunk.Copies (c : Chunk) : ChunkCall → Prop
  | .read len => (c.read len).1.buffer = c.buffer ∧
      (c.read len).2.1 = (c.buffer.drop (c.touched len).1).take (c.touched len).2
  | .write data => (c.write data).1.buffer =
      overwrite c.buffer (c.touched data.length).1 (data.take (c.touched data.length).2)

/-- What is right about a call. -/
structure Chunk.CallRight (c : Chunk) (call : ChunkCall) : Prop where
  /-- The subtraction `bytes - offset` does not borrow. -/
  no_borrow : c.offset ≤ c.bytes
  /-- The addition `offset + len` does not carry where it is made. -/
  no_carry : call.len ≤ sizeSub c.bytes c.offset → c.offset + call.len < 2 ^ 64
  /-- The copy stays inside the buffer. -/
  inside : Inside (c.touched call.len) (0, c.bytes)
  /-- The bytes copied are those of that range. -/
  copies : c.Copies call
  /-- The call returns what is left of the length asked for. -/
  count_eq : (c.call call).2 = min call.len (c.bytes - c.offset)
  /-- The size of the buffer stays. -/
  bytes_eq : (c.call call).1.bytes = c.bytes ∧ (c.call call).1.buffer.length = c.bytes
  /-- The new position is inside the buffer. -/
  offset_le : (c.call call).1.offset ≤ (c.call call).1.bytes

/-- The parts of the data that writes accept. -/
def Chunk.accepted : Chunk → List (List UInt8) → List (List UInt8)
  | _, [] => []
  | c, data :: rest => data.take (c.write data).2 :: (c.write data).1.accepted rest

namespace Chunk.Valid

variable {c : Chunk}

/-- The range touched, in ordinary arithmetic. -/
theorem touched_eq (h : c.Valid) (len : ℕ) :
    c.touched len = (c.offset, min len (c.bytes - c.offset)) := by
  unfold touched
  simp only [h.left_eq]
  split_ifs with hlen
  · rw [min_eq_left hlen]
  · rw [min_eq_right (by omega)]

/-- Both calls copy the range they touch. -/
theorem copies (h : c.Valid) (call : ChunkCall) : c.Copies call := by
  cases call with
  | read len =>
    rw [Copies, h.touched_eq, h.read_eq]
    exact ⟨rfl, rfl⟩
  | write data =>
    have htake : data.take (min data.length (c.bytes - c.offset)) =
        data.take (c.bytes - c.offset) := by
      rw [min_comm, ← List.take_eq_take_min]
    rw [Copies, h.touched_eq, h.write_eq, htake]

/-- A call keeps a chunk valid. -/
theorem call (h : c.Valid) (call : ChunkCall) : (c.call call).1.Valid := by
  cases call with
  | read len => exact h.read len
  | write data => exact h.write data

/-- Every call on a valid chunk is right. -/
theorem callRight (h : c.Valid) (call : ChunkCall) : c.CallRight call := by
  have hoffset := h.offset_le
  have hbytes := h.bytes_lt
  refine ⟨hoffset, ?_, ?_, h.copies call, ?_, ?_, (h.call call).offset_le⟩
  · rw [h.left_eq]
    omega
  · rw [h.touched_eq]
    constructor <;> simp only <;> omega
  · cases call with
    | read len => simp only [Chunk.call, h.read_eq, ChunkCall.len]
    | write data => simp only [Chunk.call, h.write_eq, ChunkCall.len]
  · have hkept : (c.call call).1.bytes = c.bytes := by
      cases call with
      | read len => simp only [Chunk.call, h.read_eq]
      | write data => simp only [Chunk.call, h.write_eq]
    exact ⟨hkept, (h.call call).length_eq.trans hkept⟩

/-- Writes append what they accept, and move the position on until the buffer is full. -/
theorem exec_writes (h : c.Valid) {writes : List (List UInt8)} {d : Chunk}
    (hrun : exec Chunk.step c (writes.map ChunkCall.write) = some d) :
    d.buffer.take d.offset = c.buffer.take c.offset ++ (c.accepted writes).flatten ∧
      d.bytes = c.bytes ∧ d.offset = min (c.offset + (writes.map List.length).sum) c.bytes := by
  induction writes generalizing c with
  | nil =>
    obtain rfl := Option.some.inj hrun
    simp [accepted, h.offset_le]
  | cons data rest ih =>
    obtain ⟨c', hstep, hrest⟩ := exec_cons_eq_some.mp hrun
    obtain rfl : (c.write data).1 = c' := Option.some.inj hstep
    obtain ⟨hcontent, hbytes, hoffset⟩ := ih (h.write data) hrest
    have htaken : data.take (c.write data).2 = data.take (c.bytes - c.offset) := by
      rw [h.write_eq]
      dsimp only
      rw [min_comm, ← List.take_eq_take_min]
    have hkept : (c.write data).1.bytes = c.bytes := by rw [h.write_eq]
    have hmoved : (c.write data).1.offset = min (c.offset + data.length) c.bytes := by
      rw [h.write_eq]
    refine ⟨?_, hbytes.trans hkept, ?_⟩
    · rw [hcontent, h.write_content, accepted, List.flatten_cons, htaken, List.append_assoc]
    · rw [hoffset, hkept, hmoved, List.map_cons, List.sum_cons]
      omega

end Chunk.Valid

/-- **The position of a chunk.** Whatever calls are made on a new chunk, with any lengths,
each of them is right: no subtraction borrows and no addition carries, the copy stays
inside the buffer, the count returned is what is left of the length asked for, and the new
position is inside the buffer. After writes alone the bytes before the position are the
accepted parts of the data in order, and the chunk is full exactly when the lengths asked
for add up to its size. -/
theorem chunk_position {bytes : ℕ} (hbytes : bytes < 2 ^ 32) {buffer : List UInt8}
    (hbuffer : buffer.length = bytes) (address lkey : ℕ) :
    (∀ calls, Meets Chunk.step Chunk.CallRight ⟨address, buffer, bytes, 0, lkey⟩ calls) ∧
    ∀ writes, ∃ c, exec Chunk.step ⟨address, buffer, bytes, 0, lkey⟩
        (writes.map ChunkCall.write) = some c ∧
      c.buffer.take c.offset =
        (Chunk.accepted ⟨address, buffer, bytes, 0, lkey⟩ writes).flatten ∧
      (c.full = true ↔ bytes ≤ (writes.map List.length).sum) := by
  have hnew : Chunk.Valid ⟨address, buffer, bytes, 0, lkey⟩ := ⟨hbuffer, Nat.zero_le _, hbytes⟩
  constructor
  · refine meets_of_invariant Chunk.Valid ?_ (fun c call h => h.callRight call) hnew
    intro c call d h hstep
    obtain rfl := Option.some.inj hstep
    exact h.call call
  · intro writes
    have hreturns : ∀ c call, ∃ d, Chunk.step c call = some d := fun c call => ⟨_, rfl⟩
    obtain ⟨c, hrun⟩ := exists_exec hreturns ⟨address, buffer, bytes, 0, lkey⟩
      (writes.map ChunkCall.write)
    obtain ⟨hcontent, hkept, hoffset⟩ := hnew.exec_writes hrun
    refine ⟨c, hrun, by simpa using hcontent, ?_⟩
    rw [Chunk.full, beq_iff_eq, hkept, hoffset]
    simp only
    omega

/-- Four bytes written to a chunk of three fill it with the first three. -/
theorem chunk_position_three_bytes :
    ∃ c, exec Chunk.step ⟨0, [0, 0, 0], 3, 0, 0⟩ [.write [1, 2], .write [3, 4]] = some c ∧
      c.buffer.take c.offset = [1, 2, 3] ∧ c.full = true ∧
      Meets Chunk.step Chunk.CallRight ⟨0, [0, 0, 0], 3, 0, 0⟩
        [.write [1, 2], .read 5, .read 3] := by
  obtain ⟨hcalls, hwrites⟩ := chunk_position (show 3 < 2 ^ 32 by decide)
    (show [(0 : UInt8), 0, 0].length = 3 from rfl) 0 0
  obtain ⟨c, hrun, hcontent, hfull⟩ := hwrites [[1, 2], [3, 4]]
  exact ⟨c, hrun, hcontent, hfull.mpr (by decide), hcalls _⟩

end RdmaTransport
