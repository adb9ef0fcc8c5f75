import RdmaTransport.Lib.Format
import RdmaTransport.Lib.Memory
import RdmaTransport.Lib.Runs
import RdmaTransport.Lib.Transfer

/-!
# Handing over the standard input in blocks

The migration client collects its standard input in a registered pool of fixed size. When
the pool is full, or the input has ended, it writes the number of bytes to the TCP
connection, and the peer fetches the pool and answers `done`. The input may come in pieces
of any size, the writes may be cut, and the answer is read over the text of the number in
the same array. This file proves that the blocks are the input, in order, and says when
all of it is handed over.
-/

namespace RdmaTransport

open Runs Transfer Format Memory

/-- `RW_SIZE`. -/
def rwSize : ℕ := 1073741824

/-- Where the client is. -/
inductive MigrationPoint
  /-- In `collect`. -/
  | collect
  /-- Before the size is written. -/
  | announce
  /-- Before the answer is read. -/
  | reply
  /-- Behind the loop. -/
  | leave
  /-- The last message has been written. -/
  | closed
  deriving DecidableEq

/-- The client. -/
structure Migration where
  /-- What is left of the standard input. -/
  stdin : List UInt8
  /-- The pool. -/
  pool : ℕ → UInt8
  /-- The variable `ret` of `collect`, which becomes the variable `size`. -/
  ret : ℕ
  /-- The array `data`. -/
  data : List UInt8
  /-- What has been written to the connection. -/
  wire : List UInt8
  /-- What the pool held, up to the size, whenever a size was written. No operation reads
  it. -/
  handed : List (List UInt8)
  /-- Where the client is. -/
  point : MigrationPoint

/-- What the calls of the client return. -/
inductive MigrationAction
  /-- A `read` of `collect` returns some bytes. -/
  | read (n : ℕ)
  /-- A `read` of `collect` returns 0. -/
  | readEnd
  /-- A `read` of `collect` returns -1. -/
  | readFail
  /-- The size is written. The connection takes so many bytes of the text. -/
  | announce (n : ℕ)
  /-- The answer is read, cut in any way. An error stores nothing. -/
  | reply (bytes : List UInt8)
  /-- The last message is written. -/
  | finish (n : ℕ)
  deriving DecidableEq

/-- The pool after bytes have been read into it. -/
def storeAt (pool : ℕ → UInt8) (pos : ℕ) (bytes : List UInt8) : ℕ → UInt8 := fun a =>
  if pos ≤ a then bytes[a - pos]?.getD (pool a) else pool a

/-- The text of a size, printed with `%d`. -/
def sizeText (n : ℕ) : List UInt8 := printNumber 10 1 n

/-- The answer that the client accepts, with its NUL. -/
def doneText : List UInt8 := [100, 111, 110, 101, 0]

/-- Whether `strcmp` finds the answer in the array when the bytes have been read into it. -/
def Migration.Accepts (s : Migration) (bytes : List UInt8) : Prop :=
  (overwrite s.data 0 bytes).take 5 = doneText

/-- Whether an answer is accepted can be evaluated. -/
instance (s : Migration) (bytes : List UInt8) : Decidable (s.Accepts bytes) :=
  inferInstanceAs (Decidable (_ = _))

/-- One call of the client. A `read` of no bytes returns 0, so a full pool ends `collect`
as the end of the input does. The results of the writes are not looked at. -/
def Migration.step (s : Migration) : MigrationAction → Option Migration
  | .read n =>
      if s.point = .collect ∧ 0 < n ∧ n ≤ rwSize - s.ret ∧ n ≤ s.stdin.length then
        some
          { s with
            stdin := s.stdin.drop n
            pool := storeAt s.pool s.ret (s.stdin.take n)
            ret := s.ret + n }
      else none
  | .readEnd =>
      if s.point = .collect ∧ (rwSize - s.ret = 0 ∨ s.stdin = []) then
        some { s with point := if s.ret = 0 then .leave else .announce }
      else none
  | .readFail => if s.point = .collect then some { s with point := .leave } else none
  | .announce n =>
      if s.point = .announce ∧ n ≤ (sizeText s.ret).length + 1 then
        some
          { s with
            data := overwrite s.data 0 (sizeText s.ret ++ [0])
            wire := s.wire ++ (sizeText s.ret ++ [0]).take n
            handed := s.handed ++ [readAt s.pool 0 s.ret]
            point := .reply }
      else none
  | .reply bytes =>
      if s.point = .reply ∧ bytes.length ≤ 10 then
        let t := { s with data := overwrite s.data 0 bytes }
        some (if s.Accepts bytes then { t with ret := 0, point := .collect }
          else { t with point := .leave })
      else none
  | .finish n =>
      if s.point = .leave ∧ n ≤ 2 then
        some { s with wire := s.wire ++ [48, 0].take n, point := .closed }
      else none

/-- The client with its connection set up. -/
def Migration.start (input : List UInt8) (pool : ℕ → UInt8) (data : List UInt8) : Migration :=
  ⟨input, pool, 0, data, [], [], .collect⟩

/-- What holds of the blocks and of the rest of the input, where the client is. -/
def Migration.At (input : List UInt8) (s : Migration) : Prop :=
  match s.point with
  | .collect =>
      s.handed.flatten ++ (readAt s.pool 0 s.ret ++ s.stdin) = input ∧ s.ret ≤ rwSize ∧
        ((∀ block ∈ s.handed, block.length = rwSize) ∨ s.stdin = [] ∧ s.ret = 0)
  | .announce =>
      s.handed.flatten ++ (readAt s.pool 0 s.ret ++ s.stdin) = input ∧ 0 < s.ret ∧
        s.ret ≤ rwSize ∧ (∀ block ∈ s.handed, block.length = rwSize) ∧
        (s.ret = rwSize ∨ s.stdin = [])
  | .reply =>
      s.handed.flatten ++ s.stdin = input ∧
        ((∀ block ∈ s.handed, block.length = rwSize) ∨ s.stdin = [])
  | .leave | .closed => s.handed.flatten <+: input

/-- What holds in every state that the client reaches. -/
structure Migration.Reached (input : List UInt8) (s : Migration) : Prop where
  /-- The blocks and the rest are the input. -/
  here : s.At input
  /-- A block is not empty and fits the pool. -/
  blocks : ∀ block ∈ s.handed, 0 < block.length ∧ block.length ≤ rwSize
  /-- Only the last block may be short. -/
  full : ∀ block ∈ s.handed.dropLast, block.length = rwSize

/-- What was in the pool stays there when more is read behind it. -/
theorem readAt_storeAt (pool : ℕ → UInt8) (pos : ℕ) (bytes : List UInt8) :
    readAt (storeAt pool pos bytes) 0 (pos + bytes.length) = readAt pool 0 pos ++ bytes := by
  rw [readAt_add]
  congr 1
  · apply List.map_congr_left
    intro a ha
    rw [List.mem_range] at ha
    rw [storeAt, if_neg (by omega)]
  · apply List.ext_getElem
    · simp [readAt]
    · intro k hk hk'
      simp [readAt, storeAt, hk']

/-- The size of a range that was read. -/
@[simp] theorem length_readAt {β : Type*} (mem : ℕ → β) (start len : ℕ) :
    (readAt mem start len).length = len := by
  simp [readAt]

namespace Migration.Reached

variable {input : List UInt8} {s t : Migration}

/-- Bytes of the input are appended to those in the pool. -/
theorem read {n : ℕ} (hs : s.Reached input) (h : s.step (.read n) = some t) : t.Reached input := by
  simp only [Migration.step, Option.ite_none_right_eq_some, Option.some.injEq] at h
  obtain ⟨⟨hpoint, hpos, hroom, hn⟩, rfl⟩ := h
  have hhere := hs.here
  simp only [Migration.At, hpoint] at hhere
  obtain ⟨hstream, hret, hfull⟩ := hhere
  have hlength : (s.stdin.take n).length = n := List.length_take_of_le hn
  have hpool := readAt_storeAt s.pool s.ret (s.stdin.take n)
  rw [hlength] at hpool
  refine ⟨?_, hs.blocks, hs.full⟩
  simp only [Migration.At, hpoint, hpool]
  refine ⟨?_, by omega, .inl ?_⟩
  · rw [List.append_assoc, List.take_append_drop]
    exact hstream
  · rcases hfull with hfull | ⟨hempty, _⟩
    · exact hfull
    · rw [hempty, List.length_nil] at hn
      omega

/-- The pool is full or the input has ended. -/
theorem readEnd (hs : s.Reached input) (h : s.step .readEnd = some t) : t.Reached input := by
  simp only [Migration.step, Option.ite_none_right_eq_some, Option.some.injEq] at h
  obtain ⟨⟨hpoint, hend⟩, rfl⟩ := h
  have hhere := hs.here
  simp only [Migration.At, hpoint] at hhere
  obtain ⟨hstream, hret, hfull⟩ := hhere
  refine ⟨?_, hs.blocks, hs.full⟩
  by_cases hzero : s.ret = 0
  · simp only [Migration.At, hzero, if_true]
    exact ⟨_, hstream⟩
  · simp only [Migration.At, hzero, if_false]
    refine ⟨hstream, Nat.pos_of_ne_zero hzero, hret, ?_, ?_⟩
    · rcases hfull with hfull | ⟨_, hret'⟩
      · exact hfull
      · exact absurd hret' hzero
    · rcases hend with hend | hend
      · exact .inl (by omega)
      · exact .inr hend

/-- What was collected is given up. -/
theorem readFail (hs : s.Reached input) (h : s.step .readFail = some t) : t.Reached input := by
  simp only [Migration.step, Option.ite_none_right_eq_some, Option.some.injEq] at h
  obtain ⟨hpoint, rfl⟩ := h
  have hhere := hs.here
  simp only [Migration.At, hpoint] at hhere
  exact ⟨⟨_, hhere.1⟩, hs.blocks, hs.full⟩

/-- The pool becomes a block. -/
theorem announce {n : ℕ} (hs : s.Reached input) (h : s.step (.announce n) = some t) :
    t.Reached input := by
  simp only [Migration.step, Option.ite_none_right_eq_some, Option.some.injEq] at h
  obtain ⟨⟨hpoint, _⟩, rfl⟩ := h
  have hhere := hs.here
  simp only [Migration.At, hpoint] at hhere
  obtain ⟨hstream, hpos, hret, hfull, hend⟩ := hhere
  refine ⟨⟨?_, ?_⟩, ?_, ?_⟩
  · simpa using hstream
  · rcases hend with hend | hend
    · left
      intro block hblock
      rcases List.mem_append.mp hblock with hold | hnew
      · exact hfull block hold
      · rw [List.mem_singleton.mp hnew, length_readAt, hend]
    · exact .inr hend
  · intro block hblock
    rcases List.mem_append.mp hblock with hold | hnew
    · exact hs.blocks block hold
    · rw [List.mem_singleton.mp hnew, length_readAt]
      exact ⟨hpos, hret⟩
  · simpa using hfull

/-- An accepted answer begins the next block. -/
theorem reply {bytes : List UInt8} (hs : s.Reached input) (h : s.step (.reply bytes) = some t) :
    t.Reached input := by
  simp only [Migration.step, Option.ite_none_right_eq_some, Option.some.injEq] at h
  obtain ⟨⟨hpoint, _⟩, rfl⟩ := h
  have hhere := hs.here
  simp only [Migration.At, hpoint] at hhere
  obtain ⟨hstream, hfull⟩ := hhere
  split_ifs
  · refine ⟨⟨?_, Nat.zero_le _, ?_⟩, hs.blocks, hs.full⟩
    · simpa [readAt] using hstream
    · exact hfull.imp_right fun hempty => ⟨hempty, rfl⟩
  · exact ⟨⟨_, hstream⟩, hs.blocks, hs.full⟩

/-- The last message is not about a block. -/
theorem finish {n : ℕ} (hs : s.Reached input) (h : s.step (.finish n) = some t) :
    t.Reached input := by
  simp only [Migration.step, Option.ite_none_right_eq_some, Option.some.injEq] at h
  obtain ⟨⟨hpoint, _⟩, rfl⟩ := h
  have hhere := hs.here
  simp only [Migration.At, hpoint] at hhere
  exact ⟨hhere, hs.blocks, hs.full⟩

/-- Every call keeps what holds. -/
theorem step {a : MigrationAction} (hs : s.Reached input) (h : s.step a = some t) :
    t.Reached input := by
  cases a with
  | read n => exact hs.read h
  | readEnd => exact hs.readEnd h
  | readFail => exact hs.readFail h
  | announce n => exact hs.announce h
  | reply bytes => exact hs.reply h
  | finish n => exact hs.finish h

/-- Nothing has been collected at the start. -/
theorem start (input : List UInt8) (pool : ℕ → UInt8) (data : List UInt8) :
    (Migration.start input pool data).Reached input := by
  refine ⟨⟨?_, Nat.zero_le _, .inl ?_⟩, ?_, ?_⟩ <;> simp [Migration.start, readAt]

/-- The blocks are the beginning of the input. -/
theorem flatten_prefix (hs : s.Reached input) : s.handed.flatten <+: input := by
  have hhere := hs.here
  cases hpoint : s.point <;> simp only [Migration.At, hpoint] at hhere
  case collect | announce | reply => exact ⟨_, hhere.1⟩
  case leave | closed => exact hhere

end Migration.Reached

/-- Behind the loop, all of the input has been handed over. -/
def Migration.Complete (input : List UInt8) (s : Migration) : Prop :=
  s.point = .leave ∨ s.point = .closed → s.handed.flatten = input

/-- The condition on a call: a `read` fails or an answer is not accepted only when nothing
of the input is left. -/
def Migration.GoesOn (s : Migration) : MigrationAction → Prop
  | .readFail => s.stdin = [] ∧ s.ret = 0
  | .reply bytes => s.Accepts bytes ∨ s.stdin = []
  | _ => True

/-- After a call all of the input has been handed over, if the client is behind its loop,
exactly if that was so before the call and the call meets the condition. -/
theorem Migration.Reached.complete_step_iff {input : List UInt8} {s t : Migration}
    {a : MigrationAction} (hs : s.Reached input) (h : s.step a = some t) :
    t.Complete input ↔ s.Complete input ∧ s.GoesOn a := by
  have hhere := hs.here
  cases a with
  | read n =>
    simp only [Migration.step, Option.ite_none_right_eq_some, Option.some.injEq] at h
    obtain ⟨⟨hpoint, _⟩, rfl⟩ := h
    simp [Migration.Complete, Migration.GoesOn, hpoint]
  | readEnd =>
    simp only [Migration.step, Option.ite_none_right_eq_some, Option.some.injEq] at h
    obtain ⟨⟨hpoint, hend⟩, rfl⟩ := h
    simp only [Migration.At, hpoint] at hhere
    obtain ⟨hstream, _, _⟩ := hhere
    by_cases hzero : s.ret = 0
    · have hempty : s.stdin = [] := by
        rcases hend with hend | hend
        · rw [hzero, rwSize] at hend
          omega
        · exact hend
      rw [hzero, hempty] at hstream
      simpa [Migration.Complete, Migration.GoesOn, hpoint, hzero, readAt] using hstream
    · simp [Migration.Complete, Migration.GoesOn, hpoint, hzero]
  | readFail =>
    simp only [Migration.step, Option.ite_none_right_eq_some, Option.some.injEq] at h
    obtain ⟨hpoint, rfl⟩ := h
    simp only [Migration.At, hpoint] at hhere
    obtain ⟨hstream, _, _⟩ := hhere
    -- What is given up and what is left make the difference.
    have hlost : s.handed.flatten = input ↔ readAt s.pool 0 s.ret ++ s.stdin = [] := by
      rw [← hstream]
      simp
    have hnone : readAt s.pool 0 s.ret = [] ↔ s.ret = 0 := by
      rw [← List.length_eq_zero_iff, length_readAt]
    simp [Migration.Complete, Migration.GoesOn, hpoint, hlost, hnone, and_comm]
  | announce n =>
    simp only [Migration.step, Option.ite_none_right_eq_some, Option.some.injEq] at h
    obtain ⟨⟨hpoint, _⟩, rfl⟩ := h
    simp [Migration.Complete, Migration.GoesOn, hpoint]
  | reply bytes =>
    simp only [Migration.step, Option.ite_none_right_eq_some, Option.some.injEq] at h
    obtain ⟨⟨hpoint, _⟩, rfl⟩ := h
    simp only [Migration.At, hpoint] at hhere
    obtain ⟨hstream, _⟩ := hhere
    have hleft : s.handed.flatten = input ↔ s.stdin = [] := by
      rw [← hstream]
      simp
    by_cases haccepts : s.Accepts bytes
    · simp [Migration.Complete, Migration.GoesOn, hpoint, haccepts]
    · simp [Migration.Complete, Migration.GoesOn, hpoint, haccepts, hleft]
  | finish n =>
    simp only [Migration.step, Option.ite_none_right_eq_some, Option.some.injEq] at h
    obtain ⟨⟨hpoint, _⟩, rfl⟩ := h
    simp [Migration.Complete, Migration.GoesOn, hpoint]

/-- The condition on a call: the connection takes all of a message. -/
def Migration.WritesWhole (s : Migration) : MigrationAction → Prop
  | .announce n => n = (sizeText s.ret).length + 1
  | .finish n => n = 2
  | _ => True

/-- What the peer has been told when the writes are whole: the sizes of the blocks, and a
zero at the end. -/
def Migration.Tells (s : Migration) : Prop :=
  s.wire = s.handed.flatMap (fun block => sizeText block.length ++ [0]) ++
    if s.point = .closed then [48, 0] else []

/-- Whole writes keep the peer informed. -/
theorem Migration.Tells.step {s t : Migration} {a : MigrationAction} (hs : s.Tells)
    (hwhole : s.WritesWhole a) (h : s.step a = some t) : t.Tells := by
  cases a with
  | read n =>
    simp only [Migration.step, Option.ite_none_right_eq_some, Option.some.injEq] at h
    obtain ⟨_, rfl⟩ := h
    exact hs
  | readEnd =>
    simp only [Migration.step, Option.ite_none_right_eq_some, Option.some.injEq] at h
    obtain ⟨⟨hpoint, _⟩, rfl⟩ := h
    by_cases hzero : s.ret = 0 <;> simpa [Migration.Tells, hpoint, hzero] using hs
  | readFail =>
    simp only [Migration.step, Option.ite_none_right_eq_some, Option.some.injEq] at h
    obtain ⟨hpoint, rfl⟩ := h
    simpa [Migration.Tells, hpoint] using hs
  | announce n =>
    simp only [Migration.step, Option.ite_none_right_eq_some, Option.some.injEq] at h
    obtain ⟨⟨hpoint, _⟩, rfl⟩ := h
    obtain rfl : n = (sizeText s.ret).length + 1 := hwhole
    have hall : (sizeText s.ret ++ [0]).take ((sizeText s.ret).length + 1) =
        sizeText s.ret ++ [0] := by
      rw [List.take_of_length_le (by simp)]
    simp only [Migration.Tells, hpoint, reduceCtorEq, if_false, List.append_nil] at hs
    simp [Migration.Tells, hs, hall]
  | reply bytes =>
    simp only [Migration.step, Option.ite_none_right_eq_some, Option.some.injEq] at h
    obtain ⟨⟨hpoint, _⟩, rfl⟩ := h
    by_cases haccepts : s.Accepts bytes <;> simpa [Migration.Tells, hpoint, haccepts] using hs
  | finish n =>
    simp only [Migration.step, Option.ite_none_right_eq_some, Option.some.injEq] at h
    obtain ⟨⟨hpoint, _⟩, rfl⟩ := h
    obtain rfl : n = 2 := hwhole
    simp only [Migration.Tells, hpoint, reduceCtorEq, if_false, List.append_nil] at hs
    simp [Migration.Tells, hs]

/-- The call neither fails to read the input nor reads an answer that is cut or a different
one. -/
def MigrationAction.Plain : MigrationAction → Prop
  | .readFail => False
  | .reply bytes => doneText <+: bytes
  | _ => True

/-- Whether a call is plain can be evaluated. -/
instance : ∀ a : MigrationAction, Decidable a.Plain
  | .read _ | .readEnd | .announce _ | .finish _ => inferInstanceAs (Decidable True)
  | .readFail => inferInstanceAs (Decidable False)
  | .reply bytes => inferInstanceAs (Decidable (doneText <+: bytes))

/-- An answer that is read in one piece is accepted, whatever the array held. -/
theorem MigrationAction.Plain.goesOn {a : MigrationAction} (ha : a.Plain) (s : Migration) :
    s.GoesOn a := by
  cases a with
  | readFail => exact ha.elim
  | reply bytes =>
    obtain ⟨rest, rfl⟩ := ha
    left
    simp [Migration.Accepts, overwrite, doneText]
  | read n | readEnd | announce n | finish n => trivial

/-- **Handing over the input.** However the input and the answers are cut, the blocks whose
sizes were written are the beginning of the input, none is empty or larger than the pool,
and only the last may be smaller. At the end all of the input has been handed over exactly
if no `read` failed and no answer was turned down while something was left, in particular
if no `read` failed and every answer came in one piece. If the connection took every message
whole, the peer was told the sizes in order, and 0 at the end. -/
theorem migration_hands_over {input data : List UInt8} {pool : ℕ → UInt8}
    {acts : List MigrationAction} {s : Migration}
    (hrun : exec Migration.step (.start input pool data) acts = some s) :
    s.handed.flatten <+: input ∧
    (∀ block ∈ s.handed, 0 < block.length ∧ block.length ≤ rwSize) ∧
    (∀ block ∈ s.handed.dropLast, block.length = rwSize) ∧
    (s.point = .closed →
      (s.handed.flatten = input ↔
        Meets Migration.step Migration.GoesOn (.start input pool data) acts) ∧
      ((∀ a ∈ acts, a.Plain) → s.handed.flatten = input)) ∧
    (Meets Migration.step Migration.WritesWhole (.start input pool data) acts →
      s.wire = s.handed.flatMap (fun block => sizeText block.length ++ [0]) ++
        if s.point = .closed then [48, 0] else []) := by
  have hstart := Migration.Reached.start input pool data
  have hs := invariant_of_exec _ (fun _ _ _ hs h => hs.step h) hstart hrun
  have hgoes (P : Migration → MigrationAction → Prop) (hP : ∀ s a, P s a → s.GoesOn a)
      (hmeets : Meets Migration.step P (.start input pool data) acts) : s.Complete input := by
    refine (hmeets.invariant (fun s => s.Reached input ∧ s.Complete input) ?_
      ⟨hstart, by simp [Migration.Complete, Migration.start]⟩ hrun).2
    rintro s a t ⟨hs, hcomplete⟩ hgood h
    exact ⟨hs.step h, (hs.complete_step_iff h).mpr ⟨hcomplete, hP s a hgood⟩⟩
  refine ⟨hs.flatten_prefix, hs.blocks, hs.full, fun hclosed => ⟨⟨?_, ?_⟩, ?_⟩, ?_⟩
  · intro hall
    exact (meets_of_exec (Migration.Reached input) (Migration.Complete input)
      (fun _ _ _ hs h => hs.step h)
      (fun _ _ _ hs h hgood => (hs.complete_step_iff h).mp hgood) hstart hrun fun _ => hall).2
  · intro hmeets
    exact hgoes _ (fun _ _ h => h) hmeets (.inr hclosed)
  · intro hplain
    have hmeets := (meets_iff_forall hrun).mpr hplain
    exact hgoes _ (fun s _ h => h.goesOn s) hmeets (.inr hclosed)
  · intro hwhole
    exact hwhole.invariant Migration.Tells (fun _ _ _ hs hin h => hs.step hin h)
      (by simp [Migration.Tells, Migration.start]) hrun

/-- Five bytes, read in two pieces. -/
def sampleMigration : List MigrationAction :=
  [.read 2, .read 3, .readEnd, .announce 2, .reply doneText, .readEnd, .finish 2]

/-- The five bytes are handed over as one block. -/
theorem migration_hands_over_five :
    ∃ s, exec Migration.step (.start [1, 2, 3, 4, 5] (fun _ => 0) (List.replicate 20 0))
        sampleMigration = some s ∧ s.handed.flatten = [1, 2, 3, 4, 5] := by
  have hclosed : (exec Migration.step (.start [1, 2, 3, 4, 5] (fun _ => 0) (List.replicate 20 0))
      sampleMigration).map (fun s => s.point) = some .closed := by
    decide +kernel
  obtain ⟨s, hs, hpoint⟩ := Option.map_eq_some_iff.mp hclosed
  obtain ⟨_, _, _, hend, _⟩ := migration_hands_over hs
  exact ⟨s, hs, (hend hpoint).2 (by decide)⟩

end RdmaTransport
