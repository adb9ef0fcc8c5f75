import RdmaTransport.Session
import RdmaTransport.Lib.Transfer
import Mathlib.Algebra.Group.Nat.Defs
import Mathlib.Algebra.Group.Int.Defs
import Mathlib.Algebra.GroupWithZero.Nat

/-!
# The gathering loop of a session

`read` collects the messages of a batch of completions from consecutive receive
buffers. Runs of full buffers are copied by one `memcpy`, and by two where the run
crosses the end of the receive block. This file shows that the bytes stored to `dest`
are the messages in the order of their completions, for any number and size of the
buffers.

The loop is read twice. `gather` of the session model computes with numbers; `ReadVars`
below holds the `int` variables of the source and the calls of `memcpy`. The second
agrees with the first as long as the sum of `recv_index` and the length of the batch is
an `int`.
-/

namespace RdmaTransport

/-- The messages of a batch of completions, taken from consecutive receive buffers from
`recvIndex` on: what the gathering loop is for. -/
def slots (nums gap : ℕ) (rbuf : ℕ → UInt8) (recvIndex : ℕ) (byteLens : List ℕ) : List UInt8 :=
  (byteLens.mapIdx fun i byteLen => bytesAt rbuf ((recvIndex + i) % nums * gap) byteLen).flatten

/-- A `memcpy` copies as many bytes as it is told to. -/
@[simp] theorem length_bytesAt (rbuf : ℕ → UInt8) (start len : ℕ) :
    (bytesAt rbuf start len).length = len := by
  simp [bytesAt]

/-- Bytes of the receive block that follow each other are copied by one `memcpy`. -/
theorem bytesAt_add (rbuf : ℕ → UInt8) (start a b : ℕ) :
    bytesAt rbuf start (a + b) = bytesAt rbuf start a ++ bytesAt rbuf (start + a) b :=
  Transfer.readAt_add rbuf start a b

section Slots

variable {nums gap : ℕ} {rbuf : ℕ → UInt8}

/-- The messages of two batches, one after the other. -/
theorem slots_append (recvIndex : ℕ) (l m : List ℕ) :
    slots nums gap rbuf recvIndex (l ++ m) =
      slots nums gap rbuf recvIndex l ++ slots nums gap rbuf (recvIndex + l.length) m := by
  simp [slots, List.mapIdx_append, Nat.add_assoc, Nat.add_comm l.length]

/-- The message of a single completion. -/
theorem slots_singleton (recvIndex byteLen : ℕ) :
    slots nums gap rbuf recvIndex [byteLen] = bytesAt rbuf (recvIndex % nums * gap) byteLen := by
  simp [slots]

/-- The buffers are used in a ring. -/
theorem slots_mod (recvIndex : ℕ) (l : List ℕ) :
    slots nums gap rbuf (recvIndex % nums) l = slots nums gap rbuf recvIndex l := by
  simp [slots, Nat.mod_add_mod]

/-- The messages take as many bytes as their completions say. -/
theorem length_slots (nums gap : ℕ) (rbuf : ℕ → UInt8) (recvIndex : ℕ) (l : List ℕ) :
    (slots nums gap rbuf recvIndex l).length = l.sum := by
  induction l generalizing recvIndex with
  | nil => rfl
  | cons byteLen l ih =>
    rw [← List.singleton_append, slots_append, slots_singleton, List.length_append, ih,
      length_bytesAt]
    simp

/-- Full buffers up to the end of the receive block follow each other in it. -/
theorem slots_replicate {recvIndex full : ℕ} (h : recvIndex + full ≤ nums) :
    slots nums gap rbuf recvIndex (List.replicate full gap) =
      bytesAt rbuf (recvIndex * gap) (full * gap) := by
  induction full with
  | zero => simp [slots, bytesAt]
  | succ full ih =>
    rw [List.replicate_succ', slots_append, ih (by omega), slots_singleton, List.length_replicate,
      Nat.mod_eq_of_lt (by omega), Nat.add_mul recvIndex, ← bytesAt_add, Nat.succ_mul]

/-- Full buffers that reach the end of the receive block continue at its beginning. -/
theorem slots_replicate_wrap {recvIndex full : ℕ} (hindex : recvIndex < nums)
    (hwrap : nums ≤ recvIndex + full) (hfull : full ≤ nums) :
    slots nums gap rbuf recvIndex (List.replicate full gap) =
      bytesAt rbuf (recvIndex * gap) ((nums - recvIndex) * gap) ++
        bytesAt rbuf 0 ((full - (nums - recvIndex)) * gap) := by
  have hsplit : List.replicate full gap =
      List.replicate (nums - recvIndex) gap ++
        List.replicate (full - (nums - recvIndex)) gap := by
    rw [List.replicate_append_replicate]
    congr 1
    omega
  have hend : recvIndex + (nums - recvIndex) = nums := by omega
  rw [hsplit, slots_append, slots_replicate (by omega), List.length_replicate, hend, ← slots_mod,
    Nat.mod_self, slots_replicate (by omega), Nat.zero_mul]

/-- The buffer behind a run that reaches the end of the receive block. -/
theorem add_mod_of_wrap {recvIndex full : ℕ} (hindex : recvIndex < nums)
    (hwrap : nums ≤ recvIndex + full) (hfull : full ≤ nums) :
    (recvIndex + full) % nums = full - (nums - recvIndex) := by
  rw [Nat.mod_eq_sub_mod hwrap, Nat.mod_eq_of_lt (by omega)]
  omega

/-- Where the gathering loop stands when full buffers wait to be copied: `start` points
to the buffer of the read index, and the run that began there fits the ring. -/
structure Gather.Ready (nums gap : ℕ) (g : Gather) : Prop where
  /-- The read index is that of a buffer. -/
  recvIndex_lt : g.recvIndex < nums
  /-- `start` is the address of its buffer. -/
  start_eq : g.start = g.recvIndex * gap
  /-- The run does not come back to the buffer it began in. -/
  full_le : g.full ≤ nums

/-- A completion that does not fill its buffer ends the run: the run and its message are
copied, in one piece or in two. -/
theorem Gather.Ready.one_dest {g : Gather} {byteLen : ℕ} (hg : g.Ready nums gap)
    (hshort : byteLen < gap) :
    (g.one nums gap rbuf byteLen).dest =
      g.dest ++ slots nums gap rbuf g.recvIndex (List.replicate g.full gap ++ [byteLen]) := by
  have hindex := hg.recvIndex_lt
  rw [slots_append, slots_singleton, List.length_replicate]
  by_cases hfit : g.recvIndex + g.full < nums
  · rw [slots_replicate (by omega), Nat.mod_eq_of_lt hfit, Nat.add_mul, ← bytesAt_add]
    simp only [Gather.one, hshort, hfit, if_true, hg.start_eq]
  · have hlen : g.full * gap + byteLen - (nums - g.recvIndex) * gap =
        (g.full - (nums - g.recvIndex)) * gap + byteLen := by
      have hle : (nums - g.recvIndex) * gap ≤ g.full * gap := Nat.mul_le_mul_right gap (by omega)
      rw [Nat.sub_add_comm hle, ← Nat.sub_mul]
    rw [slots_replicate_wrap hindex (by omega) hg.full_le,
      add_mod_of_wrap hindex (by omega) hg.full_le, List.append_assoc]
    simp only [Gather.one, hshort, hfit, if_true, if_false, hg.start_eq, hlen, bytesAt_add,
      Nat.zero_add]

/-- After the loop the run still waiting is copied. -/
theorem Gather.Ready.rest_dest {g : Gather} (hg : g.Ready nums gap) :
    (g.rest nums gap rbuf).dest =
      g.dest ++ slots nums gap rbuf g.recvIndex (List.replicate g.full gap) := by
  have hindex := hg.recvIndex_lt
  have hle := hg.full_le
  by_cases hzero : g.full = 0
  · simp [Gather.rest, hzero, slots]
  by_cases hfit : g.recvIndex + g.full < nums
  · rw [slots_replicate (by omega)]
    simp only [Gather.rest, hzero, hfit, if_true, if_false, hg.start_eq]
  · have hfront : (g.full + g.recvIndex) % nums = g.full - (nums - g.recvIndex) := by
      rw [Nat.add_comm, add_mod_of_wrap hindex (by omega) hle]
    rw [slots_replicate_wrap hindex (by omega) hle]
    simp only [Gather.rest, hzero, hfit, if_false, hg.start_eq, hfront]
    congr 2
    split
    · rfl
    · simp_all [bytesAt]

/-- A completion moves the loop to a state from which it can go on. -/
theorem Gather.Ready.one {g : Gather} (hg : g.Ready nums gap) (rbuf : ℕ → UInt8) (byteLen : ℕ)
    (hfull : g.full < nums) : (g.one nums gap rbuf byteLen).Ready nums gap := by
  by_cases hshort : byteLen < gap
  · have hmod : (g.recvIndex + g.full + 1) % nums < nums := Nat.mod_lt _ (by omega)
    simp only [Gather.one, hshort, if_true]
    exact ⟨hmod, rfl, Nat.zero_le _⟩
  · simp only [Gather.one, hshort, if_false]
    exact ⟨hg.recvIndex_lt, hg.start_eq, hfull⟩

/-- The loop copies the run that is waiting, and after it the messages of the remaining
completions. The induction is on the completions. -/
theorem Gather.Ready.foldl_dest {g : Gather} (hg : g.Ready nums gap) (rbuf : ℕ → UInt8)
    (byteLens : List ℕ)
    (hdone : g.full + byteLens.length ≤ nums) (hlens : ∀ byteLen ∈ byteLens, byteLen ≤ gap) :
    ((byteLens.foldl (Gather.one nums gap rbuf) g).rest nums gap rbuf).dest =
      g.dest ++ slots nums gap rbuf g.recvIndex (List.replicate g.full gap ++ byteLens) := by
  induction byteLens generalizing g with
  | nil => simpa using hg.rest_dest
  | cons byteLen byteLens ih =>
    rw [List.length_cons] at hdone
    have hfull : g.full < nums := by omega
    have hnext := hg.one rbuf byteLen hfull
    rw [List.foldl_cons]
    by_cases hshort : byteLen < gap
    · have hzero : (g.one nums gap rbuf byteLen).full = 0 := by
        simp [Gather.one, hshort]
      have hmoved : (g.one nums gap rbuf byteLen).recvIndex =
          (g.recvIndex + g.full + 1) % nums := by
        simp [Gather.one, hshort]
      rw [ih hnext (by omega) (List.forall_mem_of_forall_mem_cons hlens), hzero, hmoved, slots_mod,
        hg.one_dest hshort, List.replicate_zero, List.nil_append,
        List.append_cons _ byteLen byteLens, slots_append _ _ byteLens]
      simp [Nat.add_assoc]
    · have hgap : byteLen = gap := by
        have := hlens byteLen List.mem_cons_self
        omega
      have hone : g.one nums gap rbuf byteLen = { g with full := g.full + 1 } := by
        simp [Gather.one, hshort]
      rw [hone] at hnext ⊢
      rw [ih hnext (by simp; omega) (List.forall_mem_of_forall_mem_cons hlens), hgap,
        List.replicate_succ', List.append_assoc, List.singleton_append]

end Slots

/-- The value of an `int` that a computation is stored to. -/
def int32 (z : ℤ) : ℤ := Int.bmod z (2 ^ 32)

/-- A call of `memcpy` in `read`. -/
structure Memcpy where
  /-- The distance of the destination from `dest`. -/
  dst : ℤ
  /-- The place of the source in the receive block. -/
  src : ℕ
  /-- The number of bytes. -/
  len : ℕ

/-- The memory behind `dest` after a `memcpy` from the receive block. -/
def Memcpy.run (rbuf : ℕ → UInt8) (dest : ℤ → UInt8) (c : Memcpy) (a : ℤ) : UInt8 :=
  if c.dst ≤ a ∧ a < c.dst + c.len then rbuf (c.src + (a - c.dst).toNat) else dest a

/-- The variables of `read` as the source declares them, with the calls of `memcpy` made
so far. -/
structure ReadVars where
  /-- The field `recv_index` of the session. -/
  recvIndex : ℤ
  /-- The place in the receive block that `start` points to. -/
  start : ℕ
  /-- The variable `full`. -/
  full : ℤ
  /-- The variable `size`. -/
  size : ℤ
  /-- The calls of `memcpy`, in order. -/
  copies : List Memcpy

/-- `memcpy(dest+size,src,len)` followed by `size += len`. The length becomes a
`size_t`. -/
def ReadVars.copy (v : ReadVars) (src : ℕ) (len : ℤ) : ReadVars :=
  { v with
    copies := v.copies ++ [⟨v.size, src, (len % 2 ^ 64).toNat⟩]
    size := int32 (v.size + len) }

/-- The body of the loop of `read` for a completion of `byteLen` bytes. -/
def ReadVars.one (nums gap : ℕ) (v : ReadVars) (byteLen : ℕ) : ReadVars :=
  if byteLen < gap then
    let len := int32 (int32 (v.full * gap) + byteLen)
    let copied :=
      if int32 (v.recvIndex + v.full) < nums then v.copy v.start len
      else
        let tlen := int32 (int32 (nums - v.recvIndex) * gap)
        (v.copy v.start tlen).copy 0 (int32 (len - tlen))
    let recvIndex := (int32 (int32 (v.recvIndex + v.full) + 1)).tmod nums
    { copied with recvIndex, start := recvIndex.toNat * gap, full := 0 }
  else { v with full := int32 (v.full + 1) }

/-- What `read` does after its loop. -/
def ReadVars.rest (nums gap : ℕ) (v : ReadVars) : ReadVars :=
  let copied :=
    if v.full = 0 then v
    else if int32 (v.recvIndex + v.full) < nums then v.copy v.start (int32 (v.full * gap))
    else
      let front := (int32 (v.full + v.recvIndex)).tmod nums
      let w := v.copy v.start (int32 (int32 (nums - v.recvIndex) * gap))
      if front ≠ 0 then w.copy 0 (int32 (front * gap)) else w
  { copied with recvIndex := (int32 (v.recvIndex + v.full)).tmod nums }

/-- The part of `read` after the query, on a session with the given read index and for
completions of the given lengths. The value returned is `size`. -/
def readLoop (nums gap recvIndex : ℕ) (byteLens : List ℕ) : ReadVars :=
  (byteLens.foldl (ReadVars.one nums gap) ⟨recvIndex, recvIndex * gap, 0, 0, []⟩).rest nums gap

/-- The memory behind `dest` after the calls of `memcpy`. -/
def ReadVars.dest (rbuf : ℕ → UInt8) (before : ℤ → UInt8) (v : ReadVars) : ℤ → UInt8 :=
  v.copies.foldl (Memcpy.run rbuf) before

/-- The memory behind `dest` when the given bytes are stored from its beginning on. -/
def stored (bytes : List UInt8) (before : ℤ → UInt8) (a : ℤ) : UInt8 :=
  if 0 ≤ a then (bytes[a.toNat]?).getD (before a) else before a

/-- A small number is an `int`. -/
theorem int32_of_lt {z : ℤ} (hnonneg : 0 ≤ z) (hlt : z < 2 ^ 31) : int32 z = z := by
  rw [int32, Int.bmod_eq_of_le] <;> omega

/-- The variables of `read` that the calls of `memcpy` depend on, when these calls have
stored the given bytes and have stayed inside the receive block. -/
structure ReadVars.Copied (nums gap : ℕ) (rbuf : ℕ → UInt8) (v : ReadVars)
    (bytes : List UInt8) : Prop where
  /-- The variable `size` counts the bytes stored. -/
  size_eq : v.size = bytes.length
  /-- The bytes are stored from `dest` on, and nothing else is. -/
  dest_eq : ∀ before, v.dest rbuf before = stored bytes before
  /-- Every source lies inside the receive block. -/
  inside : ∀ c ∈ v.copies, c.src + c.len ≤ nums * gap

section Machine

variable {nums gap : ℕ} {rbuf : ℕ → UInt8}

/-- A further `memcpy` from inside the receive block appends its bytes. -/
theorem ReadVars.Copied.copy {v : ReadVars} {bytes : List UInt8}
    (hv : v.Copied nums gap rbuf bytes) (src len : ℕ) (hint : bytes.length + len < 2 ^ 31)
    (hinside : src + len ≤ nums * gap) :
    (v.copy src len).Copied nums gap rbuf (bytes ++ bytesAt rbuf src len) := by
  have hlen : ((len : ℤ) % 2 ^ 64).toNat = len := by omega
  refine ⟨?_, ?_, ?_⟩
  · simp only [ReadVars.copy, hv.size_eq, List.length_append, length_bytesAt]
    rw [int32_of_lt (by omega) (by omega)]
    omega
  · intro before
    funext a
    have hbefore := congrFun (hv.dest_eq before) a
    simp only [ReadVars.dest, stored] at hbefore
    simp only [ReadVars.dest, ReadVars.copy, hlen, List.foldl_append, List.foldl_cons,
      List.foldl_nil, Memcpy.run, hv.size_eq, hbefore, stored]
    by_cases hneg : a < 0
    · rw [if_neg (by omega), if_neg (by omega), if_neg (by omega)]
    obtain ⟨k, rfl⟩ : ∃ k : ℕ, a = k := ⟨a.toNat, by omega⟩
    rcases Nat.lt_or_ge k bytes.length with hold | hnew
    · rw [if_neg (by omega)]
      simp [List.getElem?_append_left hold]
    · have hpos : ((k : ℤ) - bytes.length).toNat = k - bytes.length := by omega
      rcases Nat.lt_or_ge (k - bytes.length) len with hin | hout
      · rw [if_pos (by omega), hpos]
        simp [List.getElem?_append_right hnew, bytesAt, hin]
      · rw [if_neg (by omega)]
        simp [List.getElem?_append_right hnew, bytesAt, hnew, hout]
  · intro c hc
    simp only [ReadVars.copy, hlen, List.mem_append, List.mem_singleton] at hc
    rcases hc with hold | rfl
    · exact hv.inside c hold
    · exact hinside

/-- The `int` variables of `read` have the values that `gather` computes. -/
structure ReadVars.Simulates (nums gap : ℕ) (rbuf : ℕ → UInt8) (v : ReadVars) (g : Gather) :
    Prop where
  /-- The read index. -/
  recvIndex_eq : v.recvIndex = g.recvIndex
  /-- The place of the next byte. -/
  start_eq : v.start = g.start
  /-- The number of full buffers. -/
  full_eq : v.full = g.full
  /-- The bytes stored. -/
  copied : v.Copied nums gap rbuf g.dest

/-- The value of an `int` computed from numbers. -/
theorem int32_eq {z : ℤ} {n : ℕ} (hz : z = n) (hlt : n < 2 ^ 31) : int32 z = n := by
  rw [hz, int32_of_lt (by omega) (by omega)]

/-- What bounds the numbers computed in the loop: `recv_nums*gap` is an `int`, and so is
the read index after the full buffers and one more. -/
structure Gather.Bounded (nums gap : ℕ) (g : Gather) : Prop where
  /-- A buffer has at least one byte. -/
  gap_pos : 0 < gap
  /-- The receive block is smaller than the largest `int`. -/
  block_lt : nums * gap < 2 ^ 31
  /-- The index behind the run is an `int`. -/
  index_lt : g.recvIndex + g.full < 2 ^ 31
  /-- The run does not store more than the receive block holds. -/
  room : g.dest.length + g.full * gap ≤ nums * gap

/-- The number of buffers is an `int`. -/
theorem Gather.Bounded.nums_lt {g : Gather} (hb : g.Bounded nums gap) : nums < 2 ^ 31 :=
  Nat.lt_of_le_of_lt (Nat.le_mul_of_pos_right nums hb.gap_pos) hb.block_lt

/-- The index behind the run that is waiting. -/
theorem ReadVars.Simulates.sum_eq {v : ReadVars} {g : Gather} (hv : v.Simulates nums gap rbuf g)
    (hb : g.Bounded nums gap) : int32 (v.recvIndex + v.full) = (g.recvIndex + g.full : ℕ) :=
  int32_eq (by rw [hv.recvIndex_eq, hv.full_eq, Int.natCast_add]) hb.index_lt

/-- The length of the run that is waiting. -/
theorem ReadVars.Simulates.product_eq {v : ReadVars} {g : Gather}
    (hv : v.Simulates nums gap rbuf g) (hb : g.Bounded nums gap) :
    int32 (v.full * gap) = (g.full * gap : ℕ) := by
  have hroom := hb.room
  have hblock := hb.block_lt
  exact int32_eq (by rw [hv.full_eq, Int.natCast_mul]) (by omega)

/-- The length of the rest of the receive block. -/
theorem ReadVars.Simulates.tail_eq {v : ReadVars} {g : Gather}
    (hv : v.Simulates nums gap rbuf g) (hg : g.Ready nums gap) (hb : g.Bounded nums gap) :
    int32 (int32 (nums - v.recvIndex) * gap) = ((nums - g.recvIndex) * gap : ℕ) := by
  have hrecv := hv.recvIndex_eq
  have hlt := hg.recvIndex_lt
  have hnums := hb.nums_lt
  have hblock := hb.block_lt
  have hleft : int32 (nums - v.recvIndex) = (nums - g.recvIndex : ℕ) :=
    int32_eq (by omega) (by omega)
  have hle : (nums - g.recvIndex) * gap ≤ nums * gap := Nat.mul_le_mul_right gap (Nat.sub_le ..)
  exact int32_eq (by rw [hleft, Int.natCast_mul]) (by omega)

/-- A run that crosses the end of the receive block is at least as long as the rest of the
block, which is copied first. -/
theorem ReadVars.Simulates.copy_tail {v : ReadVars} {g : Gather}
    (hv : v.Simulates nums gap rbuf g) (hg : g.Ready nums gap) (hb : g.Bounded nums gap)
    (hfit : ¬g.recvIndex + g.full < nums) :
    (nums - g.recvIndex) * gap ≤ g.full * gap ∧
      (v.copy v.start ((nums - g.recvIndex) * gap : ℕ)).Copied nums gap rbuf
        (g.dest ++ bytesAt rbuf v.start ((nums - g.recvIndex) * gap)) := by
  have hlt := hg.recvIndex_lt
  have hblock := hb.block_lt
  have hroom := hb.room
  have hwhole : (nums - g.recvIndex) * gap = nums * gap - g.recvIndex * gap := Nat.sub_mul ..
  have hfirst : g.recvIndex * gap ≤ nums * gap := Nat.mul_le_mul_right gap (by omega)
  have hle : (nums - g.recvIndex) * gap ≤ g.full * gap := Nat.mul_le_mul_right gap (by omega)
  refine ⟨hle, hv.copied.copy v.start ((nums - g.recvIndex) * gap) (by omega) ?_⟩
  rw [hv.start_eq, hg.start_eq]
  omega

/-- A completion that does not fill its buffer. -/
theorem ReadVars.Simulates.one_short {v : ReadVars} {g : Gather} {byteLen : ℕ}
    (hv : v.Simulates nums gap rbuf g) (hg : g.Ready nums gap) (hb : g.Bounded nums gap)
    (hindex : g.recvIndex + g.full + 1 < 2 ^ 31)
    (hroom : g.dest.length + (g.full + 1) * gap ≤ nums * gap) (hshort : byteLen < gap) :
    (v.one nums gap byteLen).Simulates nums gap rbuf (g.one nums gap rbuf byteLen) := by
  have hstart := hv.start_eq
  have hblock := hb.block_lt
  have hsum := hv.sum_eq hb
  have hproduct := hv.product_eq hb
  rw [Nat.add_mul, Nat.one_mul] at hroom
  have hlen : int32 (int32 (v.full * gap) + byteLen) = (g.full * gap + byteLen : ℕ) :=
    int32_eq (by omega) (by omega)
  have hnext : (int32 (int32 (v.recvIndex + v.full) + 1)).tmod nums =
      ((g.recvIndex + g.full + 1) % nums : ℕ) := by
    rw [int32_eq (n := g.recvIndex + g.full + 1) (by omega) hindex]
    rfl
  by_cases hfit : g.recvIndex + g.full < nums
  · have hinside : v.start + (g.full * gap + byteLen) ≤ nums * gap := by
      have hle : (g.recvIndex + g.full + 1) * gap ≤ nums * gap := Nat.mul_le_mul_right gap hfit
      rw [hstart, hg.start_eq]
      rw [Nat.add_mul, Nat.add_mul, Nat.one_mul] at hle
      omega
    have hcopy := hv.copied.copy v.start (g.full * gap + byteLen) (by omega) hinside
    have hbranch : int32 (v.recvIndex + v.full) < nums := by omega
    simp only [ReadVars.one, Gather.one, hshort, hfit, hbranch, if_true, hlen, hnext]
    exact ⟨rfl, rfl, rfl, by rw [← hstart]; exact ⟨hcopy.1, hcopy.2, hcopy.3⟩⟩
  · obtain ⟨hle, hcopy⟩ := hv.copy_tail hg hb hfit
    have htlen := hv.tail_eq hg hb
    have hremains : int32 (((g.full * gap + byteLen : ℕ) : ℤ) - ((nums - g.recvIndex) * gap : ℕ)) =
        (g.full * gap + byteLen - (nums - g.recvIndex) * gap : ℕ) :=
      int32_eq (by omega) (by omega)
    have hagain := hcopy.copy 0 (g.full * gap + byteLen - (nums - g.recvIndex) * gap)
      (by simp; omega) (by omega)
    rw [List.append_assoc] at hagain
    have hbranch : ¬int32 (v.recvIndex + v.full) < nums := by omega
    simp only [ReadVars.one, Gather.one, hshort, hfit, hbranch, if_true, if_false, hlen, htlen,
      hremains, hnext]
    exact ⟨rfl, rfl, rfl, by rw [← hstart]; exact ⟨hagain.1, hagain.2, hagain.3⟩⟩

/-- What `read` does after its loop. -/
theorem ReadVars.Simulates.rest {v : ReadVars} {g : Gather}
    (hv : v.Simulates nums gap rbuf g) (hg : g.Ready nums gap) (hb : g.Bounded nums gap) :
    (v.rest nums gap).recvIndex = (g.rest nums gap rbuf).recvIndex ∧
      (v.rest nums gap).Copied nums gap rbuf (g.rest nums gap rbuf).dest := by
  have hvfull := hv.full_eq
  have hstart := hv.start_eq
  have hroom := hb.room
  have hblock := hb.block_lt
  have hsum := hv.sum_eq hb
  have hmoved : (int32 (v.recvIndex + v.full)).tmod nums = ((g.recvIndex + g.full) % nums : ℕ) := by
    rw [hsum]
    rfl
  refine ⟨hmoved, ?_⟩
  by_cases hzero : g.full = 0
  · have hvzero : v.full = 0 := by omega
    simp only [ReadVars.rest, Gather.rest, hzero, hvzero, if_true, List.append_nil]
    exact ⟨hv.copied.1, hv.copied.2, hv.copied.3⟩
  have hvzero : v.full ≠ 0 := by omega
  by_cases hfit : g.recvIndex + g.full < nums
  · have hinside : v.start + g.full * gap ≤ nums * gap := by
      rw [hstart, hg.start_eq, ← Nat.add_mul]
      exact Nat.mul_le_mul_right gap (Nat.le_of_lt hfit)
    have hcopy := hv.copied.copy v.start (g.full * gap) (by omega) hinside
    have hbranch : int32 (v.recvIndex + v.full) < nums := by omega
    simp only [ReadVars.rest, Gather.rest, hzero, hvzero, hfit, hbranch, if_true, if_false,
      hv.product_eq hb, ← hstart]
    exact ⟨hcopy.1, hcopy.2, hcopy.3⟩
  · obtain ⟨hwrap, hcopy⟩ := hv.copy_tail hg hb hfit
    have hfront : (g.full + g.recvIndex) % nums * gap + (nums - g.recvIndex) * gap =
        g.full * gap := by
      have hlt := hg.recvIndex_lt
      rw [Nat.add_comm g.full, add_mod_of_wrap hlt (by omega) hg.full_le, ← Nat.add_mul]
      congr 1
      omega
    have hagain := hcopy.copy 0 ((g.full + g.recvIndex) % nums * gap)
      (by simp; omega) (by omega)
    rw [List.append_assoc] at hagain
    have hmod : (int32 (v.full + v.recvIndex)).tmod nums =
        ((g.full + g.recvIndex) % nums : ℕ) := by
      rw [Int.add_comm, hsum, Nat.add_comm]
      rfl
    have hproduct : int32 (((g.full + g.recvIndex) % nums : ℕ) * gap) =
        ((g.full + g.recvIndex) % nums * gap : ℕ) :=
      int32_eq (by rw [Int.natCast_mul]) (by omega)
    have hbranch : ¬int32 (v.recvIndex + v.full) < nums := by omega
    simp only [ReadVars.rest, Gather.rest, hzero, hvzero, hfit, hbranch, if_false,
      hv.tail_eq hg hb, hmod, hproduct, ← hstart]
    by_cases hnone : (g.full + g.recvIndex) % nums = 0
    · simp only [hnone, Int.natCast_zero, ne_eq, not_true_eq_false, if_false, List.append_nil]
      exact ⟨hcopy.1, hcopy.2, hcopy.3⟩
    · have hsome : (((g.full + g.recvIndex) % nums : ℕ) : ℤ) ≠ 0 := by omega
      simp only [ne_eq, hnone, hsome, not_false_eq_true, if_true]
      exact ⟨hagain.1, hagain.2, hagain.3⟩

/-- A completion that fills its buffer. -/
theorem ReadVars.Simulates.one_full {v : ReadVars} {g : Gather} {byteLen : ℕ}
    (hv : v.Simulates nums gap rbuf g) (hindex : g.full + 1 < 2 ^ 31) (hfull : ¬byteLen < gap) :
    (v.one nums gap byteLen).Simulates nums gap rbuf (g.one nums gap rbuf byteLen) := by
  obtain ⟨hrecv, hstart, hvfull, hcopied⟩ := hv
  have hnext : int32 (v.full + 1) = (g.full + 1 : ℕ) := int32_eq (by omega) hindex
  simp only [ReadVars.one, Gather.one, hfull, if_false, hnext]
  exact ⟨hrecv, hstart, rfl, hcopied.1, hcopied.2, hcopied.3⟩

/-- One completion: the variables keep the values of `gather`, and what bounds them is
kept for the completions after it. -/
theorem ReadVars.Simulates.one {v : ReadVars} {g : Gather} {byteLen left : ℕ}
    (hv : v.Simulates nums gap rbuf g) (hg : g.Ready nums gap) (hb : g.Bounded nums gap)
    (hbyte : byteLen ≤ gap) (hdone : g.full + (left + 1) ≤ nums)
    (hindex : g.recvIndex + g.full + (left + 1) < 2 ^ 31)
    (hroom : g.dest.length + (g.full + (left + 1)) * gap ≤ nums * gap) :
    let g' := g.one nums gap rbuf byteLen
    (v.one nums gap byteLen).Simulates nums gap rbuf g' ∧ g'.Ready nums gap ∧
      g'.full + left ≤ nums ∧ g'.recvIndex + g'.full + left < 2 ^ 31 ∧
      g'.dest.length + (g'.full + left) * gap ≤ nums * gap := by
  have hready : (g.one nums gap rbuf byteLen).Ready nums gap := hg.one rbuf byteLen (by omega)
  simp only [Nat.add_mul, Nat.one_mul] at hroom
  by_cases hshort : byteLen < gap
  · refine ⟨hv.one_short hg hb (by omega) ?_ hshort, hready, ?_⟩
    · rw [Nat.add_mul, Nat.one_mul]
      omega
    have hstored : (g.one nums gap rbuf byteLen).dest.length =
        g.dest.length + (g.full * gap + byteLen) := by
      simp [hg.one_dest hshort, length_slots]
    have hmod : (g.recvIndex + g.full + 1) % nums ≤ g.recvIndex + g.full + 1 := Nat.mod_le ..
    rw [hstored]
    simp only [Gather.one, hshort, if_true, Nat.zero_add]
    omega
  · refine ⟨hv.one_full (by omega) hshort, hready, ?_⟩
    simp only [Gather.one, hshort, if_false, Nat.add_mul, Nat.one_mul]
    omega

/-- All completions of a batch, by induction on them. -/
theorem ReadVars.Simulates.foldl {v : ReadVars} {g : Gather} (byteLens : List ℕ)
    (hv : v.Simulates nums gap rbuf g) (hg : g.Ready nums gap) (hgap : 0 < gap)
    (hblock : nums * gap < 2 ^ 31) (hlens : ∀ byteLen ∈ byteLens, byteLen ≤ gap)
    (hdone : g.full + byteLens.length ≤ nums)
    (hindex : g.recvIndex + g.full + byteLens.length < 2 ^ 31)
    (hroom : g.dest.length + (g.full + byteLens.length) * gap ≤ nums * gap) :
    let g' := byteLens.foldl (Gather.one nums gap rbuf) g
    (byteLens.foldl (ReadVars.one nums gap) v).Simulates nums gap rbuf g' ∧ g'.Ready nums gap ∧
      g'.Bounded nums gap := by
  induction byteLens generalizing v g with
  | nil => exact ⟨hv, hg, hgap, hblock, by simpa using hindex, by simpa using hroom⟩
  | cons byteLen byteLens ih =>
    have hb : g.Bounded nums gap := by
      refine ⟨hgap, hblock, by omega, Nat.le_trans ?_ hroom⟩
      exact Nat.add_le_add_left (Nat.mul_le_mul_right gap (Nat.le_add_right ..)) _
    rw [List.length_cons] at hdone hindex hroom
    obtain ⟨hv', hg', hdone', hindex', hroom'⟩ :=
      hv.one hg hb (hlens byteLen List.mem_cons_self) hdone hindex hroom
    exact ih hv' hg' (List.forall_mem_of_forall_mem_cons hlens) hdone' hindex' hroom'

end Machine

/-- **The gathering loop of `read`.** For any number of buffers of any size whose block
is addressed by an `int`, and any batch of completions that is no longer than the ring
and for which the read index stays an `int`, the bytes stored to `dest` are the messages
of the completions, taken from consecutive buffers of the ring. The value returned is
their length, the read index moves behind them, and every `memcpy` reads from inside the
receive block. -/
theorem readLoop_spec {nums gap recvIndex : ℕ} {byteLens : List ℕ} (hgap : 1 ≤ gap)
    (hblock : nums * gap < 2 ^ 31) (hindex : recvIndex < nums) (hdone : byteLens.length ≤ nums)
    (hlens : ∀ byteLen ∈ byteLens, byteLen ≤ gap) (hint : recvIndex + byteLens.length < 2 ^ 31)
    (rbuf : ℕ → UInt8) (before : ℤ → UInt8) :
    (readLoop nums gap recvIndex byteLens).dest rbuf before =
        stored (slots nums gap rbuf recvIndex byteLens) before ∧
      (readLoop nums gap recvIndex byteLens).size = byteLens.sum ∧
      (readLoop nums gap recvIndex byteLens).recvIndex =
        ((recvIndex + byteLens.length) % nums : ℕ) ∧
      ∀ c ∈ (readLoop nums gap recvIndex byteLens).copies, c.src + c.len ≤ nums * gap := by
  have hsim : (⟨recvIndex, recvIndex * gap, 0, 0, []⟩ : ReadVars).Simulates nums gap rbuf
      ⟨recvIndex, recvIndex * gap, 0, []⟩ := by
    refine ⟨rfl, rfl, rfl, rfl, ?_, by simp⟩
    intro before
    funext a
    simp [ReadVars.dest, stored]
  have hready : (⟨recvIndex, recvIndex * gap, 0, []⟩ : Gather).Ready nums gap :=
    ⟨hindex, rfl, Nat.zero_le _⟩
  have hroom : byteLens.length * gap ≤ nums * gap := Nat.mul_le_mul_right gap hdone
  obtain ⟨hloop, hend, hbounded⟩ := hsim.foldl byteLens hready hgap hblock hlens
    (by simpa using hdone) hint (by simpa using hroom)
  obtain ⟨hrecv, hsize, hdest, hinside⟩ := hloop.rest hend hbounded
  have hbytes := hready.foldl_dest rbuf byteLens (by simpa using hdone) hlens
  simp only [List.nil_append, List.replicate_zero] at hbytes
  rw [hbytes] at hsize hdest
  refine ⟨hdest before, ?_, ?_, hinside⟩
  · rw [← length_slots nums gap rbuf recvIndex byteLens]
    exact hsize
  · rw [← gather_recvIndex nums gap rbuf]
    exact hrecv

/-- A batch of three completions in a ring of three buffers of two bytes, read from the
last buffer on: the run of full buffers crosses the end of the receive block. -/
theorem readLoop_spec_crossing :
    (readLoop 3 2 2 [2, 2, 1]).dest (fun a => UInt8.ofNat a) (fun _ => 0) =
        stored (slots 3 2 (fun a => UInt8.ofNat a) 2 [2, 2, 1]) (fun _ => 0) ∧
      (readLoop 3 2 2 [2, 2, 1]).size = ([2, 2, 1].sum : ℕ) ∧
      (readLoop 3 2 2 [2, 2, 1]).recvIndex = ((2 + [2, 2, 1].length) % 3 : ℕ) ∧
      ∀ c ∈ (readLoop 3 2 2 [2, 2, 1]).copies, c.src + c.len ≤ 3 * 2 :=
  readLoop_spec (by decide) (by decide) (by decide) (by decide) (by decide) (by decide)
    (fun a => UInt8.ofNat a) (fun _ => 0)

/-- With buffers of one byte the block can be addressed by an `int` although the read
index behind a run cannot. For `2 ^ 31 - 1` buffers, two full buffers from the last one
on are copied by one `memcpy` that reads behind the end of the receive block. -/
theorem readLoop_reads_past_block :
    ¬∀ nums gap recvIndex : ℕ, ∀ byteLens : List ℕ, 1 ≤ nums → 1 ≤ gap →
      nums * gap < 2 ^ 31 → recvIndex < nums → byteLens.length ≤ nums →
      (∀ byteLen ∈ byteLens, byteLen ≤ gap) → ∀ (rbuf : ℕ → UInt8) (before : ℤ → UInt8),
        (readLoop nums gap recvIndex byteLens).dest rbuf before =
            stored (slots nums gap rbuf recvIndex byteLens) before ∧
          (readLoop nums gap recvIndex byteLens).size = byteLens.sum ∧
          (readLoop nums gap recvIndex byteLens).recvIndex =
            ((recvIndex + byteLens.length) % nums : ℕ) ∧
          ∀ c ∈ (readLoop nums gap recvIndex byteLens).copies, c.src + c.len ≤ nums * gap := by
  intro h
  obtain ⟨-, -, -, hinside⟩ := h 2147483647 1 2147483646 [1, 1] (by decide) (by decide)
    (by decide) (by decide) (by decide) (by decide) (fun _ => 0) (fun _ => 0)
  revert hinside
  decide +kernel

end RdmaTransport
