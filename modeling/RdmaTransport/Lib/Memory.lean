import Mathlib.Data.Nat.Digits.Defs

/-!
# Blocks of memory and machine words

A block of memory is a list of bytes. This file fixes what copying into a block does,
how a word is laid out in memory on a machine of either byte order, and the conversion
between host and network byte order. Nothing here depends on a particular program.
-/

namespace RdmaTransport.Memory

/-- `memcpy` of `data` to position `pos` of a memory block. -/
def overwrite (block : List UInt8) (pos : ℕ) (data : List UInt8) : List UInt8 :=
  block.take pos ++ data ++ block.drop (pos + data.length)

/-- Copying into a block does not change its size. -/
theorem overwrite_length {block data : List UInt8} {pos : ℕ}
    (h : pos + data.length ≤ block.length) :
    (overwrite block pos data).length = block.length := by
  simp only [overwrite, List.length_append, List.length_take, List.length_drop]
  omega

/-- Copying to the start of a block makes the data its first bytes. -/
theorem overwrite_zero_take (block data : List UInt8) :
    (overwrite block 0 data).take data.length = data := by
  simp [overwrite]

/-- Copying behind a part of a block leaves that part. -/
theorem overwrite_append (front back data : List UInt8) :
    overwrite (front ++ back) front.length data = front ++ data ++ back.drop data.length := by
  rw [overwrite, List.take_left, List.drop_append]
  simp

/-- Copying as much as there is behind a part of a block replaces the rest. -/
theorem overwrite_back (front : List UInt8) {back data : List UInt8}
    (h : data.length = back.length) :
    overwrite (front ++ back) front.length data = front ++ data := by
  rw [overwrite_append, h, List.drop_length, List.append_nil]

/-- Copying a whole block. -/
theorem overwrite_all {block data : List UInt8} (h : data.length = block.length) :
    overwrite block 0 data = data :=
  overwrite_back [] h

/-- A store to an array, defined only inside it. -/
def store (block : List UInt8) (pos : ℕ) (data : List UInt8) : Option (List UInt8) :=
  if pos + data.length ≤ block.length then some (overwrite block pos data) else none

/-- Records of equal width, each stored with a NUL that the next one overwrites, end up one
behind the other. -/
theorem foldlM_store_records {α : Type*} (text : α → List UInt8) {width : ℕ} {records : List α}
    (hwidth : ∀ r ∈ records, (text r).length = width) (front back : List UInt8) {k : ℕ}
    (hfront : front.length = width * k) (hroom : width * records.length < back.length) :
    ∃ back', ((records.zipIdx k).map fun r => (width * r.2, text r.1 ++ [0])).foldlM
        (fun block s => store block s.1 s.2) (front ++ back) =
      some (front ++ records.flatMap text ++ back') := by
  induction records generalizing front back k with
  | nil => exact ⟨back, by simp⟩
  | cons r records ih =>
    rw [List.forall_mem_cons] at hwidth
    rw [List.length_cons, Nat.mul_succ] at hroom
    have hstore : store (front ++ back) (width * k) (text r ++ [0]) =
        some ((front ++ text r) ++ (0 :: back.drop (width + 1))) := by
      rw [store, if_pos (by simp [hwidth.1, hfront]; omega), ← hfront, overwrite_append]
      simp [hwidth.1]
    obtain ⟨back', hrest⟩ := ih hwidth.2 (front ++ text r) (0 :: back.drop (width + 1))
      (k := k + 1) (by simp [hwidth.1, hfront, Nat.mul_succ]) (by simp; omega)
    refine ⟨back', ?_⟩
    rw [List.zipIdx_cons, List.map_cons, List.foldlM_cons, hstore]
    simpa using hrest

/-- The length of records of equal width. -/
theorem length_flatMap_records {α : Type*} (text : α → List UInt8) {width : ℕ} {records : List α}
    (hwidth : ∀ r ∈ records, (text r).length = width) :
    (records.flatMap text).length = width * records.length := by
  induction records with
  | nil => rfl
  | cons r records ih =>
    rw [List.forall_mem_cons] at hwidth
    rw [List.flatMap_cons, List.length_append, hwidth.1, ih hwidth.2, List.length_cons,
      Nat.mul_succ, Nat.add_comm]

/-- The record at a place among records of equal width. -/
theorem drop_flatMap_records {α : Type*} (text : α → List UInt8) {width : ℕ} {records : List α}
    (hwidth : ∀ r ∈ records, (text r).length = width) (i : ℕ) :
    (records.flatMap text).drop (width * i) = (records.drop i).flatMap text := by
  induction records generalizing i with
  | nil => simp
  | cons r records ih =>
    rw [List.forall_mem_cons] at hwidth
    cases i with
    | zero => simp
    | succ i =>
      rw [List.flatMap_cons, Nat.mul_succ, Nat.add_comm, ← List.drop_drop,
        List.drop_left' hwidth.1, ih hwidth.2, List.drop_succ_cons]

/-- The order in which a machine stores the bytes of a word. -/
inductive Endian
  | little
  | big
  deriving DecidableEq

/-- The `w` low bytes of a number, least significant first. -/
def lowBytes : ℕ → ℕ → List UInt8
  | 0, _ => []
  | w + 1, n => UInt8.ofNat n :: lowBytes w (n / 256)

/-- The memory of a word of `w` bytes. -/
def Endian.bytes (e : Endian) (w n : ℕ) : List UInt8 :=
  match e with
  | .little => lowBytes w n
  | .big => (lowBytes w n).reverse

/-- The word found in memory. -/
def Endian.word (e : Endian) (bytes : List UInt8) : ℕ :=
  match e with
  | .little => Nat.ofDigits 256 (bytes.map UInt8.toNat)
  | .big => Nat.ofDigits 256 (bytes.reverse.map UInt8.toNat)

/-- `htonl`, and equally `ntohl`: the word whose memory is that of the given word on a
big-endian machine. -/
def Endian.htonl (e : Endian) (n : ℕ) : ℕ := e.word (Endian.big.bytes 4 n)

/-- A word of `w` bytes has `w` bytes. -/
@[simp] theorem lowBytes_length (w n : ℕ) : (lowBytes w n).length = w := by
  induction w generalizing n with
  | zero => rfl
  | succ w ih => simp [lowBytes, ih]

/-- The same in either byte order. -/
@[simp] theorem Endian.bytes_length (e : Endian) (w n : ℕ) : (e.bytes w n).length = w := by
  cases e <;> simp [bytes]

/-- The low bytes of a number determine its residue. -/
theorem ofDigits_lowBytes (w n : ℕ) :
    Nat.ofDigits 256 ((lowBytes w n).map UInt8.toNat) = n % 256 ^ w := by
  induction w generalizing n with
  | zero => simp [lowBytes, Nat.mod_one]
  | succ w ih =>
    have hpow : 256 ^ (w + 1) = 256 * 256 ^ w := by ring
    rw [lowBytes, List.map_cons, Nat.ofDigits_cons, ih, hpow, Nat.mod_mul]
    simp

/-- A word is bounded by its width. -/
theorem Endian.word_lt (e : Endian) (bytes : List UInt8) : e.word bytes < 256 ^ bytes.length := by
  have hbyte : ∀ (l : List UInt8), ∀ d ∈ l.map UInt8.toNat, d < 256 := by
    intro l d hd
    obtain ⟨b, _, rfl⟩ := List.mem_map.mp hd
    exact b.toNat_lt
  cases e with
  | little => simpa [word] using Nat.ofDigits_lt_base_pow_length (by decide) (hbyte bytes)
  | big => simpa [word] using Nat.ofDigits_lt_base_pow_length (by decide) (hbyte bytes.reverse)

/-- Bytes are the low bytes of the number they make up. -/
theorem lowBytes_ofDigits (bytes : List UInt8) :
    lowBytes bytes.length (Nat.ofDigits 256 (bytes.map UInt8.toNat)) = bytes := by
  induction bytes with
  | nil => rfl
  | cons b rest ih =>
    have hb := b.toNat_lt
    have hdiv : (b.toNat + 256 * Nat.ofDigits 256 (rest.map UInt8.toNat)) / 256 =
        Nat.ofDigits 256 (rest.map UInt8.toNat) := by omega
    rw [List.length_cons, List.map_cons, Nat.ofDigits_cons, lowBytes, hdiv, ih]
    congr 1
    apply UInt8.toNat_inj.mp
    rw [UInt8.toNat_ofNat']
    omega

/-- Storing a word and loading it gives the word, reduced to its width. -/
theorem Endian.word_bytes (e : Endian) (w n : ℕ) : e.word (e.bytes w n) = n % 256 ^ w := by
  cases e <;> simp [word, bytes, ofDigits_lowBytes]

/-- Loading a word and storing it gives the memory back. -/
theorem Endian.bytes_word (e : Endian) (bytes : List UInt8) :
    e.bytes bytes.length (e.word bytes) = bytes := by
  cases e with
  | little => exact lowBytes_ofDigits bytes
  | big =>
    have h := lowBytes_ofDigits bytes.reverse
    rw [List.length_reverse] at h
    rw [word, Endian.bytes, h, List.reverse_reverse]

/-- The word made up of given bytes has, in network order, the value the bytes have on a
big-endian machine. -/
theorem Endian.htonl_word (e : Endian) {bytes : List UInt8} (h : bytes.length = 4) :
    e.htonl (e.word bytes) = Endian.big.word bytes := by
  have hback := e.bytes_word bytes
  rw [h] at hback
  cases e with
  | little =>
    rw [Endian.bytes] at hback
    rw [htonl, Endian.bytes, hback]
    rfl
  | big => rw [htonl, hback]

/-- Converting twice gives the word back. -/
theorem Endian.htonl_htonl (e : Endian) {n : ℕ} (hn : n < 2 ^ 32) : e.htonl (e.htonl n) = n := by
  have hmod : n % 256 ^ 4 = n := Nat.mod_eq_of_lt hn
  rw [htonl.eq_def e n, e.htonl_word (Endian.big.bytes_length 4 n), Endian.big.word_bytes, hmod]

end RdmaTransport.Memory
