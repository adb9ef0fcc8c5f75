import RdmaTransport.Lib.Format
import RdmaTransport.Lib.Memory
import Mathlib.Logic.Function.Basic

/-!
# The table of remote slots

`start_rw` sends the addresses and keys of its slots as text, 25 characters a slot and
nothing between them; `start_remote` on the other side reads the text back, one word of at
most 25 characters at a time. Each `sprintf` and each `sscanf` also stores a NUL, for
which neither `data` nor `tmp` has room.

The first part of this file shows that the table arrives as it was sent if there is room,
the second part determines when the stores stay inside the arrays. Arrays are memory
blocks of a given size and a store outside them is undefined, as is the overflow of an
`int`. The receive block ends a text like a NUL does.
-/

namespace RdmaTransport

open Format Memory

/-- The text `start_rw` prints for a slot with the format `"%016lu:%08x"`. -/
def slotText (slot : UInt64 × UInt32) : List UInt8 :=
  printNumber 10 16 slot.1.toNat ++ (58 :: printNumber 16 8 slot.2.toNat)

/-- The stores to `data` by the loop of `start_rw`: the position and the bytes of each
`sprintf`. -/
def rwStores (table : List (UInt64 × UInt32)) : List (ℕ × List UInt8) :=
  table.zipIdx.map fun slot => (25 * slot.2, slotText slot.1 ++ [0])

/-- The bytes `start_rw` sends. The size of `data` and the index of the loop are of type
`int`. -/
def startRwBytes (table : List (UInt64 × UInt32)) (data : List UInt8) : Option (List UInt8) :=
  if 25 * table.length < 2 ^ 31 then
    ((rwStores table).foldlM (fun data s => store data s.1 s.2) data).map
      (List.take (25 * table.length))
  else none

/-- The variables of `start_remote`. -/
structure RemoteTable where
  /-- The array `tmp`. -/
  tmp : List UInt8
  /-- The array `raddrs`. -/
  raddrs : ℕ → UInt64
  /-- The array `rkeys`. -/
  rkeys : ℕ → UInt32

/-- The word that `sscanf(ptr+cur,"%25s",tmp)` stores in round `i`, if any. -/
def remoteWord (rbuf : List UInt8) (i : ℕ) : Option (List UInt8) :=
  (limited 25 scanString ((rbuf.drop (25 * i)).takeWhile (· ≠ 0))).map Prod.fst

/-- `sscanf(tmp,"%016lu:%08x",&raddrs[i],&rkeys[i])`: a conversion that fails stores
nothing. -/
def RemoteTable.scanEntry (t : RemoteTable) (i : ℕ) (text : List UInt8) : RemoteTable :=
  match limited 16 (scanNumber 10 64) text with
  | none => t
  | some (addr, rest) =>
      let t := { t with raddrs := Function.update t.raddrs i (UInt64.ofNat addr) }
      if rest.head? = some 58 then
        match limited 8 (scanNumber 16 32) rest.tail with
        | none => t
        | some (rkey, _) => { t with rkeys := Function.update t.rkeys i (UInt32.ofNat rkey) }
      else t

/-- A round of the loop of `start_remote`. -/
def RemoteTable.round (rbuf : List UInt8) (t : RemoteTable) (i : ℕ) : Option RemoteTable :=
  let stored := match remoteWord rbuf i with
    | none => some t.tmp
    | some word => store t.tmp 0 (word ++ [0])
  stored.bind fun tmp => (cString tmp).map fun text => { t with tmp := tmp }.scanEntry i text

/-- `start_remote`, with what its variables held before. The variable `cur` is of type
`int` and ends at 25 times the number of rounds. -/
def startRemote (len : UInt32) (rbuf : List UInt8) (t : RemoteTable) : Option RemoteTable :=
  let num := len.toNat / 25
  if 25 * num < 2 ^ 31 then (List.range num).foldlM (RemoteTable.round rbuf) t else none

/-- The text of a slot whose address has at most 16 digits: 25 characters, none of them
white space or NUL. -/
theorem slotText_plain {slot : UInt64 × UInt32} (haddr : slot.1.toNat < 10 ^ 16) :
    (slotText slot).length = 25 ∧ ∀ c ∈ slotText slot, isSpace c = false ∧ c ≠ 0 := by
  obtain ⟨haddr', hdigits⟩ :=
    printNumber_digits (by decide : 0 < 10) (by decide) (by decide : 0 < 16) haddr
  obtain ⟨hrkey', hdigits'⟩ :=
    printNumber_digits (by decide : 0 < 16) le_rfl (by decide : 0 < 8) slot.2.toNat_lt
  have hplain : ∀ c : UInt8, (∃ d < 16, c = digitChar d) → isSpace c = false ∧ c ≠ 0 := by
    rintro c ⟨d, hd, rfl⟩
    exact ⟨(digitChar_plain hd).1, (digitChar_plain hd).2.2.2.1⟩
  refine ⟨?_, fun c hc => ?_⟩
  · simp only [slotText, List.length_append, List.length_cons, haddr', hrkey']
  · simp only [slotText, List.mem_append, List.mem_cons] at hc
    rcases hc with hc | rfl | hc
    · exact hplain c (hdigits c hc)
    · decide
    · exact hplain c (hdigits' c hc)

/-- With room for the last NUL, `start_rw` sends the texts of the slots, as long as the
length is an `int`. -/
theorem startRwBytes_eq {table : List (UInt64 × UInt32)} {data : List UInt8}
    (haddr : ∀ slot ∈ table, slot.1.toNat < 10 ^ 16) (hdata : 25 * table.length < data.length) :
    startRwBytes table data =
      if 25 * table.length < 2 ^ 31 then some (table.flatMap slotText) else none := by
  have hwidth : ∀ slot ∈ table, (slotText slot).length = 25 := fun slot hslot =>
    (slotText_plain (haddr slot hslot)).1
  obtain ⟨back, hstores⟩ := foldlM_store_records slotText hwidth [] data (k := 0) rfl hdata
  have htake : (table.flatMap slotText ++ back).take (25 * table.length) = table.flatMap slotText :=
    List.take_left' (length_flatMap_records slotText hwidth)
  rw [startRwBytes, rwStores, ← List.nil_append data, hstores, Option.map_some, List.nil_append,
    htake]

/-- The word of a round that meets, behind white space, 25 characters that are neither white
space nor NUL: those characters, whatever follows them. -/
theorem remoteWord_of_drop_eq {rbuf blanks word more : List UInt8} {i : ℕ}
    (hdrop : rbuf.drop (25 * i) = blanks ++ (word ++ more))
    (hblanks : ∀ c ∈ blanks, isSpace c = true) (hlength : word.length = 25)
    (hplain : ∀ c ∈ word, isSpace c = false ∧ c ≠ 0) : remoteWord rbuf i = some word := by
  have hne : word ≠ [] := by
    rintro rfl
    simp at hlength
  have hblank : ∀ c ∈ blanks, decide (c ≠ 0) = true := by
    intro c hc
    have hspace := hblanks c hc
    by_contra hzero
    obtain rfl : c = 0 := by simpa using hzero
    exact absurd hspace (by decide)
  have hscan := limited_append hne (fun c hc => (hplain c hc).1) hlength
    (scanString_word hne fun c hc => (hplain c hc).1) (more.takeWhile (· ≠ 0))
  rw [remoteWord, hdrop, List.takeWhile_append_of_pos hblank,
    List.takeWhile_append_of_pos fun c hc => by simpa using (hplain c hc).2,
    limited_blanks 25 scanString hblanks, hscan]
  rfl

/-- The word of a round is the text of its slot. -/
theorem remoteWord_slot {table : List (UInt64 × UInt32)} (rest : List UInt8)
    (haddr : ∀ slot ∈ table, slot.1.toNat < 10 ^ 16) {i : ℕ} {slot : UInt64 × UInt32}
    (hslot : table[i]? = some slot) :
    remoteWord (table.flatMap slotText ++ rest) i = some (slotText slot) := by
  have hwidth : ∀ slot ∈ table, (slotText slot).length = 25 := fun slot hslot =>
    (slotText_plain (haddr slot hslot)).1
  obtain ⟨hlength, hplain⟩ := slotText_plain (haddr slot (List.mem_of_getElem? hslot))
  obtain ⟨hi, hget⟩ := List.getElem?_eq_some_iff.mp hslot
  have hle : 25 * i ≤ (table.flatMap slotText).length := by
    rw [length_flatMap_records slotText hwidth]
    omega
  have hdrop : (table.flatMap slotText ++ rest).drop (25 * i) =
      [] ++ (slotText slot ++ ((table.drop (i + 1)).flatMap slotText ++ rest)) := by
    rw [List.drop_append_of_le_length hle, drop_flatMap_records slotText hwidth i,
      List.drop_eq_getElem_cons hi, List.flatMap_cons, List.append_assoc, hget, List.nil_append]
  exact remoteWord_of_drop_eq hdrop (by simp) hlength hplain

/-- Scanning the text of a slot stores its address and its key. -/
theorem RemoteTable.scanEntry_slotText (t : RemoteTable) (i : ℕ) {slot : UInt64 × UInt32}
    (haddr : slot.1.toNat < 10 ^ 16) :
    t.scanEntry i (slotText slot) = { t with
      raddrs := Function.update t.raddrs i slot.1
      rkeys := Function.update t.rkeys i slot.2 } := by
  have hfirst := limited_printNumber 10 64 16 (58 :: printNumber 16 8 slot.2.toNat) (by decide)
    (by decide) (by decide) haddr slot.1.toNat_lt slot.1.toNat_lt
  have hsecond := limited_printNumber 16 32 8 [] (by decide) le_rfl (by decide) slot.2.toNat_lt
    slot.2.toNat_lt (slot.2.toNat_lt.trans (by decide))
  rw [List.append_nil] at hsecond
  simp only [scanEntry, slotText, hfirst, List.head?_cons, if_true, List.tail_cons, hsecond,
    UInt64.ofNat_toNat, UInt32.ofNat_toNat]

/-- A round that meets the text of a slot stores the slot. -/
theorem RemoteTable.round_slotText {rbuf : List UInt8} {t : RemoteTable} {i : ℕ}
    {slot : UInt64 × UInt32} (haddr : slot.1.toNat < 10 ^ 16) (htmp : 25 < t.tmp.length)
    (hword : remoteWord rbuf i = some (slotText slot)) :
    ∃ tmp, tmp.length = t.tmp.length ∧ t.round rbuf i = some ⟨tmp,
      Function.update t.raddrs i slot.1, Function.update t.rkeys i slot.2⟩ := by
  obtain ⟨hlength, hplain⟩ := slotText_plain haddr
  have hfits : 0 + (slotText slot ++ [0]).length ≤ t.tmp.length := by
    simp only [List.length_append, hlength, List.length_singleton]
    omega
  have htext : cString (overwrite t.tmp 0 (slotText slot ++ [0])) = some (slotText slot) := by
    have h := overwrite_append [] t.tmp (slotText slot ++ [0])
    rw [List.nil_append, List.length_nil, List.nil_append, List.append_assoc,
      List.singleton_append] at h
    rw [h, cString_append fun c hc => (hplain c hc).2]
  refine ⟨overwrite t.tmp 0 (slotText slot ++ [0]), overwrite_length hfits, ?_⟩
  simp only [round, hword, store, if_pos hfits, Option.bind_some, htext, Option.map_some,
    scanEntry_slotText _ i haddr]

/-- The loop of `start_remote` stores one slot after the other. -/
theorem foldlM_round {table : List (UInt64 × UInt32)} (rest : List UInt8) {t : RemoteTable}
    (haddr : ∀ slot ∈ table, slot.1.toNat < 10 ^ 16) (htmp : 25 < t.tmp.length) {n : ℕ}
    (hn : n ≤ table.length) :
    ∃ u, (List.range n).foldlM (RemoteTable.round (table.flatMap slotText ++ rest)) t = some u ∧
      25 < u.tmp.length ∧ (List.range n).map (fun i => (u.raddrs i, u.rkeys i)) = table.take n := by
  induction n with
  | zero => exact ⟨t, rfl, htmp, by simp⟩
  | succ n ih =>
    obtain ⟨u, hrun, hroom, hslots⟩ := ih (by omega)
    have hslot : table[n]? = some table[n] := List.getElem?_eq_getElem hn
    obtain ⟨tmp, hlength, hround⟩ := RemoteTable.round_slotText (t := u)
      (haddr _ (List.getElem_mem hn)) hroom (remoteWord_slot rest haddr hslot)
    refine ⟨⟨tmp, Function.update u.raddrs n table[n].1, Function.update u.rkeys n table[n].2⟩, ?_,
      hlength ▸ hroom, ?_⟩
    · rw [List.range_succ, List.foldlM_append, hrun]
      simpa using hround
    · rw [List.range_succ, List.map_append, List.take_add_one, hslot, ← hslots]
      refine congrArg₂ (· ++ ·) (List.map_congr_left fun i hi => ?_) (by simp)
      have hne : i ≠ n := Nat.ne_of_lt (List.mem_range.mp hi)
      simp [Function.update_of_ne hne]

/-- **Round trip of the slot table.** A table of any length whose addresses have at most 16
digits, sent by `start_rw` and followed by anything in the receive block, is what
`start_remote` stores to `raddrs` and `rkeys`, if there is room for the terminating
NULs. -/
theorem startRemote_startRwBytes {table : List (UInt64 × UInt32)} {data sent : List UInt8}
    {t : RemoteTable} (haddr : ∀ slot ∈ table, slot.1.toNat < 10 ^ 16)
    (hdata : 25 * table.length < data.length) (htmp : 25 < t.tmp.length)
    (hsent : startRwBytes table data = some sent) (rest : List UInt8) :
    sent.length = 25 * table.length ∧
      ∃ u, startRemote (UInt32.ofNat (25 * table.length)) (sent ++ rest) t = some u ∧
        (List.range table.length).map (fun i => (u.raddrs i, u.rkeys i)) = table := by
  rw [startRwBytes_eq haddr hdata] at hsent
  split_ifs at hsent with hint
  obtain rfl := Option.some.inj hsent
  have hlen : (UInt32.ofNat (25 * table.length)).toNat / 25 = table.length := by
    rw [UInt32.toNat_ofNat_of_lt' (hint.trans (by decide))]
    omega
  obtain ⟨u, hrun, _, hslots⟩ := foldlM_round rest haddr htmp le_rfl
  refine ⟨length_flatMap_records slotText fun slot hslot => (slotText_plain (haddr slot hslot)).1,
    u, ?_, by rw [hslots, List.take_length]⟩
  rw [startRemote, hlen, if_pos hint, hrun]

/-- Two slots, one with the largest address that fits and the largest key. -/
def sampleTable : List (UInt64 × UInt32) := [(5, 7), (9999999999999999, 4294967295)]

/-- They arrive, with digits behind them in the receive block. -/
theorem startRemote_startRwBytes_two_slots :
    ∃ sent u, startRwBytes sampleTable (List.replicate 51 0) = some sent ∧
      startRemote 50 (sent ++ [49, 49]) ⟨List.replicate 26 0, fun _ => 0, fun _ => 0⟩ = some u ∧
      (List.range 2).map (fun i => (u.raddrs i, u.rkeys i)) = sampleTable := by
  have haddr : ∀ slot ∈ sampleTable, slot.1.toNat < 10 ^ 16 := by
    simp [sampleTable]
  have hdata : 25 * sampleTable.length < (List.replicate 51 (0 : UInt8)).length := by
    simp [sampleTable]
  have hsent := startRwBytes_eq haddr hdata
  rw [if_pos (by decide)] at hsent
  obtain ⟨_, u, hremote, hslots⟩ := startRemote_startRwBytes
    (t := ⟨List.replicate 26 0, fun _ => 0, fun _ => 0⟩) haddr hdata (by decide) hsent [49, 49]
  exact ⟨_, u, hsent, hremote, hslots⟩

/-- All bytes `start_rw` stores for a table lie in its array `data`. -/
def RwInside (table : List (UInt64 × UInt32)) : Prop :=
  ∀ s ∈ rwStores table, s.1 + s.2.length ≤ 25 * table.length

/-- All bytes `start_remote` stores by its first `sscanf` lie in its array `tmp`, in every
round that it reaches before `cur` overflows. -/
def RemoteInside (len : UInt32) (rbuf : List UInt8) : Prop :=
  ∀ i < len.toNat / 25, 25 * i < 2 ^ 31 → ∀ word ∈ remoteWord rbuf i, (word ++ [0]).length ≤ 25

/-- Behind white space the text has a run of 25 characters that are neither white space nor
NUL. -/
def HasLongWord (text : List UInt8) : Prop :=
  ∃ blanks word, blanks ++ word <+: text ∧ (∀ c ∈ blanks, isSpace c = true) ∧ word.length = 25 ∧
    ∀ c ∈ word, isSpace c = false ∧ c ≠ 0

/-- A round that stores 25 characters has met such a run. -/
theorem hasLongWord_of_remoteWord {rbuf word : List UInt8} {i : ℕ}
    (hword : remoteWord rbuf i = some word) (hlong : 25 ≤ word.length) :
    HasLongWord (rbuf.drop (25 * i)) := by
  obtain ⟨⟨word', rest⟩, hscan, rfl⟩ := Option.map_eq_some_iff.mp hword
  obtain ⟨blanks, hprefix, hblanks, hwidth, hplain⟩ := word_of_limited hscan
  refine ⟨blanks, word', hprefix.trans (List.takeWhile_prefix _), hblanks,
    le_antisymm hwidth hlong, fun c hc => ⟨hplain c hc, ?_⟩⟩
  have hmem := hprefix.subset (List.mem_append_right blanks hc)
  simpa using List.mem_takeWhile_imp hmem

/-- A round that meets such a run stores 25 characters. -/
theorem HasLongWord.remoteWord {rbuf : List UInt8} {i : ℕ} (h : HasLongWord (rbuf.drop (25 * i))) :
    ∃ word, remoteWord rbuf i = some word ∧ word.length = 25 := by
  obtain ⟨blanks, word, ⟨more, hmore⟩, hblanks, hlength, hplain⟩ := h
  rw [List.append_assoc] at hmore
  exact ⟨word, remoteWord_of_drop_eq hmore.symm hblanks hlength hplain, hlength⟩

/-- The text of a slot has at least 25 characters. -/
theorem le_length_slotText (slot : UInt64 × UInt32) : 25 ≤ (slotText slot).length := by
  simp only [slotText, printNumber, List.length_append, List.length_cons, List.length_map,
    fixedDigits_length]
  omega

/-- **The arrays of the slot table.** `start_rw` stores outside `data` for every table with a
slot. `start_remote` stays inside `tmp` exactly if no round meets, behind white space, a
run of 25 characters that are neither white space nor NUL; a table as `start_rw` sends it
is made of such runs. -/
theorem slotTable_inside_iff (slot : UInt64 × UInt32) (table : List (UInt64 × UInt32))
    (len : UInt32) (rbuf : List UInt8) :
    ¬RwInside (slot :: table) ∧ (RemoteInside len rbuf ↔
      ∀ i < len.toNat / 25, 25 * i < 2 ^ 31 → ¬HasLongWord (rbuf.drop (25 * i))) := by
  constructor
  · intro hinside
    have hlast : (25 * table.length, slotText ((slot :: table).getLast (by simp)) ++ [0]) ∈
        rwStores (slot :: table) := by
      refine List.mem_map.mpr ⟨((slot :: table).getLast (by simp), table.length), ?_, rfl⟩
      rw [List.mem_zipIdx_iff_getElem?, List.getLast_eq_getElem]
      simp
    have hstore := hinside _ hlast
    have hlength := le_length_slotText ((slot :: table).getLast (by simp))
    simp only [List.length_append, List.length_cons] at hstore
    omega
  · refine forall₃_congr fun i _ _ => ?_
    constructor
    · intro hfits hlong
      obtain ⟨word, hword, hlength⟩ := hlong.remoteWord
      have hstore := hfits word hword
      rw [List.length_append, List.length_singleton] at hstore
      omega
    · intro hshort word hword
      rw [List.length_append, List.length_singleton]
      by_contra hlong
      exact hshort (hasLongWord_of_remoteWord hword (by omega))

/-- The table of a block of 512 slots of 2 MiB each, which begins at 1 GiB. -/
def fullTable : List (UInt64 × UInt32) :=
  (List.range 512).map fun k => (UInt64.ofNat (2 ^ 30 + 2 ^ 21 * k), UInt32.ofNat (k + 1))

/-- The table that `start_rw` makes: its last `sprintf` stores 26 bytes where `data` has 25
left, and the first `sscanf` of `start_remote` stores as many to `tmp`. -/
theorem full_table_outside :
    ¬RwInside fullTable ∧ ¬RemoteInside 12800 (fullTable.flatMap slotText) := by
  have hlength : fullTable.length = 512 := by simp [fullTable]
  have haddr : ∀ slot ∈ fullTable, slot.1.toNat < 10 ^ 16 := by
    intro slot hslot
    obtain ⟨k, hk, rfl⟩ := List.mem_map.mp hslot
    have hlt : k < 512 := List.mem_range.mp hk
    have hsmall : 2 ^ 30 + 2 ^ 21 * k < 2 ^ 64 := by omega
    rw [UInt64.toNat_ofNat_of_lt' hsmall]
    omega
  constructor
  · intro hinside
    have hlast : (25 * 511, slotText (UInt64.ofNat (2 ^ 30 + 2 ^ 21 * 511), 512) ++ [0]) ∈
        rwStores fullTable := by
      refine List.mem_map.mpr ⟨((UInt64.ofNat (2 ^ 30 + 2 ^ 21 * 511), 512), 511), ?_, rfl⟩
      rw [List.mem_zipIdx_iff_getElem?]
      simp [fullTable]
    have hstore := hinside _ hlast
    rw [hlength] at hstore
    exact absurd hstore (by decide)
  · intro hinside
    have hfirst : fullTable[0]? = some (UInt64.ofNat (2 ^ 30), 1) := by simp [fullTable]
    have hword := remoteWord_slot [] haddr hfirst
    rw [List.append_nil] at hword
    have hstore := hinside 0 (by decide) (by decide) _ hword
    exact absurd hstore (by decide)

end RdmaTransport
