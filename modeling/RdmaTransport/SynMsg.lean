import RdmaTransport.Lib.Format
import RdmaTransport.Lib.Memory
import Mathlib.Data.Fintype.Pi

/-!
# The handshake message and its text form

`IBSYNMsg` is a packed structure. `send_udp_msg` prints it as hexadecimal text and
`recv_udp_msg` scans that text back, storing every number as four bytes: the store to
the two byte field `lid` runs into its neighbour, which the following store repairs.
The structure is therefore modelled as memory, on machines of either byte order.
Uninitialised stack memory is a parameter, and undefined behaviour is `none`.
-/

namespace RdmaTransport

open Format Memory

/-- `struct IBSYNMsg`. -/
@[ext] structure IBSYNMsg where
  /-- The local identifier of the port. -/
  lid : UInt16
  /-- The queue pair number. -/
  qpn : UInt32
  /-- The initial packet sequence number. -/
  psn : UInt32
  /-- The bytes of the port's global identifier. -/
  gid : Fin 16 → UInt8
  deriving DecidableEq

/-- The memory of the first three fields of the packed structure. -/
def IBSYNMsg.header (e : Endian) (m : IBSYNMsg) : List UInt8 :=
  e.bytes 2 m.lid.toNat ++ (e.bytes 4 m.qpn.toNat ++ e.bytes 4 m.psn.toNat)

/-- The memory of the packed structure. -/
def IBSYNMsg.bytes (e : Endian) (m : IBSYNMsg) : List UInt8 := m.header e ++ List.ofFn m.gid

/-- The structure found in memory. -/
def IBSYNMsg.ofBytes (e : Endian) (block : List UInt8) : IBSYNMsg where
  lid := UInt16.ofNat (e.word (block.take 2))
  qpn := UInt32.ofNat (e.word ((block.drop 2).take 4))
  psn := UInt32.ofNat (e.word ((block.drop 6).take 4))
  gid := fun k => block.getD (10 + k) 0

/-- `sizeof(msg)` in `send_udp_msg` and `recv_udp_msg`. -/
def msgSize : ℕ := 56

/-- The uninitialised locals of `send_udp_msg` and `recv_udp_msg`. -/
structure Frame where
  /-- The array `msg`. -/
  msg : List UInt8
  /-- The array `gid`. -/
  gid : List UInt8
  /-- The variable `v32` of `wire_gid_to_gid`. -/
  v32 : UInt32
  /-- The size of `msg`. -/
  msg_length : msg.length = msgSize
  /-- The size of `gid`. -/
  gid_length : gid.length = 33

/-- Zeroed locals. -/
def blankFrame : Frame where
  msg := List.replicate msgSize 0
  gid := List.replicate 33 0
  v32 := 0
  msg_length := List.length_replicate
  gid_length := List.length_replicate

/-- The 32-bit word printed in round `i` of `gid_to_wire_gid`. -/
def wireWord (e : Endian) (raw : List UInt8) (i : ℕ) : ℕ :=
  e.htonl (e.word ((raw.drop (4 * i)).take 4))

/-- `gid_to_wire_gid`: each round writes eight digits and a NUL. -/
def gidToWireGid (e : Endian) (raw wgid : List UInt8) : List UInt8 :=
  (List.range 4).foldl
    (fun wgid i => overwrite wgid (8 * i) (printNumber 16 8 (wireWord e raw i) ++ [0])) wgid

/-- The value of `v32` after round `i` of `wire_gid_to_gid`: a failed conversion leaves
the old one. -/
def scanWord (wgid : List UInt8) (v32 i : ℕ) : ℕ :=
  match scan [.number 16 32] (((wgid.drop (8 * i)).take 8).takeWhile (· ≠ 0)) with
  | .number n :: _ => n
  | _ => v32

/-- `wire_gid_to_gid`, with the initial value of its variable `v32`. -/
def wireGidToGid (e : Endian) (v32 : ℕ) (wgid raw : List UInt8) : List UInt8 :=
  ((List.range 4).foldl (fun (state : ℕ × List UInt8) i =>
    let v32 := scanWord wgid state.1 i
    (v32, overwrite state.2 (4 * i) (e.bytes 4 (e.htonl v32)))) (v32, raw)).2

/-- The text that `send_udp_msg` prints for a wire gid, with the terminating NUL. -/
def synText (m : IBSYNMsg) (wgid : List UInt8) : List UInt8 :=
  printNumber 16 4 m.lid.toNat ++ (58 :: (printNumber 16 8 m.qpn.toNat ++ (58 ::
    (printNumber 16 8 m.psn.toNat ++ (58 :: ((cString wgid).getD [] ++ [0]))))))

/-- The array `msg` that `send_udp_msg` hands to `sendto`. -/
def synDatagram (e : Endian) (frame : Frame) (m : IBSYNMsg) : List UInt8 :=
  overwrite frame.msg 0 (synText m (gidToWireGid e (List.ofFn m.gid) frame.gid))

/-- The format `"%x:%x:%x:%s"`. -/
def synFormat : List Directive :=
  [.number 16 32, .literal 58, .number 16 32, .literal 58, .number 16 32, .literal 58, .string]

/-- The stores of `sscanf` to `lid`, `qpn` and `psn`: four bytes each, at the position of
the field. -/
def storeNumbers (e : Endian) (block : List UInt8) (items : List Item) : List UInt8 :=
  (items.zip [0, 2, 6]).foldl (fun block (item, pos) =>
    match item with
    | .number n => overwrite block pos (e.bytes 4 n)
    | .string _ => block) block

/-- The store of `sscanf` to `gid`, which must fit the array with its NUL. -/
def storeWord (gid : List UInt8) (items : List Item) : Option (List UInt8) :=
  match items.drop 3 with
  | .string word :: _ => if word.length < 33 then some (overwrite gid 0 (word ++ [0])) else none
  | _ => some gid

/-- The parsing part of `recv_udp_msg`, which runs whatever was received. -/
def parseSyn (e : Endian) (frame : Frame) (msg : List UInt8) (im : IBSYNMsg) : Option IBSYNMsg :=
  (cString msg).bind fun text =>
    let items := scan synFormat text
    let block := storeNumbers e (im.bytes e) items
    (storeWord frame.gid items).map fun gid =>
      .ofBytes e (overwrite block 10 (wireGidToGid e frame.v32.toNat gid (block.drop 10)))

/-- The values of `errno` the code tells apart. -/
inductive Errno
  | eintr
  | eagain
  | other
  deriving DecidableEq

/-- What the environment decides in a call of `recv_udp_msg`. -/
structure Received (α : Type*) where
  /-- The datagram and its source, or `none` when `recvfrom` returns -1. -/
  datagram : Option (α × List UInt8)
  /-- The value of `errno` when it is tested, which is not right behind `recvfrom`: `sscanf`
  and `wire_gid_to_gid` come in between, and may set it anew where `msg` holds no text they
  can convert. -/
  errno : Errno
  /-- Whether a socket failure is injected. -/
  injected : Bool

/-- What a call of `recv_udp_msg` leaves. -/
structure RecvResult (α : Type*) where
  /-- The returned value. -/
  code : ℤ
  /-- The caller's `im`. -/
  im : IBSYNMsg
  /-- The address stored to `*addr`, if any. -/
  addr : Option α

/-- `recv_udp_msg`. A longer datagram is cut to the size of `msg`, a shorter one leaves
the rest of `msg` as it was, and a failed `recvfrom` leaves all of it. What `msg` holds is
parsed in any case, and `errno` is tested behind that. -/
def recvUdpMsg {α : Type*} (e : Endian) (frame : Frame) (im : IBSYNMsg) (input : Received α) :
    Option (RecvResult α) :=
  let msg := match input.datagram with
    | none => frame.msg
    | some (_, data) => overwrite frame.msg 0 (data.take msgSize)
  (parseSyn e frame msg im).map fun im =>
    match input.datagram, input.injected with
    | some (source, data), false =>
        if min data.length msgSize = msgSize then ⟨0, im, some source⟩ else ⟨1, im, none⟩
    | _, _ => if input.errno = .other then ⟨-1, im, none⟩ else ⟨1, im, none⟩

/-- The first three fields take ten bytes. -/
@[simp] theorem IBSYNMsg.header_length (e : Endian) (m : IBSYNMsg) : (m.header e).length = 10 := by
  simp [header]

/-- Reading the memory of a structure gives the structure. -/
theorem IBSYNMsg.ofBytes_bytes (e : Endian) (m : IBSYNMsg) : ofBytes e (m.bytes e) = m := by
  have hlid : m.lid.toNat % 256 ^ 2 = m.lid.toNat := Nat.mod_eq_of_lt m.lid.toNat_lt
  have hqpn : m.qpn.toNat % 256 ^ 4 = m.qpn.toNat := Nat.mod_eq_of_lt m.qpn.toNat_lt
  have hpsn : m.psn.toNat % 256 ^ 4 = m.psn.toNat := Nat.mod_eq_of_lt m.psn.toNat_lt
  apply IBSYNMsg.ext
  · simp only [ofBytes, bytes, header, List.append_assoc]
    rw [List.take_left' (e.bytes_length 2 _), e.word_bytes, hlid, UInt16.ofNat_toNat]
  · simp only [ofBytes, bytes, header, List.append_assoc]
    rw [List.drop_left' (e.bytes_length 2 _), List.take_left' (e.bytes_length 4 _), e.word_bytes,
      hqpn, UInt32.ofNat_toNat]
  · simp only [ofBytes, bytes, header, List.append_assoc]
    rw [← List.append_assoc, List.drop_left' (by simp), List.take_left' (e.bytes_length 4 _),
      e.word_bytes, hpsn, UInt32.ofNat_toNat]
  · funext k
    have hk : 10 + (k : ℕ) - 10 = k := by omega
    simp only [ofBytes, bytes]
    rw [List.getD_eq_getElem?_getD, List.getElem?_append_right (by simp), header_length, hk,
      List.getElem?_ofFn, dif_pos k.isLt]
    rfl

/-- A wire word is the value of four bytes in network order. -/
theorem wireWord_eq (e : Endian) {raw : List UInt8} (hraw : raw.length = 16) {i : ℕ} (hi : i < 4) :
    wireWord e raw i = Endian.big.word ((raw.drop (4 * i)).take 4) := by
  apply e.htonl_word
  rw [List.length_take, List.length_drop]
  omega

/-- A wire word is a 32-bit number. -/
theorem wireWord_lt (e : Endian) (raw : List UInt8) (i : ℕ) : wireWord e raw i < 2 ^ 32 := by
  have h := e.word_lt (Endian.big.bytes 4 (e.word ((raw.drop (4 * i)).take 4)))
  rwa [Endian.bytes_length] at h

/-- A wire word is printed as eight digits. -/
theorem printNumber_wireWord (e : Endian) (raw : List UInt8) (i : ℕ) :
    (printNumber 16 8 (wireWord e raw i)).length = 8 ∧
      ∀ c ∈ printNumber 16 8 (wireWord e raw i), ∃ d < 16, c = digitChar d :=
  printNumber_digits (by decide) le_rfl (by decide) (wireWord_lt e raw i)

/-- The text of a wire gid: four words of eight digits. -/
def wireText (e : Endian) (raw : List UInt8) : List UInt8 :=
  printNumber 16 8 (wireWord e raw 0) ++ (printNumber 16 8 (wireWord e raw 1) ++
    (printNumber 16 8 (wireWord e raw 2) ++ printNumber 16 8 (wireWord e raw 3)))

/-- The text of a wire gid has 32 hexadecimal digits. -/
theorem wireText_digits (e : Endian) (raw : List UInt8) :
    (wireText e raw).length = 32 ∧ ∀ c ∈ wireText e raw, ∃ d < 16, c = digitChar d := by
  have hword := printNumber_wireWord e raw
  refine ⟨by simp [wireText, (hword _).1], fun c hc => ?_⟩
  simp only [wireText, List.mem_append] at hc
  rcases hc with hc | hc | hc | hc
  · exact (hword 0).2 c hc
  · exact (hword 1).2 c hc
  · exact (hword 2).2 c hc
  · exact (hword 3).2 c hc

/-- The text does not depend on the byte order of the machine that prints it. -/
theorem wireText_endian (e : Endian) {raw : List UInt8} (hraw : raw.length = 16) :
    wireText e raw = wireText .little raw := by
  simp only [wireText,
    wireWord_eq e hraw (by decide : 0 < 4), wireWord_eq e hraw (by decide : 1 < 4),
    wireWord_eq e hraw (by decide : 2 < 4), wireWord_eq e hraw (by decide : 3 < 4),
    wireWord_eq .little hraw (by decide : 0 < 4), wireWord_eq .little hraw (by decide : 1 < 4),
    wireWord_eq .little hraw (by decide : 2 < 4), wireWord_eq .little hraw (by decide : 3 < 4)]

/-- `gid_to_wire_gid` writes the text and a NUL, and nothing behind them. -/
theorem gidToWireGid_append (e : Endian) (raw : List UInt8) {wgid back : List UInt8}
    (hlength : wgid.length = 33) :
    gidToWireGid e raw (wgid ++ back) = wireText e raw ++ 0 :: back := by
  have hword := fun i => (printNumber_wireWord e raw i).1
  -- Each round appends eight digits to the text so far; the NUL of a round is
  -- overwritten by the next one.
  have hround : ∀ (text back : List UInt8) (i : ℕ), text.length = 8 * i →
      overwrite (text ++ back) (8 * i) (printNumber 16 8 (wireWord e raw i) ++ [0]) =
        (text ++ printNumber 16 8 (wireWord e raw i)) ++ (0 :: back.drop 9) := by
    intro text back i htext
    rw [← htext, overwrite_append]
    simp [hword]
  have hrange : List.range 4 = [0, 1, 2, 3] := rfl
  have hstart : wgid ++ back = [] ++ (wgid ++ back) := rfl
  rw [gidToWireGid, hrange, List.foldl_cons, List.foldl_cons, List.foldl_cons, List.foldl_cons,
    List.foldl_nil, hstart, hround [] (wgid ++ back) 0 rfl, hround _ _ 1 (by simp [hword]),
    hround _ _ 2 (by simp [hword]), hround _ _ 3 (by simp [hword])]
  simp only [List.drop_succ_cons, List.drop_drop]
  rw [List.drop_append, List.drop_eq_nil_of_le (by omega), hlength]
  simp [wireText]

/-- `gid_to_wire_gid` fills its array with the text and a NUL. -/
theorem gidToWireGid_eq (e : Endian) (raw : List UInt8) {wgid : List UInt8}
    (hlength : wgid.length = 33) : gidToWireGid e raw wgid = wireText e raw ++ [0] := by
  have h := @gidToWireGid_append e raw wgid [] hlength
  rwa [List.append_nil] at h

/-- The scanned word of a block of eight digits. -/
theorem scanWord_eq {wgid : List UInt8} {v32 i n : ℕ} (hn : n < 2 ^ 32)
    (hblock : (wgid.drop (8 * i)).take 8 = printNumber 16 8 n) : scanWord wgid v32 i = n := by
  have hplain : ∀ c ∈ printNumber 16 8 n, decide (c ≠ 0) = true := by
    intro c hc
    obtain ⟨d, hd, rfl⟩ := (printNumber_digits (by decide) le_rfl (by decide) hn).2 c hc
    simpa using (digitChar_plain hd).2.2.2.1
  have hscan : scanNumber 16 32 (printNumber 16 8 n) = some (n, []) := by
    have h := scanNumber_printNumber 16 32 8 [] (by decide) (by decide) (by decide) hn hn
      (hn.trans (by decide)) (by simp)
    rwa [List.append_nil] at h
  rw [scanWord, hblock, List.takeWhile_eq_self_iff.mpr hplain]
  simp [scan, hscan]

/-- The wire text read back word by word. -/
theorem wireText_block (e : Endian) (raw back : List UInt8) {i : ℕ} (hi : i < 4) :
    ((wireText e raw ++ back).drop (8 * i)).take 8 = printNumber 16 8 (wireWord e raw i) := by
  have hword := fun i => (printNumber_wireWord e raw i).1
  have hcase : i = 0 ∨ i = 1 ∨ i = 2 ∨ i = 3 := by omega
  rcases hcase with rfl | rfl | rfl | rfl
  all_goals simp [wireText, hword, List.drop_append, List.drop_of_length_le]

/-- Sixteen bytes are four words of four bytes. -/
theorem four_words {raw : List UInt8} (hraw : raw.length = 16) :
    raw.take 4 ++ ((raw.drop 4).take 4 ++ ((raw.drop 8).take 4 ++ (raw.drop 12).take 4)) = raw := by
  have hlast : (raw.drop 12).take 4 = raw.drop 12 := List.take_of_length_le (by simp [hraw])
  have h8 : (raw.drop 8).take 4 ++ raw.drop 12 = raw.drop 8 := by
    simpa using List.take_append_drop 4 (raw.drop 8)
  have h4 : (raw.drop 4).take 4 ++ raw.drop 8 = raw.drop 4 := by
    simpa using List.take_append_drop 4 (raw.drop 4)
  rw [hlast, h8, h4, List.take_append_drop]

/-- `wire_gid_to_gid` stores the words it scans one behind the other. -/
theorem wireGidToGid_words (e : Endian) (v32 : ℕ) {wgid old : List UInt8} {words : ℕ → ℕ}
    (hold : old.length = 16) (hwords : ∀ i < 4, ∀ v, scanWord wgid v i = words i) :
    wireGidToGid e v32 wgid old =
      (List.range 4).flatMap fun i => e.bytes 4 (e.htonl (words i)) := by
  have hround : ∀ (front rest : List UInt8) (i : ℕ), front.length = 4 * i →
      overwrite (front ++ rest) (4 * i) (e.bytes 4 (e.htonl (words i))) =
        (front ++ e.bytes 4 (e.htonl (words i))) ++ rest.drop 4 := by
    intro front rest i hfront
    rw [← hfront, overwrite_append, e.bytes_length]
  have hrange : List.range 4 = [0, 1, 2, 3] := rfl
  have hstart : old = [] ++ old := rfl
  rw [wireGidToGid, hrange]
  simp only [List.foldl_cons, List.foldl_nil, hwords 0 (by decide), hwords 1 (by decide),
    hwords 2 (by decide), hwords 3 (by decide)]
  rw [hstart, hround [] old 0 rfl, hround _ _ 1 (by simp), hround _ _ 2 (by simp),
    hround _ _ 3 (by simp)]
  have hback : old.drop 16 = [] := List.drop_eq_nil_of_le hold.le
  simp [hback]

/-- **Round trip of a gid.** `wire_gid_to_gid` restores the sixteen bytes that
`gid_to_wire_gid` printed, on a machine of either byte order. -/
theorem wireGidToGid_wireText (e : Endian) (v32 : ℕ) {raw old : List UInt8} (back : List UInt8)
    (hraw : raw.length = 16) (hold : old.length = 16) :
    wireGidToGid e v32 (wireText e raw ++ back) old = raw := by
  have hbytes : ∀ i < 4, e.bytes 4 (e.htonl (wireWord e raw i)) = (raw.drop (4 * i)).take 4 := by
    intro i hi
    have hlength : ((raw.drop (4 * i)).take 4).length = 4 := by
      rw [List.length_take, List.length_drop]
      omega
    have hlt := e.word_lt ((raw.drop (4 * i)).take 4)
    have hback := e.bytes_word ((raw.drop (4 * i)).take 4)
    rw [hlength] at hlt hback
    rw [wireWord, e.htonl_htonl hlt, hback]
  have hrange : List.range 4 = [0, 1, 2, 3] := rfl
  rw [wireGidToGid_words e v32 hold fun i hi v =>
    scanWord_eq (wireWord_lt e raw i) (wireText_block e raw back hi), hrange]
  simp only [List.flatMap_cons, List.flatMap_nil, hbytes 0 (by decide), hbytes 1 (by decide),
    hbytes 2 (by decide), hbytes 3 (by decide)]
  simpa using four_words hraw

/-- The text `send_udp_msg` prints, without the terminating NUL. -/
def synBody (m : IBSYNMsg) : List UInt8 :=
  printNumber 16 4 m.lid.toNat ++ (58 :: (printNumber 16 8 m.qpn.toNat ++ (58 ::
    (printNumber 16 8 m.psn.toNat ++ (58 :: wireText .little (List.ofFn m.gid))))))

/-- The printed text has no NUL inside and 55 characters. -/
theorem synBody_plain (m : IBSYNMsg) :
    (synBody m).length = 55 ∧ ∀ c ∈ synBody m, c ≠ 0 := by
  obtain ⟨hwire, hwire'⟩ := wireText_digits .little (List.ofFn m.gid)
  obtain ⟨hlid, hlid'⟩ :=
    printNumber_digits (by decide : 0 < 16) le_rfl (by decide : 0 < 4) m.lid.toNat_lt
  obtain ⟨hqpn, hqpn'⟩ :=
    printNumber_digits (by decide : 0 < 16) le_rfl (by decide : 0 < 8) m.qpn.toNat_lt
  obtain ⟨hpsn, hpsn'⟩ :=
    printNumber_digits (by decide : 0 < 16) le_rfl (by decide : 0 < 8) m.psn.toNat_lt
  have hdigit : ∀ c : UInt8, (∃ d < 16, c = digitChar d) → c ≠ 0 := by
    rintro c ⟨d, hd, rfl⟩
    exact (digitChar_plain hd).2.2.2.1
  refine ⟨?_, fun c hc => ?_⟩
  · simp only [synBody, List.length_append, List.length_cons, hlid, hqpn, hpsn, hwire]
  · simp only [synBody, List.mem_append, List.mem_cons] at hc
    rcases hc with hc | rfl | hc | rfl | hc | rfl | hc
    · exact hdigit c (hlid' c hc)
    · decide
    · exact hdigit c (hqpn' c hc)
    · decide
    · exact hdigit c (hpsn' c hc)
    · decide
    · exact hdigit c (hwire' c hc)

/-- The text `send_udp_msg` prints on a machine of either byte order. -/
theorem synText_eq (e : Endian) (m : IBSYNMsg) {wgid : List UInt8} (hlength : wgid.length = 33) :
    synText m (gidToWireGid e (List.ofFn m.gid) wgid) = synBody m ++ [0] := by
  obtain ⟨_, hdigits⟩ := wireText_digits .little (List.ofFn m.gid)
  have hplain : ∀ c ∈ wireText .little (List.ofFn m.gid), c ≠ 0 := by
    intro c hc
    obtain ⟨d, hd, rfl⟩ := hdigits c hc
    exact (digitChar_plain hd).2.2.2.1
  rw [gidToWireGid_eq e _ hlength, wireText_endian e List.length_ofFn, synText,
    cString_append hplain, Option.getD_some]
  simp only [synBody, List.append_assoc, List.cons_append]

/-- The text fills the array `msg`. -/
theorem synDatagram_eq (e : Endian) (frame : Frame) (m : IBSYNMsg) :
    synDatagram e frame m = synBody m ++ [0] := by
  rw [synDatagram, synText_eq e m frame.gid_length, overwrite_all]
  rw [frame.msg_length, List.length_append, (synBody_plain m).1]
  rfl

/-- Scanning the text yields the three numbers and the wire gid. -/
theorem scan_synBody (m : IBSYNMsg) :
    scan synFormat (synBody m) = [.number m.lid.toNat, .number m.qpn.toNat, .number m.psn.toNat,
      .string (wireText .little (List.ofFn m.gid))] := by
  obtain ⟨hlength, hdigits⟩ := wireText_digits .little (List.ofFn m.gid)
  have hspace : ∀ c ∈ wireText .little (List.ofFn m.gid), isSpace c = false := by
    intro c hc
    obtain ⟨d, hd, rfl⟩ := hdigits c hc
    exact (digitChar_plain hd).1
  have hne : wireText .little (List.ofFn m.gid) ≠ [] := by
    intro h
    rw [h, List.length_nil] at hlength
    omega
  have hnumber : ∀ (width n : ℕ) (rest : List UInt8), 0 < width → n < 16 ^ width → n < 2 ^ 32 →
      scanNumber 16 32 (printNumber 16 width n ++ (58 :: rest)) = some (n, 58 :: rest) := by
    intro width n rest hwidth hn h32
    exact scanNumber_printNumber 16 32 width _ (by decide) (by decide) hwidth hn h32
      (h32.trans (by decide)) (by simp; decide)
  have hlid := m.lid.toNat_lt
  simp only [synBody, synFormat, scan, hnumber 4 _ _ (by decide) hlid (hlid.trans (by decide)),
    hnumber 8 _ _ (by decide) m.qpn.toNat_lt m.qpn.toNat_lt,
    hnumber 8 _ _ (by decide) m.psn.toNat_lt m.psn.toNat_lt, scanString_word hne hspace,
    List.head?_cons, List.tail_cons, if_true]

/-- The three stores: of the four bytes stored to `lid` the first two stay, the others are
overwritten by the store to `qpn`. -/
theorem storeNumbers_eq (e : Endian) {m : IBSYNMsg} (front back : List UInt8)
    (hwide : e.bytes 4 m.lid.toNat = front ++ back) (hfront : front.length = 2)
    (hback : back.length = 2) (block wire : List UInt8) :
    storeNumbers e block
        [.number m.lid.toNat, .number m.qpn.toNat, .number m.psn.toNat, .string wire] =
      front ++ (e.bytes 4 m.qpn.toNat ++ e.bytes 4 m.psn.toNat) ++ block.drop 10 := by
  set qpn := e.bytes 4 m.qpn.toNat with hqpn
  set psn := e.bytes 4 m.psn.toNat with hpsn
  have hqpn4 : qpn.length = 4 := e.bytes_length 4 _
  have hpsn4 : psn.length = 4 := e.bytes_length 4 _
  have hfirst : overwrite block 0 (front ++ back) = front ++ (back ++ block.drop 4) := by
    have h := overwrite_append [] block (front ++ back)
    simpa [hfront, hback] using h
  have hsecond : overwrite (front ++ (back ++ block.drop 4)) 2 qpn =
      (front ++ qpn) ++ block.drop 6 := by
    have h := overwrite_append front (back ++ block.drop 4) qpn
    have hgone : back.drop 4 = [] := List.drop_eq_nil_of_le (by omega)
    rw [hfront, hqpn4, List.drop_append, hgone, hback, List.drop_drop] at h
    exact h
  have hthird : overwrite ((front ++ qpn) ++ block.drop 6) 6 psn =
      ((front ++ qpn) ++ psn) ++ block.drop 10 := by
    have h := overwrite_append (front ++ qpn) (block.drop 6) psn
    rw [List.length_append, hfront, hqpn4, hpsn4, List.drop_drop] at h
    exact h
  simp only [storeNumbers, List.zip_cons_cons, List.zip_nil_right, List.foldl_cons,
    List.foldl_nil, hwide, hfirst, hsecond, hthird, ← hqpn, ← hpsn]
  rw [List.append_assoc front qpn psn]

/-- What the receiver of a message has in `im` afterwards. The two bytes of `lid` are the
first of the four that are stored to it: the low ones on a little-endian machine, and the
high ones, which are zero, on a big-endian machine. -/
def IBSYNMsg.received (e : Endian) (m : IBSYNMsg) : IBSYNMsg :=
  match e with
  | .little => m
  | .big => { m with lid := 0 }

/-- The three stores leave the first three fields of what is received. -/
theorem storeNumbers_received (e : Endian) (m : IBSYNMsg) (block wire : List UInt8) :
    storeNumbers e block
        [.number m.lid.toNat, .number m.qpn.toNat, .number m.psn.toNat, .string wire] =
      (m.received e).header e ++ block.drop 10 := by
  cases e with
  | little =>
    exact storeNumbers_eq .little (Endian.little.bytes 2 m.lid.toNat)
      (lowBytes 2 (m.lid.toNat / 256 / 256)) rfl (Endian.little.bytes_length 2 _)
      (lowBytes_length 2 _) block wire
  | big =>
    have hlid := m.lid.toNat_lt
    have hhigh : lowBytes 2 (m.lid.toNat / 256 / 256) = [0, 0] := by
      have hzero : m.lid.toNat / 256 / 256 = 0 := by omega
      rw [hzero]
      rfl
    have hwide : Endian.big.bytes 4 m.lid.toNat =
        [0, 0] ++ (lowBytes 2 m.lid.toNat).reverse := by
      have hsplit : lowBytes 4 m.lid.toNat =
          lowBytes 2 m.lid.toNat ++ lowBytes 2 (m.lid.toNat / 256 / 256) := rfl
      rw [Endian.bytes, hsplit, hhigh, List.reverse_append]
      rfl
    have hzero : Endian.big.bytes 2 (0 : UInt16).toNat = [0, 0] := rfl
    have hlow : (lowBytes 2 m.lid.toNat).reverse.length = 2 := by
      rw [List.length_reverse, lowBytes_length]
    rw [storeNumbers_eq .big _ _ hwide rfl hlow block wire, IBSYNMsg.header, IBSYNMsg.received,
      hzero]

/-- The parser restores a message from its text as far as the byte order lets it, whatever
`im` and the stack held before. -/
theorem parseSyn_received (e : Endian) (frame : Frame) (m im : IBSYNMsg) :
    parseSyn e frame (synBody m ++ [0]) im = some (m.received e) := by
  obtain ⟨hwire, _⟩ := wireText_digits .little (List.ofFn m.gid)
  have hfields : (m.received e).gid = m.gid := by
    cases e <;> rfl
  have hold : (im.bytes e).drop 10 = List.ofFn im.gid := List.drop_left' (im.header_length e)
  have hgid : overwrite frame.gid 0 (wireText .little (List.ofFn m.gid) ++ [0]) =
      wireText e (List.ofFn m.gid) ++ [0] := by
    rw [wireText_endian e List.length_ofFn]
    apply overwrite_all
    rw [frame.gid_length, List.length_append, hwire, List.length_singleton]
  have hdrop : ((m.received e).header e ++ List.ofFn im.gid).drop 10 = List.ofFn im.gid :=
    List.drop_left' (IBSYNMsg.header_length e _)
  have hblock : overwrite ((m.received e).header e ++ List.ofFn im.gid) 10
      (List.ofFn m.gid) = (m.received e).bytes e := by
    have h := overwrite_back ((m.received e).header e) (show (List.ofFn m.gid).length =
      (List.ofFn im.gid).length by rw [List.length_ofFn, List.length_ofFn])
    rw [IBSYNMsg.header_length] at h
    rw [h, IBSYNMsg.bytes, hfields]
  rw [parseSyn, cString_append (synBody_plain m).2, Option.bind_some]
  simp only [scan_synBody, storeNumbers_received, hold, storeWord, List.drop_succ_cons,
    List.drop_zero, hwire, if_pos (by decide : 32 < 33), Option.map_some, hgid, hdrop,
    wireGidToGid_wireText e _ _ List.length_ofFn List.length_ofFn, hblock,
    IBSYNMsg.ofBytes_bytes]

/-- On a little-endian machine the whole message is restored. -/
theorem parseSyn_synBody (frame : Frame) (m im : IBSYNMsg) :
    parseSyn .little frame (synBody m ++ [0]) im = some m :=
  parseSyn_received .little frame m im

/-- A message text with its NUL has the size of `msg`. -/
theorem synBody_nul_length (m : IBSYNMsg) : (synBody m ++ [0]).length = msgSize := by
  rw [List.length_append, (synBody_plain m).1, List.length_singleton]
  rfl

/-- `recv_udp_msg` accepts the datagram of a message. -/
theorem recvUdpMsg_received {α : Type*} (e : Endian) (frame : Frame) (m im : IBSYNMsg) (source : α)
    (errno : Errno) :
    recvUdpMsg e frame im ⟨some (source, synBody m ++ [0]), errno, false⟩ =
      some ⟨0, m.received e, some source⟩ := by
  have hlength := synBody_nul_length m
  have hcopy : overwrite frame.msg 0 ((synBody m ++ [0]).take msgSize) = synBody m ++ [0] := by
    rw [List.take_of_length_le hlength.le, overwrite_all (hlength.trans frame.msg_length.symm)]
  simp only [recvUdpMsg, hcopy, parseSyn_received, Option.map_some, hlength, min_self, if_true]

/-- On a little-endian machine it yields the message. -/
theorem recvUdpMsg_synBody {α : Type*} (frame : Frame) (m im : IBSYNMsg) (source : α)
    (errno : Errno) :
    recvUdpMsg .little frame im ⟨some (source, synBody m ++ [0]), errno, false⟩ =
      some ⟨0, m, some source⟩ :=
  recvUdpMsg_received .little frame m im source errno

/-- **Round trip of the handshake message.** The text printed by `send_udp_msg`, with
its NUL, has 56 bytes, and `recv_udp_msg` on a little-endian machine returns 0 for the
datagram and leaves `im` equal to the message sent. -/
theorem recvUdpMsg_synDatagram {α : Type*} (sender : Endian) (sendFrame frame : Frame)
    (m im : IBSYNMsg) (source : α) (errno : Errno) :
    (synText m (gidToWireGid sender (List.ofFn m.gid) sendFrame.gid)).length = 56 ∧
      recvUdpMsg .little frame im ⟨some (source, synDatagram sender sendFrame m), errno, false⟩ =
        some ⟨0, m, some source⟩ := by
  rw [synText_eq sender m sendFrame.gid_length, synDatagram_eq]
  exact ⟨synBody_nul_length m, recvUdpMsg_synBody frame m im source errno⟩

end RdmaTransport
