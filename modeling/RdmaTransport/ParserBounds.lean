import RdmaTransport.Lib.Grammar
import RdmaTransport.SynAccept
import RdmaTransport.InfoCon

/-!
# Which messages the handshake parsers can take

`recv_udp_msg`, `rdma_server_exch_dest` and `rdma_client_exch_dest` scan the bytes of the
peer by a format that ends in an unbounded `%s`, store the word to `char gid[33]` and have
`wire_gid_to_gid` copy the first 32 bytes of that array. Nothing is checked on the way.
This file determines the messages for which all of that stays inside what was received
and stored: those that have the fields of the format and a word of 31 or 32 characters.
-/

namespace RdmaTransport

open Format Memory

/-- The number of bytes `sscanf` stores to `gid`: the word and its NUL, if it gets there. -/
def gidStored (count : ℕ) (format : List Directive) (text : List UInt8) : ℕ :=
  match scannedWord count format text with
  | some word => (word ++ [0]).length
  | none => 0

/-- The positions of `gid` that `wire_gid_to_gid` copies: eight in each of four rounds. -/
def gidRead : List ℕ := (List.range 4).flatMap fun i => (List.range 8).map (8 * i + ·)

/-- The parser stays inside its buffers: the text ends inside the bytes received, what is
stored to `gid` fits it, and only stored bytes of `gid` are read. -/
def ParsesInside (count : ℕ) (format : List Directive) (received : List UInt8) : Prop :=
  ∃ text, cString received = some text ∧ gidStored count format text ≤ 33 ∧
    ∀ p ∈ gidRead, p < gidStored count format text

/-- The bytes contain a NUL, and before it there are numerals of the given bases, each
followed by a colon, and a word of 31 or 32 characters. -/
def HasGid (bases : List ℕ) (received : List UInt8) : Prop :=
  ∃ text rest word, received = text ++ 0 :: rest ∧ (∀ c ∈ text, c ≠ 0) ∧
    HasFields bases word text ∧ (word.length = 31 ∨ word.length = 32)

/-- The copied positions are the first 32. -/
theorem forall_gidRead_lt_iff (n : ℕ) : (∀ p ∈ gidRead, p < n) ↔ 32 ≤ n := by
  constructor
  · intro h
    have hlast := h 31 (by decide)
    omega
  · intro h p hp
    have hbound : ∀ q ∈ gidRead, q < 32 := by decide
    exact (hbound p hp).trans_le h

/-- The messages a parser with a format of fields can take. -/
theorem parsesInside_iff {fields : List (ℕ × ℕ)} (hbases : ∀ f ∈ fields, f.1 ≤ 16)
    (received : List UInt8) :
    ParsesInside fields.length (fieldsFormat fields) received ↔
      HasGid (fields.map Prod.fst) received := by
  simp only [ParsesInside, forall_gidRead_lt_iff, cString_eq_some_iff]
  constructor
  · rintro ⟨text, ⟨hplain, rest, rfl⟩, hfits, hread⟩
    cases hword : scannedWord fields.length (fieldsFormat fields) text with
    | none =>
      simp only [gidStored, hword] at hread
      omega
    | some word =>
      simp only [gidStored, hword, List.length_append, List.length_singleton] at hfits hread
      refine ⟨text, rest, word, rfl, hplain, (scannedWord_eq_some_iff hbases).mp hword, ?_⟩
      omega
  · rintro ⟨text, rest, word, rfl, hplain, hfields, hlength⟩
    have hword := (scannedWord_eq_some_iff hbases).mpr hfields
    refine ⟨text, ⟨hplain, rest, rfl⟩, ?_⟩
    simp only [gidStored, hword, List.length_append, List.length_singleton]
    omega

/-- **The handshake parsers.** For any bytes of the peer, the parser of `recv_udp_msg` stays
inside its buffers exactly if the bytes contain a NUL and before it three hexadecimal
numerals, each followed by a colon, and a word of 31 or 32 characters. For the parsers of
`rdma_server_exch_dest` and `rdma_client_exch_dest`, which scan in the same way, the same
holds with five numerals, of which the fourth is decimal. -/
theorem handshake_parsers_inside_iff (received : List UInt8) :
    (ParsesInside 3 synFormat received ↔ HasGid [16, 16, 16] received) ∧
      (ParsesInside 5 infoFormat received ↔ HasGid [16, 16, 16, 10, 16] received) :=
  ⟨@parsesInside_iff [(16, 32), (16, 32), (16, 32)] (by decide) received,
    @parsesInside_iff [(16, 32), (16, 32), (16, 32), (10, 64), (16, 32)] (by decide) received⟩

/-- A datagram of 56 bytes and a message of 86 bytes, each with a word of `f` up to its last
byte, the NUL: 50 and 76 bytes are stored to `gid`. -/
theorem long_words_overflow_gid :
    ¬ParsesInside 3 synFormat ([49, 58, 49, 58, 49, 58] ++ List.replicate 49 102 ++ [0]) ∧
      ¬ParsesInside 5 infoFormat
        ([49, 58, 49, 58, 49, 58, 49, 58, 49, 58] ++ List.replicate 75 102 ++ [0]) := by
  constructor
  · rintro ⟨text, htext, hfits, _⟩
    obtain rfl : [49, 58, 49, 58, 49, 58] ++ List.replicate 49 102 = text :=
      Option.some.inj ((cString_append (by decide +kernel)).symm.trans htext)
    exact absurd hfits (by decide +kernel)
  · rintro ⟨text, htext, hfits, _⟩
    obtain rfl : [49, 58, 49, 58, 49, 58, 49, 58, 49, 58] ++ List.replicate 75 102 = text :=
      Option.some.inj ((cString_append (by decide +kernel)).symm.trans htext)
    exact absurd hfits (by decide +kernel)

/-- `wire_gid_to_gid` depends on the copied positions only. -/
theorem wireGidToGid_congr (e : Endian) (v32 : ℕ) {wgid wgid' : List UInt8} (raw : List UInt8)
    (h : wgid.take 32 = wgid'.take 32) :
    wireGidToGid e v32 wgid raw = wireGidToGid e v32 wgid' raw := by
  have hblock : ∀ (l : List UInt8), ∀ i < 4,
      (l.drop (8 * i)).take 8 = ((l.take 32).drop (8 * i)).take 8 := by
    intro l i hi
    rw [List.drop_take, List.take_take, min_eq_left (by omega)]
  have hword : ∀ i < 4, ∀ v, scanWord wgid v i = scanWord wgid' v i := by
    intro i hi v
    rw [scanWord, scanWord, hblock wgid i hi, hblock wgid' i hi, h]
  have hrange : List.range 4 = [0, 1, 2, 3] := rfl
  simp only [wireGidToGid, hrange, List.foldl_cons, List.foldl_nil, hword 0 (by decide),
    hword 1 (by decide), hword 2 (by decide), hword 3 (by decide)]

/-- What a message that stays inside the buffers stores to `gid` covers the copied
positions. -/
theorem ParsesInside.exists_word {count : ℕ} {format : List Directive} {received : List UInt8}
    (h : ParsesInside count format received) :
    ∃ text rest word, received = text ++ 0 :: rest ∧ (∀ c ∈ text, c ≠ 0) ∧
      scannedWord count format text = some word ∧ word.length < 33 ∧
      ∀ gid, (overwrite gid 0 (word ++ [0])).take 32 = (word ++ [0]).take 32 := by
  obtain ⟨text, htext, hfits, hread⟩ := h
  obtain ⟨hplain, rest, rfl⟩ := cString_eq_some_iff.mp htext
  rw [forall_gidRead_lt_iff] at hread
  cases hword : scannedWord count format text with
  | none =>
    simp only [gidStored, hword] at hread
    omega
  | some word =>
    simp only [gidStored, hword] at hfits hread
    refine ⟨text, rest, word, rfl, hplain, hword, ?_, fun gid => ?_⟩
    · rw [List.length_append, List.length_singleton] at hfits
      omega
    · rw [overwrite, List.take_zero, List.nil_append, List.take_append_of_le_length hread]

/-- The items of a scan that reached its word. -/
theorem drop_of_scannedWord {count : ℕ} {format : List Directive} {text word : List UInt8}
    (h : scannedWord count format text = some word) :
    ∃ more, (scan format text).drop count = .string word :: more := by
  rw [scannedWord] at h
  split at h
  · obtain rfl := Option.some.inj h
    exact ⟨_, ‹_›⟩
  · cases h

/-- For a datagram that stays inside the buffers, what the arrays `msg` and `gid` of
`recv_udp_msg` held before does not matter. -/
theorem parseSyn_of_parsesInside (e : Endian) {frame frame' : Frame} (hv32 : frame.v32 = frame'.v32)
    (im : IBSYNMsg) {received : List UInt8} (h : ParsesInside 3 synFormat received) :
    ∃ im', parseSyn e frame (overwrite frame.msg 0 received) im = some im' ∧
      parseSyn e frame' (overwrite frame'.msg 0 received) im = some im' := by
  obtain ⟨text, rest, word, rfl, hplain, hword, hlength, hstored⟩ := h.exists_word
  obtain ⟨more, hitems⟩ := drop_of_scannedWord hword
  have hmsg : ∀ msg : List UInt8, cString (overwrite msg 0 (text ++ 0 :: rest)) = some text := by
    intro msg
    rw [overwrite, List.take_zero, List.nil_append, List.append_assoc, List.cons_append,
      cString_append hplain]
  have hgid := wireGidToGid_congr e frame'.v32.toNat
    ((storeNumbers e (im.bytes e) (scan synFormat text)).drop 10)
    ((hstored frame.gid).trans (hstored frame'.gid).symm)
  simp only [parseSyn, hmsg, Option.bind_some, storeWord, hitems, if_pos hlength, Option.map_some,
    hv32, hgid]
  exact ⟨_, rfl, rfl⟩

/-- For a message that stays inside the buffers, what the array `gid` of the exchange
functions held before does not matter. -/
theorem scanInfo_of_parsesInside (e : Endian) (v32 : UInt32) {frame frame' : ExchFrame}
    (hmsg : frame.msg = frame'.msg) (h : ParsesInside 5 infoFormat frame.msg) (remote : InfoCon) :
    ∃ info, (scanInfo e v32 frame remote).map Prod.fst = some info ∧
      (scanInfo e v32 frame' remote).map Prod.fst = some info := by
  obtain ⟨text, rest, word, hframe, hplain, hword, hlength, hstored⟩ := h.exists_word
  obtain ⟨more, hitems⟩ := drop_of_scannedWord hword
  have hgid := wireGidToGid_congr e v32.toNat (List.ofFn remote.gid)
    ((hstored frame.gid).trans (hstored frame'.gid).symm)
  simp only [scanInfo, ← hmsg, hframe, cString_append hplain, Option.bind_some, storeGid, hitems,
    dif_pos hlength, Option.map_some, hgid]
  exact ⟨_, rfl, rfl⟩

end RdmaTransport
