import RdmaTransport.SynMsg

/-!
# The text of a gid

A gid is sixteen bytes. `gid_to_wire_gid` loads them as four words, brings each into network
order and prints it with eight hexadecimal digits; `wire_gid_to_gid` goes the way back. On
machines of either byte order the text is that of the bytes in memory order. It is the
only spelling in lower case, and text in any case is read as its lower case form.
-/

namespace RdmaTransport

open Format Memory

/-- The two hexadecimal digits of a byte. -/
def byteText (b : UInt8) : List UInt8 := [digitChar (b.toNat / 16), digitChar (b.toNat % 16)]

/-- The hexadecimal digits of the word made up of bytes are those of the bytes. -/
theorem fixedDigits_word (bytes : List UInt8) :
    fixedDigits 16 (2 * bytes.length) (Endian.big.word bytes) =
      bytes.flatMap fun b => [b.toNat / 16, b.toNat % 16] := by
  induction bytes using List.reverseRecOn with
  | nil => rfl
  | append_singleton bytes b ih =>
    have hb := b.toNat_lt
    have hword : Endian.big.word (bytes ++ [b]) = b.toNat + 256 * Endian.big.word bytes := by
      simp [Endian.word, Nat.ofDigits_cons]
    have hhigh : (b.toNat + 256 * Endian.big.word bytes) / 16 / 16 = Endian.big.word bytes := by
      omega
    have hmiddle : (b.toNat + 256 * Endian.big.word bytes) / 16 % 16 = b.toNat / 16 := by
      omega
    have hlow : (b.toNat + 256 * Endian.big.word bytes) % 16 = b.toNat % 16 := by
      omega
    rw [List.length_append, List.length_singleton, Nat.mul_succ, hword, fixedDigits, fixedDigits,
      hhigh, hmiddle, hlow, ih, List.flatMap_append]
    simp

/-- A word is printed as its bytes in memory order. -/
theorem printNumber_wireWord_eq (e : Endian) {raw : List UInt8} (hraw : raw.length = 16) {i : ℕ}
    (hi : i < 4) :
    printNumber 16 8 (wireWord e raw i) = ((raw.drop (4 * i)).take 4).flatMap byteText := by
  have hlength : ((raw.drop (4 * i)).take 4).length = 4 := by
    rw [List.length_take, List.length_drop]
    omega
  have hdigits := fixedDigits_word ((raw.drop (4 * i)).take 4)
  rw [hlength] at hdigits
  have hlt : wireWord e raw i < 16 ^ 8 := wireWord_lt e raw i
  rw [printNumber_eq (by decide) hlt, wireWord_eq e hraw hi, hdigits, List.map_flatMap]
  rfl

/-- The text of a gid is that of its bytes in memory order. -/
theorem wireText_eq_flatMap (e : Endian) {raw : List UInt8} (hraw : raw.length = 16) :
    wireText e raw = raw.flatMap byteText := by
  rw [wireText, printNumber_wireWord_eq e hraw (by decide),
    printNumber_wireWord_eq e hraw (by decide),
    printNumber_wireWord_eq e hraw (by decide), printNumber_wireWord_eq e hraw (by decide),
    ← List.flatMap_append, ← List.flatMap_append, ← List.flatMap_append]
  exact congrArg _ (four_words hraw)

/-- The value of eight hexadecimal digits. -/
def hexValue (text : List UInt8) : ℕ := Nat.ofDigits 16 (text.filterMap (digitValue 16)).reverse

section

variable {text : List UInt8} (hlength : text.length = 8)
  (hdigits : ∀ c ∈ text, (digitValue 16 c).isSome)

include hdigits

/-- Eight digits are eight values. -/
theorem length_digitValues : (text.filterMap (digitValue 16)).length = text.length := by
  rw [← List.length_map digitChar, map_digitChar_filterMap hdigits, List.length_map]

include hlength

/-- Eight digits are a 32-bit number. -/
theorem hexValue_lt : hexValue text < 2 ^ 32 := by
  have hlt : ∀ d ∈ (text.filterMap (digitValue 16)).reverse, d < 16 := by
    intro d hd
    rw [List.mem_reverse, List.mem_filterMap] at hd
    obtain ⟨c, _, hc⟩ := hd
    exact (digitChar_of_digitValue hc).1
  have hbound := Nat.ofDigits_lt_base_pow_length (by decide : 1 < 16) hlt
  rwa [List.length_reverse, length_digitValues hdigits, hlength] at hbound

/-- Printing the value of eight digits gives them in lower case. -/
theorem printNumber_hexValue : printNumber 16 8 (hexValue text) = text.map toLower := by
  have hlt : ∀ d ∈ text.filterMap (digitValue 16), d < 16 := by
    intro d hd
    obtain ⟨c, _, hc⟩ := List.mem_filterMap.mp hd
    exact (digitChar_of_digitValue hc).1
  have hfixed := fixedDigits_ofDigits hlt
  rw [length_digitValues hdigits, hlength] at hfixed
  have hbound : hexValue text < 16 ^ 8 := hexValue_lt hlength hdigits
  rw [printNumber_eq (by decide) hbound, hexValue, hfixed, map_digitChar_filterMap hdigits]

/-- A block of eight digits is scanned as their value. -/
theorem scanWord_digits {wgid : List UInt8} {i : ℕ} (hblock : (wgid.drop (8 * i)).take 8 = text)
    (v32 : ℕ) : scanWord wgid v32 i = hexValue text := by
  have hplain : ∀ c ∈ text, decide (c ≠ 0) = true := by
    intro c hc
    rw [decide_eq_true_eq]
    rintro rfl
    exact absurd (hdigits 0 hc) (by decide)
  have hlt := hexValue_lt hlength hdigits
  have hscan : scanNumber 16 32 text = some (hexValue text, []) :=
    scanNumber_digits le_rfl (by rintro rfl; cases hlength) hdigits rfl hlt (hlt.trans (by decide))
  rw [scanWord, hblock, List.takeWhile_eq_self_iff.mpr hplain]
  simp [scan, hscan]

end

/-- A word stored by `wire_gid_to_gid` is printed by `gid_to_wire_gid`. -/
theorem wireWord_bytes (e : Endian) {words : ℕ → ℕ} (hwords : ∀ i < 4, words i < 2 ^ 32) {i : ℕ}
    (hi : i < 4) :
    wireWord e ((List.range 4).flatMap fun i => e.bytes 4 (e.htonl (words i))) i = words i := by
  have hwidth : ∀ i ∈ List.range 4, (e.bytes 4 (e.htonl (words i))).length = 4 :=
    fun i _ => e.bytes_length 4 _
  have hblock : (((List.range 4).flatMap fun i => e.bytes 4 (e.htonl (words i))).drop
      (4 * i)).take 4 = e.bytes 4 (e.htonl (words i)) := by
    have hrecord : (List.range 4).drop i = i :: (List.range 4).drop (i + 1) := by
      rw [List.drop_eq_getElem_cons (by simpa using hi), List.getElem_range]
    rw [drop_flatMap_records _ hwidth, hrecord, List.flatMap_cons]
    exact List.take_left' (e.bytes_length 4 _)
  have hlt : e.htonl (words i) < 256 ^ 4 := by
    have h := e.word_lt (Endian.big.bytes 4 (words i))
    rwa [Endian.bytes_length] at h
  rw [wireWord, hblock, e.word_bytes, Nat.mod_eq_of_lt hlt, e.htonl_htonl (hwords i hi)]

/-- Text of 32 hexadecimal digits is four blocks of eight. -/
theorem four_blocks {text : List UInt8} (hlength : text.length = 32) :
    text.take 8 ++ ((text.drop 8).take 8 ++ ((text.drop 16).take 8 ++ (text.drop 24).take 8)) =
      text := by
  have hlast : (text.drop 24).take 8 = text.drop 24 := List.take_of_length_le (by simp [hlength])
  have h16 : (text.drop 16).take 8 ++ text.drop 24 = text.drop 16 := by
    simpa using List.take_append_drop 8 (text.drop 16)
  have h8 : (text.drop 8).take 8 ++ text.drop 16 = text.drop 8 := by
    simpa using List.take_append_drop 8 (text.drop 8)
  rw [hlast, h16, h8, List.take_append_drop]

/-- Reading a text of hexadecimal digits and printing it again gives it in lower case. -/
theorem wireText_wireGidToGid (e : Endian) (v32 : ℕ) {text old : List UInt8} (back : List UInt8)
    (hlength : text.length = 32) (hdigits : ∀ c ∈ text, (digitValue 16 c).isSome)
    (hold : old.length = 16) :
    (wireGidToGid e v32 (text ++ back) old).length = 16 ∧
      wireText e (wireGidToGid e v32 (text ++ back) old) = text.map toLower := by
  have hblock : ∀ i < 4, ((text.drop (8 * i)).take 8).length = 8 := by
    intro i hi
    rw [List.length_take, List.length_drop]
    omega
  have hdigit : ∀ i, ∀ c ∈ (text.drop (8 * i)).take 8, (digitValue 16 c).isSome := fun i c hc =>
    hdigits c (List.mem_of_mem_drop (List.mem_of_mem_take hc))
  have hscan : ∀ i < 4, ∀ v,
      scanWord (text ++ back) v i = hexValue ((text.drop (8 * i)).take 8) := by
    intro i hi v
    refine scanWord_digits (hblock i hi) (hdigit i) ?_ v
    rw [List.drop_append_of_le_length (by omega), List.take_append_of_le_length]
    rw [List.length_drop]
    omega
  have hwords : ∀ i < 4, hexValue ((text.drop (8 * i)).take 8) < 2 ^ 32 := fun i hi =>
    hexValue_lt (hblock i hi) (hdigit i)
  have hprint : ∀ i < 4, printNumber 16 8 (wireWord e ((List.range 4).flatMap fun i =>
      e.bytes 4 (e.htonl (hexValue ((text.drop (8 * i)).take 8)))) i) =
        ((text.drop (8 * i)).take 8).map toLower := by
    intro i hi
    rw [wireWord_bytes e hwords hi, printNumber_hexValue (hblock i hi) (hdigit i)]
  rw [wireGidToGid_words e v32 hold hscan]
  constructor
  · exact length_flatMap_records _ fun i _ => e.bytes_length 4 _
  · rw [wireText, hprint 0 (by decide), hprint 1 (by decide), hprint 2 (by decide),
      hprint 3 (by decide), ← List.map_append, ← List.map_append, ← List.map_append]
    exact congrArg _ (four_blocks hlength)

/-- **The text of a gid.** `gid_to_wire_gid` writes 32 lower case hexadecimal digits and a
NUL, which are the bytes of the gid in memory order on machines of either byte order, and
`wire_gid_to_gid` maps them back to the gid. Conversely, 32 hexadecimal digits of any case
come back in lower case when they are read and printed again. -/
theorem gid_codec (e e' : Endian) (v32 : UInt32) :
    (∀ (gid : Fin 16 → UInt8) (wgid back : List UInt8), wgid.length = 33 →
      ∃ text, gidToWireGid e (List.ofFn gid) (wgid ++ back) = text ++ 0 :: back ∧
        text.length = 32 ∧ (∀ c ∈ text, 48 ≤ c ∧ c ≤ 57 ∨ 97 ≤ c ∧ c ≤ 102) ∧
        text = (List.ofFn gid).flatMap byteText ∧
        ∀ old : List UInt8, old.length = 16 →
          wireGidToGid e' v32.toNat (text ++ 0 :: back) old = List.ofFn gid) ∧
    ∀ text rest wgid back old : List UInt8, text.length = 32 →
      (∀ c ∈ text, (digitValue 16 c).isSome) → wgid.length = 33 → old.length = 16 →
        gidToWireGid e (wireGidToGid e' v32.toNat (text ++ rest) old) (wgid ++ back) =
          text.map toLower ++ 0 :: back := by
  constructor
  · intro gid wgid back hwgid
    have hgid : (List.ofFn gid).length = 16 := List.length_ofFn
    obtain ⟨hlength, hdigits⟩ := wireText_digits e (List.ofFn gid)
    have hlower : ∀ d < 16, 48 ≤ digitChar d ∧ digitChar d ≤ 57 ∨
        97 ≤ digitChar d ∧ digitChar d ≤ 102 := by decide
    refine ⟨wireText e (List.ofFn gid), gidToWireGid_append e _ hwgid, hlength, ?_,
      wireText_eq_flatMap e hgid, ?_⟩
    · intro c hc
      obtain ⟨d, hd, rfl⟩ := hdigits c hc
      exact hlower d hd
    · intro old hold
      rw [wireText_eq_flatMap e hgid, ← wireText_eq_flatMap e' hgid]
      exact wireGidToGid_wireText e' _ _ hgid hold
  · intro text rest wgid back old hlength hdigits hwgid hold
    obtain ⟨hraw, htext⟩ := wireText_wireGidToGid e' v32.toNat rest hlength hdigits hold
    rw [gidToWireGid_append e _ hwgid, wireText_eq_flatMap e hraw, ← wireText_eq_flatMap e' hraw,
      htext]

/-- Capital letters read on a big-endian machine and printed on a little-endian one, and the
gid of sixteen times 171 printed there and read on the other. -/
theorem gid_codec_capitals :
    gidToWireGid .little (wireGidToGid .big 0 (List.replicate 32 65) (List.replicate 16 0))
        (List.replicate 33 0) = List.replicate 32 97 ++ [0] ∧
      wireGidToGid .big 0 (gidToWireGid .little (List.ofFn fun _ : Fin 16 => 171)
        (List.replicate 33 0)) (List.replicate 16 0) = List.replicate 16 171 := by
  obtain ⟨hprint, hread⟩ := gid_codec .little .big 0
  constructor
  · refine hread (List.replicate 32 65) [] (List.replicate 33 0) [] (List.replicate 16 0) rfl ?_
      rfl rfl
    intro c hc
    rw [List.eq_of_mem_replicate hc]
    decide
  · obtain ⟨text, htext, _, _, _, hback⟩ := hprint (fun _ => 171) (List.replicate 33 0) [] rfl
    rw [List.append_nil] at htext
    rw [htext]
    exact hback (List.replicate 16 0) rfl

end RdmaTransport
