import Mathlib.Data.List.Induction
import Mathlib.Data.List.TakeWhile
import Mathlib.Data.Nat.Digits.Defs
import Mathlib.Data.Nat.Log

/-!
# Printing and scanning text

The parts of `sprintf` and `sscanf` that deal with unsigned numbers and words, over
text as a list of ASCII codes. Numbers may be printed and scanned in any base up to
sixteen, with the zero padding of the former and the leading white space, sign, base
prefix and saturation of the latter. The main result is the round trip of a padded
number. Nothing here depends on a particular program.
-/

namespace RdmaTransport.Format

/-- The lower case character of a digit. -/
def digitChar (d : ℕ) : UInt8 := if d < 10 then UInt8.ofNat (48 + d) else UInt8.ofNat (87 + d)

/-- The value of a letter or decimal digit of either case. -/
def charValue (c : UInt8) : Option ℕ :=
  if 48 ≤ c ∧ c ≤ 57 then some (c.toNat - 48)
  else if 97 ≤ c ∧ c ≤ 122 then some (c.toNat - 87)
  else if 65 ≤ c ∧ c ≤ 90 then some (c.toNat - 55)
  else none

/-- `tolower`. -/
def toLower (c : UInt8) : UInt8 := if 65 ≤ c ∧ c ≤ 90 then c + 32 else c

/-- The digit of the given base that a character stands for. -/
def digitValue (base : ℕ) (c : UInt8) : Option ℕ := (charValue c).filter (· < base)

/-- The `w` low digits of a number, most significant first. -/
def fixedDigits (base : ℕ) : ℕ → ℕ → List ℕ
  | 0, _ => []
  | w + 1, n => fixedDigits base w (n / base) ++ [n % base]

/-- The conversions `%0wx` and `%0wu` of `sprintf`: at least `width` digits. -/
def printNumber (base width n : ℕ) : List UInt8 :=
  (fixedDigits base (max width (Nat.log base n + 1)) n).map digitChar

/-- `isspace`. -/
def isSpace (c : UInt8) : Bool := c == 32 || (9 ≤ c && c ≤ 13)

/-- The leading digits of a text and the rest. -/
def spanDigits (base : ℕ) : List UInt8 → List ℕ × List UInt8
  | [] => ([], [])
  | c :: rest =>
      match digitValue base c with
      | none => ([], c :: rest)
      | some d => (d :: (spanDigits base rest).1, (spanDigits base rest).2)

/-- An optional sign and the text behind it. -/
def scanSign (text : List UInt8) : Bool × List UInt8 :=
  if text.head? = some 43 then (false, text.tail)
  else if text.head? = some 45 then (true, text.tail)
  else (false, text)

/-- The text behind an optional `0x` or `0X` of a hexadecimal number. -/
def skipBase (base : ℕ) (text : List UInt8) : List UInt8 :=
  if base = 16 ∧ (text.take 2 = [48, 120] ∨ text.take 2 = [48, 88]) then text.drop 2 else text

/-- What `strtoul` makes of the digits, stored to a variable of the given width. -/
def converted (bits : ℕ) (negative : Bool) (n : ℕ) : ℕ :=
  (if 2 ^ 64 ≤ n then 2 ^ 64 - 1 else if negative then (2 ^ 64 - n) % 2 ^ 64 else n) % 2 ^ bits

/-- The conversions `%x` and `%lu` of `sscanf`: the number stored and the text left, or
`none` for a matching failure. -/
def scanNumber (base bits : ℕ) (text : List UInt8) : Option (ℕ × List UInt8) :=
  let (negative, text) := scanSign (text.dropWhile isSpace)
  let (digits, rest) := spanDigits base (skipBase base text)
  if digits = [] then none
  else some (converted bits negative (Nat.ofDigits base digits.reverse), rest)

/-- The conversion `%s` of `sscanf`: the word stored and the text left. -/
def scanString (text : List UInt8) : Option (List UInt8 × List UInt8) :=
  let text := text.dropWhile isSpace
  let word := text.takeWhile fun c => !isSpace c
  if word = [] then none else some (word, text.drop word.length)

/-- A conversion with a maximum field width: behind the white space it sees only that many
characters, and what it leaves of them is put back. -/
def limited {α : Type*} (width : ℕ) (convert : List UInt8 → Option (α × List UInt8))
    (text : List UInt8) : Option (α × List UInt8) :=
  let text := text.dropWhile isSpace
  (convert (text.take width)).map fun (a, rest) => (a, rest ++ text.drop width)

/-- A directive of a format string. -/
inductive Directive
  /-- A character that has to match. -/
  | literal (c : UInt8)
  /-- A number stored to a variable of the given width. -/
  | number (base bits : ℕ)
  /-- A word. -/
  | string

/-- What a conversion stores. -/
inductive Item
  /-- A number. -/
  | number (n : ℕ)
  /-- A word, without the terminating NUL. -/
  | string (word : List UInt8)
  deriving DecidableEq

/-- `sscanf`: the items stored before the first failure. -/
def scan : List Directive → List UInt8 → List Item
  | [], _ => []
  | .literal c :: format, text => if text.head? = some c then scan format text.tail else []
  | .number base bits :: format, text =>
      match scanNumber base bits text with
      | none => []
      | some (n, rest) => .number n :: scan format rest
  | .string :: format, text =>
      match scanString text with
      | none => []
      | some (word, rest) => .string word :: scan format rest

/-- The text of a NUL-terminated string in a block of memory, if it ends there. -/
def cString (block : List UInt8) : Option (List UInt8) :=
  if 0 ∈ block then some (block.takeWhile (· ≠ 0)) else none

/-- The character of a digit stands for the digit. -/
theorem charValue_digitChar {d : ℕ} (hd : d < 16) : charValue (digitChar d) = some d := by
  have h : ∀ k < 16, charValue (digitChar k) = some k := by decide
  exact h d hd

/-- The same in every base that has the digit. -/
theorem digitValue_digitChar {base d : ℕ} (hbase : base ≤ 16) (hd : d < base) :
    digitValue base (digitChar d) = some d := by
  rw [digitValue, charValue_digitChar (by omega)]
  simpa using hd

/-- Digits are neither white space nor signs nor NUL, and no base markers. -/
theorem digitChar_plain {d : ℕ} (hd : d < 16) :
    isSpace (digitChar d) = false ∧ digitChar d ≠ 43 ∧ digitChar d ≠ 45 ∧ digitChar d ≠ 0 ∧
      digitChar d ≠ 120 ∧ digitChar d ≠ 88 := by
  have h : ∀ k < 16, isSpace (digitChar k) = false ∧ digitChar k ≠ 43 ∧ digitChar k ≠ 45 ∧
      digitChar k ≠ 0 ∧ digitChar k ≠ 120 ∧ digitChar k ≠ 88 := by decide
  exact h d hd

/-- The digits of a fixed width are as many as the width. -/
@[simp] theorem fixedDigits_length (base w n : ℕ) : (fixedDigits base w n).length = w := by
  induction w generalizing n with
  | zero => rfl
  | succ w ih => simp [fixedDigits, ih]

/-- They are digits of the base. -/
theorem fixedDigits_lt {base : ℕ} (hbase : 0 < base) {w n d : ℕ} (hd : d ∈ fixedDigits base w n) :
    d < base := by
  induction w generalizing n with
  | zero => simp [fixedDigits] at hd
  | succ w ih =>
    rcases List.mem_append.mp hd with hd | hd
    · exact ih hd
    · rw [List.mem_singleton.mp hd]
      exact Nat.mod_lt _ hbase

/-- They make up the number, reduced to the width. -/
theorem ofDigits_fixedDigits (base w n : ℕ) :
    Nat.ofDigits base (fixedDigits base w n).reverse = n % base ^ w := by
  induction w generalizing n with
  | zero => simp [fixedDigits, Nat.mod_one]
  | succ w ih =>
    have hpow : base ^ (w + 1) = base * base ^ w := by ring
    rw [fixedDigits, List.reverse_append, List.reverse_singleton, List.singleton_append,
      Nat.ofDigits_cons, ih, hpow, Nat.mod_mul]

/-- Digits are those of the number they make up. -/
theorem fixedDigits_ofDigits {base : ℕ} {digits : List ℕ} (hdigits : ∀ d ∈ digits, d < base) :
    fixedDigits base digits.length (Nat.ofDigits base digits.reverse) = digits := by
  induction digits using List.reverseRecOn with
  | nil => rfl
  | append_singleton digits d ih =>
    rw [List.forall_mem_append, List.forall_mem_singleton] at hdigits
    rw [List.length_append, List.length_singleton, List.reverse_append, List.reverse_singleton,
      List.singleton_append, Nat.ofDigits_cons, fixedDigits,
      Nat.add_mul_div_left _ _ (by omega), Nat.div_eq_of_lt hdigits.2, Nat.zero_add, ih hdigits.1,
      Nat.add_mul_mod_self_left, Nat.mod_eq_of_lt hdigits.2]

/-- A number that fits its width is printed with exactly that many digits. -/
theorem printNumber_eq {base width n : ℕ} (hwidth : 0 < width) (hn : n < base ^ width) :
    printNumber base width n = (fixedDigits base width n).map digitChar := by
  have hlog : Nat.log base n < width := Nat.log_lt_of_lt_pow' (by omega) hn
  rw [printNumber, max_eq_left (by omega)]

/-- It has that many characters, and all of them are digits. -/
theorem printNumber_digits {base width n : ℕ} (hbase : 0 < base) (hbase' : base ≤ 16)
    (hwidth : 0 < width) (hn : n < base ^ width) :
    (printNumber base width n).length = width ∧
      ∀ c ∈ printNumber base width n, ∃ d < 16, c = digitChar d := by
  rw [printNumber_eq hwidth hn]
  refine ⟨by simp, fun c hc => ?_⟩
  obtain ⟨d, hd, rfl⟩ := List.mem_map.mp hc
  exact ⟨d, (fixedDigits_lt hbase hd).trans_le hbase', rfl⟩

/-- The width of a conversion is kept exactly by the numbers that fit it. -/
theorem printNumber_length_le_iff {base width n : ℕ} (hbase : 1 < base) (hwidth : 0 < width) :
    (printNumber base width n).length ≤ width ↔ n < base ^ width := by
  rw [printNumber, List.length_map, fixedDigits_length]
  constructor
  · intro h
    apply Nat.lt_pow_of_log_lt hbase
    omega
  · intro h
    have hlog : Nat.log base n < width := Nat.log_lt_of_lt_pow' (by omega) h
    omega

/-- The leading digits of a text that starts with digits. -/
theorem spanDigits_append {base : ℕ} (hbase : base ≤ 16) {digits : List ℕ}
    (hdigits : ∀ d ∈ digits, d < base) {rest : List UInt8}
    (hrest : ∀ c ∈ rest.head?, charValue c = none) :
    spanDigits base (digits.map digitChar ++ rest) = (digits, rest) := by
  induction digits with
  | nil =>
    cases rest with
    | nil => rfl
    | cons c rest =>
      have hc : charValue c = none := hrest c rfl
      simp [spanDigits, digitValue, hc]
  | cons d digits ih =>
    have hd := digitValue_digitChar hbase (hdigits d (by simp))
    rw [List.map_cons, List.cons_append, spanDigits, hd]
    simp only [ih fun x hx => hdigits x (by simp [hx])]

/-- What a letter or digit of a base up to sixteen is not. -/
theorem digit_plain {base : ℕ} (hbase : base ≤ 16) {c : UInt8} (hc : (digitValue base c).isSome) :
    isSpace c = false ∧ c ≠ 43 ∧ c ≠ 45 ∧ c ≠ 120 ∧ c ≠ 88 := by
  obtain ⟨d, hd⟩ := Option.isSome_iff_exists.mp hc
  obtain ⟨hvalue, hlt⟩ := Option.filter_eq_some_iff.mp hd
  have hlt : d < 16 := lt_of_lt_of_le (by simpa using hlt) hbase
  refine ⟨?_, ?_, ?_, ?_, ?_⟩
  · by_contra hspace
    have hnone : charValue c = none := by
      simp only [isSpace, Bool.not_eq_false, Bool.or_eq_true, beq_iff_eq, Bool.and_eq_true,
        decide_eq_true_eq, UInt8.le_iff_toNat_le, ← UInt8.toNat_inj] at hspace
      simp only [charValue, UInt8.le_iff_toNat_le]
      simp only [UInt8.reduceToNat] at hspace ⊢
      rw [if_neg (by omega), if_neg (by omega), if_neg (by omega)]
    rw [hnone] at hvalue
    cases hvalue
  · rintro rfl
    exact absurd hvalue (by simp [charValue])
  · rintro rfl
    exact absurd hvalue (by simp [charValue])
  · rintro rfl
    obtain rfl : 33 = d := by simpa [charValue] using hvalue
    omega
  · rintro rfl
    obtain rfl : 33 = d := by simpa [charValue] using hvalue
    omega

/-- A text of digits is all digits. -/
theorem spanDigits_filterMap {base : ℕ} {text : List UInt8}
    (hdigits : ∀ c ∈ text, (digitValue base c).isSome) :
    spanDigits base text = (text.filterMap (digitValue base), []) := by
  induction text with
  | nil => rfl
  | cons c text ih =>
    rw [List.forall_mem_cons] at hdigits
    obtain ⟨d, hd⟩ := Option.isSome_iff_exists.mp hdigits.1
    simp [spanDigits, hd, ih hdigits.2]

/-- A hexadecimal digit is printed in lower case. -/
theorem digitChar_of_digitValue {c : UInt8} {d : ℕ} (h : digitValue 16 c = some d) :
    d < 16 ∧ digitChar d = toLower c := by
  obtain ⟨hvalue, hlt⟩ := Option.filter_eq_some_iff.mp h
  have hlt : d < 16 := by simpa using hlt
  refine ⟨hlt, ?_⟩
  simp only [charValue, UInt8.le_iff_toNat_le, UInt8.reduceToNat] at hvalue
  simp only [toLower, UInt8.le_iff_toNat_le, UInt8.reduceToNat]
  -- The three ranges of characters are decimal digits, small letters and capital letters.
  split_ifs at hvalue with hdecimal hsmall hcapital
  · obtain rfl := Option.some.inj hvalue
    rw [digitChar, if_pos (by omega), if_neg (by omega), Nat.add_sub_cancel' hdecimal.1,
      UInt8.ofNat_toNat]
  · obtain rfl := Option.some.inj hvalue
    rw [digitChar, if_neg (by omega), if_neg (by omega), Nat.add_sub_cancel' (by omega),
      UInt8.ofNat_toNat]
  · obtain rfl := Option.some.inj hvalue
    have hshift : 87 + (c.toNat - 55) = c.toNat + 32 := by omega
    rw [digitChar, if_neg (by omega), if_pos hcapital, hshift, UInt8.ofNat_add, UInt8.ofNat_toNat]
    rfl

/-- The same for a text of hexadecimal digits. -/
theorem map_digitChar_filterMap {text : List UInt8}
    (hdigits : ∀ c ∈ text, (digitValue 16 c).isSome) :
    (text.filterMap (digitValue 16)).map digitChar = text.map toLower := by
  induction text with
  | nil => rfl
  | cons c text ih =>
    rw [List.forall_mem_cons] at hdigits
    obtain ⟨d, hd⟩ := Option.isSome_iff_exists.mp hdigits.1
    rw [List.filterMap_cons_some hd, List.map_cons, List.map_cons, ih hdigits.2,
      (digitChar_of_digitValue hd).2]

/-- The optional base marker in front of digits. -/
theorem skipBase_marker {base : ℕ} (hbase : base ≤ 16) {marker : List UInt8}
    (hmarker : marker = [] ∨ base = 16 ∧ (marker = [48, 120] ∨ marker = [48, 88])) (d : UInt8)
    {more rest : List UInt8} (hdigits : ∀ c ∈ more, (digitValue base c).isSome)
    (hrest : ∀ c ∈ rest.head?, charValue c = none) :
    skipBase base (marker ++ (d :: (more ++ rest))) = d :: (more ++ rest) := by
  rcases hmarker with rfl | ⟨rfl, rfl | rfl⟩
  · rw [List.nil_append, skipBase, if_neg]
    rintro ⟨_, hmark⟩
    -- The second character would be an x, but it is a digit or no letter at all.
    cases more with
    | nil =>
      cases rest with
      | nil => simp at hmark
      | cons c rest =>
        have hnone : charValue c = none := hrest c rfl
        rcases hmark with hmark | hmark
        · obtain rfl : c = 120 := by simpa using (List.cons.inj hmark).2
          cases hnone
        · obtain rfl : c = 88 := by simpa using (List.cons.inj hmark).2
          cases hnone
    | cons c more =>
      obtain ⟨_, _, _, hlower, hupper⟩ := digit_plain hbase (hdigits c List.mem_cons_self)
      rcases hmark with hmark | hmark
      · exact hlower (by simpa using (List.cons.inj hmark).2)
      · exact hupper (by simpa using (List.cons.inj hmark).2)
  · rfl
  · rfl

/-- Text that starts with a digit has no sign and no leading white space; if it starts
with digits up to a character that is no letter, it has no base marker either. -/
theorem skip_digits {base : ℕ} (hbase : base ≤ 16) {digits : List ℕ} (hne : digits ≠ [])
    (hdigits : ∀ d ∈ digits, d < base) {rest : List UInt8}
    (hrest : ∀ c ∈ rest.head?, charValue c = none) :
    scanSign ((digits.map digitChar ++ rest).dropWhile isSpace) =
        (false, digits.map digitChar ++ rest) ∧
      skipBase base (digits.map digitChar ++ rest) = digits.map digitChar ++ rest := by
  obtain ⟨d, more, rfl⟩ := List.exists_cons_of_ne_nil hne
  rw [List.forall_mem_cons] at hdigits
  obtain ⟨hspace, hplus, hminus, _⟩ := digitChar_plain (hdigits.1.trans_le hbase)
  constructor
  · rw [List.map_cons, List.cons_append, List.dropWhile_cons_of_neg (by simp [hspace])]
    simp [scanSign, hplus, hminus]
  · refine skipBase_marker hbase (.inl rfl) (digitChar d) (fun c hc => ?_) hrest
    obtain ⟨e, he, rfl⟩ := List.mem_map.mp hc
    rw [digitValue_digitChar hbase (hdigits.2 e he)]
    rfl

/-- **Round trip of a number.** A number printed with zero padding to a width it fits,
in front of a character that is no letter or digit, is scanned back. -/
theorem scanNumber_printNumber (base bits width : ℕ) {n : ℕ} (rest : List UInt8)
    (hbase : 0 < base) (hbase' : base ≤ 16) (hwidth : 0 < width) (hn : n < base ^ width)
    (hbits : n < 2 ^ bits) (hlong : n < 2 ^ 64)
    (hrest : ∀ c ∈ rest.head?, charValue c = none) :
    scanNumber base bits (printNumber base width n ++ rest) = some (n, rest) := by
  have hdigits : ∀ d ∈ fixedDigits base width n, d < base := fun d hd => fixedDigits_lt hbase hd
  have hne : fixedDigits base width n ≠ [] := by
    intro h
    have := fixedDigits_length base width n
    rw [h, List.length_nil] at this
    omega
  obtain ⟨hsign, hskip⟩ := skip_digits hbase' hne hdigits hrest
  have hvalue : converted bits false n = n := by
    rw [converted, if_neg (by omega)]
    exact Nat.mod_eq_of_lt hbits
  rw [printNumber_eq hwidth hn, scanNumber, hsign]
  simp only [hskip, spanDigits_append hbase' hdigits hrest, if_neg hne, ofDigits_fixedDigits,
    Nat.mod_eq_of_lt hn, hvalue]

/-- A text of digits, in either case, is scanned whole. -/
theorem scanNumber_digits {base bits : ℕ} (hbase : base ≤ 16) {text : List UInt8}
    (hne : text ≠ []) (hdigits : ∀ c ∈ text, (digitValue base c).isSome) {n : ℕ}
    (hn : Nat.ofDigits base (text.filterMap (digitValue base)).reverse = n)
    (hbits : n < 2 ^ bits) (hlong : n < 2 ^ 64) : scanNumber base bits text = some (n, []) := by
  obtain ⟨c, more, rfl⟩ := List.exists_cons_of_ne_nil hne
  have hall := hdigits
  rw [List.forall_mem_cons] at hdigits
  obtain ⟨hspace, hplus, hminus, _⟩ := digit_plain hbase hdigits.1
  have hsign : scanSign ((c :: more).dropWhile isSpace) = (false, c :: more) := by
    rw [List.dropWhile_cons_of_neg (by simp [hspace])]
    simp [scanSign, hplus, hminus]
  have hskip : skipBase base (c :: more) = c :: more := by
    have h := @skipBase_marker base hbase [] (.inl rfl) c more [] hdigits.2 (by simp)
    rwa [List.nil_append, List.append_nil] at h
  have hsome : (c :: more).filterMap (digitValue base) ≠ [] := by
    obtain ⟨d, hd⟩ := Option.isSome_iff_exists.mp hdigits.1
    simp [hd]
  have hvalue : converted bits false n = n := by
    rw [converted, if_neg (by omega)]
    exact Nat.mod_eq_of_lt hbits
  rw [scanNumber, hsign]
  simp only [hskip, spanDigits_filterMap hall, if_neg hsome, hn, hvalue]

/-- A word without white space is scanned whole. -/
theorem scanString_word {word : List UInt8} (hne : word ≠ [])
    (hword : ∀ c ∈ word, isSpace c = false) :
    scanString word = some (word, []) := by
  obtain ⟨c, rest, rfl⟩ := List.exists_cons_of_ne_nil hne
  have hdrop : (c :: rest).dropWhile isSpace = c :: rest :=
    List.dropWhile_cons_of_neg (by simp [hword c])
  have htake : (c :: rest).takeWhile (fun c => !isSpace c) = c :: rest :=
    List.takeWhile_eq_self_iff.mpr fun x hx => by simp [hword x hx]
  simp only [scanString, hdrop, htake, if_neg hne, List.drop_length]

/-- A field that fills its width is converted alone, whatever follows it. -/
theorem limited_append {α : Type*} {width : ℕ} {convert : List UInt8 → Option (α × List UInt8)}
    {front : List UInt8} {a : α} (hne : front ≠ []) (hfront : ∀ c ∈ front, isSpace c = false)
    (hwidth : front.length = width) (hconvert : convert front = some (a, [])) (rest : List UInt8) :
    limited width convert (front ++ rest) = some (a, rest) := by
  have hdrop : (front ++ rest).dropWhile isSpace = front ++ rest := by
    obtain ⟨c, more, rfl⟩ := List.exists_cons_of_ne_nil hne
    exact List.dropWhile_cons_of_neg (by simp [hfront c])
  simp [limited, hdrop, List.take_left' hwidth, List.drop_left' hwidth, hconvert]

/-- White space in front of a field is skipped. -/
theorem limited_blanks {α : Type*} (width : ℕ) (convert : List UInt8 → Option (α × List UInt8))
    {blanks : List UInt8} (hblanks : ∀ c ∈ blanks, isSpace c = true) (text : List UInt8) :
    limited width convert (blanks ++ text) = limited width convert text := by
  rw [limited, limited, List.dropWhile_append_of_pos hblanks]

/-- The word that `%s` with a field width stores: it stands behind white space, and it is
not longer than the width. -/
theorem word_of_limited {width : ℕ} {text word rest : List UInt8}
    (h : limited width scanString text = some (word, rest)) :
    ∃ blanks, blanks ++ word <+: text ∧ (∀ c ∈ blanks, isSpace c = true) ∧ word.length ≤ width ∧
      ∀ c ∈ word, isSpace c = false := by
  have hskipped : ((text.dropWhile isSpace).take width).dropWhile isSpace =
      (text.dropWhile isSpace).take width := by
    have hhead := List.head?_dropWhile_not isSpace text
    cases hdrop : text.dropWhile isSpace with
    | nil => simp
    | cons c more =>
      have hc : isSpace c = false := by simpa [hdrop] using hhead
      cases width <;> simp [hc]
  have hword : word = ((text.dropWhile isSpace).take width).takeWhile fun c => !isSpace c := by
    obtain ⟨⟨word', rest'⟩, hscan, hsame⟩ := Option.map_eq_some_iff.mp h
    rw [scanString, hskipped] at hscan
    split_ifs at hscan
    rw [Option.some.injEq, Prod.mk.injEq] at hscan
    rw [← (Prod.mk.inj hsame).1, ← hscan.1]
  have hbehind : word <+: (text.dropWhile isSpace).take width := by
    rw [hword]
    exact List.takeWhile_prefix _
  refine ⟨text.takeWhile isSpace, ?_, fun c hc => List.mem_takeWhile_imp hc, ?_, ?_⟩
  · have hall := (List.prefix_append_right_inj (text.takeWhile isSpace)).mpr
      (hbehind.trans (List.take_prefix _ _))
    rwa [List.takeWhile_append_dropWhile] at hall
  · exact hbehind.length_le.trans (List.length_take_le _ _)
  · intro c hc
    rw [hword] at hc
    simpa using List.mem_takeWhile_imp hc

/-- A padded number is scanned back by the conversion of the same width, whatever follows
it. -/
theorem limited_printNumber (base bits width : ℕ) {n : ℕ} (rest : List UInt8) (hbase : 0 < base)
    (hbase' : base ≤ 16) (hwidth : 0 < width) (hn : n < base ^ width) (hbits : n < 2 ^ bits)
    (hlong : n < 2 ^ 64) :
    limited width (scanNumber base bits) (printNumber base width n ++ rest) = some (n, rest) := by
  obtain ⟨hlength, hdigits⟩ := printNumber_digits hbase hbase' hwidth hn
  have hscan :=
    scanNumber_printNumber base bits width [] hbase hbase' hwidth hn hbits hlong (by simp)
  rw [List.append_nil] at hscan
  refine limited_append ?_ ?_ hlength hscan rest
  · intro hnil
    rw [hnil, List.length_nil] at hlength
    omega
  · intro c hc
    obtain ⟨d, hd, rfl⟩ := hdigits c hc
    exact (digitChar_plain hd).1

/-- The text of a terminated string without a NUL inside. -/
theorem cString_append {text rest : List UInt8} (htext : ∀ c ∈ text, c ≠ 0) :
    cString (text ++ 0 :: rest) = some text := by
  rw [cString, if_pos (by simp), List.takeWhile_append_of_pos fun c hc => by simpa using htext c hc]
  simp

/-- A block with a NUL is the text before it, the NUL and the rest. -/
theorem cString_eq_some_iff {block text : List UInt8} :
    cString block = some text ↔ (∀ c ∈ text, c ≠ 0) ∧ ∃ rest, block = text ++ 0 :: rest := by
  constructor
  · intro h
    rw [cString] at h
    split_ifs at h with hmem
    obtain rfl := Option.some.inj h
    refine ⟨fun c hc => by simpa using List.mem_takeWhile_imp hc, ?_⟩
    have hhead := List.head?_dropWhile_not (· ≠ (0 : UInt8)) block
    have hsplit := List.takeWhile_append_dropWhile (p := (· ≠ (0 : UInt8))) (l := block)
    cases hdrop : block.dropWhile (· ≠ 0) with
    | nil =>
      rw [hdrop, List.append_nil] at hsplit
      rw [← hsplit] at hmem
      have hne := List.mem_takeWhile_imp hmem
      simp at hne
    | cons c rest =>
      rw [hdrop] at hhead hsplit
      obtain rfl : c = 0 := by simpa using hhead
      exact ⟨rest, hsplit.symm⟩
  · rintro ⟨htext, rest, rfl⟩
    exact cString_append htext

end RdmaTransport.Format
