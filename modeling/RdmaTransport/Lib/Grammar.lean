import RdmaTransport.Lib.Format

/-!
# The texts that a scan accepts

For formats that consist of numbers followed by colons and a word at the end, this file
determines the texts from which `scan` reaches the word: numerals, colons and white space
in the places where `sscanf` allows them. Nothing here depends on a particular program.
-/

namespace RdmaTransport.Format

/-- A numeral as `%x` and `%lu` accept it: white space, an optional sign, an optional `0x`
or `0X` in base sixteen, and at least one digit. -/
def IsNumeral (base : ℕ) (text : List UInt8) : Prop :=
  ∃ blanks sign marker digits, text = blanks ++ (sign ++ (marker ++ digits)) ∧
    (∀ c ∈ blanks, isSpace c = true) ∧ (sign = [] ∨ sign = [43] ∨ sign = [45]) ∧
    (marker = [] ∨ base = 16 ∧ (marker = [48, 120] ∨ marker = [48, 88])) ∧
    digits ≠ [] ∧ ∀ c ∈ digits, (digitValue base c).isSome

/-- Behind white space the text begins with the given word, which ends with the text or at
white space. -/
def HasWord (word text : List UInt8) : Prop :=
  ∃ blanks back, text = blanks ++ (word ++ back) ∧ (∀ c ∈ blanks, isSpace c = true) ∧
    word ≠ [] ∧ (∀ c ∈ word, isSpace c = false) ∧ ∀ c ∈ back.head?, isSpace c = true

/-- Numerals of the given bases, each followed by a colon, and then the word. -/
def HasFields : List ℕ → (word text : List UInt8) → Prop
  | [], word, text => HasWord word text
  | base :: bases, word, text =>
      ∃ numeral rest, text = numeral ++ 58 :: rest ∧ IsNumeral base numeral ∧
        HasFields bases word rest

/-- The format of numbers, given by base and size, each followed by a colon, and of a word
at the end. -/
def fieldsFormat (fields : List (ℕ × ℕ)) : List Directive :=
  fields.flatMap (fun f => [.number f.1 f.2, .literal 58]) ++ [.string]

/-- The word among the stored items, if it is reached behind the given number of items. -/
def scannedWord (count : ℕ) (format : List Directive) (text : List UInt8) : Option (List UInt8) :=
  match (scan format text).drop count with
  | .string word :: _ => some word
  | _ => none

/-- The leading digits of a text are split off. -/
theorem spanDigits_eq (base : ℕ) (text : List UInt8) :
    ((spanDigits base text).1 = [] ↔ text.takeWhile (fun c => (digitValue base c).isSome) = []) ∧
      (spanDigits base text).2 = text.dropWhile fun c => (digitValue base c).isSome := by
  induction text with
  | nil => simp [spanDigits]
  | cons c text ih =>
    cases hc : digitValue base c with
    | none => simp [spanDigits, hc]
    | some d => simp [spanDigits, hc, ih.2]

/-- An optional sign is split off. -/
theorem scanSign_split (text : List UInt8) :
    ∃ sign, text = sign ++ (scanSign text).2 ∧ (sign = [] ∨ sign = [43] ∨ sign = [45]) := by
  cases text with
  | nil => exact ⟨[], rfl, .inl rfl⟩
  | cons c text =>
    rw [scanSign]
    split_ifs with hplus hminus
    · obtain rfl : c = 43 := by simpa using hplus
      exact ⟨[43], rfl, .inr (.inl rfl)⟩
    · obtain rfl : c = 45 := by simpa using hminus
      exact ⟨[45], rfl, .inr (.inr rfl)⟩
    · exact ⟨[], rfl, .inl rfl⟩

/-- An optional base marker is split off. -/
theorem skipBase_split (base : ℕ) (text : List UInt8) :
    ∃ marker, text = marker ++ skipBase base text ∧
      (marker = [] ∨ base = 16 ∧ (marker = [48, 120] ∨ marker = [48, 88])) := by
  rw [skipBase]
  split_ifs with h
  · exact ⟨text.take 2, (List.take_append_drop 2 text).symm, .inr h⟩
  · exact ⟨[], rfl, .inl rfl⟩

/-- What `scanNumber` takes off a text is a numeral. -/
theorem isNumeral_of_scanNumber {base bits n : ℕ} {text rest : List UInt8}
    (h : scanNumber base bits text = some (n, rest)) :
    ∃ numeral, text = numeral ++ rest ∧ IsNumeral base numeral := by
  obtain ⟨sign, hsign, hsigns⟩ := scanSign_split (text.dropWhile isSpace)
  obtain ⟨marker, hmarker, hmarkers⟩ := skipBase_split base (scanSign (text.dropWhile isSpace)).2
  set body := skipBase base (scanSign (text.dropWhile isSpace)).2 with hbody
  obtain ⟨hnil, hrest⟩ := spanDigits_eq base body
  simp only [scanNumber, ← hbody] at h
  split_ifs at h with hdigits
  obtain ⟨_, rfl⟩ := Prod.mk.inj (Option.some.inj h)
  refine ⟨text.takeWhile isSpace ++ (sign ++ (marker ++
    body.takeWhile fun c => (digitValue base c).isSome)), ?_, text.takeWhile isSpace, sign, marker,
    body.takeWhile fun c => (digitValue base c).isSome, rfl, ?_, hsigns, hmarkers, ?_, ?_⟩
  · rw [hrest, List.append_assoc, List.append_assoc, List.append_assoc,
      List.takeWhile_append_dropWhile, ← hmarker, ← hsign, List.takeWhile_append_dropWhile]
  · exact fun c hc => List.mem_takeWhile_imp hc
  · rwa [Ne, ← hnil]
  · intro c hc
    have hdigit := List.mem_takeWhile_imp hc
    exact hdigit

/-- The optional sign of a text that goes on with another character. -/
theorem scanSign_sign {sign : List UInt8} (hsign : sign = [] ∨ sign = [43] ∨ sign = [45])
    {c : UInt8} (hplus : c ≠ 43) (hminus : c ≠ 45) (back : List UInt8) :
    ∃ negative, scanSign (sign ++ c :: back) = (negative, c :: back) := by
  rcases hsign with rfl | rfl | rfl
  · exact ⟨false, by simp [scanSign, hplus, hminus]⟩
  · exact ⟨false, rfl⟩
  · exact ⟨true, rfl⟩

/-- A numeral in front of a character that is no letter or digit is taken off. -/
theorem scanNumber_numeral {base : ℕ} (bits : ℕ) (hbase : base ≤ 16) {numeral rest : List UInt8}
    (h : IsNumeral base numeral) (hrest : ∀ c ∈ rest.head?, charValue c = none) :
    ∃ n, scanNumber base bits (numeral ++ rest) = some (n, rest) := by
  obtain ⟨blanks, sign, marker, digits, rfl, hblanks, hsign, hmarker, hne, hdigits⟩ := h
  obtain ⟨d, more, rfl⟩ := List.exists_cons_of_ne_nil hne
  have hall := hdigits
  rw [List.forall_mem_cons] at hdigits
  obtain ⟨hspace, hplus, hminus, _⟩ := digit_plain hbase hdigits.1
  -- Behind the sign there is the marker or the first digit, neither of which is a sign.
  have hbody : ∃ c back, marker ++ (d :: (more ++ rest)) = c :: back ∧ isSpace c = false ∧
      c ≠ 43 ∧ c ≠ 45 := by
    rcases hmarker with rfl | ⟨_, rfl | rfl⟩
    · exact ⟨d, more ++ rest, rfl, hspace, hplus, hminus⟩
    · exact ⟨48, _, rfl, by decide, by decide, by decide⟩
    · exact ⟨48, _, rfl, by decide, by decide, by decide⟩
  obtain ⟨c, back, hc, hcspace, hcplus, hcminus⟩ := hbody
  obtain ⟨negative, hscanSign⟩ := scanSign_sign hsign hcplus hcminus back
  have hskipped : (blanks ++ (sign ++ (marker ++ (d :: more))) ++ rest).dropWhile isSpace =
      sign ++ c :: back := by
    simp only [List.append_assoc, List.cons_append]
    rw [List.dropWhile_append_of_pos hblanks, hc]
    rcases hsign with rfl | rfl | rfl
    · exact List.dropWhile_cons_of_neg (by simp [hcspace])
    · rfl
    · rfl
  obtain ⟨hnil, hback⟩ := spanDigits_eq base (d :: (more ++ rest))
  have hspan : (spanDigits base (d :: (more ++ rest))).1 ≠ [] := by
    rw [Ne, hnil]
    simp [hdigits.1]
  have hdrop : (spanDigits base (d :: (more ++ rest))).2 = rest := by
    rw [hback, ← List.cons_append, List.dropWhile_append_of_pos hall]
    cases rest with
    | nil => rfl
    | cons c rest =>
      have hnone : charValue c = none := hrest c rfl
      exact List.dropWhile_cons_of_neg (by simp [digitValue, hnone])
  have hskip := skipBase_marker hbase hmarker d hdigits.2 hrest
  rw [hc] at hskip
  rw [scanNumber, hskipped, hscanSign]
  simp only [hskip, if_neg hspan, hdrop]
  exact ⟨_, rfl⟩

/-- The word that `%s` stores. -/
theorem scanString_eq_some_iff {text word : List UInt8} :
    (∃ rest, scanString text = some (word, rest)) ↔ HasWord word text := by
  constructor
  · rintro ⟨rest, h⟩
    simp only [scanString] at h
    split_ifs at h with hne
    obtain ⟨rfl, _⟩ := Prod.mk.inj (Option.some.inj h)
    refine ⟨text.takeWhile isSpace, (text.dropWhile isSpace).dropWhile fun c => !isSpace c, ?_,
      fun c hc => List.mem_takeWhile_imp hc, hne, ?_, ?_⟩
    · rw [List.takeWhile_append_dropWhile, List.takeWhile_append_dropWhile]
    · intro c hc
      simpa using List.mem_takeWhile_imp hc
    · intro c hc
      have hhead := List.head?_dropWhile_not (fun c => !isSpace c) (text.dropWhile isSpace)
      rw [Option.mem_def.mp hc] at hhead
      simpa using hhead
  · rintro ⟨blanks, back, rfl, hblanks, hne, hword, hback⟩
    have hdrop : (blanks ++ (word ++ back)).dropWhile isSpace = word ++ back := by
      obtain ⟨c, more, rfl⟩ := List.exists_cons_of_ne_nil hne
      rw [List.dropWhile_append_of_pos hblanks]
      exact List.dropWhile_cons_of_neg (by simp [hword c])
    have htake : (word ++ back).takeWhile (fun c => !isSpace c) = word := by
      rw [List.takeWhile_append_of_pos fun c hc => by simp [hword c hc]]
      cases back with
      | nil => simp
      | cons c back =>
        have hspace := hback c rfl
        simp [hspace]
    simp only [scanString, hdrop, htake, if_neg hne]
    exact ⟨_, rfl⟩

/-- **Scanned texts.** The scan stores a word exactly for the texts that consist of the
fields of the format. -/
theorem scannedWord_eq_some_iff {fields : List (ℕ × ℕ)} (hbases : ∀ f ∈ fields, f.1 ≤ 16)
    {text word : List UInt8} :
    scannedWord fields.length (fieldsFormat fields) text = some word ↔
      HasFields (fields.map Prod.fst) word text := by
  induction fields generalizing text with
  | nil =>
    rw [List.map_nil, HasFields, ← scanString_eq_some_iff]
    cases h : scanString text with
    | none => simp [scannedWord, fieldsFormat, scan, h]
    | some found => simp [scannedWord, fieldsFormat, scan, h, Prod.ext_iff]
  | cons f fields ih =>
    rw [List.forall_mem_cons] at hbases
    have hcolon : ∀ rest : List UInt8, ∀ c ∈ (58 :: rest).head?, charValue c = none := by
      rintro rest c hc
      obtain rfl : 58 = c := by simpa using hc
      decide
    have hformat : fieldsFormat (f :: fields) =
        .number f.1 f.2 :: .literal 58 :: fieldsFormat fields := rfl
    constructor
    · intro h
      rw [scannedWord, hformat, scan] at h
      cases hscan : scanNumber f.1 f.2 text with
      | none => simp [hscan] at h
      | some found =>
        obtain ⟨n, rest⟩ := found
        obtain ⟨numeral, rfl, hnumeral⟩ := isNumeral_of_scanNumber hscan
        rw [hscan] at h
        dsimp only at h
        rw [scan] at h
        split_ifs at h with hhead
        · obtain ⟨rest', rfl⟩ : ∃ rest', rest = 58 :: rest' := ⟨rest.tail, by
            cases rest with
            | nil => simp at hhead
            | cons c rest => simpa using hhead⟩
          exact ⟨numeral, rest', rfl, hnumeral, (ih hbases.2).mp h⟩
        · simp at h
    · rintro ⟨numeral, rest, rfl, hnumeral, hfields⟩
      obtain ⟨n, hscan⟩ := scanNumber_numeral f.2 hbases.1 hnumeral (hcolon rest)
      have hmore := (ih hbases.2).mpr hfields
      rw [scannedWord, hformat, scan, hscan]
      dsimp only
      rw [scan, List.head?_cons, if_pos rfl]
      exact hmore

end RdmaTransport.Format
