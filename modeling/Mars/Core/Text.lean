import Mathlib.Algebra.Group.Int.Defs
import Mathlib.Algebra.Group.Nat.Defs
import Mathlib.Data.List.Basic

/-! # Scanning lines of text

The string operations of the standard library that line-oriented readers use,
on lists of characters: the rest after the last occurrence of a character,
splitting at white space, decimal numbers of 64 bits, and decoding of bytes
around a part that need not be text.
-/

namespace Text

/-! ## After the last occurrence -/

def afterLast (mark : Char) : List Char → Option (List Char)
  | [] => none
  | c :: rest =>
      match afterLast mark rest with
      | some tail => some tail
      | none => if c = mark then some rest else none

theorem afterLast_of_not_mem {mark : Char} {text : List Char} (h : mark ∉ text) :
    afterLast mark text = none := by
  induction text with
  | nil => rfl
  | cons c rest ih =>
      simp only [List.mem_cons, not_or] at h
      simp [afterLast, ih h.2, Ne.symm h.1]

/-- Whatever stands in front, the last mark is the one the rest starts after. -/
theorem afterLast_append {mark : Char} (front : List Char) {tail : List Char}
    (h : mark ∉ tail) : afterLast mark (front ++ mark :: tail) = some tail := by
  induction front with
  | nil => simp [afterLast, afterLast_of_not_mem h]
  | cons c rest ih => simp [afterLast, ih]

/-! ## White space -/

/-- The Unicode `White_Space` property. -/
def isWhitespace (c : Char) : Bool :=
  let n := c.toNat
  (9 ≤ n && n ≤ 13) || n == 0x20 || n == 0x85 || n == 0xA0 || n == 0x1680 ||
    (0x2000 ≤ n && n ≤ 0x200A) || n == 0x2028 || n == 0x2029 || n == 0x202F ||
    n == 0x205F || n == 0x3000

def splitWhitespace (text : List Char) : List (List Char) :=
  (text.splitOnP isWhitespace).filter (· ≠ [])

def trim (text : List Char) : List Char :=
  ((text.dropWhile isWhitespace).reverse.dropWhile isWhitespace).reverse

/-- A maximal run of other characters. -/
def IsWord (word : List Char) : Prop := word ≠ [] ∧ ∀ c ∈ word, isWhitespace c = false

theorem splitWhitespace_append_space {c : Char} (hc : isWhitespace c = true)
    (front text : List Char) :
    splitWhitespace (front ++ c :: text) = splitWhitespace front ++ splitWhitespace text := by
  rw [splitWhitespace, List.splitOnP_append_cons front text hc, List.filter_append]
  rfl

theorem splitWhitespace_cons_space {c : Char} (hc : isWhitespace c = true) (text : List Char) :
    splitWhitespace (c :: text) = splitWhitespace text :=
  splitWhitespace_append_space hc [] text

theorem splitWhitespace_of_isWord {word : List Char} (hw : IsWord word) :
    splitWhitespace word = [word] := by
  have hone : List.splitOnP isWhitespace word = [word] := List.splitOnP_eq_singleton hw.2
  simp [splitWhitespace, hone, hw.1]

theorem splitWhitespace_word {word : List Char} (hw : IsWord word) {c : Char}
    (hc : isWhitespace c = true) (text : List Char) :
    splitWhitespace (word ++ c :: text) = word :: splitWhitespace text := by
  rw [splitWhitespace_append_space hc, splitWhitespace_of_isWord hw, List.singleton_append]

/-- Words set off by spaces are read back one by one. -/
theorem splitWhitespace_spaced {words : List (List Char)} (hwords : ∀ w ∈ words, IsWord w) :
    splitWhitespace (words.flatMap (' ' :: ·)) = words := by
  have hspace : isWhitespace ' ' = true := by decide
  induction words with
  | nil => rfl
  | cons word rest ih =>
      have hword : IsWord word := hwords word List.mem_cons_self
      have hrest := ih fun w hw => hwords w (List.mem_cons_of_mem word hw)
      rw [List.flatMap_cons, List.cons_append, splitWhitespace_cons_space hspace]
      cases rest with
      | nil => rw [List.flatMap_nil, List.append_nil, splitWhitespace_of_isWord hword]
      | cons next others =>
          rw [List.flatMap_cons, List.cons_append, splitWhitespace_cons_space hspace] at hrest
          rw [List.flatMap_cons, List.cons_append, splitWhitespace_word hword hspace, hrest]

/-- Blanks behind the words are read over. -/
theorem splitWhitespace_words {words : List (List Char)} (hwords : ∀ w ∈ words, IsWord w)
    {blanks : List Char} (hblanks : ∀ c ∈ blanks, isWhitespace c = true) :
    splitWhitespace (words.flatMap (' ' :: ·) ++ blanks) = words := by
  have hnone : splitWhitespace blanks = [] := by
    induction blanks with
    | nil => rfl
    | cons c rest ih =>
        rw [splitWhitespace_cons_space (hblanks c List.mem_cons_self)]
        exact ih fun d hd => hblanks d (List.mem_cons_of_mem c hd)
  cases blanks with
  | nil => rw [List.append_nil, splitWhitespace_spaced hwords]
  | cons c rest =>
      have hc : isWhitespace c = true := hblanks c List.mem_cons_self
      rw [splitWhitespace_cons_space hc] at hnone
      rw [splitWhitespace_append_space hc, splitWhitespace_spaced hwords, hnone, List.append_nil]

/-! ## Decimal numbers -/

/-- Unsigned parsing at a width: an optional sign, digits, no overflow. -/
def parseUnsigned (bits : Nat) (text : List Char) : Option Nat :=
  let digits := match text with
    | '+' :: rest => rest
    | _ => text
  if digits ≠ [] ∧ digits.all Char.isDigit ∧ Nat.ofDigitChars 10 digits 0 < 2 ^ bits then
    some (Nat.ofDigitChars 10 digits 0)
  else none

def parseU32 : List Char → Option Nat := parseUnsigned 32
def parseU64 : List Char → Option Nat := parseUnsigned 64

def decimal (n : Nat) : List Char := Nat.toDigits 10 n

def decimalInt : Int → List Char
  | .ofNat n => decimal n
  | .negSucc n => '-' :: decimal (n + 1)

theorem isDigit_of_mem_decimal {n : Nat} {c : Char} (h : c ∈ decimal n) : c.isDigit = true :=
  Nat.isDigit_of_mem_toDigits (by decide) (by decide) h

theorem parseUnsigned_decimal_eq (bits n : Nat) :
    parseUnsigned bits (decimal n) = if n < 2 ^ bits then some n else none := by
  have hvalue : Nat.ofDigitChars 10 (decimal n) 0 = n := Nat.ofDigitChars_ten_toDigits
  have hne : decimal n ≠ [] := Nat.toDigits_ne_nil
  have hall : (decimal n).all Char.isDigit = true :=
    List.all_eq_true.mpr fun c hc => isDigit_of_mem_decimal hc
  cases hd : decimal n with
  | nil => exact absurd hd hne
  | cons c rest =>
      have hplus : c ≠ '+' := by
        intro hc
        have := isDigit_of_mem_decimal (n := n) (c := c) (by simp [hd])
        rw [hc] at this
        exact absurd this (by decide)
      rw [hd] at hvalue hall
      rw [parseUnsigned]
      · simp [hvalue, hall]
      · rintro rest heq
        exact hplus (List.cons.inj heq).1

theorem parseUnsigned_decimal {bits n : Nat} (h : n < 2 ^ bits) :
    parseUnsigned bits (decimal n) = some n := by
  rw [parseUnsigned_decimal_eq, if_pos h]

theorem parseU64_decimal {n : Nat} (h : n < 2 ^ 64) : parseU64 (decimal n) = some n :=
  parseUnsigned_decimal h

theorem isWhitespace_of_isDigit {c : Char} (h : c.isDigit = true) : isWhitespace c = false := by
  obtain ⟨hlow, hhigh⟩ : 48 ≤ c.toNat ∧ c.toNat ≤ 57 := Char.isDigit_iff_toNat.mp h
  simp only [isWhitespace, Bool.or_eq_false_iff, Bool.and_eq_false_iff, decide_eq_false_iff_not,
    beq_eq_false_iff_ne, ne_eq]
  omega

theorem isWord_decimal (n : Nat) : IsWord (decimal n) :=
  ⟨Nat.toDigits_ne_nil, fun _ hc => isWhitespace_of_isDigit (isDigit_of_mem_decimal hc)⟩

theorem mem_decimalInt {i : Int} {c : Char} (h : c ∈ decimalInt i) :
    c = '-' ∨ c.isDigit = true := by
  cases i with
  | ofNat n => exact Or.inr (isDigit_of_mem_decimal h)
  | negSucc n =>
      rcases List.mem_cons.mp h with hc | hc
      · exact Or.inl hc
      · exact Or.inr (isDigit_of_mem_decimal hc)

theorem isWord_decimalInt (i : Int) : IsWord (decimalInt i) := by
  constructor
  · cases i with
    | ofNat n => exact Nat.toDigits_ne_nil
    | negSucc n => simp [decimalInt]
  · intro c hc
    rcases mem_decimalInt hc with rfl | hdigit
    · decide
    · exact isWhitespace_of_isDigit hdigit

/-! ## Decoding around foreign bytes -/

/-- In front of a character boundary a valid text is valid. -/
theorem isValidUTF8_front {front : ByteArray} {c : Char} {rest : List Char}
    (h : (front ++ (String.ofList (c :: rest)).toByteArray).IsValidUTF8) :
    front.IsValidUTF8 := by
  let tail := String.ofList (c :: rest)
  let back := tail.toByteArray
  have hback : 0 < back.size := by
    rw [String.size_toByteArray]
    refine Nat.pos_of_ne_zero fun hzero => ?_
    have htail : tail = "" := String.utf8ByteSize_eq_zero_iff.mp hzero
    simpa [tail] using congrArg String.toList htail
  have hfirst : back[0].IsUTF8FirstByte := tail.isValidUTF8.isUTF8FirstByte_getElem_zero hback
  let text := String.fromUTF8 (front ++ back) h
  have htext : text.toByteArray = front ++ back := rfl
  have hlt : (⟨front.size⟩ : String.Pos.Raw) < text.rawEndPos := by
    simp only [String.Pos.Raw.lt_iff, String.byteIdx_rawEndPos, ← String.size_toByteArray, htext,
      ByteArray.size_append]
    omega
  have hvalid : (⟨front.size⟩ : String.Pos.Raw).IsValid text := by
    rw [String.Pos.Raw.isValid_iff_isUTF8FirstByte]
    refine Or.inr ⟨hlt, ?_⟩
    simp only [String.getUTF8Byte, htext]
    rw [ByteArray.getElem_append_right (Nat.le_refl _)]
    simpa using hfirst
  have hextract := hvalid.isValidUTF8_extract_zero
  rw [htext] at hextract
  simpa [ByteArray.extract_append_eq_left] using hextract

/-- Behind a valid text a valid text is valid. -/
theorem isValidUTF8_back {front : String} {back : ByteArray}
    (h : (front.toByteArray ++ back).IsValidUTF8) : back.IsValidUTF8 := by
  obtain ⟨all, hall⟩ := h
  rw [← String.utf8Encode_toList] at hall
  obtain ⟨others, rfl⟩ := List.isPrefix_of_utf8Encode_append_eq_utf8Encode back hall
  refine ⟨others, ?_⟩
  rw [List.utf8Encode_append] at hall
  exact ByteArray.append_right_inj _ |>.mp hall

/-- Framing by text neither hides nor repairs invalid bytes. -/
theorem isValidUTF8_framed {front : String} {inner : ByteArray} {c : Char} {rest : List Char} :
    (front.toByteArray ++ inner ++ (String.ofList (c :: rest)).toByteArray).IsValidUTF8 ↔
      inner.IsValidUTF8 := by
  constructor
  · intro h
    exact isValidUTF8_back (isValidUTF8_front h)
  · intro h
    exact (front.isValidUTF8.append h).append (String.ofList (c :: rest)).isValidUTF8

/-! ## Quoting -/

/-- All but the control characters is taken to be printable. -/
def debugChar (c : Char) : String :=
  if c = '"' then "\\\""
  else if c = '\\' then "\\\\"
  else if c = '\n' then "\\n"
  else if c = '\r' then "\\r"
  else if c = '\t' then "\\t"
  else if c = '\x00' then "\\0"
  else if c.toNat < 32 ∨ 127 ≤ c.toNat ∧ c.toNat < 160 then
    "\\u\x7b" ++ String.ofList (Nat.toDigits 16 c.toNat) ++ "\x7d"
  else String.ofList [c]

def debugText (text : String) : String :=
  "\"" ++ String.join (text.toList.map debugChar) ++ "\""

theorem debugChar_length (c : Char) : 1 ≤ (debugChar c).toList.length := by
  unfold debugChar
  split_ifs <;> simp

/-- Quoting makes no text shorter. -/
theorem length_le_debugText (text : String) :
    text.toList.length ≤ (debugText text).toList.length := by
  have hchars : ∀ chars : List Char,
      chars.length ≤ ((chars.map debugChar).flatMap String.toList).length := by
    intro chars
    induction chars with
    | nil => exact Nat.zero_le _
    | cons c rest ih =>
        have hc := debugChar_length c
        rw [List.map_cons, List.flatMap_cons, List.length_append, List.length_cons]
        omega
  have hall := hchars text.toList
  rw [debugText, String.toList_append, String.toList_append, String.toList_join,
    List.length_append, List.length_append]
  omega

end Text
