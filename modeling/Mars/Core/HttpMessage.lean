import Mars.Core.Text

/-! # Requests of HTTP/1.1

A message is a head of lines, an empty line, and as many bytes of body as the head
says. The reader is a server's; what is written here with care is read back, and
what follows on the connection is left alone.
-/

namespace Http

abbrev CR : UInt8 := 13
abbrev LF : UInt8 := 10
abbrev SP : UInt8 := 32
abbrev HTAB : UInt8 := 9
abbrev COLON : UInt8 := 58

def utf8 (text : List Char) : List UInt8 := text.flatMap String.utf8EncodeChar

/-- The text of bytes that are valid UTF-8. -/
def decode (bytes : List UInt8) : Option (List Char) :=
  bytes.toByteArray.utf8Decode?.map Array.toList

structure Message where
  method : List UInt8
  target : List UInt8
  version : List UInt8
  fields : List (List UInt8 × List UInt8)
  body : List UInt8
  deriving DecidableEq

/-! ## The reader -/

def takeLine : List UInt8 → Option (List UInt8 × List UInt8)
  | [] => none
  | b :: rest =>
      if b = CR ∧ rest.head? = some LF then some ([], rest.tail)
      else (takeLine rest).map fun found => (b :: found.1, found.2)

def isBlank (b : UInt8) : Bool := b = SP ∨ b = HTAB

def trimBlanks (bytes : List UInt8) : List UInt8 :=
  ((bytes.dropWhile isBlank).reverse.dropWhile isBlank).reverse

def readField (line : List UInt8) : Option (List UInt8 × List UInt8) :=
  match line.dropWhile (· ≠ COLON) with
  | [] => none
  | _ :: value =>
      let name := line.takeWhile (· ≠ COLON)
      if name = [] then none else some (name, trimBlanks value)

/-- The lines up to an empty one. -/
def readFields : Nat → List UInt8 → Option (List (List UInt8 × List UInt8) × List UInt8)
  | 0, _ => none
  | fuel + 1, bytes => do
      let (line, rest) ← takeLine bytes
      if line = [] then some ([], rest)
      else
        let field ← readField line
        let (fields, rest) ← readFields fuel rest
        some (field :: fields, rest)

def lower (b : UInt8) : UInt8 := if 65 ≤ b ∧ b ≤ 90 then b + 32 else b

def fieldNamed (name : String) (field : List UInt8 × List UInt8) : Bool :=
  field.1.map lower = utf8 name.toList

def readLength (value : List UInt8) : Option Nat := do
  let digits ← decode value
  if digits ≠ [] ∧ digits.all Char.isDigit then some (Nat.ofDigitChars 10 digits 0) else none

/-- Without a length there is no body; two lengths are refused. -/
def bodyLength (fields : List (List UInt8 × List UInt8)) : Option Nat :=
  match fields.filter (fieldNamed "content-length") with
  | [] => some 0
  | [field] => readLength field.2
  | _ => none

def readMessage (bytes : List UInt8) : Option (Message × List UInt8) := do
  let (line, rest) ← takeLine bytes
  match line.splitOn SP with
  | [method, target, version] =>
      let (fields, rest) ← readFields rest.length rest
      let length ← bodyLength fields
      if rest.length < length then none
      else some (⟨method, target, version, fields, rest.take length⟩, rest.drop length)
  | _ => none

/-! ## Bytes of text -/

theorem utf8_append (front back : List Char) : utf8 (front ++ back) = utf8 front ++ utf8 back :=
  List.flatMap_append

theorem utf8_cons (c : Char) (rest : List Char) :
    utf8 (c :: rest) = String.utf8EncodeChar c ++ utf8 rest := rfl

theorem decode_utf8 (text : List Char) : decode (utf8 text) = some text := by
  have h : (utf8 text).toByteArray = text.utf8Encode := rfl
  rw [decode, h, List.utf8Decode?_utf8Encode]
  rfl

/-- A byte of ASCII stands for itself only. -/
theorem mem_utf8EncodeChar {c : Char} {b : UInt8} (hb : b ∈ String.utf8EncodeChar c)
    (hlow : b.toNat < 128) : b.toNat = c.toNat := by
  unfold String.utf8EncodeChar at hb
  dsimp only at hb
  split at hb
  · next hsmall =>
      obtain rfl := List.mem_singleton.mp hb
      rw [UInt8.toNat_ofNat']
      exact Nat.mod_eq_of_lt (by omega)
  · exfalso
    have hhigh : ∀ n, 128 ≤ n → n < 256 → b = UInt8.ofNat n → False := by
      rintro n hn hn' rfl
      rw [UInt8.toNat_ofNat', Nat.mod_eq_of_lt hn'] at hlow
      omega
    split at hb
    · rcases List.mem_cons.mp hb with h | hb
      · exact hhigh _ (by omega) (by omega) h
      · exact hhigh _ (by omega) (by omega) (List.mem_singleton.mp hb)
    · split at hb
      · rcases List.mem_cons.mp hb with h | hb
        · exact hhigh _ (by omega) (by omega) h
        · rcases List.mem_cons.mp hb with h | hb
          · exact hhigh _ (by omega) (by omega) h
          · exact hhigh _ (by omega) (by omega) (List.mem_singleton.mp hb)
      · rcases List.mem_cons.mp hb with h | hb
        · exact hhigh _ (by omega) (by omega) h
        · rcases List.mem_cons.mp hb with h | hb
          · exact hhigh _ (by omega) (by omega) h
          · rcases List.mem_cons.mp hb with h | hb
            · exact hhigh _ (by omega) (by omega) h
            · exact hhigh _ (by omega) (by omega) (List.mem_singleton.mp hb)

/-- Where a character does not stand, neither does its byte. -/
theorem not_mem_utf8 {text : List Char} {b : UInt8} (hlow : b.toNat < 128)
    (h : ∀ c ∈ text, c.toNat ≠ b.toNat) : b ∉ utf8 text := by
  intro hb
  obtain ⟨c, hc, hb⟩ := List.mem_flatMap.mp hb
  exact h c hc (mem_utf8EncodeChar hb hlow).symm

/-! ## Reading back what was written -/

def fieldLine (field : List UInt8 × List UInt8) : List UInt8 :=
  field.1 ++ COLON :: SP :: (field.2 ++ [CR, LF])

def Message.write (m : Message) : List UInt8 :=
  m.method ++ SP :: (m.target ++ SP :: (m.version ++ CR :: LF ::
    (m.fields.flatMap fieldLine ++ CR :: LF :: m.body)))

structure WritableField (field : List UInt8 × List UInt8) : Prop where
  some : field.1 ≠ []
  name : COLON ∉ field.1 ∧ CR ∉ field.1
  value : CR ∉ field.2
  trimmed : trimBlanks field.2 = field.2

structure Message.Writable (m : Message) : Prop where
  method : SP ∉ m.method ∧ CR ∉ m.method
  target : SP ∉ m.target ∧ CR ∉ m.target
  version : SP ∉ m.version ∧ CR ∉ m.version
  fields : ∀ field ∈ m.fields, WritableField field
  length : bodyLength m.fields = some m.body.length

/-- Without a blank at either end nothing is trimmed. -/
theorem trimBlanks_of_none {bytes : List UInt8} (h : ∀ b ∈ bytes, isBlank b = false) :
    trimBlanks bytes = bytes := by
  have hsame : ∀ {list : List UInt8}, (∀ b ∈ list, isBlank b = false) →
      list.dropWhile isBlank = list := by
    intro list hlist
    cases list with
    | nil => rfl
    | cons b rest =>
        rw [List.dropWhile_cons_of_neg (by simp [hlist b List.mem_cons_self])]
  rw [trimBlanks, hsame h, hsame (by simpa using h), List.reverse_reverse]

theorem readLength_decimal (n : Nat) : readLength (utf8 (Text.decimal n)) = some n := by
  have hall : ∀ c ∈ Text.decimal n, c.isDigit = true := fun c hc => Text.isDigit_of_mem_decimal hc
  have hne : Text.decimal n ≠ [] := Nat.toDigits_ne_nil
  have hvalue : Nat.ofDigitChars 10 (Text.decimal n) 0 = n := Nat.ofDigitChars_ten_toDigits
  simpa [readLength, decode_utf8, hne, hvalue] using hall

theorem takeLine_line {line rest : List UInt8} (h : CR ∉ line) :
    takeLine (line ++ CR :: LF :: rest) = some (line, rest) := by
  induction line with
  | nil => rfl
  | cons b line ih =>
      obtain ⟨hb, hline⟩ := not_or.mp (List.mem_cons.not.mp h)
      rw [List.cons_append, takeLine, if_neg fun hend => hb hend.1.symm, ih hline]
      rfl

theorem splitOn_three {a b c : List UInt8} (ha : SP ∉ a) (hb : SP ∉ b) (hc : SP ∉ c) :
    (a ++ SP :: (b ++ SP :: c)).splitOn SP = [a, b, c] := by
  have hplain : ∀ {part : List UInt8}, SP ∉ part → ∀ x ∈ part, (x == SP) = false := by
    intro part hpart x hx
    rw [beq_eq_false_iff_ne]
    rintro rfl
    exact hpart hx
  rw [List.splitOn, List.splitOnP_append_cons _ _ (by rfl), List.splitOnP_eq_singleton (hplain ha),
    List.splitOnP_append_cons _ _ (by rfl), List.splitOnP_eq_singleton (hplain hb),
    List.splitOnP_eq_singleton (hplain hc)]
  rfl

theorem WritableField.line {field : List UInt8 × List UInt8} (h : WritableField field) :
    CR ∉ field.1 ++ COLON :: SP :: field.2 := by
  have hcolon : CR ≠ COLON := by decide
  have hblank : CR ≠ SP := by decide
  simp [h.name.2, h.value, hcolon, hblank]

theorem WritableField.read {field : List UInt8 × List UInt8} (h : WritableField field) :
    readField (field.1 ++ COLON :: SP :: field.2) = Option.some field := by
  have hname : ∀ b ∈ field.1, decide (b ≠ COLON) = true := by
    intro b hb
    rw [decide_eq_true_eq]
    rintro rfl
    exact h.name.1 hb
  have htake : (field.1 ++ COLON :: SP :: field.2).takeWhile (· ≠ COLON) = field.1 := by
    rw [List.takeWhile_append_of_pos hname]
    simp
  have hdrop : (field.1 ++ COLON :: SP :: field.2).dropWhile (· ≠ COLON) =
      COLON :: SP :: field.2 := by
    rw [List.dropWhile_append_of_pos hname]
    simp
  have hvalue : trimBlanks (SP :: field.2) = field.2 := by
    have hskip : trimBlanks (SP :: field.2) = trimBlanks field.2 := by
      unfold trimBlanks
      rw [List.dropWhile_cons_of_pos (by rfl)]
    rw [hskip, h.trimmed]
  rw [readField, hdrop, htake]
  simp only [if_neg h.some, hvalue]

theorem readFields_write {fields : List (List UInt8 × List UInt8)}
    (h : ∀ field ∈ fields, WritableField field) {fuel : Nat} (hfuel : fields.length < fuel)
    (rest : List UInt8) :
    readFields fuel (fields.flatMap fieldLine ++ CR :: LF :: rest) = some (fields, rest) := by
  induction fields generalizing fuel with
  | nil =>
      obtain ⟨fuel, rfl⟩ : ∃ n, fuel = n + 1 := ⟨fuel - 1, by simp at hfuel; omega⟩
      rfl
  | cons field fields ih =>
      obtain ⟨fuel, rfl⟩ : ∃ n, fuel = n + 1 := ⟨fuel - 1, by simp at hfuel; omega⟩
      obtain ⟨hfield, hfields⟩ := List.forall_mem_cons.mp h
      have hline := @takeLine_line _ (fields.flatMap fieldLine ++ CR :: LF :: rest) hfield.line
      have hshape : (field :: fields).flatMap fieldLine ++ CR :: LF :: rest =
          (field.1 ++ COLON :: SP :: field.2) ++ CR :: LF ::
            (fields.flatMap fieldLine ++ CR :: LF :: rest) := by
        simp [fieldLine]
      have hne : field.1 ++ COLON :: SP :: field.2 ≠ [] := by simp
      have hrest := ih hfields (Nat.lt_of_succ_lt_succ hfuel)
      rw [hshape, readFields, hline]
      simp [hne, hfield.read, hrest]

theorem length_le_fields (fields : List (List UInt8 × List UInt8)) :
    fields.length ≤ (fields.flatMap fieldLine).length := by
  induction fields with
  | nil => exact Nat.le_refl _
  | cons field rest ih =>
      rw [List.flatMap_cons, List.length_append, List.length_cons]
      have hline : 0 < (fieldLine field).length := by
        simp only [fieldLine, List.length_append, List.length_cons]
        omega
      omega

/-- A message with something behind it is read, and that is left. -/
theorem readMessage_write {m : Message} (h : m.Writable) (more : List UInt8) :
    readMessage (m.write ++ more) = some (m, more) := by
  have hblank : CR ≠ SP := by decide
  let line := m.method ++ SP :: (m.target ++ SP :: m.version)
  let rest := m.fields.flatMap fieldLine ++ CR :: LF :: (m.body ++ more)
  have hline : CR ∉ line := by
    simp [line, h.method.2, h.target.2, h.version.2, hblank]
  have hshape : m.write ++ more = line ++ CR :: LF :: rest := by
    simp [Message.write, line, rest]
  have hfuel : m.fields.length < rest.length := by
    have hlines := length_le_fields m.fields
    simp only [rest, List.length_append, List.length_cons]
    omega
  have hsplit : line.splitOn SP = [m.method, m.target, m.version] :=
    splitOn_three h.method.1 h.target.1 h.version.1
  rw [hshape, readMessage, takeLine_line hline]
  simp only [Option.bind_eq_bind, Option.bind_some, hsplit]
  rw [readFields_write h.fields hfuel]
  simp only [Option.bind_some, h.length]
  rw [if_neg (by simp)]
  simp

end Http
