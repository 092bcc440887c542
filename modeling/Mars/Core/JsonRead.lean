import Mathlib.Data.List.TakeWhile

/-! # Reading JSON

A reader of the whole grammar. Blanks stand between tokens and nowhere else, a
string holds control characters only in escaped form, and a text is read when
nothing but blanks is left behind its value.

A writer is given by the form in which it puts one character of a string. What
it prints is read back when the reader takes each form for its character.
-/

namespace JsonRead

def isSpace (c : Char) : Bool := c = ' ' ∨ c = '\t' ∨ c = '\n' ∨ c = '\r'

def skip (text : List Char) : List Char := text.dropWhile isSpace

/-! ## Strings -/

def shortEscape : Char → Option Char
  | '"' => some '"'
  | '\\' => some '\\'
  | '/' => some '/'
  | 'b' => some '\x08'
  | 'f' => some '\x0c'
  | 'n' => some '\n'
  | 'r' => some '\r'
  | 't' => some '\t'
  | _ => none

def hexDigit (c : Char) : Option Nat :=
  if c.isDigit then some (c.toNat - '0'.toNat)
  else if 'a' ≤ c ∧ c ≤ 'f' then some (c.toNat - 'a'.toNat + 10)
  else if 'A' ≤ c ∧ c ≤ 'F' then some (c.toNat - 'A'.toNat + 10)
  else none

def hexUnit : List Char → Option (Nat × List Char)
  | a :: b :: c :: d :: rest => do
      let a ← hexDigit a
      let b ← hexDigit b
      let c ← hexDigit c
      let d ← hexDigit d
      some (((a * 16 + b) * 16 + c) * 16 + d, rest)
  | _ => none

/-- A character outside the basic plane takes two units, and neither of the two
stands alone. -/
def readUnicode (text : List Char) : Option (Char × List Char) := do
  let (unit, rest) ← hexUnit text
  if unit < 0xD800 ∨ 0xE000 ≤ unit then some (Char.ofNat unit, rest)
  else if 0xDC00 ≤ unit then none
  else
    match rest with
    | '\\' :: 'u' :: rest => do
        let (low, rest) ← hexUnit rest
        if 0xDC00 ≤ low ∧ low < 0xE000 then
          some (Char.ofNat (0x10000 + (unit - 0xD800) * 0x400 + (low - 0xDC00)), rest)
        else none
    | _ => none

def readChar : List Char → Option (Char × List Char)
  | [] => none
  | c :: rest =>
      if c = '\\' then
        match rest with
        | [] => none
        | kind :: rest => if kind = 'u' then readUnicode rest else (shortEscape kind).map (·, rest)
      else if c = '"' ∨ c.toNat < 32 then none
      else some (c, rest)

/-- The characters up to the closing quote. -/
def readChars : Nat → List Char → Option (List Char × List Char)
  | 0, _ => none
  | fuel + 1, text =>
      match text with
      | '"' :: rest => some ([], rest)
      | _ => do
          let (c, rest) ← readChar text
          let (chars, rest) ← readChars fuel rest
          some (c :: chars, rest)

/-- What follows an opening quote. -/
def readString (text : List Char) : Option (String × List Char) :=
  (readChars text.length text).map fun (chars, rest) => (String.ofList chars, rest)

/-! ## Numbers and names -/

/-- The characters of numbers and of the three names. -/
def isWord (c : Char) : Bool := c.isAlphanum ∨ c = '-' ∨ c = '+' ∨ c = '.'

def afterDigits : List Char → Option (List Char)
  | c :: rest => if c.isDigit then some (rest.dropWhile Char.isDigit) else none
  | [] => none

def afterWhole : List Char → Option (List Char)
  | '0' :: rest => some rest
  | text => afterDigits text

def afterFraction : List Char → Option (List Char)
  | '.' :: rest => afterDigits rest
  | text => some text

def afterExponent : List Char → Option (List Char)
  | c :: rest =>
      if c = 'e' ∨ c = 'E' then
        match rest with
        | '+' :: rest => afterDigits rest
        | '-' :: rest => afterDigits rest
        | rest => afterDigits rest
      else some (c :: rest)
  | [] => some []

def isNumeral (token : List Char) : Bool :=
  let unsigned := match token with
    | '-' :: rest => rest
    | rest => rest
  (afterWhole unsigned >>= afterFraction >>= afterExponent) == some []

structure Numeral where
  token : List Char
  word : ∀ c ∈ token, isWord c = true
  valid : isNumeral token = true

/-! ## Values -/

inductive Value where
  | null
  | bool (b : Bool)
  | number (n : Numeral)
  | string (text : String)
  | array (items : List Value)
  | object (members : List (String × Value))

def named (token : List Char) : Option Value :=
  if token = ['n', 'u', 'l', 'l'] then some .null
  else if token = ['t', 'r', 'u', 'e'] then some (.bool true)
  else if token = ['f', 'a', 'l', 's', 'e'] then some (.bool false)
  else none

def readScalar (text : List Char) : Option (Value × List Char) :=
  let token := text.takeWhile isWord
  let rest := text.dropWhile isWord
  match named token with
  | some value => some (value, rest)
  | none =>
      if h : isNumeral token then
        some (.number ⟨token, fun _ => List.mem_takeWhile_imp, h⟩, rest)
      else none

mutual

def readValue : Nat → List Char → Option (Value × List Char)
  | 0, _ => none
  | fuel + 1, text =>
      match skip text with
      | '"' :: rest => (readString rest).map fun (text, rest) => (.string text, rest)
      | '[' :: rest =>
          match skip rest with
          | ']' :: rest => some (.array [], rest)
          | rest => do
              let (item, rest) ← readValue fuel rest
              let (items, rest) ← readItems fuel rest
              some (.array (item :: items), rest)
      | '\x7b' :: rest =>
          match skip rest with
          | '\x7d' :: rest => some (.object [], rest)
          | rest => do
              let (first, rest) ← readMember fuel rest
              let (members, rest) ← readMembers fuel rest
              some (.object (first :: members), rest)
      | rest => readScalar rest

/-- The items behind the first one. -/
def readItems : Nat → List Char → Option (List Value × List Char)
  | 0, _ => none
  | fuel + 1, text =>
      match skip text with
      | ']' :: rest => some ([], rest)
      | ',' :: rest => do
          let (item, rest) ← readValue fuel rest
          let (items, rest) ← readItems fuel rest
          some (item :: items, rest)
      | _ => none

def readMember : Nat → List Char → Option ((String × Value) × List Char)
  | 0, _ => none
  | fuel + 1, text =>
      match skip text with
      | '"' :: rest => do
          let (key, rest) ← readString rest
          match skip rest with
          | ':' :: rest => do
              let (value, rest) ← readValue fuel rest
              some ((key, value), rest)
          | _ => none
      | _ => none

/-- The members behind the first one. -/
def readMembers : Nat → List Char → Option (List (String × Value) × List Char)
  | 0, _ => none
  | fuel + 1, text =>
      match skip text with
      | '\x7d' :: rest => some ([], rest)
      | ',' :: rest => do
          let (first, rest) ← readMember fuel rest
          let (members, rest) ← readMembers fuel rest
          some (first :: members, rest)
      | _ => none

end

/-- A step of the reader takes at least one character, so the length of the text
is fuel enough. -/
def parse (text : List Char) : Option Value := do
  let (value, rest) ← readValue text.length text
  if skip rest = [] then some value else none

/-! ## Writing -/

/-- The forms of the characters between two quotes. -/
def literal (form : Char → List Char) (text : String) : List Char :=
  '"' :: (text.toList.flatMap form ++ ['"'])

mutual

def print (form : Char → List Char) : Value → List Char
  | .null => ['n', 'u', 'l', 'l']
  | .bool true => ['t', 'r', 'u', 'e']
  | .bool false => ['f', 'a', 'l', 's', 'e']
  | .number n => n.token
  | .string text => literal form text
  | .array [] => ['[', ']']
  | .array (item :: items) => '[' :: (print form item ++ printItems form items)
  | .object [] => ['\x7b', '\x7d']
  | .object ((key, value) :: members) =>
      '\x7b' :: (literal form key ++ ':' :: (print form value ++ printMembers form members))

def printItems (form : Char → List Char) : List Value → List Char
  | [] => [']']
  | item :: items => ',' :: (print form item ++ printItems form items)

def printMembers (form : Char → List Char) : List (String × Value) → List Char
  | [] => ['\x7d']
  | (key, value) :: members =>
      ',' :: (literal form key ++ ':' :: (print form value ++ printMembers form members))

end

mutual

/-- All strings, of keys and of values, consist of such characters. -/
def Value.all (ok : Char → Bool) : Value → Bool
  | .string text => text.toList.all ok
  | .array items => allItems ok items
  | .object members => allMembers ok members
  | _ => true

def allItems (ok : Char → Bool) : List Value → Bool
  | [] => true
  | item :: items => item.all ok && allItems ok items

def allMembers (ok : Char → Bool) : List (String × Value) → Bool
  | [] => true
  | (key, value) :: members => key.toList.all ok && (value.all ok && allMembers ok members)

end

/-! ## Reading what was written -/

section Written

variable {form : Char → List Char} {ok : Char → Bool}

/-- The reader takes a form for its character if the character is of the right
kind, and stops at it otherwise. -/
structure Readable (form : Char → List Char) (ok : Char → Bool) : Prop where
  read : ∀ c rest, readChar (form c ++ rest) = if ok c then some (c, rest) else none
  first : ∀ c, ∃ first rest, form c = first :: rest ∧ first ≠ '"'

theorem readChars_forms (h : Readable form ok) {chars : List Char} {rest : List Char}
    {fuel : Nat} (hfuel : (chars.flatMap form).length < fuel) :
    readChars fuel (chars.flatMap form ++ '"' :: rest) =
      if chars.all ok then some (chars, rest) else none := by
  induction chars generalizing fuel with
  | nil =>
      obtain ⟨n, rfl⟩ : ∃ n, fuel = n + 1 := ⟨fuel - 1, by omega⟩
      rfl
  | cons c chars ih =>
      obtain ⟨n, rfl⟩ : ∃ n, fuel = n + 1 := ⟨fuel - 1, by omega⟩
      obtain ⟨first, others, hform, hne⟩ := h.first c
      have hread := h.read c (chars.flatMap form ++ '"' :: rest)
      have htail : (chars.flatMap form).length < n := by
        rw [List.flatMap_cons, List.length_append, hform, List.length_cons] at hfuel
        omega
      have hstep : readChars (n + 1) ((c :: chars).flatMap form ++ '"' :: rest) =
          (readChar (form c ++ (chars.flatMap form ++ '"' :: rest))).bind fun (c, rest) =>
            (readChars n rest).bind fun (chars, rest) => some (c :: chars, rest) := by
        rw [List.flatMap_cons, List.append_assoc, hform, List.cons_append, readChars.eq_def]
        simp only
        split
        next heq => exact absurd (List.cons.inj heq).1 hne
        next => rfl
      rw [hstep, hread, List.all_cons]
      by_cases hc : ok c = true
      · rw [if_pos hc, Option.bind_some]
        dsimp only
        rw [ih htail, hc, Bool.true_and]
        split <;> rfl
      · rw [if_neg hc, Option.bind_none, Bool.not_eq_true _ |>.mp hc, Bool.false_and]
        rfl

theorem readString_literal (h : Readable form ok) (text : String) (rest : List Char) :
    readString (text.toList.flatMap form ++ '"' :: rest) =
      if text.toList.all ok then some (text, rest) else none := by
  have hfuel : (text.toList.flatMap form).length <
      (text.toList.flatMap form ++ '"' :: rest).length := by
    rw [List.length_append, List.length_cons]
    omega
  rw [readString, readChars_forms h hfuel]
  split
  next => simp only [Option.map_some, String.ofList_toList]
  next => rfl

/-- Behind a number or a name comes something else. -/
def Stops (rest : List Char) : Prop := ∀ c ∈ rest.head?, isWord c = false

theorem takeWhile_word {token rest : List Char} (h : ∀ c ∈ token, isWord c = true)
    (hstop : Stops rest) :
    (token ++ rest).takeWhile isWord = token ∧ (token ++ rest).dropWhile isWord = rest := by
  induction token with
  | nil =>
      cases rest with
      | nil => exact ⟨rfl, rfl⟩
      | cons c rest =>
          have hc : isWord c = false := hstop c rfl
          simp [hc]
  | cons c token ih =>
      obtain ⟨htake, hdrop⟩ := ih fun d hd => h d (List.mem_cons_of_mem c hd)
      have hc : isWord c = true := h c List.mem_cons_self
      simp [hc, htake, hdrop]

/-- A printed value begins with neither a blank nor a closing bracket. -/
def Opens (text : List Char) : Prop :=
  ∃ first rest, text = first :: rest ∧ isSpace first = false ∧ first ≠ ']' ∧ first ≠ '\x7d'

theorem opens_append {text : List Char} (h : Opens text) (rest : List Char) :
    Opens (text ++ rest) := by
  obtain ⟨first, others, rfl, hplain⟩ := h
  exact ⟨first, others ++ rest, rfl, hplain⟩

theorem numeral_first (n : Numeral) : ∃ first rest, n.token = first :: rest := by
  cases htoken : n.token with
  | nil =>
      have hvalid := n.valid
      rw [htoken] at hvalid
      cases hvalid
  | cons first rest => exact ⟨first, rest, rfl⟩

theorem word_plain {c : Char} (h : isWord c = true) :
    isSpace c = false ∧ c ≠ ']' ∧ c ≠ '\x7d' ∧ c ≠ '"' ∧ c ≠ '[' ∧ c ≠ '\x7b' := by
  have hother : ∀ d, isWord d = false → c ≠ d := by
    intro d hd heq
    rw [heq, hd] at h
    cases h
  refine ⟨?_, hother _ rfl, hother _ rfl, hother _ rfl, hother _ rfl, hother _ rfl⟩
  simp [isSpace, hother ' ' rfl, hother '\t' rfl, hother '\n' rfl, hother '\r' rfl]

theorem skip_cons {c : Char} (h : isSpace c = false) (rest : List Char) :
    skip (c :: rest) = c :: rest := by
  simp [skip, h]

theorem opens_print (v : Value) : Opens (print form v) := by
  cases v with
  | null => exact ⟨_, _, rfl, rfl, by decide, by decide⟩
  | bool b => cases b <;> exact ⟨_, _, rfl, rfl, by decide, by decide⟩
  | number n =>
      obtain ⟨first, rest, htoken⟩ := numeral_first n
      have hfirst : first ∈ n.token := by
        rw [htoken]
        exact List.mem_cons_self
      obtain ⟨hspace, hbracket, hbrace, -⟩ := word_plain (n.word first hfirst)
      exact ⟨first, rest, htoken, hspace, hbracket, hbrace⟩
  | string text => exact ⟨_, _, rfl, rfl, by decide, by decide⟩
  | array items => cases items <;> exact ⟨_, _, rfl, rfl, by decide, by decide⟩
  | object members =>
      cases members with
      | nil => exact ⟨_, _, rfl, rfl, by decide, by decide⟩
      | cons m members => exact ⟨_, _, rfl, rfl, by decide, by decide⟩

theorem named_numeral (n : Numeral) : named n.token = none := by
  have hname : ∀ name, isNumeral name = false → n.token ≠ name := by
    intro name hname heq
    have hvalid := n.valid
    rw [heq, hname] at hvalid
    cases hvalid
  rw [named, if_neg (hname _ rfl), if_neg (hname _ rfl), if_neg (hname _ rfl)]

theorem readScalar_number (n : Numeral) {rest : List Char} (hstop : Stops rest) :
    readScalar (n.token ++ rest) = some (.number n, rest) := by
  obtain ⟨htake, hdrop⟩ := takeWhile_word n.word hstop
  simp only [readScalar, htake, hdrop, named_numeral, n.valid]
  rfl

theorem readValue_word {token rest : List Char} (h : ∀ c ∈ token, isWord c = true)
    (hne : token ≠ []) (fuel : Nat) :
    readValue (fuel + 1) (token ++ rest) = readScalar (token ++ rest) := by
  cases token with
  | nil => exact absurd rfl hne
  | cons c others =>
      obtain ⟨hspace, -, -, hquote, hbracket, hbrace⟩ := word_plain (h c List.mem_cons_self)
      rw [List.cons_append, readValue, skip_cons hspace]
      split
      next heq => exact absurd (List.cons.inj heq).1 hquote
      next heq => exact absurd (List.cons.inj heq).1 hbracket
      next heq => exact absurd (List.cons.inj heq).1 hbrace
      next => rfl

theorem stops_items (items : List Value) (rest : List Char) :
    Stops (printItems form items ++ rest) := by
  cases items <;> rintro c ⟨⟩ <;> rfl

theorem stops_members (members : List (String × Value)) (rest : List Char) :
    Stops (printMembers form members ++ rest) := by
  cases members with
  | nil => rintro c ⟨⟩; rfl
  | cons m members => rintro c ⟨⟩; rfl

/-- What a reader has to answer on a text with `value` in front. -/
def answer {α : Type} (good : Bool) (value : α) (rest : List Char) : Option (α × List Char) :=
  if good then some (value, rest) else none

theorem answer_bind {α β : Type} {good more : Bool} {value : α} {rest last : List Char} {b : β}
    {next : α × List Char → Option (β × List Char)}
    (h : next (value, rest) = answer more b last) :
    (answer good value rest >>= next) = answer (good && more) b last := by
  cases good with
  | false => rfl
  | true => exact h

/-! One step of each reader, behind the symbol that opens it. -/

theorem readItems_next (fuel : Nat) (text : List Char) :
    readItems (fuel + 1) (',' :: text) = (do
      let (item, rest) ← readValue fuel text
      let (items, rest) ← readItems fuel rest
      some (item :: items, rest)) := rfl

theorem readMembers_next (fuel : Nat) (text : List Char) :
    readMembers (fuel + 1) (',' :: text) = (do
      let (first, rest) ← readMember fuel text
      let (members, rest) ← readMembers fuel rest
      some (first :: members, rest)) := rfl

theorem readMember_key (fuel : Nat) (key : String) (text : List Char) :
    readMember (fuel + 1) (literal form key ++ ':' :: text) = (do
      let (key, rest) ← readString (key.toList.flatMap form ++ '"' :: ':' :: text)
      match skip rest with
      | ':' :: rest => do
          let (value, rest) ← readValue fuel rest
          some ((key, value), rest)
      | _ => none) := by
  rw [literal, List.cons_append, List.append_assoc]
  rfl

theorem readValue_array (fuel : Nat) {text : List Char} (h : Opens text) :
    readValue (fuel + 1) ('[' :: text) = (do
      let (item, rest) ← readValue fuel text
      let (items, rest) ← readItems fuel rest
      some (.array (item :: items), rest)) := by
  obtain ⟨first, others, rfl, hspace, hclose, -⟩ := h
  rw [readValue, skip_cons rfl]
  simp only [skip_cons hspace]
  split
  next heq => exact absurd (List.cons.inj heq).1 hclose
  next => rfl

theorem readValue_object (fuel : Nat) {text : List Char} (h : Opens text) :
    readValue (fuel + 1) ('\x7b' :: text) = (do
      let (first, rest) ← readMember fuel text
      let (members, rest) ← readMembers fuel rest
      some (.object (first :: members), rest)) := by
  obtain ⟨first, others, rfl, hspace, -, hclose⟩ := h
  rw [readValue, skip_cons rfl]
  simp only [skip_cons hspace]
  split
  next heq => exact absurd (List.cons.inj heq).1 hclose
  next => rfl

theorem answer_some {α β : Type} {good : Bool} {value : α} {rest : List Char} (f : α → β) :
    ((answer good value rest).bind fun (value, rest) => some (f value, rest)) =
      answer good (f value) rest := by
  cases good <;> rfl

theorem readScalar_name {token rest : List Char} (h : ∀ c ∈ token, isWord c = true)
    (hstop : Stops rest) {v : Value} (hnamed : named token = some v) :
    readScalar (token ++ rest) = some (v, rest) := by
  obtain ⟨htake, hdrop⟩ := takeWhile_word h hstop
  simp only [readScalar, htake, hdrop, hnamed]

theorem readMember_print (h : Readable form ok) (key : String) {value : Value} {fuel : Nat}
    {rest : List Char}
    (hvalue : readValue fuel (print form value ++ rest) = answer (value.all ok) value rest) :
    readMember (fuel + 1) (literal form key ++ ':' :: (print form value ++ rest)) =
      answer (key.toList.all ok && value.all ok) (key, value) rest := by
  rw [readMember_key, readString_literal h]
  apply answer_bind
  simp only [skip_cons (c := ':') rfl, hvalue]
  exact answer_some _

mutual

theorem readValue_print (h : Readable form ok) (v : Value) (fuel : Nat) (rest : List Char)
    (hfuel : (print form v).length ≤ fuel) (hstop : Stops rest) :
    readValue fuel (print form v ++ rest) = answer (v.all ok) v rest := by
  obtain ⟨first, others, hprint, -⟩ : Opens (print form v) := opens_print v
  obtain ⟨n, rfl⟩ : ∃ n, fuel = n + 1 := by
    rw [hprint, List.length_cons] at hfuel
    exact ⟨fuel - 1, by omega⟩
  match v with
  | .null =>
      have hword := List.all_eq_true.mp (show ['n', 'u', 'l', 'l'].all isWord = true from rfl)
      rw [print, readValue_word hword (List.cons_ne_nil _ _), readScalar_name hword hstop rfl]
      rfl
  | .bool true =>
      have hword := List.all_eq_true.mp (show ['t', 'r', 'u', 'e'].all isWord = true from rfl)
      rw [print, readValue_word hword (List.cons_ne_nil _ _), readScalar_name hword hstop rfl]
      rfl
  | .bool false =>
      have hword := List.all_eq_true.mp (show ['f', 'a', 'l', 's', 'e'].all isWord = true from rfl)
      rw [print, readValue_word hword (List.cons_ne_nil _ _), readScalar_name hword hstop rfl]
      rfl
  | .number t =>
      obtain ⟨c, token, htoken⟩ := numeral_first t
      have hne : t.token ≠ [] := by
        rw [htoken]
        exact List.cons_ne_nil c token
      rw [print, readValue_word t.word hne, readScalar_number t hstop]
      rfl
  | .string text =>
      rw [print, literal, List.cons_append, List.append_assoc, List.singleton_append, readValue,
        skip_cons rfl]
      simp only [readString_literal h]
      rw [Value.all, answer]
      split <;> rfl
  | .array [] => rfl
  | .object [] => rfl
  | .array (item :: items) =>
      simp only [print, List.length_cons, List.length_append] at hfuel
      have hitem := readValue_print h item n (printItems form items ++ rest) (by omega)
        (stops_items items rest)
      have hitems := readItems_print h items n rest (by omega)
      have hopens : Opens (print form item ++ (printItems form items ++ rest)) :=
        opens_append (opens_print item) _
      rw [print, List.cons_append, List.append_assoc, readValue_array n hopens, hitem, Value.all,
        allItems]
      apply answer_bind
      dsimp only
      rw [hitems]
      exact answer_some fun items => Value.array (item :: items)
  | .object ((key, value) :: members) =>
      simp only [print, List.length_cons, List.length_append] at hfuel
      obtain ⟨m, rfl⟩ : ∃ m, n = m + 1 := ⟨n - 1, by omega⟩
      have hmember := readMember_print h key <|
        readValue_print h value m (printMembers form members ++ rest) (by omega)
          (stops_members members rest)
      have hmembers := readMembers_print h members (m + 1) rest (by omega)
      have hopens : Opens (literal form key ++
          ':' :: (print form value ++ (printMembers form members ++ rest))) :=
        opens_append ⟨_, _, rfl, rfl, by decide, by decide⟩ _
      rw [print, List.cons_append, List.append_assoc, List.cons_append, List.append_assoc,
        readValue_object (m + 1) hopens, hmember, Value.all, allMembers, ← Bool.and_assoc]
      apply answer_bind
      dsimp only
      rw [hmembers]
      exact answer_some fun members => Value.object ((key, value) :: members)

theorem readItems_print (h : Readable form ok) (items : List Value) (fuel : Nat)
    (rest : List Char) (hfuel : (printItems form items).length ≤ fuel) :
    readItems fuel (printItems form items ++ rest) = answer (allItems ok items) items rest := by
  obtain ⟨n, rfl⟩ : ∃ n, fuel = n + 1 := by
    cases items <;> rw [printItems, List.length_cons] at hfuel <;> exact ⟨fuel - 1, by omega⟩
  match items with
  | [] => rfl
  | item :: items =>
      simp only [printItems, List.length_cons, List.length_append] at hfuel
      have hitem := readValue_print h item n (printItems form items ++ rest) (by omega)
        (stops_items items rest)
      have hitems := readItems_print h items n rest (by omega)
      rw [printItems, List.cons_append, List.append_assoc, readItems_next, hitem, allItems]
      apply answer_bind
      dsimp only
      rw [hitems]
      exact answer_some _

theorem readMembers_print (h : Readable form ok) (members : List (String × Value)) (fuel : Nat)
    (rest : List Char) (hfuel : (printMembers form members).length ≤ fuel) :
    readMembers fuel (printMembers form members ++ rest) =
      answer (allMembers ok members) members rest := by
  obtain ⟨n, rfl⟩ : ∃ n, fuel = n + 1 := by
    cases members with
    | nil => exact ⟨fuel - 1, by simp only [printMembers, List.length_cons] at hfuel; omega⟩
    | cons m members =>
        exact ⟨fuel - 1, by simp only [printMembers, List.length_cons] at hfuel; omega⟩
  match members with
  | [] => rfl
  | (key, value) :: members =>
      simp only [printMembers, List.length_cons, List.length_append] at hfuel
      obtain ⟨m, rfl⟩ : ∃ m, n = m + 1 := ⟨n - 1, by omega⟩
      have hmember := readMember_print h key <|
        readValue_print h value m (printMembers form members ++ rest) (by omega)
          (stops_members members rest)
      have hmembers := readMembers_print h members (m + 1) rest (by omega)
      rw [printMembers, List.cons_append, List.append_assoc, List.cons_append, List.append_assoc,
        readMembers_next, hmember, allMembers, ← Bool.and_assoc]
      apply answer_bind
      dsimp only
      rw [hmembers]
      exact answer_some _

end

/-- The reader gives a printed value back when its strings are of the right kind,
and no value at all otherwise. -/
theorem parse_print (h : Readable form ok) (v : Value) :
    parse (print form v) = if v.all ok then some v else none := by
  have hread := readValue_print h v (print form v).length [] (Nat.le_refl _) (by rintro c ⟨⟩)
  rw [List.append_nil] at hread
  rw [parse, hread, answer]
  split <;> rfl

end Written

end JsonRead
