import Mars.Core.JsonPretty
import Mars.Core.JsonText

/-! # Records in JSON

A record is an object with a member for each field. The members stand in any order,
each at most once, and a member that is no field is read over. Numbers are whole,
and a map from strings to strings is an object in which the last of equal keys counts.
-/

namespace JsonRead
open JsonText (escapeChar integer)

/-! ## Strings -/

/-- Every character is read back from its escaped form. -/
theorem readable_escapeChar : Readable escapeChar (fun _ => true) where
  read := by
    intro c rest
    by_cases hc : c ∈ JsonText.escaped
    · have hall : ∀ d ∈ JsonText.escaped,
          ∀ rest, readChar (escapeChar d ++ rest) = some (d, rest) := by
        intro d hd rest
        have hd : d ∈ JsonText.escaped := hd
        simp only [JsonText.escaped, List.range, List.range.loop, List.map_cons, List.map_nil,
          List.mem_cons, List.not_mem_nil, or_false] at hd
        rcases hd with rfl | rfl | rfl | rfl | rfl | rfl | rfl | rfl | rfl | rfl | rfl | rfl | rfl |
          rfl | rfl | rfl | rfl | rfl | rfl | rfl | rfl | rfl | rfl | rfl | rfl | rfl | rfl | rfl |
          rfl | rfl | rfl | rfl | rfl | rfl <;> rfl
      exact hall c hc rest
    · have hslash : c ≠ '\\' := fun heq => hc (heq ▸ by decide)
      have hquote : c ≠ '"' := fun heq => hc (heq ▸ by decide)
      have hlow : ¬ c.toNat < 32 := fun hlow => hc (JsonText.mem_escaped hlow)
      rw [JsonText.escapeChar_plain hc, List.singleton_append, readChar.eq_def]
      simp only [if_neg hslash, hquote, hlow, or_self, if_false, if_true]
  first := JsonText.escapeChar_first

mutual

theorem all_true : (v : Value) → v.all (fun _ => true) = true
  | .null => rfl
  | .bool _ => rfl
  | .number _ => rfl
  | .string _ => List.all_eq_true.mpr fun _ _ => rfl
  | .array items => allItems_true items
  | .object members => allMembers_true members

theorem allItems_true : (items : List Value) → allItems (fun _ => true) items = true
  | [] => rfl
  | item :: items => by rw [allItems, all_true item, allItems_true items, Bool.and_self]

theorem allMembers_true :
    (members : List (String × Value)) → allMembers (fun _ => true) members = true
  | [] => rfl
  | (key, value) :: members => by
      have hkey : key.toList.all (fun _ => true) = true := List.all_eq_true.mpr fun _ _ => rfl
      rw [allMembers, hkey, all_true value, allMembers_true members]
      rfl

end

theorem parse_pretty_escaped (v : Value) : parse (pretty escapeChar 0 v) = some v := by
  rw [parse_pretty readable_escapeChar, if_pos (all_true v)]

/-! ## Whole numbers -/

theorem decimal_head {n : Nat} (h : 0 < n) : ∃ c rest, Text.decimal n = c :: rest ∧ c ≠ '0' := by
  induction n using Nat.strongRecOn with
  | ind n ih =>
      by_cases hsmall : n < 10
      · rw [Text.decimal, Nat.toDigits_of_lt_base hsmall]
        refine ⟨_, [], rfl, ?_⟩
        have hall : ∀ d < 10, 0 < d → Nat.digitChar d ≠ '0' := by decide
        exact hall n hsmall h
      · obtain ⟨c, rest, hfront, hne⟩ := ih (n / 10) (by omega) (by omega)
        rw [Text.decimal, Nat.toDigits_of_base_le (by decide) (by omega)]
        rw [Text.decimal] at hfront
        rw [hfront]
        exact ⟨c, rest ++ _, rfl, hne⟩

/-- What the grammar of numbers takes off the front of digits. -/
theorem afterWhole_decimal (n : Nat) : afterWhole (Text.decimal n) = some [] := by
  by_cases hn : n = 0
  · subst hn
    rfl
  · obtain ⟨c, rest, hdecimal, hne⟩ := decimal_head (Nat.pos_of_ne_zero hn)
    have hdigits : ∀ d ∈ c :: rest, d.isDigit = true := by
      intro d hd
      exact Text.isDigit_of_mem_decimal (hdecimal ▸ hd)
    obtain ⟨hc, hrest⟩ := List.forall_mem_cons.mp hdigits
    have hwhole : afterWhole (c :: rest) = afterDigits (c :: rest) := by
      rw [afterWhole]
      rintro rest' heq
      exact hne (List.cons.inj heq).1
    have hdrop : rest.dropWhile Char.isDigit = [] := by simpa using hrest
    rw [hdecimal, hwhole, afterDigits, if_pos hc, hdrop]

theorem decimal_cons (n : Nat) : ∃ c rest, Text.decimal n = c :: rest ∧ c.isDigit = true := by
  cases hdecimal : Text.decimal n with
  | nil => exact absurd hdecimal Nat.toDigits_ne_nil
  | cons c rest =>
      exact ⟨c, rest, rfl, Text.isDigit_of_mem_decimal (hdecimal ▸ List.mem_cons_self)⟩

theorem isNumeral_integer (i : Int) : isNumeral (integer i) = true := by
  have hvalid : ∀ n, ((afterWhole (Text.decimal n) >>= afterFraction >>= afterExponent) ==
      some []) = true := by
    intro n
    rw [afterWhole_decimal]
    rfl
  cases i with
  | ofNat n =>
      obtain ⟨c, rest, hdecimal, hc⟩ := decimal_cons n
      have hunsigned : isNumeral (Text.decimal n) =
          ((afterWhole (Text.decimal n) >>= afterFraction >>= afterExponent) == some []) := by
        rw [hdecimal, isNumeral]
        rintro rest' heq
        rw [(List.cons.inj heq).1] at hc
        cases hc
      exact hunsigned.trans (hvalid n)
  | negSucc n => exact hvalid (n + 1)

def numeral (i : Int) : Numeral where
  token := integer i
  word := by
    have hword : ∀ c : Char, c.isDigit = true → isWord c = true := by
      intro c hc
      simp [isWord, Char.isAlphanum, hc]
    intro c hc
    cases i with
    | ofNat n => exact hword c (Text.isDigit_of_mem_decimal hc)
    | negSucc n =>
        rcases List.mem_cons.mp hc with rfl | hc
        · rfl
        · exact hword c (Text.isDigit_of_mem_decimal hc)
  valid := isNumeral_integer i

def natural (digits : List Char) : Option Nat :=
  if digits.all Char.isDigit then some (Nat.ofDigitChars 10 digits 0) else none

/-- A number with a fraction or an exponent is not whole, and neither is `-0`. -/
def Numeral.toInt (n : Numeral) : Option Int :=
  match n.token with
  | '-' :: digits => (natural digits).bind fun n => if n = 0 then none else some (-n)
  | digits => (natural digits).map Int.ofNat

theorem natural_decimal (n : Nat) : natural (Text.decimal n) = some n := by
  have hall : (Text.decimal n).all Char.isDigit = true :=
    List.all_eq_true.mpr fun c hc => Text.isDigit_of_mem_decimal hc
  have hvalue : Nat.ofDigitChars 10 (Text.decimal n) 0 = n := Nat.ofDigitChars_ten_toDigits
  rw [natural, if_pos hall, hvalue]

theorem toInt_numeral (i : Int) : (numeral i).toInt = some i := by
  cases i with
  | ofNat n =>
      obtain ⟨c, rest, hdecimal, hc⟩ := decimal_cons n
      have hplain : (numeral (.ofNat n)).toInt = (natural (Text.decimal n)).map Int.ofNat := by
        show (match Text.decimal n with
          | '-' :: digits => (natural digits).bind fun n => if n = 0 then none else some (-n : Int)
          | digits => (natural digits).map Int.ofNat) = _
        rw [hdecimal]
        split
        next heq =>
          rw [(List.cons.inj heq).1] at hc
          cases hc
        next => rfl
      rw [hplain, natural_decimal]
      rfl
  | negSucc n =>
      have hminus : (numeral (.negSucc n)).toInt =
          (natural (Text.decimal (n + 1))).bind fun n =>
            if n = 0 then none else some (-n : Int) := rfl
      rw [hminus, natural_decimal, Option.bind_some, if_neg (Nat.succ_ne_zero n)]
      rfl

/-! ## The values of fields -/

def asString : Value → Option String
  | .string text => some text
  | _ => none

def asBool : Value → Option Bool
  | .bool b => some b
  | _ => none

/-- A whole number from `low` up to `high`, which it does not reach. -/
def asInt (low high : Int) : Value → Option Int
  | .number n => n.toInt.filter fun i => low ≤ i ∧ i < high
  | _ => none

/-- A later entry takes the place of an earlier one with its key. -/
def put (map : List (String × String)) (entry : String × String) : List (String × String) :=
  if entry.1 ∈ map.map Prod.fst then map.map fun old => if old.1 = entry.1 then entry else old
  else map ++ [entry]

def asMap : Value → Option (List (String × String))
  | .object members =>
      (members.mapM fun member => (asString member.2).map (member.1, ·)).map (·.foldl put [])
  | _ => none

theorem asInt_numeral {low high i : Int} (h : low ≤ i ∧ i < high) :
    asInt low high (.number (numeral i)) = some i := by
  simp [asInt, toInt_numeral, h]

theorem asInt_range {low high i : Int} {v : Value} (h : asInt low high v = some i) :
    low ≤ i ∧ i < high := by
  cases v with
  | number n =>
      have hfilter := (Option.filter_eq_some_iff.mp h).2
      simpa using hfilter
  | _ => cases h

theorem put_keys (map : List (String × String)) (entry : String × String) :
    (put map entry).map Prod.fst =
      if entry.1 ∈ map.map Prod.fst then map.map Prod.fst else map.map Prod.fst ++ [entry.1] := by
  unfold put
  split
  · rw [List.map_map]
    apply List.map_congr_left
    intro old _
    simp only [Function.comp]
    split
    next heq => exact heq.symm
    next => rfl
  · rw [List.map_append]
    rfl

theorem put_nodup {map : List (String × String)} (h : (map.map Prod.fst).Nodup)
    (entry : String × String) : ((put map entry).map Prod.fst).Nodup := by
  rw [put_keys]
  split
  · exact h
  next hnew =>
    rw [List.nodup_append]
    refine ⟨h, by simp, ?_⟩
    intro key hkey key' hkey' heq
    exact hnew (List.mem_singleton.mp hkey' ▸ heq ▸ hkey)

theorem foldl_put_nodup {map : List (String × String)} (h : (map.map Prod.fst).Nodup)
    (entries : List (String × String)) : ((entries.foldl put map).map Prod.fst).Nodup := by
  induction entries generalizing map with
  | nil => exact h
  | cons entry rest ih => exact ih (put_nodup h entry)

theorem foldl_put {map entries : List (String × String)}
    (h : ((map ++ entries).map Prod.fst).Nodup) : entries.foldl put map = map ++ entries := by
  induction entries generalizing map with
  | nil => simp
  | cons entry rest ih =>
      have hsplit : map ++ entry :: rest = (map ++ [entry]) ++ rest := by simp
      have hnew : entry.1 ∉ map.map Prod.fst := by
        intro hmem
        rw [List.map_append, List.nodup_append] at h
        exact h.2.2 _ hmem _ List.mem_cons_self rfl
      rw [List.foldl_cons, put, if_neg hnew, ih (hsplit ▸ h), ← hsplit]

def mapValue (map : List (String × String)) : Value :=
  .object (map.map fun entry => (entry.1, .string entry.2))

theorem asMap_mapValue {map : List (String × String)} (h : (map.map Prod.fst).Nodup) :
    asMap (mapValue map) = some map := by
  have hentries : (map.map fun entry => (entry.1, Value.string entry.2)).mapM
      (fun member => (asString member.2).map (member.1, ·)) = some map := by
    clear h
    induction map with
    | nil => rfl
    | cons entry rest ih =>
        rw [List.map_cons, List.mapM_cons, ih]
        rfl
  have hput : map.foldl put [] = [] ++ map := foldl_put h
  rw [mapValue, asMap, hentries, Option.map_some, hput, List.nil_append]

theorem asMap_nodup {v : Value} {map : List (String × String)} (h : asMap v = some map) :
    (map.map Prod.fst).Nodup := by
  cases v with
  | object members =>
      obtain ⟨entries, -, rfl⟩ := Option.map_eq_some_iff.mp h
      have hnil : (([] : List (String × String)).map Prod.fst).Nodup := List.nodup_nil
      exact foldl_put_nodup hnil entries
  | _ => cases h

/-! ## Fields -/

/-- A field's value, if it has one; no answer where the field stands twice. -/
def member (members : List (String × Value)) (name : String) : Option (Option Value) :=
  match members.filter fun member => member.1 = name with
  | [] => some none
  | [found] => some (some found.2)
  | _ => none

def required {α : Type} (read : Value → Option α) (members : List (String × Value))
    (name : String) : Option α :=
  (member members name).bind fun found => found.bind read

def defaulted {α : Type} (read : Value → Option α) (default : α)
    (members : List (String × Value)) (name : String) : Option α :=
  (member members name).bind fun found => match found with
    | none => some default
    | some value => read value

end JsonRead
