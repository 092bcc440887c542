import Mars.Core.PrefixCode
import Mars.Core.Text

/-! # Strings and numbers in JSON

The compact form: a string in quotes with quotes, backslashes and control
characters escaped, a number in decimal digits, the items of a list with commas
between them.
-/

namespace JsonText
open PrefixCode

/-- A control character without a letter of its own has two hexadecimal digits. -/
def escapeChar (c : Char) : List Char :=
  if c = '"' then ['\\', '"']
  else if c = '\\' then ['\\', '\\']
  else if c = '\x08' then ['\\', 'b']
  else if c = '\x0c' then ['\\', 'f']
  else if c = '\n' then ['\\', 'n']
  else if c = '\r' then ['\\', 'r']
  else if c = '\t' then ['\\', 't']
  else if c.toNat < 32 then
    ['\\', 'u', '0', '0', Nat.digitChar (c.toNat / 16), Nat.digitChar (c.toNat % 16)]
  else [c]

def quoted (text : String) : List Char := '"' :: (text.toList.flatMap escapeChar ++ ['"'])

def number (n : Nat) : List Char := Text.decimal n

def integer : Int → List Char
  | .ofNat n => number n
  | .negSucc n => '-' :: number (n + 1)

/-- The items behind the first one. -/
def others {α : Type} (item : α → List Char) (items : List α) : List Char :=
  items.flatMap (fun a => ',' :: item a) ++ [']']

def list {α : Type} (item : α → List Char) : List α → List Char
  | [] => ['[', ']']
  | a :: rest => '[' :: (item a ++ others item rest)

/-! ## Strings -/

def escaped : List Char := '"' :: '\\' :: (List.range 32).map Char.ofNat

theorem mem_escaped {c : Char} (h : c.toNat < 32) : c ∈ escaped := by
  have hrange : c ∈ (List.range 32).map Char.ofNat :=
    List.mem_map.mpr ⟨c.toNat, List.mem_range.mpr h, Char.ofNat_toNat c⟩
  exact List.mem_cons_of_mem _ (List.mem_cons_of_mem _ hrange)

theorem escapeChar_plain {c : Char} (h : c ∉ escaped) : escapeChar c = [c] := by
  have hne : ∀ d ∈ escaped, c ≠ d := fun d hd heq => h (heq ▸ hd)
  unfold escapeChar
  rw [if_neg (hne _ (by decide)), if_neg (hne _ (by decide)), if_neg (hne _ (by decide)),
    if_neg (hne _ (by decide)), if_neg (hne _ (by decide)), if_neg (hne _ (by decide)),
    if_neg (hne _ (by decide)), if_neg fun hlow => h (mem_escaped hlow)]

theorem escapeChar_head {c : Char} (h : c ∈ escaped) : (escapeChar c).head? = some '\\' := by
  have hall : (escaped.all fun c => (escapeChar c).head? == some '\\') = true := rfl
  simpa using List.all_eq_true.mp hall c h

theorem escaped_prefix {c d : Char} (hc : c ∈ escaped) (hd : d ∈ escaped)
    (h : escapeChar c <+: escapeChar d) : c = d := by
  have hall : (escaped.all fun c => escaped.all fun d =>
      !(escapeChar c).isPrefixOf (escapeChar d) || c == d) = true := by decide +kernel
  have hpair := List.all_eq_true.mp (List.all_eq_true.mp hall c hc) d hd
  rw [List.isPrefixOf_iff_prefix.mpr h] at hpair
  simpa using hpair

theorem escapeChar_ne_nil (c : Char) : escapeChar c ≠ [] := by
  by_cases h : c ∈ escaped
  · intro hnil
    have hhead := escapeChar_head h
    rw [hnil] at hhead
    cases hhead
  · rw [escapeChar_plain h]
    exact List.cons_ne_nil _ _

theorem reads_escapeChar : Reads escapeChar id := by
  apply reads_of_prefix
  intro c d hprefix
  have hhead : (escapeChar c).head? = (escapeChar d).head? := by
    obtain ⟨tail, htail⟩ := hprefix
    rw [← htail]
    cases hc : escapeChar c with
    | nil => exact absurd hc (escapeChar_ne_nil c)
    | cons x rest => rfl
  by_cases hc : c ∈ escaped
  · by_cases hd : d ∈ escaped
    · exact escaped_prefix hc hd hprefix
    · rw [escapeChar_head hc, escapeChar_plain hd] at hhead
      exact absurd (by decide) ((Option.some.inj hhead) ▸ hd)
  · by_cases hd : d ∈ escaped
    · rw [escapeChar_head hd, escapeChar_plain hc] at hhead
      exact absurd (by decide) ((Option.some.inj hhead).symm ▸ hc)
    · rw [escapeChar_plain hc, escapeChar_plain hd] at hhead
      exact Option.some.inj hhead

theorem escapeChar_first (c : Char) : ∃ first rest, escapeChar c = first :: rest ∧ first ≠ '"' := by
  by_cases h : c ∈ escaped
  · have hhead := escapeChar_head h
    cases hc : escapeChar c with
    | nil => exact absurd hc (escapeChar_ne_nil c)
    | cons first rest =>
        rw [hc] at hhead
        exact ⟨first, rest, rfl, fun heq => by rw [heq] at hhead; cases hhead⟩
  · exact ⟨c, [], escapeChar_plain h, fun heq => h (heq ▸ by decide)⟩

theorem reads_quoted : Reads quoted id := by
  have hinner := (reads_escapeChar.flatMap escapeChar_first).comp String.toList
  intro a b s t heq
  obtain ⟨hsame, hrest⟩ := hinner (List.cons.inj heq).2
  exact ⟨String.toList_injective hsame, hrest⟩

/-- Escaping makes nothing shorter. -/
theorem length_le_quoted (text : String) : text.toList.length + 2 ≤ (quoted text).length := by
  have hchars : ∀ chars : List Char, chars.length ≤ (chars.flatMap escapeChar).length := by
    intro chars
    induction chars with
    | nil => exact Nat.le_refl _
    | cons c rest ih =>
        have hc : 0 < (escapeChar c).length := List.length_pos_iff.mpr (escapeChar_ne_nil c)
        rw [List.flatMap_cons, List.length_append, List.length_cons]
        omega
  have htext := hchars text.toList
  simp only [quoted, List.length_cons, List.length_append, List.length_nil]
  omega

/-! ## Numbers and lists -/

theorem number_injective {n m : Nat} (h : number n = number m) : n = m := by
  have hn : Nat.ofDigitChars 10 (Text.decimal n) 0 = n := Nat.ofDigitChars_ten_toDigits
  have hm : Nat.ofDigitChars 10 (Text.decimal m) 0 = m := Nat.ofDigitChars_ten_toDigits
  rw [← hn, ← hm]
  exact congrArg (Nat.ofDigitChars 10 · 0) h

theorem not_mem_number {c : Char} (h : c.isDigit = false) (n : Nat) : c ∉ number n := by
  intro hmem
  rw [Text.isDigit_of_mem_decimal hmem] at h
  cases h

/-- A number ends where something other than a digit comes. -/
theorem reads_number {stop : Char} (h : stop.isDigit = false) :
    Reads (fun n => number n ++ [stop]) id := by
  exact reads_stopped (fun _ _ => number_injective) (not_mem_number h)

theorem integer_injective {i j : Int} (h : integer i = integer j) : i = j := by
  have hminus : ∀ n : Nat, '-' ∉ number n := not_mem_number rfl
  cases i with
  | ofNat n =>
      cases j with
      | ofNat m => exact congrArg Int.ofNat (number_injective h)
      | negSucc m => exact absurd ((show number n = _ from h) ▸ List.mem_cons_self) (hminus n)
  | negSucc n =>
      cases j with
      | ofNat m => exact absurd ((show _ = number m from h) ▸ List.mem_cons_self) (hminus m)
      | negSucc m =>
          have hsucc : n + 1 = m + 1 := number_injective (List.cons.inj h).2
          exact congrArg Int.negSucc (Nat.succ.inj hsucc)

theorem reads_integer {stop : Char} (h : stop.isDigit = false) (hstop : stop ≠ '-') :
    Reads (fun i => integer i ++ [stop]) id := by
  apply reads_stopped fun _ _ => integer_injective
  intro i hmem
  cases i with
  | ofNat n => exact not_mem_number h n hmem
  | negSucc n =>
      rcases List.mem_cons.mp hmem with heq | hmem
      · exact hstop heq
      · exact not_mem_number h _ hmem

theorem reads_list {α : Type} {item : α → List Char} (h : Reads item id)
    (hitem : ∀ a, ∃ first rest, item a = first :: rest ∧ first ≠ ']') : Reads (list item) id := by
  have hothers : Reads (others item) id := by
    apply Reads.flatMap
    · exact fun a b s t heq => h (List.cons.inj heq).2
    · exact fun a => ⟨',', item a, rfl, by decide⟩
  intro items later s t heq
  cases items with
  | nil =>
      cases later with
      | nil => exact ⟨rfl, (List.cons.inj (List.cons.inj heq).2).2⟩
      | cons b rest =>
          obtain ⟨first, tail, hb, hne⟩ := hitem b
          simp only [list, hb, List.cons_append, List.cons.injEq, true_and] at heq
          exact absurd heq.1.symm hne
  | cons a rest =>
      cases later with
      | nil =>
          obtain ⟨first, tail, ha, hne⟩ := hitem a
          simp only [list, ha, List.cons_append, List.cons.injEq, true_and] at heq
          exact absurd heq.1 hne
      | cons b rest' =>
          simp only [list, List.cons_append, List.append_assoc, List.cons.injEq, true_and] at heq
          obtain ⟨hsame, hrest⟩ := h heq
          obtain ⟨hlater, hlast⟩ := hothers hrest
          exact ⟨by rw [show a = b from hsame, show rest = rest' from hlater], hlast⟩

end JsonText
