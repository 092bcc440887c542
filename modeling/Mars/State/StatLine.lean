import Mars.State

/-! # The start time in a stat line

The name of a command is text of its own choosing and stands in the middle of the
line. What follows it has no closing parenthesis, so the last one of the line is the
one behind the name.
-/

namespace Mars.State
open Text

/-- The line of a process: `fields` are those from the fourth on. -/
def statLine (pid : Int) (name : List Char) (state : Char) (fields : List Int) : List Char :=
  decimalInt pid ++ ' ' :: '(' :: name ++
    ')' :: ([state] :: fields.map decimalInt).flatMap (' ' :: ·)

/-- A field as a number of 64 bits. -/
def asU64 (field : Int) : Option Nat :=
  if 0 ≤ field ∧ field < 2 ^ 64 then some field.toNat else none

/-! ## Words behind the last parenthesis -/

theorem paren_not_mem_decimalInt (i : Int) : ')' ∉ decimalInt i := by
  intro h
  rcases mem_decimalInt h with h | h <;> exact absurd h (by decide)

/-- Whatever stands in front, the twentieth word behind the parenthesis is read. -/
theorem parseStartTime_words (front : List Char) {words : List (List Char)}
    (hwords : ∀ w ∈ words, IsWord w) (hparen : ∀ w ∈ words, ')' ∉ w) {blanks : List Char}
    (hblanks : ∀ c ∈ blanks, isWhitespace c = true) :
    parseStartTime (front ++ ')' :: (words.flatMap (' ' :: ·) ++ blanks)) =
      words[19]?.bind parseU64 := by
  have htail : ')' ∉ words.flatMap (' ' :: ·) ++ blanks := by
    intro hmem
    rcases List.mem_append.mp hmem with hmem | hmem
    · obtain ⟨w, hw, hin⟩ := List.mem_flatMap.mp hmem
      rcases List.mem_cons.mp hin with hin | hin
      · cases hin
      · exact hparen w hw hin
    · exact absurd (hblanks _ hmem) (by decide)
  rw [parseStartTime, afterLast_append front htail, Option.bind_eq_bind, Option.bind_some,
    splitWhitespace_words hwords hblanks]

theorem parseU64_decimalInt (field : Int) : parseU64 (decimalInt field) = asU64 field := by
  cases field with
  | ofNat n =>
      rw [decimalInt, parseU64, parseUnsigned_decimal_eq, asU64]
      have hiff : n < 2 ^ 64 ↔ 0 ≤ Int.ofNat n ∧ Int.ofNat n < 2 ^ 64 := by
        rw [Int.ofNat_eq_natCast]
        omega
      simp only [hiff]
      rfl
  | negSucc n =>
      have hneg : ¬ (0 ≤ Int.negSucc n ∧ Int.negSucc n < 2 ^ 64) := by omega
      rw [decimalInt, asU64, if_neg hneg]
      rfl

/-! ## Every line -/

theorem isWord_letter {state : Char} (h : state.isAlpha = true) : IsWord [state] := by
  have hrange : 65 ≤ state.toNat ∧ state.toNat ≤ 122 := by
    change (decide (65 ≤ state.val ∧ state.val ≤ 90) ||
      decide (97 ≤ state.val) && decide (state.val ≤ 122)) = true at h
    simp only [Bool.or_eq_true, Bool.and_eq_true, decide_eq_true_eq,
      UInt32.le_iff_toNat_le] at h
    have hupper : 65 ≤ state.val.toNat ∧ state.val.toNat ≤ 90 ∨
        97 ≤ state.val.toNat ∧ state.val.toNat ≤ 122 := h
    show 65 ≤ state.val.toNat ∧ state.val.toNat ≤ 122
    omega
  refine ⟨List.cons_ne_nil _ _, fun c hc => ?_⟩
  obtain rfl := List.mem_singleton.mp hc
  simp only [isWhitespace, Bool.or_eq_false_iff, Bool.and_eq_false_iff, decide_eq_false_iff_not,
    beq_eq_false_iff_ne, ne_eq]
  omega

theorem asU64_toNat (start : UInt64) : asU64 start.toNat = some start.toNat := by
  have hfits : (start.toNat : Int) < 2 ^ 64 := by
    have := start.toNat_lt
    omega
  rw [asU64, if_pos ⟨Int.natCast_nonneg _, hfits⟩, Int.toNat_natCast]

/-- Whatever pid, name and letter stand in front, the start time is field 22, with
or without a line feed at the end. The kernel writes 64 bits there. -/
theorem startTime_field (pid : Int) (name : List Char) {state : Char} {fields : List Int}
    {blanks : List Char} (hstate : state.isAlpha = true) (hfields : 19 ≤ fields.length)
    (hblanks : ∀ c ∈ blanks, isWhitespace c = true) :
    parseStartTime (statLine pid name state fields ++ blanks) = asU64 fields[18] ∧
      ∀ start : UInt64, fields[18] = start.toNat →
        parseStartTime (statLine pid name state fields ++ blanks) = some start.toNat := by
  have hwords : ∀ w ∈ [state] :: fields.map decimalInt, IsWord w := by
    intro w hw
    rcases List.mem_cons.mp hw with rfl | hw
    · exact isWord_letter hstate
    · obtain ⟨i, -, rfl⟩ := List.mem_map.mp hw
      exact isWord_decimalInt i
  have hparen : ∀ w ∈ [state] :: fields.map decimalInt, ')' ∉ w := by
    intro w hw
    rcases List.mem_cons.mp hw with rfl | hw
    · rw [List.mem_singleton]
      rintro rfl
      cases hstate
    · obtain ⟨i, -, rfl⟩ := List.mem_map.mp hw
      exact paren_not_mem_decimalInt i
  have hline : statLine pid name state fields ++ blanks =
      (decimalInt pid ++ ' ' :: '(' :: name) ++
        ')' :: (([state] :: fields.map decimalInt).flatMap (' ' :: ·) ++ blanks) := by
    rw [statLine, List.append_assoc, List.cons_append]
  have hfield : ([state] :: fields.map decimalInt)[19]? = some (decimalInt fields[18]) := by
    rw [List.getElem?_cons_succ, List.getElem?_map, List.getElem?_eq_getElem hfields]
    rfl
  have hread : parseStartTime (statLine pid name state fields ++ blanks) = asU64 fields[18] := by
    rw [hline, parseStartTime_words _ hwords hparen hblanks, hfield, Option.bind_some,
      parseU64_decimalInt]
  refine ⟨hread, fun start hstart => ?_⟩
  rw [hread, hstart, asU64_toNat]

/-- A name that imitates the rest of the line. -/
theorem startTime_field_imitated :
    parseStartTime (statLine 77 ") S 1 (".toList 'S'
        [1, 77, 77, 0, -1, 4194304, 1, 2, 3, 4, 5, 6, 7, 8, 20, 0, 1, 0, 555, 1, 2, 3] ++ ['\n']) =
      some 555 :=
  (startTime_field 77 _ rfl (by decide) (List.all_eq_true.mp rfl)).2 555 rfl

end Mars.State
