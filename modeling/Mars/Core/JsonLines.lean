import Mars.Core.JsonRecord
import Mars.Core.TextLines

/-! # JSON on one line

The compact form has no line break, so that texts can be told apart by lines.
-/

namespace JsonRead
open JsonText Text

theorem unbroken_escapeChar (c : Char) : Unbroken (escapeChar c) := by
  by_cases hc : c ∈ escaped
  · have hall : (escaped.all fun c => (escapeChar c).all (· ≠ '\n')) = true := by decide +kernel
    intro d hd
    have hone := List.all_eq_true.mp (List.all_eq_true.mp hall c hc) d hd
    simpa using hone
  · rw [escapeChar_plain hc]
    refine unbroken_cons ?_ (by intro d hd; cases hd)
    rintro rfl
    exact hc (by decide)

theorem unbroken_literal (text : String) : Unbroken (literal escapeChar text) := by
  refine unbroken_cons (by decide) (unbroken_append ?_ (unbroken_cons (by decide) ?_))
  · intro c hc
    obtain ⟨d, -, hd⟩ := List.mem_flatMap.mp hc
    exact unbroken_escapeChar d c hd
  · intro d hd
    cases hd

theorem unbroken_numeral (n : Numeral) : Unbroken n.token := by
  intro c hc hbreak
  have hword := n.word c hc
  rw [hbreak] at hword
  cases hword

mutual

theorem unbroken_print : (v : Value) → Unbroken (print escapeChar v)
  | .null => by simp [print, Unbroken]
  | .bool true => by simp [print, Unbroken]
  | .bool false => by simp [print, Unbroken]
  | .number n => unbroken_numeral n
  | .string text => unbroken_literal text
  | .array [] => by simp [print, Unbroken]
  | .array (item :: items) => by
      rw [print]
      exact unbroken_cons (by decide)
        (unbroken_append (unbroken_print item) (unbroken_printItems items))
  | .object [] => by simp [print, Unbroken]
  | .object ((key, value) :: members) => by
      rw [print]
      exact unbroken_cons (by decide) (unbroken_append (unbroken_literal key)
        (unbroken_cons (by decide)
          (unbroken_append (unbroken_print value) (unbroken_printMembers members))))

theorem unbroken_printItems : (items : List Value) → Unbroken (printItems escapeChar items)
  | [] => by simp [printItems, Unbroken]
  | item :: items => by
      rw [printItems]
      exact unbroken_cons (by decide)
        (unbroken_append (unbroken_print item) (unbroken_printItems items))

theorem unbroken_printMembers :
    (members : List (String × Value)) → Unbroken (printMembers escapeChar members)
  | [] => by simp [printMembers, Unbroken]
  | (key, value) :: members => by
      rw [printMembers]
      exact unbroken_cons (by decide) (unbroken_append (unbroken_literal key)
        (unbroken_cons (by decide)
          (unbroken_append (unbroken_print value) (unbroken_printMembers members))))

end

end JsonRead
