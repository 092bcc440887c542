import Mathlib.Data.List.Basic

/-! # Lines that each end in a line break -/

namespace Text

def joinLines (lines : List (List Char)) : List Char := lines.flatMap fun line => line ++ ['\n']

/-- No line is broken. -/
def Unbroken (line : List Char) : Prop := ∀ c ∈ line, c ≠ '\n'

instance decidableUnbroken (line : List Char) : Decidable (Unbroken line) :=
  decidable_of_iff (line.all fun c => c ≠ '\n') (by simp [Unbroken])

theorem unbroken_append {front back : List Char} (hfront : Unbroken front) (hback : Unbroken back) :
    Unbroken (front ++ back) := by
  intro c hc
  rcases List.mem_append.mp hc with hc | hc
  · exact hfront c hc
  · exact hback c hc

theorem unbroken_cons {c : Char} {rest : List Char} (hc : c ≠ '\n') (hrest : Unbroken rest) :
    Unbroken (c :: rest) := by
  intro d hd
  rcases List.mem_cons.mp hd with rfl | hd
  · exact hc
  · exact hrest d hd

theorem splitOn_joinLines {lines : List (List Char)} (h : ∀ line ∈ lines, Unbroken line) :
    (joinLines lines).splitOn '\n' = lines ++ [[]] := by
  induction lines with
  | nil => rfl
  | cons line rest ih =>
      obtain ⟨hline, hrest⟩ := List.forall_mem_cons.mp h
      have hjoin : joinLines (line :: rest) = line ++ '\n' :: joinLines rest := by
        simp [joinLines]
      have hplain : ∀ c ∈ line, (c == '\n') = false := by
        intro c hc
        simpa using hline c hc
      rw [hjoin, List.splitOn, List.splitOnP_append_cons _ _ (by rfl),
        List.splitOnP_eq_singleton hplain]
      exact congrArg (line :: ·) (ih hrest)

end Text
