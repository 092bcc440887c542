import Mathlib.Tactic.Choose

/-! # Rules over a default

What rules in no order allow for one question: the answer of some rule that
applies or, where none applies, the default. `told` are the answers of the rules
that apply.
-/

namespace RuleSet

variable {Answer : Type}

def Outcome (told : Answer → Prop) (default answer : Answer) : Prop :=
  told answer ∨ (¬∃ other, told other) ∧ answer = default

variable {told meant : Answer → Prop} {default answer : Answer}

theorem exists_outcome (told : Answer → Prop) (default : Answer) :
    ∃ answer, Outcome told default answer := by
  by_cases h : ∃ answer, told answer
  · obtain ⟨answer, htold⟩ := h
    exact ⟨answer, Or.inl htold⟩
  · exact ⟨default, Or.inr ⟨h, rfl⟩⟩

theorem outcome_default :
    Outcome meant default default ↔ ((∃ other, meant other) → meant default) := by
  constructor
  · rintro (hmeant | ⟨hnone, -⟩) hsome
    · exact hmeant
    · exact absurd hsome hnone
  · intro h
    by_cases hsome : ∃ other, meant other
    · exact Or.inl (h hsome)
    · exact Or.inr ⟨hsome, rfl⟩

/-- Rules none of which restates the default allow no more than others do: every
answer of theirs is one of the others', and where none of them applies the
others, if any, have one with the default. -/
theorem outcome_mono_iff (hdefault : ¬told default) :
    (∀ answer, Outcome told default answer → Outcome meant default answer) ↔
      (∀ answer, told answer → meant answer) ∧
        ((¬∃ other, told other) → (∃ other, meant other) → meant default) := by
  constructor
  · intro h
    constructor
    · intro answer htold
      rcases h answer (Or.inl htold) with hmeant | ⟨-, rfl⟩
      · exact hmeant
      · exact absurd htold hdefault
    · exact fun hnone => outcome_default.mp (h default (Or.inr ⟨hnone, rfl⟩))
  · rintro ⟨hsaid, hsilent⟩ answer (htold | ⟨hnone, rfl⟩)
    · exact Or.inl (hsaid answer htold)
    · exact outcome_default.mpr (hsilent hnone)

/-- Among questions answered each by its own rules, one outcome can be had. -/
theorem exists_answers {Question : Type} (told : Question → Answer → Prop)
    (default : Question → Answer) {i : Question}
    (h : Outcome (told i) (default i) answer) :
    ∃ answers : Question → Answer,
      (∀ q, Outcome (told q) (default q) (answers q)) ∧ answers i = answer := by
  classical
  have hall : ∀ q, ∃ a, Outcome (told q) (default q) a ∧ (q = i → a = answer) := by
    intro q
    by_cases hq : q = i
    · exact ⟨answer, hq ▸ h, fun _ => rfl⟩
    · obtain ⟨a, ha⟩ := exists_outcome (told q) (default q)
      exact ⟨a, ha, fun hsame => absurd hsame hq⟩
  choose answers houtcome hpicked using hall
  exact ⟨answers, houtcome, hpicked i rfl⟩

end RuleSet
