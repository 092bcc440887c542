import Mathlib.Data.BitVec

/-! # Single flags in a word -/

namespace Flags

/-- A word contains a flag of one bit if it has that bit. -/
theorem and_twoPow_beq {w bit : Nat} (flags : BitVec w) (h : bit < w) :
    (flags &&& .twoPow w bit == .twoPow w bit) = flags.getLsbD bit := by
  rw [BitVec.and_twoPow]
  cases hbit : flags.getLsbD bit with
  | true => simp
  | false =>
      have hne : BitVec.ofNat w 0 ≠ BitVec.twoPow w bit := by
        intro heq
        have := congrArg (fun v => BitVec.getLsbD v bit) heq
        simp [h] at this
      simpa using hne

end Flags
