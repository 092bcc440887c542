import Mathlib.Data.Nat.Init
import Mars.Core.Text

/-! # Numbers in fields of fixed width

Where every field of a text has its width, comparing two texts character by
character compares the numbers field by field.
-/

namespace FixedWidth
open Text

/-- At least `width` digits. -/
def pad (width n : Nat) : List Char := (decimal n).leftpad width '0'

/-- A number in each field, and what stands behind the field. -/
def render : List (Nat × List Char) → List Nat → List Char
  | (width, rest) :: template, n :: values => pad width n ++ (rest ++ render template values)
  | _, _ => []

/-- There is a number for each field, and the field holds it. -/
def Fits : List (Nat × List Char) → List Nat → Prop
  | (width, _) :: template, n :: values => 0 < width ∧ n < 10 ^ width ∧ Fits template values
  | [], [] => True
  | _, _ => False

/-! ## One field -/

section pad
variable {width n m : Nat}

theorem pad_succ (h : 0 < width) :
    pad (width + 1) n = pad width (n / 10) ++ [(n % 10).digitChar] := by
  unfold pad decimal
  by_cases hsmall : n < 10
  · rw [Nat.toDigits_of_lt_base hsmall, Nat.div_eq_of_lt hsmall, Nat.mod_eq_of_lt hsmall,
      Nat.toDigits_zero]
    obtain ⟨w, rfl⟩ := Nat.exists_eq_add_of_lt h
    simp [List.leftpad, List.replicate_succ']
  · rw [Nat.toDigits_of_base_le (by decide) (Nat.le_of_not_lt hsmall)]
    simp [List.leftpad]

theorem length_pad (hw : 0 < width) (h : n < 10 ^ width) : (pad width n).length = width := by
  induction width, hw using Nat.le_induction generalizing n with
  | base => simp [pad, decimal, Nat.toDigits_of_lt_base (show n < 10 by simpa using h), List.leftpad]
  | succ w hw ih =>
      rw [pad_succ hw, List.length_append, ih (by rw [Nat.pow_succ] at h; omega)]
      rfl

theorem digitChar_lt (h : n < m) (hm : m < 10) : n.digitChar < m.digitChar := by
  have hall : ∀ m < 10, ∀ n < m, n.digitChar < m.digitChar := by decide
  exact hall m hm n h

/-- What stands behind texts of one length does not matter where they differ. -/
theorem append_lt_append {a b : List Char} (hlength : a.length = b.length) (h : a < b)
    (s t : List Char) : a ++ s < b ++ t := by
  induction a generalizing b with
  | nil =>
      cases b with
      | nil => exact absurd h (List.lt_irrefl [])
      | cons d ds => cases hlength
  | cons c cs ih =>
      cases b with
      | nil => cases hlength
      | cons d ds =>
          rw [List.cons_append, List.cons_append, List.cons_lt_cons_iff]
          rcases List.cons_lt_cons_iff.mp h with hlt | ⟨rfl, hrest⟩
          · exact Or.inl hlt
          · exact Or.inr ⟨rfl, ih (Nat.succ.inj hlength) hrest⟩

theorem pad_lt (hw : 0 < width) (h : n < m) (hm : m < 10 ^ width) : pad width n < pad width m := by
  induction width, hw using Nat.le_induction generalizing n m with
  | base =>
      have hone : ∀ k < 10, pad 1 k = [k.digitChar] := fun k hk => by
        simp [pad, decimal, Nat.toDigits_of_lt_base hk, List.leftpad]
      have hm' : m < 10 := by simpa using hm
      rw [hone n (Nat.lt_trans h hm'), hone m hm', List.cons_lt_cons_iff]
      exact Or.inl (digitChar_lt h hm')
  | succ w hw ih =>
      have hfront : m / 10 < 10 ^ w := by
        rw [Nat.pow_succ] at hm
        omega
      rw [pad_succ hw, pad_succ hw]
      rcases Nat.lt_or_ge (n / 10) (m / 10) with hlt | hge
      · apply append_lt_append _ (ih hlt hfront)
        rw [length_pad hw (Nat.lt_trans hlt hfront), length_pad hw hfront]
      · have hsame : n / 10 = m / 10 := by omega
        rw [hsame]
        apply List.append_left_lt
        rw [List.cons_lt_cons_iff]
        exact Or.inl (digitChar_lt (by omega) (by omega))

end pad

/-! ## All fields -/

theorem render_lt {template : List (Nat × List Char)} {values others : List Nat}
    (hvalues : Fits template values) (hothers : Fits template others) (h : values < others) :
    render template values < render template others := by
  induction template generalizing values others with
  | nil =>
      cases values with
      | nil =>
          cases others with
          | nil => exact absurd h (List.lt_irrefl [])
          | cons m others => cases hothers
      | cons n values => cases hvalues
  | cons field template ih =>
      cases values with
      | nil => cases hvalues
      | cons n values =>
          cases others with
          | nil => cases hothers
          | cons m others =>
              obtain ⟨hw, hn, hrest⟩ := hvalues
              obtain ⟨-, hm, hrest'⟩ := hothers
              rw [render, render]
              rcases List.cons_lt_cons_iff.mp h with hlt | ⟨rfl, hlater⟩
              · apply append_lt_append _ (pad_lt hw hlt hm)
                rw [length_pad hw hn, length_pad hw hm]
              · exact List.append_left_lt (List.append_left_lt (ih hrest hrest' hlater))

end FixedWidth
