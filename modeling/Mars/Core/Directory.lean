import Mathlib.Data.Fintype.Basic
import Mathlib.Logic.Function.Basic

/-! # A directory that several owners use by name

Making the directory where it is already there succeeds. Each file has the owner
that put it there, and whoever removes or replaces it disturbs that owner.
-/

namespace Directory

structure Contents (Name Owner : Type) where
  /-- Everyone who has made or found the directory. -/
  users : List Owner
  file : Name → Option Owner

/-- Only a directory that exists has files. -/
abbrev Dir (Name Owner : Type) := Option (Contents Name Owner)

section operations
variable {Name Owner : Type} [DecidableEq Name]

def file (d : Dir Name Owner) (n : Name) : Option Owner := d.bind fun c => c.file n

def users : Dir Name Owner → List Owner
  | none => []
  | some c => c.users

def makeAll (d : Dir Name Owner) (o : Owner) : Dir Name Owner :=
  match d with
  | none => some { users := [o], file := fun _ => none }
  | some c => some { c with users := o :: c.users }

def put (d : Dir Name Owner) (n : Name) (o : Owner) : Dir Name Owner :=
  d.map fun c => { c with file := Function.update c.file n (some o) }

def unlink (d : Dir Name Owner) (n : Name) : Dir Name Owner :=
  d.map fun c => { c with file := Function.update c.file n none }

/-- The file takes its owner along. -/
def rename (d : Dir Name Owner) (source target : Name) : Dir Name Owner :=
  d.map fun c =>
    { c with file := Function.update (Function.update c.file target (c.file source)) source none }

def IsEmpty (d : Dir Name Owner) : Prop := ∀ n, file d n = none

instance [Fintype Name] (d : Dir Name Owner) : Decidable (IsEmpty d) :=
  decidable_of_iff (∀ n, (file d n).isNone = true) (by simp [IsEmpty])

/-- Whoever has a file in the directory or uses it. -/
def Has (d : Dir Name Owner) (o : Owner) : Prop := o ∈ users d ∨ ∃ n, file d n = some o

end operations

/-! ## Files -/

section lemmas
variable {Name Owner : Type} [DecidableEq Name] {d : Dir Name Owner} {n m k : Name} {o p : Owner}

omit [DecidableEq Name] in
@[simp] theorem file_makeAll : file (makeAll d o) n = file d n := by
  cases d <;> rfl

theorem file_put : file (put d n o) m = if m = n then (if d.isSome then some o else none)
    else file d m := by
  cases d <;> simp [put, file, Function.update_apply]

theorem file_unlink : file (unlink d n) m = if m = n then none else file d m := by
  cases d <;> simp [unlink, file, Function.update_apply]

theorem file_rename : file (rename d m n) k =
    if k = m then none else if k = n then file d m else file d k := by
  cases d <;> simp [rename, file, Function.update_apply]

@[simp] theorem users_put : users (put d n o) = users d := by cases d <;> rfl

@[simp] theorem users_unlink : users (unlink d n) = users d := by cases d <;> rfl

@[simp] theorem users_rename : users (rename d m n) = users d := by cases d <;> rfl

omit [DecidableEq Name] in
theorem has_of_file (h : file d n = some o) : Has d o := Or.inr ⟨n, h⟩

omit [DecidableEq Name] in
theorem has_makeAll (h : Has (makeAll d o) p) : Has d p ∨ p = o := by
  rcases h with huser | ⟨n, hfile⟩
  · cases d with
    | none => exact Or.inr (by simpa [makeAll, users] using huser)
    | some c =>
        rcases List.mem_cons.mp huser with rfl | huser
        · exact Or.inr rfl
        · exact Or.inl (Or.inl huser)
  · exact Or.inl (Or.inr ⟨n, file_makeAll ▸ hfile⟩)

theorem has_put (h : Has (put d n o) p) : Has d p ∨ p = o := by
  rcases h with huser | ⟨m, hfile⟩
  · rw [users_put] at huser
    exact Or.inl (Or.inl huser)
  · rw [file_put] at hfile
    split at hfile
    · split at hfile
      · exact Or.inr (Option.some.inj hfile).symm
      · cases hfile
    · exact Or.inl (Or.inr ⟨m, hfile⟩)

theorem has_unlink (h : Has (unlink d n) p) : Has d p := by
  rcases h with huser | ⟨m, hfile⟩
  · rw [users_unlink] at huser
    exact Or.inl huser
  · rw [file_unlink] at hfile
    split at hfile
    · cases hfile
    · exact Or.inr ⟨m, hfile⟩

theorem has_rename (h : Has (rename d m n) p) : Has d p := by
  rcases h with huser | ⟨k, hfile⟩
  · rw [users_rename] at huser
    exact Or.inl huser
  · rw [file_rename] at hfile
    split at hfile
    · cases hfile
    · split at hfile
      · exact Or.inr ⟨m, hfile⟩
      · exact Or.inr ⟨k, hfile⟩

end lemmas

end Directory
