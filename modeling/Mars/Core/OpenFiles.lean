import Mathlib.Data.Fintype.Basic
import Mathlib.Logic.Function.Basic

/-! # Files behind names and descriptors

The files of one directory. A name leads to a file, and who has the file open keeps
it whatever becomes of the name. A write goes over what stands at its place, and a
read gets what stands behind its place, or only the front of that.
-/

namespace OpenFiles

structure Dir (Name α : Type) where
  present : Bool
  names : Name → Option Nat
  data : Nat → List α
  /-- From here on no file has the number. -/
  next : Nat

section calls
variable {Name α : Type} [DecidableEq Name]

def Dir.make (d : Dir Name α) : Dir Name α := { d with present := true }

/-- The file is made, or emptied where it is there, and opened. -/
def Dir.create (d : Dir Name α) (name : Name) : Option (Nat × Dir Name α) :=
  if d.present then
    match d.names name with
    | some n => some (n, { d with data := Function.update d.data n [] })
    | none => some (d.next, { d with
        names := Function.update d.names name (some d.next)
        data := Function.update d.data d.next []
        next := d.next + 1 })
  else none

/-- Behind the end there is a hole first. -/
def splice (hole : α) (place : Nat) (piece old : List α) : List α :=
  old.take place ++ List.replicate (place - old.length) hole ++ piece ++
    old.drop (place + piece.length)

def Dir.write (hole : α) (d : Dir Name α) (n place : Nat) (piece : List α) : Dir Name α :=
  { d with data := Function.update d.data n (splice hole place piece (d.data n)) }

def Dir.rename (d : Dir Name α) (source target : Name) : Option (Dir Name α) :=
  (d.names source).map fun n =>
    { d with names := Function.update (Function.update d.names source none) target (some n) }

def Dir.unlink (d : Dir Name α) (name : Name) : Option (Dir Name α) :=
  (d.names name).map fun _ => { d with names := Function.update d.names name none }

def Dir.remove [Fintype Name] (d : Dir Name α) : Option (Dir Name α) :=
  if d.present ∧ ∀ name, d.names name = none then some { d with present := false } else none

/-- Nothing comes only at the end. -/
def Dir.read (d : Dir Name α) (n place length : Nat) : List α :=
  ((d.data n).drop place).take length

end calls

section files
variable {Name α : Type} {d d' : Dir Name α} {name source target : Name} {n : Nat}

theorem splice_end (hole : α) (piece old : List α) :
    splice hole old.length piece old = old ++ piece := by
  simp [splice]

theorem read_front {front : List α} {length : Nat} (h : front <+: d.data n) :
    front ++ d.read n front.length length <+: d.data n := by
  obtain ⟨back, hback⟩ := h
  rw [Dir.read, ← hback, List.drop_left]
  exact List.prefix_append_right_inj front |>.mpr (List.take_prefix length back)

theorem read_end {front : List α} {length : Nat} (h : front <+: d.data n) (hlength : 0 < length)
    (hnone : d.read n front.length length = []) : front = d.data n := by
  obtain ⟨back, hback⟩ := h
  rw [Dir.read, ← hback, List.drop_left, List.take_eq_nil_iff] at hnone
  rcases hnone with hzero | rfl
  · omega
  · rw [← hback, List.append_nil]

/-- No two names lead to one file, and none to one that is not there yet. -/
structure Dir.Tidy (d : Dir Name α) : Prop where
  fresh : ∀ name n, d.names name = some n → n < d.next
  apart : ∀ name name' n, d.names name = some n → d.names name' = some n → name = name'

theorem Dir.Tidy.named (h : d.Tidy) (hnames : ∀ name n, d'.names name = some n →
    d.names name = some n) (hnext : d'.next = d.next) : d'.Tidy where
  fresh := fun name n hn => hnext ▸ h.fresh name n (hnames name n hn)
  apart := fun name name' n hn hn' => h.apart name name' n (hnames name n hn) (hnames name' n hn')

variable [DecidableEq Name]

theorem create_eq_some (h : d.create name = some (n, d')) :
    d'.data = Function.update d.data n [] ∧
      (d.names name = some n ∧ d'.names = d.names ∧ d'.next = d.next ∨
        d.names name = none ∧ n = d.next ∧ d'.names = Function.update d.names name (some n) ∧
          d'.next = d.next + 1) := by
  unfold Dir.create at h
  split at h
  next =>
    split at h
    next hn =>
      cases h
      exact ⟨rfl, .inl ⟨hn, rfl, rfl⟩⟩
    next hnone =>
      cases h
      exact ⟨rfl, .inr ⟨hnone, rfl, rfl, rfl⟩⟩
  next => cases h

theorem Dir.Tidy.create (h : d.Tidy) (hcreate : d.create name = some (n, d')) : d'.Tidy := by
  obtain ⟨-, ⟨-, hnames, hnext⟩ | ⟨-, rfl, hnames, hnext⟩⟩ := create_eq_some hcreate
  · exact h.named (by simp [hnames]) hnext
  · have hcases : ∀ other m, d'.names other = some m →
        other = name ∧ m = d.next ∨ d.names other = some m ∧ m < d.next := by
      intro other m hm
      rw [hnames] at hm
      by_cases hother : other = name
      · rw [hother, Function.update_self] at hm
        exact .inl ⟨hother, (Option.some.inj hm).symm⟩
      · rw [Function.update_of_ne hother] at hm
        exact .inr ⟨hm, h.fresh other m hm⟩
    constructor
    · intro other m hm
      rcases hcases other m hm with ⟨-, rfl⟩ | ⟨-, hlt⟩ <;> omega
    · intro one other m hone hother
      rcases hcases one m hone with ⟨rfl, hm⟩ | ⟨hone, hlt⟩ <;>
        rcases hcases other m hother with ⟨rfl, hm'⟩ | ⟨hother, hlt'⟩
      · rfl
      · omega
      · omega
      · exact h.apart one other m hone hother

theorem Dir.Tidy.rename (h : d.Tidy) (hrename : d.rename source target = some d') : d'.Tidy := by
  obtain ⟨n, hn, rfl⟩ := Option.map_eq_some_iff.mp hrename
  have hcases : ∀ other m,
      Function.update (Function.update d.names source none) target (some n) other = some m →
      other = target ∧ m = n ∨ other ≠ source ∧ d.names other = some m := by
    intro other m hm
    by_cases hother : other = target
    · rw [hother, Function.update_self] at hm
      exact .inl ⟨hother, (Option.some.inj hm).symm⟩
    · rw [Function.update_of_ne hother] at hm
      by_cases hsource : other = source
      · rw [hsource, Function.update_self] at hm
        cases hm
      · rw [Function.update_of_ne hsource] at hm
        exact .inr ⟨hsource, hm⟩
  constructor
  · intro other m hm
    rcases hcases other m hm with ⟨-, rfl⟩ | ⟨-, hm⟩
    · exact h.fresh source m hn
    · exact h.fresh other m hm
  · intro one other m hone hother
    rcases hcases one m hone with ⟨rfl, rfl⟩ | ⟨hne, hm⟩ <;>
      rcases hcases other m hother with ⟨rfl, hsame⟩ | ⟨hne', hm'⟩
    · rfl
    · exact absurd (h.apart other source m hm' hn) hne'
    · exact absurd (h.apart one source m hm (hsame ▸ hn)) hne
    · exact h.apart one other m hm hm'

/-- The file that is renamed has its old name no more. -/
theorem rename_names (h : d.rename source target = some d') (hne : source ≠ target) :
    d'.data = d.data ∧ d'.next = d.next ∧ d'.names source = none := by
  obtain ⟨n, -, rfl⟩ := Option.map_eq_some_iff.mp h
  refine ⟨rfl, rfl, ?_⟩
  dsimp only
  rw [Function.update_of_ne hne, Function.update_self]

theorem unlink_names (h : d.unlink name = some d') :
    d'.data = d.data ∧ d'.next = d.next ∧
      ∀ other n, d'.names other = some n → d.names other = some n := by
  obtain ⟨n, -, rfl⟩ := Option.map_eq_some_iff.mp h
  refine ⟨rfl, rfl, ?_⟩
  intro other m hm
  by_cases hother : other = name
  · rw [hother] at hm
    dsimp only at hm
    rw [Function.update_self] at hm
    cases hm
  · dsimp only at hm
    rwa [Function.update_of_ne hother] at hm

omit [DecidableEq Name] in
theorem remove_names [Fintype Name] (h : d.remove = some d') :
    d'.data = d.data ∧ d'.next = d.next ∧ d'.names = d.names := by
  unfold Dir.remove at h
  split at h
  next => exact Option.some.inj h ▸ ⟨rfl, rfl, rfl⟩
  next => cases h

end files

end OpenFiles
