import Mars.Core.ProcessTable

/-! # Groups of processes in a tree

A group is a directory that names lead to. It can be made where its parent is, and
removed once it holds no process and no other group.
-/

namespace GroupTree
open ProcessTable

structure Groups (Name Owner : Type) where
  dirs : List (List Name)
  members : Table (List Name) Owner

variable {Name Owner : Type}

/-- Some group lies below the directory. -/
def Groups.Parent (g : Groups Name Owner) (dir : List Name) : Prop :=
  ∃ d ∈ g.dirs, dir <+: d ∧ d ≠ dir

variable [DecidableEq Name]

instance (g : Groups Name Owner) (dir : List Name) : Decidable (g.Parent dir) :=
  inferInstanceAs (Decidable (∃ d ∈ g.dirs, _))

namespace Groups

def Busy (g : Groups Name Owner) (dir : List Name) : Prop :=
  g.members.members dir ≠ [] ∨ g.Parent dir

instance (g : Groups Name Owner) (dir : List Name) : Decidable (g.Busy dir) :=
  inferInstanceAs (Decidable (_ ∨ _))

def mkdir (g : Groups Name Owner) (dir : List Name) : Option (Groups Name Owner) :=
  if dir ∉ g.dirs ∧ dir.dropLast ∈ g.dirs then some { g with dirs := dir :: g.dirs } else none

def remove (g : Groups Name Owner) (dir : List Name) : Groups Name Owner :=
  { g with dirs := g.dirs.filter (· ≠ dir) }

def rmdir (g : Groups Name Owner) (dir : List Name) : Option (Groups Name Owner) :=
  if dir ∈ g.dirs ∧ ¬ g.Busy dir then some (g.remove dir) else none

/-- A process is put into a group that is there. -/
def place (g : Groups Name Owner) (pid : Nat) (dir : List Name) (owner : Owner) :
    Option (Groups Name Owner) :=
  if dir ∈ g.dirs then some { g with members := g.members.place pid dir owner } else none

variable {g g' : Groups Name Owner} {dir other : List Name} {pid : Nat} {owner : Owner}

theorem not_mem_remove : dir ∉ (g.remove dir).dirs := by
  simp [remove]

theorem not_mem_remove_of (h : dir ∉ g.dirs) : dir ∉ (g.remove other).dirs :=
  fun hmem => h (List.mem_of_mem_filter hmem)

theorem not_mem_rmdir (h : dir ∉ g.dirs) (hrmdir : g.rmdir other = some g') : dir ∉ g'.dirs := by
  unfold rmdir at hrmdir
  split at hrmdir
  next =>
    cases hrmdir
    exact not_mem_remove_of h
  next => cases hrmdir

theorem not_mem_mkdir (h : dir ∉ g.dirs) (hmkdir : g.mkdir other = some g') (hne : other ≠ dir) :
    dir ∉ g'.dirs := by
  unfold mkdir at hmkdir
  split at hmkdir
  next =>
    cases hmkdir
    intro hmem
    rcases List.mem_cons.mp hmem with heq | hmem
    · exact hne heq.symm
    · exact h hmem
  next => cases hmkdir

theorem dirs_place (hplace : g.place pid dir owner = some g') : g'.dirs = g.dirs := by
  unfold place at hplace
  split at hplace
  next => cases hplace; rfl
  next => cases hplace

end Groups

end GroupTree
