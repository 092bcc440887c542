import Mars.Core.Credentials
import Mars.Core.UserSpace

/-! # Credentials inside a user namespace

A process sees itself by the ids of its namespace; the kernel knows it by others. A call
that sets an id is refused where the maps have no counterpart for it, and groups are
set only where that was not denied before the maps were written.
-/

namespace IdMap

/-- An extent stands for as many ids below as above. -/
theorem Extent.isSome_through {parent : List Extent} {e own : Extent}
    (h : e.through parent = some own) (id : Nat) :
    (own.down id).isSome = (e.down id).isSome := by
  obtain ⟨lower, -, rfl⟩ := Option.map_eq_some_iff.mp h
  unfold Extent.down
  dsimp only
  split <;> rfl

theorem isSome_through {parent map own : List Extent} (h : through parent map = some own)
    (id : Nat) : (down own id).isSome = (down map id).isSome := by
  induction map generalizing own with
  | nil =>
      obtain rfl : [] = own := Option.some.inj h
      rfl
  | cons e rest ih =>
      obtain ⟨first, later, hfirst, hlater, rfl⟩ := through_cons.mp h
      have hone := Extent.isSome_through hfirst id
      have hrest := ih hlater
      cases he : e.down id <;> cases hf : first.down id <;> simp_all [down]

end IdMap

namespace UserSpace
open IdMap Credentials

/-- What a process sees of its credentials, and the ids the kernel checks. -/
structure Resident (Cap : Type) where
  creds : Creds Cap
  kuid : Nat
  kgid : Nat
  kgroups : List Nat
  deriving DecidableEq

variable {Cap : Type}

/-- A new user namespace: every capability in it, and the same ids as before. -/
def unshareUser (all : Finset Cap) (r : Resident Cap) : Resident Cap :=
  { r with
    creds := { r.creds with
      bounding := all, permitted := all, effective := all, inheritable := ∅, ambient := ∅,
      keepCaps := false } }

variable [DecidableEq Cap] [Privileged Cap]

def Space.setgroups (s : Space) (groups : List Nat) (r : Resident Cap) : Option (Resident Cap) := do
  if s.setgroupsDenied = true ∨ s.gidMap = [] then none
  else
    let creds ← Credentials.setgroups groups r.creds
    let kgroups ← groups.mapM (down s.gidMap)
    some { r with creds, kgroups }

def Space.setgid (s : Space) (gid : Nat) (r : Resident Cap) : Option (Resident Cap) := do
  let kgid ← down s.gidMap gid
  let creds ← Credentials.setgid gid r.creds
  some { r with creds, kgid }

def Space.setuid (s : Space) (uid : Nat) (r : Resident Cap) : Option (Resident Cap) := do
  let kuid ← down s.uidMap uid
  let creds ← Credentials.setuid uid r.creds
  some { r with creds, kuid }

def Space.calls (s : Space) : Calls Cap (Resident Cap) where
  creds := Resident.creds
  withCreds := fun r creds => { r with creds }
  setgroups := s.setgroups
  setgid := s.setgid
  setuid := s.setuid

/-! ## What they do -/

theorem mapM_down {map : List Extent} {ids kernel : List Nat} :
    ids.mapM (down map) = some kernel ↔ ids.map (down map) = kernel.map some := by
  induction ids generalizing kernel with
  | nil => cases kernel <;> simp
  | cons id rest ih =>
      cases kernel with
      | nil => simp [List.mapM_cons, Option.bind_eq_some_iff]
      | cons lower kernel =>
          rw [List.mapM_cons]
          simp only [Option.bind_eq_bind, Option.pure_def, Option.bind_eq_some_iff, ih,
            Option.some.injEq, List.cons.injEq, List.map_cons]
          constructor
          · rintro ⟨first, hfirst, later, hlater, rfl, rfl⟩
            exact ⟨hfirst, hlater⟩
          · rintro ⟨hfirst, hlater⟩
            exact ⟨lower, hfirst, kernel, hlater, rfl, rfl⟩

section calls
variable {s : Space} {r r' : Resident Cap}

theorem Space.setgroups_eq_some {groups : List Nat} :
    s.setgroups groups r = some r' ↔ s.setgroupsDenied = false ∧ s.gidMap ≠ [] ∧
      ∃ creds kgroups, Credentials.setgroups groups r.creds = some creds ∧
        groups.map (down s.gidMap) = kgroups.map some ∧ r' = { r with creds, kgroups } := by
  unfold Space.setgroups
  split
  next hrefused =>
    simp only [reduceCtorEq, false_iff]
    rintro ⟨hallowed, hmapped, -⟩
    rcases hrefused with hdenied | hnone
    · rw [hallowed] at hdenied
      cases hdenied
    · exact hmapped hnone
  next hallowed =>
    simp only [not_or, Bool.not_eq_true] at hallowed
    simp only [hallowed, true_and, Option.bind_eq_bind, Option.bind_eq_some_iff, mapM_down,
      Option.some.injEq, eq_comm (a := r'), ne_eq, not_false_eq_true]
    constructor
    · rintro ⟨creds, hcreds, kgroups, hkernel, h⟩
      exact ⟨creds, kgroups, hcreds, hkernel, h⟩
    · rintro ⟨creds, kgroups, hcreds, hkernel, h⟩
      exact ⟨creds, hcreds, kgroups, hkernel, h⟩

theorem Space.setgid_eq_some {gid : Nat} :
    s.setgid gid r = some r' ↔ ∃ kgid creds, down s.gidMap gid = some kgid ∧
      Credentials.setgid gid r.creds = some creds ∧ r' = { r with creds, kgid } := by
  simp only [Space.setgid, Option.bind_eq_bind, Option.bind_eq_some_iff, Option.some.injEq,
    eq_comm (a := r'), exists_and_left]

theorem Space.setuid_eq_some {uid : Nat} :
    s.setuid uid r = some r' ↔ ∃ kuid creds, down s.uidMap uid = some kuid ∧
      Credentials.setuid uid r.creds = some creds ∧ r' = { r with creds, kuid } := by
  simp only [Space.setuid, Option.bind_eq_bind, Option.bind_eq_some_iff, Option.some.injEq,
    eq_comm (a := r'), exists_and_left]

end calls

end UserSpace
