import Mathlib.Data.Finset.Basic

/-! # Credentials of a Linux process

One user id, one group id, the supplementary groups, the five capability sets
and two flags, with the system calls that change them. A refused call returns
`none`. The capabilities are any type that names the three the kernel itself
consults here.
-/

namespace Credentials

class Privileged (Cap : Type) where
  setuid : Cap
  setgid : Cap
  setpcap : Cap

structure Creds (Cap : Type) where
  uid : Nat
  gid : Nat
  groups : List Nat
  bounding : Finset Cap
  permitted : Finset Cap
  effective : Finset Cap
  inheritable : Finset Cap
  ambient : Finset Cap
  keepCaps : Bool
  noNewPrivs : Bool
  deriving DecidableEq

variable {Cap : Type}

/-! ## Calls that are never refused -/

def setKeepCaps (keep : Bool) (c : Creds Cap) : Creds Cap := { c with keepCaps := keep }

def setNoNewPrivs (c : Creds Cap) : Creds Cap := { c with noNewPrivs := true }

def clearAmbient (c : Creds Cap) : Creds Cap := { c with ambient := ∅ }

/-! ## Changing the user -/

/-- Leaving root drops the sets a root process holds, except the permitted one
under `keepCaps`; becoming root makes what is permitted effective. -/
def afterSetuid (uid : Nat) (c : Creds Cap) : Creds Cap :=
  if c.uid = 0 ∧ uid ≠ 0 then
    { c with
      uid := uid
      permitted := if c.keepCaps then c.permitted else ∅
      effective := ∅
      ambient := ∅ }
  else if c.uid ≠ 0 ∧ uid = 0 then { c with uid := uid, effective := c.permitted }
  else { c with uid := uid }

section afterSetuid
variable (uid : Nat) (c : Creds Cap)

@[simp] theorem afterSetuid_uid : (afterSetuid uid c).uid = uid := by
  unfold afterSetuid; split <;> (try split) <;> rfl

@[simp] theorem afterSetuid_gid : (afterSetuid uid c).gid = c.gid := by
  unfold afterSetuid; split <;> (try split) <;> rfl

@[simp] theorem afterSetuid_groups : (afterSetuid uid c).groups = c.groups := by
  unfold afterSetuid; split <;> (try split) <;> rfl

@[simp] theorem afterSetuid_bounding : (afterSetuid uid c).bounding = c.bounding := by
  unfold afterSetuid; split <;> (try split) <;> rfl

@[simp] theorem afterSetuid_inheritable : (afterSetuid uid c).inheritable = c.inheritable := by
  unfold afterSetuid; split <;> (try split) <;> rfl

@[simp] theorem afterSetuid_noNewPrivs : (afterSetuid uid c).noNewPrivs = c.noNewPrivs := by
  unfold afterSetuid; split <;> (try split) <;> rfl

/-- Only a root process that becomes another user loses permitted capabilities. -/
theorem afterSetuid_permitted :
    (afterSetuid uid c).permitted =
      if c.uid = 0 ∧ uid ≠ 0 ∧ c.keepCaps = false then ∅ else c.permitted := by
  unfold afterSetuid
  by_cases hleave : c.uid = 0 ∧ uid ≠ 0
  · cases hk : c.keepCaps <;> simp [hleave]
  · rw [if_neg hleave]
    have hkeep : ¬ (c.uid = 0 ∧ uid ≠ 0 ∧ c.keepCaps = false) := fun h => hleave ⟨h.1, h.2.1⟩
    rw [if_neg hkeep]
    split <;> rfl

theorem afterSetuid_effective :
    (afterSetuid uid c).effective =
      if c.uid = 0 ∧ uid ≠ 0 then ∅
      else if c.uid ≠ 0 ∧ uid = 0 then c.permitted
      else c.effective := by
  unfold afterSetuid
  split
  · rfl
  · split <;> rfl

theorem afterSetuid_ambient :
    (afterSetuid uid c).ambient = if c.uid = 0 ∧ uid ≠ 0 then ∅ else c.ambient := by
  unfold afterSetuid
  split
  · rfl
  · split <;> rfl

end afterSetuid

/-! ## Calls that need a privilege -/

variable [DecidableEq Cap] [Privileged Cap]

def setgroups (groups : List Nat) (c : Creds Cap) : Option (Creds Cap) :=
  if Privileged.setgid ∈ c.effective then some { c with groups := groups } else none

def setgid (gid : Nat) (c : Creds Cap) : Option (Creds Cap) :=
  if Privileged.setgid ∈ c.effective ∨ c.gid = gid then some { c with gid := gid } else none

def setuid (uid : Nat) (c : Creds Cap) : Option (Creds Cap) :=
  if Privileged.setuid ∈ c.effective ∨ c.uid = uid then some (afterSetuid uid c) else none

def dropBounding (cap : Cap) (c : Creds Cap) : Option (Creds Cap) :=
  if Privileged.setpcap ∈ c.effective then some { c with bounding := c.bounding.erase cap }
  else none

/-- All three sets at once; ambient follows what stays permitted and inheritable. -/
def capset (effective permitted inheritable : Finset Cap) (c : Creds Cap) : Option (Creds Cap) :=
  if (Privileged.setpcap ∈ c.effective ∨ inheritable ⊆ c.inheritable ∪ c.permitted) ∧
      inheritable ⊆ c.inheritable ∪ c.bounding ∧ permitted ⊆ c.permitted ∧
      effective ⊆ permitted then
    some { c with
      effective := effective
      permitted := permitted
      inheritable := inheritable
      ambient := c.ambient ∩ permitted ∩ inheritable }
  else none

def raiseAmbient (cap : Cap) (c : Creds Cap) : Option (Creds Cap) :=
  if cap ∈ c.permitted ∧ cap ∈ c.inheritable then
    some { c with ambient := insert cap c.ambient }
  else none

/-! ## Calls on a state that has credentials in it -/

structure Calls (Cap σ : Type) where
  creds : σ → Creds Cap
  withCreds : σ → Creds Cap → σ
  setgroups : List Nat → σ → Option σ
  setgid : Nat → σ → Option σ
  setuid : Nat → σ → Option σ

/-- The credentials and nothing else. -/
def plain : Calls Cap (Creds Cap) where
  creds := id
  withCreds := fun _ c => c
  setgroups := setgroups
  setgid := setgid
  setuid := setuid

/-- A call that changes no id. -/
def Calls.change {σ ε : Type} (calls : Calls Cap σ) (f : Creds Cap → Except ε (Creds Cap)) (s : σ) :
    Except ε σ :=
  (f (calls.creds s)).map (calls.withCreds s)

omit [DecidableEq Cap] [Privileged Cap] in
theorem Calls.change_eq_ok {σ ε : Type} {calls : Calls Cap σ}
    {f : Creds Cap → Except ε (Creds Cap)} {s s' : σ} :
    calls.change f s = .ok s' ↔ ∃ c, f (calls.creds s) = .ok c ∧ s' = calls.withCreds s c := by
  unfold Calls.change
  cases f (calls.creds s) with
  | error e => simp [Except.map]
  | ok c => simp [Except.map, eq_comm]

theorem plain_change {ε : Type} (f : Creds Cap → Except ε (Creds Cap)) (c : Creds Cap) :
    plain.change f c = f c := by
  unfold Calls.change plain
  dsimp only [id]
  cases f c <;> rfl

/-! ## What a call that succeeds did -/

theorem setgroups_eq_some {groups : List Nat} {c c' : Creds Cap}
    (h : setgroups groups c = some c') : c' = { c with groups := groups } := by
  unfold setgroups at h
  split at h
  · exact (Option.some.inj h).symm
  · cases h

theorem setgid_eq_some {gid : Nat} {c c' : Creds Cap} (h : setgid gid c = some c') :
    c' = { c with gid := gid } := by
  unfold setgid at h
  split at h
  · exact (Option.some.inj h).symm
  · cases h

theorem setuid_eq_some {uid : Nat} {c c' : Creds Cap} (h : setuid uid c = some c') :
    c' = afterSetuid uid c := by
  unfold setuid at h
  split at h
  · exact (Option.some.inj h).symm
  · cases h

theorem dropBounding_eq_some {cap : Cap} {c c' : Creds Cap} (h : dropBounding cap c = some c') :
    c' = { c with bounding := c.bounding.erase cap } := by
  unfold dropBounding at h
  split at h
  · exact (Option.some.inj h).symm
  · cases h

theorem capset_eq_some {effective permitted inheritable : Finset Cap} {c c' : Creds Cap}
    (h : capset effective permitted inheritable c = some c') :
    c' = { c with
      effective := effective
      permitted := permitted
      inheritable := inheritable
      ambient := c.ambient ∩ permitted ∩ inheritable } := by
  unfold capset at h
  split at h
  · exact (Option.some.inj h).symm
  · cases h

omit [Privileged Cap] in
theorem raiseAmbient_eq_some {cap : Cap} {c c' : Creds Cap} (h : raiseAmbient cap c = some c') :
    c' = { c with ambient := insert cap c.ambient } := by
  unfold raiseAmbient at h
  split at h
  · exact (Option.some.inj h).symm
  · cases h

end Credentials
