import Mars.Container.Capabilities

/-! # Taking on the user of a process document -/

namespace Mars.Process
open Spec Credentials Capabilities

/-- The calls of `drop_privileges`, in order. Capabilities are kept across the
change of user only when root is left. -/
def dropPrivilegesBy {σ : Type} (calls : Calls Capability σ) (process : Process) (c : σ) :
    Except Error σ := do
  let user := process.user
  let leavingRoot := (calls.creds c).uid = 0 ∧ user.uid ≠ 0
  let groups := user.additionalGids.getD []
  let c ← called (calls.setgroups groups c) (.nix ("setgroups(" ++ toString groups ++
    "); the supplementary groups must be set while still privileged"))
  let c := if leavingRoot then calls.withCreds c (setKeepCaps true (calls.creds c)) else c
  let c ← called (calls.setgid user.gid c) (.nix ("setgid(" ++ toString user.gid ++ ")"))
  let c ← called (calls.setuid user.uid c) (.nix ("setuid(" ++ toString user.uid ++
    "); this comes last because after it we can no longer change groups"))
  pure (if leavingRoot then calls.withCreds c (setKeepCaps false (calls.creds c)) else c)

/-- The part of `container_init` that changes credentials, in its order. -/
def containerInitBy {σ : Type} (calls : Calls Capability σ) (crate : CapsCrate) (process : Process)
    (c : σ) : Except Error σ := do
  let c ← calls.change (fun c => match process.capabilities with
    | some caps => dropBounding crate caps c
    | none => pure c) c
  let c ← dropPrivilegesBy calls process c
  let c ← calls.change (fun c => match process.capabilities with
    | some caps => apply crate caps c
    | none => pure c) c
  pure (if process.noNewPrivileges.getD false then
    calls.withCreds c (setNoNewPrivs (calls.creds c)) else c)

def dropPrivileges (process : Process) (c : Creds Capability) :
    Except Error (Creds Capability) :=
  dropPrivilegesBy plain process c

def containerInit (crate : CapsCrate) (process : Process) (c : Creds Capability) :
    Except Error (Creds Capability) :=
  containerInitBy plain crate process c

/-! ## What they leave -/

/-- The permitted set survives, whoever the process becomes. -/
theorem dropPrivileges_eq {process : Process} {c r : Creds Capability}
    (h : dropPrivileges process c = .ok r) :
    r.uid = process.user.uid ∧ r.gid = process.user.gid ∧
      r.groups = process.user.additionalGids.getD [] ∧ r.bounding = c.bounding ∧
      r.permitted = c.permitted ∧
      r.effective = (afterSetuid process.user.uid c).effective ∧
      r.inheritable = c.inheritable ∧
      r.ambient = (afterSetuid process.user.uid c).ambient ∧
      r.noNewPrivs = c.noNewPrivs := by
  simp only [dropPrivileges, dropPrivilegesBy, plain, id, bind_eq_ok, called_eq_ok, pure_eq_ok] at h
  obtain ⟨c₁, hgroups, c₂, hgid, c₃, huid, hr⟩ := h
  obtain rfl := setgroups_eq_some hgroups
  obtain rfl := setgid_eq_some hgid
  obtain rfl := setuid_eq_some huid
  subst hr
  by_cases hleave : c.uid = 0 ∧ process.user.uid ≠ 0
  · simp [hleave, setKeepCaps, afterSetuid_permitted, afterSetuid_effective, afterSetuid_ambient]
  · have hkeep : ¬ (c.uid = 0 ∧ process.user.uid ≠ 0 ∧ c.keepCaps = false) :=
      fun h => hleave ⟨h.1, h.2.1⟩
    simp [hleave, afterSetuid_permitted, afterSetuid_effective, afterSetuid_ambient, hkeep]

section init
variable {crate : CapsCrate} {process : Process} {c r : Creds Capability}

theorem containerInit_ok : containerInit crate process c = .ok r ↔ ∃ c₁ c₂ c₃,
    (match process.capabilities with
      | some caps => dropBounding crate caps c
      | none => pure c) = .ok c₁ ∧
    dropPrivileges process c₁ = .ok c₂ ∧
    (match process.capabilities with
      | some caps => apply crate caps c₂
      | none => pure c₂) = .ok c₃ ∧
    (if process.noNewPrivileges.getD false then setNoNewPrivs c₃ else c₃) = r := by
  simp only [containerInit, containerInitBy, plain_change, bind_eq_ok, pure_eq_ok, dropPrivileges]
  constructor
  · rintro ⟨c₁, hbounding, c₂, hdrop, c₃, happly, hr⟩
    exact ⟨c₁, c₂, c₃, hbounding, hdrop, happly, hr⟩
  · rintro ⟨c₁, c₂, c₃, hbounding, hdrop, happly, hr⟩
    exact ⟨c₁, hbounding, c₂, hdrop, c₃, happly, hr⟩

/-- With a capabilities section every set is the document's, and the bounding
set is cut down to it. -/
theorem containerInit_listed {caps : LinuxCapabilities} (hcaps : process.capabilities = some caps)
    (h : containerInit crate process c = .ok r) :
    r.bounding = c.bounding ∩ wanted caps.bounding ∧ r.permitted = wanted caps.permitted ∧
      r.effective = wanted caps.effective ∧ r.inheritable = wanted caps.inheritable ∧
      r.ambient = wanted caps.ambient := by
  obtain ⟨c₁, c₂, c₃, hbounding, hdrop, happly, hr⟩ := containerInit_ok.mp h
  rw [hcaps] at hbounding happly
  have hkept : c₂.bounding = c₁.bounding := (dropPrivileges_eq hdrop).2.2.2.1
  rw [dropBounding_eq hbounding] at hkept
  rw [apply_eq happly] at hr
  subst hr
  split <;> simp [setNoNewPrivs, hkept]

/-- Without one, only the change of user has touched the sets. -/
theorem containerInit_unlisted (hcaps : process.capabilities = none)
    (h : containerInit crate process c = .ok r) :
    r.bounding = c.bounding ∧ r.permitted = c.permitted ∧
      r.effective = (afterSetuid process.user.uid c).effective ∧
      r.inheritable = c.inheritable ∧
      r.ambient = (afterSetuid process.user.uid c).ambient := by
  obtain ⟨c₁, c₂, c₃, hsame, hdrop, hsame', hr⟩ := containerInit_ok.mp h
  rw [hcaps] at hsame hsame'
  obtain rfl := Except.ok.inj hsame
  obtain rfl := Except.ok.inj hsame'
  obtain ⟨-, -, -, hbounding, hpermitted, heffective, hinheritable, hambient, -⟩ :=
    dropPrivileges_eq hdrop
  subst hr
  split <;> simp [setNoNewPrivs, hbounding, hpermitted, heffective, hinheritable, hambient]

theorem containerInit_user (h : containerInit crate process c = .ok r) :
    r.uid = process.user.uid ∧ r.gid = process.user.gid ∧
      r.groups = process.user.additionalGids.getD [] ∧
      r.noNewPrivs = (c.noNewPrivs || process.noNewPrivileges.getD false) := by
  obtain ⟨c₁, c₂, c₃, hbounding, hdrop, happly, hr⟩ := containerInit_ok.mp h
  obtain ⟨huid, hgid, hgroups, -, -, -, -, -, hnnp⟩ := dropPrivileges_eq hdrop
  cases hcaps : process.capabilities with
  | none =>
      rw [hcaps] at hbounding happly
      obtain rfl := Except.ok.inj hbounding
      obtain rfl := Except.ok.inj happly
      subst hr
      split <;> simp_all [setNoNewPrivs]
  | some caps =>
      rw [hcaps] at hbounding happly
      rw [dropBounding_eq hbounding] at hnnp
      rw [apply_eq happly] at hr
      subst hr
      split <;> simp_all [setNoNewPrivs]

end init

end Mars.Process
