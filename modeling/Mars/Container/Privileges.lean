import Mars.Container.Exec

/-! # The privileges of the two ways into a container

`create` and `exec` give a process document to their own sequences of calls.
The second has no capability step and no `no_new_privs` step, and skips a
call where the document or the options leave its argument out. What it skips
stays as the runtime had it.
-/

namespace Mars.Exec
open Spec Credentials Capabilities Process

/-- What the two have to agree on at `execve`. -/
structure SamePrivileges (a b : Creds Capability) : Prop where
  uid : a.uid = b.uid
  gid : a.gid = b.gid
  groups : a.groups = b.groups
  bounding : a.bounding = b.bounding
  permitted : a.permitted = b.permitted
  effective : a.effective = b.effective
  inheritable : a.inheritable = b.inheritable
  ambient : a.ambient = b.ambient
  noNewPrivs : a.noNewPrivs = b.noNewPrivs

/-- Only the process document decides: nothing on the command line replaces
its user or its groups. -/
def ByDocument (options : ExecOptions) : Prop :=
  options.process ≠ none ∧ options.user = none ∧ options.additionalGids = []

/-- The user changes from root to somebody else. -/
def LeavesRoot (document : Process) (c : Creds Capability) : Prop :=
  c.uid = 0 ∧ document.user.uid ≠ 0

instance (document : Process) (c : Creds Capability) : Decidable (LeavesRoot document c) :=
  inferInstanceAs (Decidable (_ ∧ _))

/-- The document lists the capabilities the runtime's process already has,
after a plain change of user has taken its share. -/
structure AsksForWhatIsHeld (document : Process) (caps : LinuxCapabilities)
    (c : Creds Capability) : Prop where
  bounding : c.bounding ⊆ wanted caps.bounding
  permitted : wanted caps.permitted =
    if LeavesRoot document c ∧ c.keepCaps = false then ∅ else c.permitted
  effective : wanted caps.effective =
    if LeavesRoot document c then ∅
    else if c.uid ≠ 0 ∧ document.user.uid = 0 then c.permitted
    else c.effective
  inheritable : wanted caps.inheritable = c.inheritable
  ambient : wanted caps.ambient = if LeavesRoot document c then ∅ else c.ambient

/-- Without a capabilities section `create` keeps the permitted set when it
leaves root, so there must be none to keep, or the runtime keeps it already. -/
def KeepsNothingMore (document : Process) (c : Creds Capability) : Prop :=
  LeavesRoot document c → c.keepCaps = true ∨ c.permitted = ∅

structure NothingSkipped (document : Process) (c : Creds Capability) : Prop where
  groups : document.user.additionalGids.getD [] = [] → c.groups = []
  noNewPrivs : document.noNewPrivileges = some true → c.noNewPrivs = true
  listed : ∀ caps, document.capabilities = some caps → AsksForWhatIsHeld document caps c
  unlisted : document.capabilities = none → KeepsNothingMore document c

/-- Of the runtime's own group id and groups, the process has what was asked for. -/
structure KeepsOnlyWhatIsAsked (gid : Option Nat) (groups : List Nat)
    (c r : Creds Capability) : Prop where
  gid : r.gid = c.gid → gid = some c.gid
  groups : ∀ group ∈ c.groups, group ∈ r.groups → group ∈ groups

/-- The process `exec` starts for a document. -/
def execCreds (document : Process) (c : Creds Capability) : Creds Capability :=
  afterSetuid document.user.uid { c with
    gid := document.user.gid
    groups := if document.user.additionalGids.getD [] = [] then c.groups
      else document.user.additionalGids.getD [] }

/-! ## The document's process -/

section document
variable {crate : CapsCrate} {document : Process} {c r : Creds Capability}

theorem execCreds_permitted :
    (execCreds document c).permitted =
      if LeavesRoot document c ∧ c.keepCaps = false then ∅ else c.permitted := by
  rw [execCreds, afterSetuid_permitted]
  simp only [LeavesRoot, and_assoc]

theorem execCreds_effective :
    (execCreds document c).effective =
      if LeavesRoot document c then ∅
      else if c.uid ≠ 0 ∧ document.user.uid = 0 then c.permitted
      else c.effective := by
  rw [execCreds, afterSetuid_effective]
  rfl

theorem execCreds_ambient :
    (execCreds document c).ambient = if LeavesRoot document c then ∅ else c.ambient := by
  rw [execCreds, afterSetuid_ambient]
  rfl

theorem same_groups_iff (hinit : containerInit crate document c = .ok r) :
    (execCreds document c).groups = r.groups ↔
      (document.user.additionalGids.getD [] = [] → c.groups = []) := by
  rw [(containerInit_user hinit).2.2.1, execCreds, afterSetuid_groups]
  by_cases hnone : document.user.additionalGids.getD [] = []
  · simp [hnone]
  · simp [hnone]

theorem same_noNewPrivs_iff (hinit : containerInit crate document c = .ok r) :
    (execCreds document c).noNewPrivs = r.noNewPrivs ↔
      (document.noNewPrivileges = some true → c.noNewPrivs = true) := by
  rw [(containerInit_user hinit).2.2.2, execCreds, afterSetuid_noNewPrivs]
  cases document.noNewPrivileges with
  | none => simp
  | some asked => cases asked <;> cases c.noNewPrivs <;> simp

/-- The five sets agree. -/
def SameSets (a b : Creds Capability) : Prop :=
  a.bounding = b.bounding ∧ a.permitted = b.permitted ∧ a.effective = b.effective ∧
    a.inheritable = b.inheritable ∧ a.ambient = b.ambient

theorem same_sets_listed {caps : LinuxCapabilities}
    (hcaps : document.capabilities = some caps) (hinit : containerInit crate document c = .ok r) :
    SameSets (execCreds document c) r ↔ AsksForWhatIsHeld document caps c := by
  obtain ⟨hbounding, hpermitted, heffective, hinheritable, hambient⟩ :=
    containerInit_listed hcaps hinit
  unfold SameSets
  rw [hbounding, hpermitted, heffective, hinheritable, hambient, execCreds_permitted,
    execCreds_effective, execCreds_ambient]
  have hkept : (execCreds document c).bounding = c.bounding ∩ wanted caps.bounding ↔
      c.bounding ⊆ wanted caps.bounding := by
    rw [execCreds, afterSetuid_bounding, eq_comm, Finset.inter_eq_left]
  have hsame : (execCreds document c).inheritable = c.inheritable := by
    rw [execCreds, afterSetuid_inheritable]
  rw [hkept, hsame]
  constructor
  · intro h
    exact ⟨h.1, h.2.1.symm, h.2.2.1.symm, h.2.2.2.1.symm, h.2.2.2.2.symm⟩
  · intro h
    exact ⟨h.bounding, h.permitted.symm, h.effective.symm, h.inheritable.symm, h.ambient.symm⟩

theorem same_sets_unlisted (hcaps : document.capabilities = none)
    (hinit : containerInit crate document c = .ok r) :
    SameSets (execCreds document c) r ↔ KeepsNothingMore document c := by
  obtain ⟨hbounding, hpermitted, heffective, hinheritable, hambient⟩ :=
    containerInit_unlisted hcaps hinit
  unfold SameSets KeepsNothingMore
  rw [hbounding, hpermitted, heffective, hinheritable, hambient, execCreds_permitted]
  have hleft : (execCreds document c).bounding = c.bounding ∧
      (execCreds document c).effective = (afterSetuid document.user.uid c).effective ∧
      (execCreds document c).inheritable = c.inheritable ∧
      (execCreds document c).ambient = (afterSetuid document.user.uid c).ambient := by
    simp [execCreds, afterSetuid_effective, afterSetuid_ambient]
  simp only [hleft, true_and, and_true]
  by_cases hleave : LeavesRoot document c
  · cases hkeep : c.keepCaps with
    | false => simp [hleave, eq_comm]
    | true => simp
  · simp [hleave]

/-- Every step `exec` lacks has to have been without effect. -/
theorem same_privileges_iff (hinit : containerInit crate document c = .ok r) :
    SamePrivileges (execCreds document c) r ↔ NothingSkipped document c := by
  have hgroups := same_groups_iff hinit
  have hnnp := same_noNewPrivs_iff hinit
  have hsets : SameSets (execCreds document c) r ↔
      (∀ caps, document.capabilities = some caps → AsksForWhatIsHeld document caps c) ∧
        (document.capabilities = none → KeepsNothingMore document c) := by
    cases hcaps : document.capabilities with
    | none => simpa using same_sets_unlisted hcaps hinit
    | some caps => simpa using same_sets_listed hcaps hinit
  constructor
  · intro h
    have hfive := hsets.mp ⟨h.bounding, h.permitted, h.effective, h.inheritable, h.ambient⟩
    exact ⟨hgroups.mp h.groups, hnnp.mp h.noNewPrivs, hfive.1, hfive.2⟩
  · intro h
    obtain ⟨hbounding, hpermitted, heffective, hinheritable, hambient⟩ :=
      hsets.mpr ⟨h.listed, h.unlisted⟩
    obtain ⟨huid, hgid, -, -⟩ := containerInit_user hinit
    refine ⟨?_, ?_, hgroups.mpr h.groups, hbounding, hpermitted, heffective, hinheritable,
      hambient, hnnp.mpr h.noNewPrivs⟩
    · rw [huid, execCreds, afterSetuid_uid]
    · rw [hgid, execCreds, afterSetuid_gid]

end document

/-! ## The user of the command line -/

/-- The group id and the groups stay the runtime's wherever they are not given. -/
theorem keepsOnlyWhatIsAsked_iff {target : Target} {uid : Nat} {c r : Creds Capability}
    (huid : target.uid = some uid) (h : enter target c = .ok r) :
    KeepsOnlyWhatIsAsked target.gid target.groups c r ↔
      target.gid ≠ none ∧ (target.groups = [] → c.groups = []) := by
  cases hgid : target.gid with
  | none =>
      have hsame : r.gid = c.gid := by rw [enter_uid_only huid hgid h, afterSetuid_gid]
      constructor
      · intro hkeeps
        exact absurd (hkeeps.gid hsame) (by simp)
      · intro hasked
        exact absurd rfl hasked.1
  | some gid =>
      have hresult := enter_user huid hgid h
      constructor
      · intro hkeeps
        refine ⟨by simp, fun hnone => ?_⟩
        apply List.eq_nil_iff_forall_not_mem.mpr
        intro group hmem
        have hstays : group ∈ r.groups := by
          rw [hresult, afterSetuid_groups, if_pos hnone]
          exact hmem
        have hasked := hkeeps.groups group hmem hstays
        rw [hnone] at hasked
        cases hasked
      · intro hasked
        constructor
        · intro hsame
          rw [hresult, afterSetuid_gid] at hsame
          rw [← hsame]
        · intro group hmem hstays
          by_cases hnone : target.groups = []
          · rw [hasked.2 hnone] at hmem
            cases hmem
          · rw [hresult, afterSetuid_groups, if_neg hnone] at hstays
            exact hstays

/-- Both halves, for every document, every command line and every runtime. -/
theorem exec_privileges_iff {loaded : Option Bundle} {read : String → Except Error Process}
    {options : ExecOptions} {document : Option Process} {target : Target} {crate : CapsCrate}
    {c r' : Creds Capability} (hread : readProcess read options = .ok document)
    (htarget : resolveTarget loaded read options = .ok target) (henter : enter target c = .ok r') :
    (∀ process r, document = some process → ByDocument options →
      containerInit crate process c = .ok r → (SamePrivileges r' r ↔ NothingSkipped process c)) ∧
    (∀ text uid gid, options.user = some text → parseUser text = .ok (uid, gid) →
      (KeepsOnlyWhatIsAsked gid (resolveGroups document options) c r' ↔
        gid ≠ none ∧ (resolveGroups document options = [] → c.groups = []))) := by
  obtain ⟨huser, hgroups⟩ := resolveTarget_user hread htarget
  constructor
  · intro process r hprocess hby hinit
    subst hprocess
    simp only [resolveUser, hby.2.1, Except.ok.injEq, Prod.mk.injEq] at huser
    have hexec := enter_user huser.1.symm huser.2.symm henter
    have hresolved : target.groups = process.user.additionalGids.getD [] := by
      rw [hgroups, resolveGroups, if_pos hby.2.2]
    rw [hresolved] at hexec
    rw [hexec]
    exact same_privileges_iff hinit
  · intro text uid gid htext hparse
    have hboth : uid = target.uid ∧ gid = target.gid := by
      simpa [resolveUser, htext, hparse] using huser
    obtain ⟨given, hgiven⟩ := parseUser_uid hparse
    rw [← hgroups, hboth.2]
    exact keepsOnlyWhatIsAsked_iff (hboth.1 ▸ hgiven) henter

/-! ## A document and a command line -/

/-- A root process with one supplementary group. -/
def demoRuntime : Creds Capability where
  uid := 0
  gid := 0
  groups := [0]
  bounding := {.setuid, .setgid, .setpcap, .kill}
  permitted := {.setuid, .setgid, .setpcap, .kill}
  effective := {.setuid, .setgid, .setpcap, .kill}
  inheritable := ∅
  ambient := ∅
  keepCaps := false
  noNewPrivs := false

def demoProcess (uid : Nat) (gids : List Nat) (capabilities : Option LinuxCapabilities)
    (noNewPrivileges : Bool) : Process where
  terminal := none
  user := { uid := uid, gid := uid, umask := none, additionalGids := some gids }
  args := some ["sh"]
  env := none
  cwd := "/"
  capabilities := capabilities
  noNewPrivileges := some noNewPrivileges

def demoOptions (process user : Option String) : ExecOptions where
  argv := ["sh"]
  env := []
  cwd := none
  process := process
  user := user
  additionalGids := []
  consoleSocket := none
  tty := false
  detach := true
  pidFile := none
  ignorePaused := false

/-- Everything dropped, and nothing more to be gained. -/
def confined : Process :=
  demoProcess 1000 [] (some ⟨some [], some [], some [], some [], some []⟩) true

/-- Root stays root, in its own group. -/
def unconfined : Process := demoProcess 0 [0] none false

theorem exec_privileges_unconfined :
    ∃ target r r',
      resolveTarget none (fun _ => .ok unconfined) (demoOptions (some "p.json") none) =
        .ok target ∧
      containerInit byNumber unconfined demoRuntime = .ok r ∧ enter target demoRuntime = .ok r' ∧
      SamePrivileges r' r := by
  refine ⟨_, _, _, rfl, rfl, rfl, ?_⟩
  have hboth := @exec_privileges_iff none (fun _ => .ok unconfined)
    (demoOptions (some "p.json") none) (some unconfined) _ byNumber demoRuntime _ rfl rfl rfl
  refine (hboth.1 unconfined _ rfl ⟨by decide, rfl, rfl⟩ rfl).mpr ?_
  refine ⟨by decide, by decide, by simp [unconfined, demoProcess], fun _ => ?_⟩
  intro hleave
  exact absurd rfl hleave.2

theorem exec_skips_confinement :
    (∃ target r r',
      resolveTarget none (fun _ => .ok confined) (demoOptions (some "p.json") none) =
        .ok target ∧
      containerInit byNumber confined demoRuntime = .ok r ∧ enter target demoRuntime = .ok r' ∧
      ¬ SamePrivileges r' r) ∧
    (∃ target r',
      resolveTarget none (fun _ => .ok confined) (demoOptions none (some "1000")) =
        .ok target ∧
      enter target demoRuntime = .ok r' ∧
      ¬ KeepsOnlyWhatIsAsked none [] demoRuntime r') := by
  constructor
  · refine ⟨_, _, _, rfl, rfl, rfl, ?_⟩
    intro hsame
    exact absurd hsame.noNewPrivs (by decide)
  · refine ⟨_, _, rfl, rfl, ?_⟩
    intro hkeeps
    exact absurd (hkeeps.gid rfl) (by decide)

end Mars.Exec
