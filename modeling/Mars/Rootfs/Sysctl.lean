import Mars.Bundle.Validate

/-! # The settings of the kernel

Hostname, domainname and the sysctls of the document are set by init, after the
root has been moved. A setting belongs to one kind of namespace or to the host.
The sysctls are a hash map, so their order is a parameter.
-/

namespace Mars.Sysctl
open Spec UnixPath V2 Validate
open Text (debugText)

def BASE : String := "/proc/sys"

/-! ## The source's writes -/

def isNormal : Component → Bool
  | .normal _ => true
  | _ => false

def slashed (key : String) : String :=
  String.ofList (key.toList.map fun c => if c = '.' then '/' else c)

def resolve (key : String) : Except Error String :=
  if key = "" then .error (.invalid "an empty sysctl key")
  else if (components (slashed key)).all isNormal then .ok (join BASE (slashed key))
  else .error (.invalid ("sysctl key " ++ debugText key ++ " resolves outside " ++ BASE))

theorem resolve_eq_ok {key path : String} :
    resolve key = .ok path ↔
      key ≠ "" ∧ (components (slashed key)).all isNormal = true ∧ path = join BASE (slashed key) := by
  unfold resolve
  split
  next hempty => simp [hempty]
  next hsome =>
    split
    next hall => simp [hsome, hall, eq_comm]
    next hall => simp [hall]

inductive Setting where
  | hostname (name : String)
  | domainname (name : String)
  | sysctl (path value : String)
  deriving DecidableEq

/-- The settings made, and how it ended. -/
abbrev Outcome := List Setting × Except Error Unit

/-- One write, if the host lets it pass, and the rest. -/
def set (accepts : Setting → Bool) (setting : Setting) (error : Error) (rest : Outcome) :
    Outcome :=
  if accepts setting then (setting :: rest.1, rest.2) else ([], .error error)

def apply (accepts : Setting → Bool) : List (String × String) → Outcome
  | [] => ([], .ok ())
  | (key, value) :: rest =>
      match resolve key with
      | .error error => ([], .error error)
      | .ok target =>
          set accepts (.sysctl target value)
            (.io ("write sysctl " ++ key ++ "=" ++ value ++ " to " ++ target ++
              "; the namespace that owns this knob must belong to the container"))
            (apply accepts rest)

def setDomainname (accepts : Setting → Bool) (domainname : Option String) (rest : Outcome) :
    Outcome :=
  match domainname with
  | some name =>
      set accepts (.domainname name) (.nix ("setdomainname(" ++ debugText name ++ ")")) rest
  | none => rest

def setHostname (accepts : Setting → Bool) (hostname : Option String) (rest : Outcome) : Outcome :=
  match hostname with
  | some name => set accepts (.hostname name) .syscall rest
  | none => rest

/-- The part of `container_init` that makes the settings. What goes before decides
only whether it is reached. -/
def identity (accepts : Setting → Bool) (d : Document) (order : List (String × String)) : Outcome :=
  setHostname accepts d.spec.hostname
    (setDomainname accepts d.spec.domainname (apply accepts order))

/-! ## Whose setting it is -/

def startsWith (lead text : String) : Bool := lead.toList.isPrefixOf text.toList

/-- The kind of namespace a file under `/proc/sys` belongs to, by the names that
lead to it. -/
def knob : List String → Option LinuxNamespaceType
  | ["kernel", name] =>
      if name = "hostname" ∨ name = "domainname" then some .uts
      else if name = "sem" ∨ startsWith "msg" name ∨ startsWith "shm" name then some .ipc
      else none
  | "net" :: _ => some .network
  | "fs" :: "mqueue" :: _ :: _ => some .ipc
  | _ => none

def Setting.owner : Setting → Option LinuxNamespaceType
  | .hostname _ => some .uts
  | .domainname _ => some .uts
  | .sysctl path _ =>
      if components BASE <+: components path then
        knob ((namesOf ((components path).drop (components BASE).length)).map Name.text)
      else none

/-- The setting stays in a namespace that the document lists. -/
def Inside (d : Document) (setting : Setting) : Prop :=
  ∃ typ ∈ d.namespaces.map (·.typ), setting.owner = some typ

/-- Whatever the host lets pass and in whatever order, nothing is set for the host. -/
def HostSafe (d : Document) : Prop :=
  ∀ accepts order, order.Perm d.sysctl →
    ∀ setting ∈ (identity accepts d order).1, Inside d setting

/-- Every key that leads to a file leads to one of a listed namespace. -/
def Namespaced (d : Document) : Prop :=
  ∀ entry ∈ d.sysctl, ∀ path, resolve entry.1 = .ok path → Inside d (.sysctl path entry.2)

/-! ## What is set -/

section writes
variable {accepts : Setting → Bool} {setting s : Setting} {error : Error} {rest : Outcome}
  {order : List (String × String)} {d : Document}

theorem mem_set (h : s ∈ (set accepts setting error rest).1) : s = setting ∨ s ∈ rest.1 := by
  unfold set at h
  split at h
  next => exact List.mem_cons.mp h
  next => cases h

theorem mem_apply (h : s ∈ (apply accepts order).1) :
    ∃ entry ∈ order, ∃ path, resolve entry.1 = .ok path ∧ s = .sysctl path entry.2 := by
  induction order with
  | nil => cases h
  | cons entry rest ih =>
      obtain ⟨key, value⟩ := entry
      simp only [apply] at h
      split at h
      next => cases h
      next path hpath =>
        rcases mem_set h with rfl | hlater
        · exact ⟨_, List.mem_cons_self, path, hpath, rfl⟩
        · obtain ⟨entry, hmem, hrest⟩ := ih hlater
          exact ⟨entry, List.mem_cons_of_mem _ hmem, hrest⟩

theorem mem_identity (h : s ∈ (identity accepts d order).1) :
    (∃ name, d.spec.hostname = some name ∧ s = .hostname name) ∨
      (∃ name, d.spec.domainname = some name ∧ s = .domainname name) ∨
      s ∈ (apply accepts order).1 := by
  have hdomainname : s ∈ (setDomainname accepts d.spec.domainname (apply accepts order)).1 →
      (∃ name, d.spec.domainname = some name ∧ s = .domainname name) ∨
        s ∈ (apply accepts order).1 := by
    intro hlater
    unfold setDomainname at hlater
    split at hlater
    next name hname => exact (mem_set hlater).imp_left fun hs => ⟨name, hname, hs⟩
    next => exact .inr hlater
  unfold identity setHostname at h
  split at h
  next name hname =>
    rcases mem_set h with hs | hlater
    · exact .inl ⟨name, hname, hs⟩
    · exact .inr (hdomainname hlater)
  next => exact .inr (hdomainname h)

/-- A host that lets everything pass sees the sysctl that comes first. -/
theorem mem_identity_first {entry : String × String} {path : String}
    (hpath : resolve entry.1 = .ok path) :
    .sysctl path entry.2 ∈ (identity (fun _ => true) d (entry :: order)).1 := by
  have happly : .sysctl path entry.2 ∈ (apply (fun _ => true) (entry :: order)).1 := by
    obtain ⟨key, value⟩ := entry
    simp only [apply, hpath, set, if_true]
    exact List.mem_cons_self
  unfold identity setHostname setDomainname
  split <;> split <;> simp [set, happly]

end writes

theorem inside_uts {d : Document} {setting : Setting} (howner : setting.owner = some .uts)
    (huts : .uts ∈ d.namespaces.map (·.typ)) : Inside d setting := ⟨.uts, huts, howner⟩

theorem hostSafe_of_namespaced {d : Document} (h : Accepted d) (hkeys : Namespaced d) :
    HostSafe d := by
  intro accepts order horder setting hsetting
  rcases mem_identity hsetting with ⟨name, hname, rfl⟩ | ⟨name, hname, rfl⟩ | happly
  · exact inside_uts rfl (h.hostname (by simp [hname]))
  · exact inside_uts rfl (h.domainname (by simp [hname]))
  · obtain ⟨entry, hentry, path, hpath, rfl⟩ := mem_apply happly
    exact hkeys entry (horder.mem_iff.mp hentry) path hpath

theorem namespaced_of_hostSafe {d : Document} (h : HostSafe d) : Namespaced d := by
  intro entry hentry path hpath
  have horder : (entry :: d.sysctl.erase entry).Perm d.sysctl :=
    (List.perm_cons_erase hentry).symm
  exact h _ _ horder _ (mem_identity_first hpath)

/-- An accepted document leaves the host's settings alone exactly when each of its
sysctls belongs to a namespace it lists: of the settings only the two names have
been checked. -/
theorem hostSafe_iff {d : Document} (h : Validate.spec d = .ok ()) : HostSafe d ↔ Namespaced d :=
  ⟨namespaced_of_hostSafe, hostSafe_of_namespaced (spec_eq_ok.mp h)⟩

/-- A document with these sysctls and a network namespace. -/
def document (sysctl : List (String × String)) : Document where
  version := "1.0.2"
  spec :=
    { root := some ⟨"rootfs", none⟩
      process := none
      hostname := some "guest"
      domainname := none
      mounts := none
      hooks := none }
  rlimits := none
  linux := some
    { namespaces := some [⟨.mount, none⟩, ⟨.uts, none⟩, ⟨.network, none⟩]
      sysctl := some sysctl
      rootfsPropagation := none
      maskedPaths := none
      readonlyPaths := none }
  solaris := false
  windows := false
  vm := false
  zos := false

theorem hostSafe_forwarding : Validate.spec (document [("net.ipv4.ip_forward", "1")]) = .ok () ∧
    HostSafe (document [("net.ipv4.ip_forward", "1")]) := by
  have haccepted : Validate.spec (document [("net.ipv4.ip_forward", "1")]) = .ok () := by
    decide +kernel
  refine ⟨haccepted, (hostSafe_iff haccepted).mpr fun entry hentry path hpath => ?_⟩
  obtain rfl := List.mem_singleton.mp hentry
  have hresolve : resolve "net.ipv4.ip_forward" = .ok "/proc/sys/net/ipv4/ip_forward" := by
    decide +kernel
  obtain rfl := Except.ok.inj (hresolve.symm.trans hpath)
  exact ⟨.network, by decide, by decide +kernel⟩

/-- A sysctl no namespace has is accepted, and written for the host. -/
theorem panic_accepted : Validate.spec (document [("kernel.panic", "1")]) = .ok () ∧
    ¬ HostSafe (document [("kernel.panic", "1")]) := by
  refine ⟨by decide +kernel, fun hsafe => ?_⟩
  have hresolve : resolve "kernel.panic" = .ok "/proc/sys/kernel/panic" := by decide +kernel
  obtain ⟨typ, -, howner⟩ :=
    namespaced_of_hostSafe hsafe ("kernel.panic", "1") (by decide) _ hresolve
  have hnone : (Setting.sysctl "/proc/sys/kernel/panic" "1").owner = none := by decide +kernel
  rw [hnone] at howner
  cases howner

end Mars.Sysctl
