import Mars.Container.Process
import Mars.Container.UserMappings
import Mars.Core.ResidentCreds

/-! # Who the container is to the host

Behind the maps that the runtime writes, init first becomes root in the new user
namespace and then the user of the process document. To the kernel that user is the
one the maps say, and where groups were denied no user can be taken on at all.
-/

namespace Mars.HostIdentity
open Spec Credentials IdMap UserSpace Capabilities UserMappings

/-! ## The calls -/

def becomeRootInNamespace (s : Space) (r : Resident Capability) :
    Except Error (Resident Capability) := do
  let r ← called (s.setgid 0 r) (.nix ("setresgid(0,0,0) inside the new user namespace; " ++
    "creating one leaves the caller's own id unmapped, so it reads as the overflow id and " ++
    "every file operation fails with EOVERFLOW until we move into the mapping"))
  called (s.setuid 0 r) (.nix "setresuid(0,0,0) inside the new user namespace")

def dropPrivileges (s : Space) (process : Process) (r : Resident Capability) :
    Except Error (Resident Capability) :=
  Process.dropPrivilegesBy s.calls process r

def containerInit (s : Space) (crate : CapsCrate) (process : Process) (r : Resident Capability) :
    Except Error (Resident Capability) :=
  Process.containerInitBy s.calls crate process r

/-- From the new namespace, once its maps are there, to the program of the container. -/
def settle (s : Space) (crate : CapsCrate) (process : Process) (r : Resident Capability) :
    Except Error (Resident Capability) := do
  let r ← becomeRootInNamespace s r
  containerInit s crate process r

/-! ## Beside the same calls outside any namespace -/

/-- The ids the kernel knows a user by. -/
structure Counterparts (s : Space) (user : User) (kuid kgid : Nat) (kgroups : List Nat) : Prop where
  uid : down s.uidMap user.uid = some kuid
  gid : down s.gidMap user.gid = some kgid
  groups : (user.additionalGids.getD []).map (down s.gidMap) = kgroups.map some

theorem dropPrivileges_ok {s : Space} {process : Process} {r r' : Resident Capability} :
    dropPrivileges s process r = .ok r' ↔ s.setgroupsDenied = false ∧
      ∃ c kuid kgid kgroups, Process.dropPrivileges process r.creds = .ok c ∧
        Counterparts s process.user kuid kgid kgroups ∧ r' = ⟨c, kuid, kgid, kgroups⟩ := by
  have hmapped : ∀ {gid kgid}, down s.gidMap gid = some kgid → s.gidMap ≠ [] := by
    intro gid kgid hkgid hnil
    rw [hnil] at hkgid
    cases hkgid
  unfold dropPrivileges Process.dropPrivileges Process.dropPrivilegesBy
  by_cases hleave : r.creds.uid = 0 ∧ process.user.uid ≠ 0
  all_goals
    simp only [Space.calls, plain, id, hleave, not_false_eq_true, and_self, ne_eq, if_true, if_false,
      bind_eq_ok, called_eq_ok, pure_eq_ok, Space.setgroups_eq_some, Space.setgid_eq_some,
      Space.setuid_eq_some]
    constructor
    · rintro ⟨r₁, ⟨hallowed, -, c₁, kgroups, hgroups, hkgroups, rfl⟩,
        r₂, ⟨kgid, c₂, hkgid, hgid, rfl⟩, r₃, ⟨kuid, c₃, hkuid, huid, rfl⟩, rfl⟩
      exact ⟨hallowed, _, kuid, kgid, kgroups, ⟨c₁, hgroups, c₂, hgid, c₃, huid, rfl⟩,
        ⟨hkuid, hkgid, hkgroups⟩, rfl⟩
    · rintro ⟨hallowed, c, kuid, kgid, kgroups, ⟨c₁, hgroups, c₂, hgid, c₃, huid, rfl⟩,
        ⟨hkuid, hkgid, hkgroups⟩, rfl⟩
      exact ⟨_, ⟨hallowed, hmapped hkgid, c₁, kgroups, hgroups, hkgroups, rfl⟩,
        _, ⟨kgid, c₂, hkgid, hgid, rfl⟩, _, ⟨kuid, c₃, hkuid, huid, rfl⟩, rfl⟩

theorem containerInit_ok {s : Space} {crate : CapsCrate} {process : Process}
    {r r' : Resident Capability} :
    containerInit s crate process r = .ok r' ↔ s.setgroupsDenied = false ∧
      ∃ c kuid kgid kgroups, Process.containerInit crate process r.creds = .ok c ∧
        Counterparts s process.user kuid kgid kgroups ∧ r' = ⟨c, kuid, kgid, kgroups⟩ := by
  unfold containerInit Process.containerInitBy
  simp only [bind_eq_ok, pure_eq_ok, Calls.change_eq_ok, Process.containerInit_ok]
  constructor
  · rintro ⟨r₁, ⟨c₁, hbounding, rfl⟩, r₂, hdrop, r₃, ⟨c₃, happly, rfl⟩, rfl⟩
    obtain ⟨hallowed, c₂, kuid, kgid, kgroups, houtside, hcounterparts, rfl⟩ :=
      dropPrivileges_ok.mp hdrop
    refine ⟨hallowed, _, kuid, kgid, kgroups, ⟨c₁, c₂, c₃, hbounding, houtside, happly, rfl⟩,
      hcounterparts, ?_⟩
    split <;> rfl
  · rintro ⟨hallowed, c, kuid, kgid, kgroups, ⟨c₁, c₂, c₃, hbounding, hdrop, happly, rfl⟩,
      hcounterparts, rfl⟩
    refine ⟨_, ⟨c₁, hbounding, rfl⟩, _, dropPrivileges_ok.mpr
      ⟨hallowed, c₂, kuid, kgid, kgroups, hdrop, hcounterparts, rfl⟩, _, ⟨c₃, happly, rfl⟩, ?_⟩
    split <;> rfl

/-! ## In a new namespace -/

def full : Finset Capability := Capability.all.toFinset

/-- Root, with every capability and nothing else. -/
def rootCreds (c : Creds Capability) : Creds Capability where
  uid := 0
  gid := 0
  groups := c.groups
  bounding := full
  permitted := full
  effective := full
  inheritable := ∅
  ambient := ∅
  keepCaps := false
  noNewPrivs := c.noNewPrivs

theorem becomeRoot_ok {s : Space} {r r' : Resident Capability} :
    becomeRootInNamespace s (unshareUser full r) = .ok r' ↔ ∃ kuid kgid,
      down s.uidMap 0 = some kuid ∧ down s.gidMap 0 = some kgid ∧
        r' = ⟨rootCreds r.creds, kuid, kgid, r.kgroups⟩ := by
  have hcreds : ∀ c, c = { (unshareUser full r).creds with gid := 0 } →
      afterSetuid 0 c = rootCreds r.creds := by
    rintro c rfl
    unfold afterSetuid
    split
    · next hleave => exact absurd rfl hleave.2
    · split <;> rfl
  have hgid : Credentials.setgid 0 (unshareUser full r).creds =
      some { (unshareUser full r).creds with gid := 0 } :=
    if_pos (.inl (by decide : Privileged.setgid ∈ full))
  have huid : Credentials.setuid 0 { (unshareUser full r).creds with gid := 0 } =
      some (rootCreds r.creds) := by
    rw [← hcreds _ rfl]
    exact if_pos (.inl (by decide : Privileged.setuid ∈ full))
  simp only [becomeRootInNamespace, bind_eq_ok, called_eq_ok, Space.setgid_eq_some,
    Space.setuid_eq_some]
  constructor
  · rintro ⟨_, ⟨kgid, c₁, hkgid, hgid', rfl⟩, kuid, c₂, hkuid, huid', rfl⟩
    obtain rfl := Option.some.inj (hgid.symm.trans hgid')
    obtain rfl := Option.some.inj (huid.symm.trans huid')
    exact ⟨kuid, kgid, hkuid, hkgid, rfl⟩
  · rintro ⟨kuid, kgid, hkuid, hkgid, rfl⟩
    exact ⟨_, ⟨kgid, _, hkgid, hgid, rfl⟩, kuid, _, hkuid, huid, rfl⟩

/-- The document names ids that its own maps have, and root is one of them. -/
structure Known (mappings : Mappings) (user : User) : Prop where
  uids : ∀ uid ∈ [0, user.uid], (down (extents mappings.uid) uid).isSome
  gids : ∀ gid ∈ 0 :: user.gid :: user.additionalGids.getD [],
    (down (extents mappings.gid) gid).isSome

/-- Where the parent's maps take the id that the document's own map gives. -/
def onHost (host : Host) (mappings : Mappings) (kind : Kind) (id : Nat) : Option Nat :=
  (down (extents (mappings.of kind)) id).bind (down (host.parent kind))

structure SeenOutside (host : Host) (mappings : Mappings) (user : User)
    (r : Resident Capability) : Prop where
  uid : onHost host mappings .uid user.uid = some r.kuid
  gid : onHost host mappings .gid user.gid = some r.kgid
  groups : (user.additionalGids.getD []).map (onHost host mappings .gid) = r.kgroups.map some

theorem settle_ok {s : Space} {crate : CapsCrate} {process : Process} {r r' : Resident Capability} :
    settle s crate process (unshareUser full r) = .ok r' ↔ s.setgroupsDenied = false ∧
      (down s.uidMap 0).isSome ∧ (down s.gidMap 0).isSome ∧ ∃ c kuid kgid kgroups,
        Process.containerInit crate process (rootCreds r.creds) = .ok c ∧
        Counterparts s process.user kuid kgid kgroups ∧ r' = ⟨c, kuid, kgid, kgroups⟩ := by
  simp only [settle, bind_eq_ok, becomeRoot_ok, Option.isSome_iff_exists]
  constructor
  · rintro ⟨_, ⟨kuid, kgid, hkuid, hkgid, rfl⟩, hinit⟩
    obtain ⟨hallowed, hrest⟩ := containerInit_ok.mp hinit
    exact ⟨hallowed, ⟨kuid, hkuid⟩, ⟨kgid, hkgid⟩, hrest⟩
  · rintro ⟨hallowed, ⟨kuid, hkuid⟩, ⟨kgid, hkgid⟩, hrest⟩
    exact ⟨_, ⟨kuid, kgid, hkuid, hkgid, rfl⟩, containerInit_ok.mpr ⟨hallowed, hrest⟩⟩

section mapped
variable {host : Host} {pid : Int} {mappings : Mappings} {denied privileged : Bool} {s : Space}

theorem map_some {α β : Type} {f : α → Option β} {ids : List α} :
    (∃ kernel : List β, ids.map f = kernel.map some) ↔ ∀ id ∈ ids, (f id).isSome := by
  constructor
  · rintro ⟨kernel, hkernel⟩ id hid
    have hmem : f id ∈ kernel.map some := hkernel ▸ List.mem_map_of_mem hid
    obtain ⟨lower, -, hlower⟩ := List.mem_map.mp hmem
    rw [← hlower]
    rfl
  · intro h
    refine ⟨ids.filterMap f, ?_⟩
    induction ids with
    | nil => rfl
    | cons id rest ih =>
        obtain ⟨lower, hlower⟩ := Option.isSome_iff_exists.mp (h id List.mem_cons_self)
        rw [List.filterMap_cons_some hlower, List.map_cons, List.map_cons, hlower]
        rw [ih fun id hid => h id (List.mem_cons_of_mem _ hid)]

/-- The ids of the document are there exactly if its own maps have them. -/
theorem counterparts_iff (hhelpers : HelpersWrite host)
    (hwrite : write host pid mappings privileged (.unmapped denied) = (.ok (), s)) {user : User} :
    (down s.uidMap 0).isSome ∧ (down s.gidMap 0).isSome ∧
        (∃ kuid kgid kgroups, Counterparts s user kuid kgid kgroups) ↔ Known mappings user := by
  obtain ⟨-, hmaps⟩ := write_maps hhelpers hwrite
  have huid : ∀ id, (down s.uidMap id).isSome = (down (extents mappings.uid) id).isSome :=
    isSome_through (hmaps .uid).2
  have hgid : ∀ id, (down s.gidMap id).isSome = (down (extents mappings.gid) id).isSome :=
    isSome_through (hmaps .gid).2
  constructor
  · rintro ⟨hroot, hgroot, kuid, kgid, kgroups, hkuid, hkgid, hkgroups⟩
    have hgroups := map_some.mp ⟨kgroups, hkgroups⟩
    constructor
    · simp [← huid, hroot, hkuid]
    · simp only [← hgid, List.forall_mem_cons]
      exact ⟨hgroot, by simp [hkgid], hgroups⟩
  · rintro ⟨huids, hgids⟩
    simp only [← huid, ← hgid, List.forall_mem_cons] at huids hgids
    obtain ⟨kuid, hkuid⟩ := Option.isSome_iff_exists.mp huids.2.1
    obtain ⟨kgid, hkgid⟩ := Option.isSome_iff_exists.mp hgids.2.1
    obtain ⟨kgroups, hkgroups⟩ := map_some.mpr hgids.2.2
    exact ⟨huids.1, hgids.1, kuid, kgid, kgroups, hkuid, hkgid, hkgroups⟩

/-- Once its maps are written, the process of a new user namespace takes on the user of the
document exactly if setgroups was not denied in the parent, the runtime was privileged, the
document's maps have root and all ids it asks for, and the same calls go well outside a
namespace. Then the ids the kernel has for it are those of the document, through its own maps and
then the parent's. -/
theorem seen_outside (hparent : ∀ kind, Sound (host.parent kind)) (hhelpers : HelpersWrite host)
    (hwrite : write host pid mappings privileged (.unmapped denied) = (.ok (), s)) (crate : CapsCrate)
    (process : Process) (r : Resident Capability) :
    ((∃ r', settle s crate process (unshareUser full r) = .ok r') ↔
      (denied = false ∧ privileged = true) ∧ Known mappings process.user ∧
        ∃ c, Process.containerInit crate process (rootCreds r.creds) = .ok c) ∧
    ∀ r', settle s crate process (unshareUser full r) = .ok r' →
      Process.containerInit crate process (rootCreds r.creds) = .ok r'.creds ∧
        SeenOutside host mappings process.user r' := by
  obtain ⟨hdenied, hmaps⟩ := write_maps hhelpers hwrite
  have hallowed : s.setgroupsDenied = false ↔ denied = false ∧ privileged = true := by
    simp [hdenied, Space.unmapped]
  simp only [settle_ok, hallowed]
  constructor
  · rw [← counterparts_iff hhelpers hwrite]
    constructor
    · rintro ⟨r', hprivileged, hroot, hgroot, c, kuid, kgid, kgroups, hinit, hcounterparts, -⟩
      exact ⟨hprivileged, ⟨hroot, hgroot, kuid, kgid, kgroups, hcounterparts⟩, c, hinit⟩
    · rintro ⟨hprivileged, ⟨hroot, hgroot, kuid, kgid, kgroups, hcounterparts⟩, c, hinit⟩
      exact ⟨_, hprivileged, hroot, hgroot, c, kuid, kgid, kgroups, hinit, hcounterparts, rfl⟩
  · rintro r' ⟨-, -, -, c, kuid, kgid, kgroups, hinit, ⟨hkuid, hkgid, hkgroups⟩, rfl⟩
    have hlower : ∀ kind, onHost host mappings kind = down (s.map kind) :=
      fun kind => funext fun id => (down_through (hparent kind) (hmaps kind).2 id).symm
    refine ⟨hinit, ?_, ?_, ?_⟩
    · rw [hlower]
      exact hkuid
    · rw [hlower]
      exact hkgid
    · rw [hlower]
      exact hkgroups

end mapped

/-! ## A runtime started by root -/

def rootHost : Host where
  parent := fun _ => [everyId]
  writer := rootWriter
  isFile := fun _ => false
  run := fun _ _ s => (none, s)

def shifted : Mappings where
  uid := [⟨0, 100000, 65536⟩]
  gid := [⟨0, 100000, 65536⟩]

def shiftedSpace : Space where
  uidMap := [⟨0, 100000, 65536⟩]
  gidMap := [⟨0, 100000, 65536⟩]
  setgroupsDenied := false

def served : Process where
  terminal := none
  user := { uid := 33, gid := 33, umask := none, additionalGids := some [4] }
  args := some ["/bin/serve"]
  env := none
  cwd := "/"
  capabilities := none
  noNewPrivileges := none

/-- The runtime, as root of the host. -/
def runtimeCreds : Resident Capability where
  creds := { uid := 0, gid := 0, groups := [0], bounding := full, permitted := full,
             effective := full, inheritable := ∅, ambient := ∅, keepCaps := false,
             noNewPrivs := false }
  kuid := 0
  kgid := 0
  kgroups := [0]

theorem seen_outside_shifted :
    ∃ r', settle shiftedSpace byNumber served (unshareUser full runtimeCreds) = .ok r' ∧
      r'.kuid = 100033 := by
  have hwrite : write rootHost 7 shifted true (.unmapped false) = (.ok (), shiftedSpace) := rfl
  have hhelpers : HelpersWrite rootHost := by
    intro kind dir pid mappings output s s' hdir hrun hsuccess
    cases hrun
  obtain ⟨hiff, hseen⟩ :=
    seen_outside (fun _ => everyId_sound) hhelpers hwrite byNumber served runtimeCreds
  have hknown : Known shifted served.user := ⟨by decide, by decide⟩
  obtain ⟨r', hr⟩ := hiff.mpr ⟨⟨rfl, rfl⟩, hknown, _, rfl⟩
  refine ⟨r', hr, ?_⟩
  have huid : some 100033 = some r'.kuid := (hseen r' hr).2.uid
  exact (Option.some.inj huid).symm

end Mars.HostIdentity
