import Mars.Rootfs.Mounts

/-! # Hardening the mounts after the pivot -/

namespace Mars.Harden
open UnixPath Spec MountTable Mounts

def remountCall (specMount : Mount) : Call where
  source := none
  target := components specMount.destination
  fstype := none
  flags := (parseOptions (specMount.options.getD [])).flags ||| MS_REMOUNT
  data := none

def remountOne (host : Host) (k : Kernel) (specMount : Mount) : Except Error Kernel :=
  let options := parseOptions (specMount.options.getD [])
  if !contains options.flags MS_RDONLY then .ok k
  else if specMount.typ.getD "" ≠ "tmpfs" then .ok k
  else host.mount k (remountCall specMount) ("remount the tmpfs at " ++ specMount.destination ++
    " read-only; it had to be writable while the runtime populated it")

/-- Only what is a tmpfs by name is made read-only again. -/
def remountReadonlyMounts (host : Host) (rootfsMounts : List Mount) (k : Kernel) :
    Except Error Kernel :=
  rootfsMounts.foldlM (remountOne host) k

end Mars.Harden
