/-! # The runtime spec: the parts the runtime reads -/

namespace Mars.Spec

/-- The capabilities the spec can name; the kernel's own list is the same. -/
inductive Capability where
  | auditControl
  | auditRead
  | auditWrite
  | blockSuspend
  | bpf
  | checkpointRestore
  | chown
  | dacOverride
  | dacReadSearch
  | fowner
  | fsetid
  | ipcLock
  | ipcOwner
  | kill
  | lease
  | linuxImmutable
  | macAdmin
  | macOverride
  | mknod
  | netAdmin
  | netBindService
  | netBroadcast
  | netRaw
  | perfmon
  | setgid
  | setfcap
  | setpcap
  | setuid
  | sysAdmin
  | sysBoot
  | sysChroot
  | sysModule
  | sysNice
  | sysPacct
  | sysPtrace
  | sysRawio
  | sysResource
  | sysTime
  | sysTtyConfig
  | syslog
  | wakeAlarm
  deriving DecidableEq, Repr

def Capability.all : List Capability := [
  .auditControl, .auditRead, .auditWrite, .blockSuspend, .bpf, .checkpointRestore, .chown,
  .dacOverride, .dacReadSearch, .fowner, .fsetid, .ipcLock, .ipcOwner, .kill, .lease,
  .linuxImmutable, .macAdmin, .macOverride, .mknod, .netAdmin, .netBindService, .netBroadcast,
  .netRaw, .perfmon, .setgid, .setfcap, .setpcap, .setuid, .sysAdmin, .sysBoot, .sysChroot,
  .sysModule, .sysNice, .sysPacct, .sysPtrace, .sysRawio, .sysResource, .sysTime, .sysTtyConfig,
  .syslog, .wakeAlarm]

theorem Capability.mem_all (cap : Capability) : cap ∈ all := by
  cases cap <;> decide

/-- The spelling of both the spec and the kernel. -/
def Capability.name : Capability → String
  | .auditControl => "CAP_AUDIT_CONTROL"
  | .auditRead => "CAP_AUDIT_READ"
  | .auditWrite => "CAP_AUDIT_WRITE"
  | .blockSuspend => "CAP_BLOCK_SUSPEND"
  | .bpf => "CAP_BPF"
  | .checkpointRestore => "CAP_CHECKPOINT_RESTORE"
  | .chown => "CAP_CHOWN"
  | .dacOverride => "CAP_DAC_OVERRIDE"
  | .dacReadSearch => "CAP_DAC_READ_SEARCH"
  | .fowner => "CAP_FOWNER"
  | .fsetid => "CAP_FSETID"
  | .ipcLock => "CAP_IPC_LOCK"
  | .ipcOwner => "CAP_IPC_OWNER"
  | .kill => "CAP_KILL"
  | .lease => "CAP_LEASE"
  | .linuxImmutable => "CAP_LINUX_IMMUTABLE"
  | .macAdmin => "CAP_MAC_ADMIN"
  | .macOverride => "CAP_MAC_OVERRIDE"
  | .mknod => "CAP_MKNOD"
  | .netAdmin => "CAP_NET_ADMIN"
  | .netBindService => "CAP_NET_BIND_SERVICE"
  | .netBroadcast => "CAP_NET_BROADCAST"
  | .netRaw => "CAP_NET_RAW"
  | .perfmon => "CAP_PERFMON"
  | .setgid => "CAP_SETGID"
  | .setfcap => "CAP_SETFCAP"
  | .setpcap => "CAP_SETPCAP"
  | .setuid => "CAP_SETUID"
  | .sysAdmin => "CAP_SYS_ADMIN"
  | .sysBoot => "CAP_SYS_BOOT"
  | .sysChroot => "CAP_SYS_CHROOT"
  | .sysModule => "CAP_SYS_MODULE"
  | .sysNice => "CAP_SYS_NICE"
  | .sysPacct => "CAP_SYS_PACCT"
  | .sysPtrace => "CAP_SYS_PTRACE"
  | .sysRawio => "CAP_SYS_RAWIO"
  | .sysResource => "CAP_SYS_RESOURCE"
  | .sysTime => "CAP_SYS_TIME"
  | .sysTtyConfig => "CAP_SYS_TTY_CONFIG"
  | .syslog => "CAP_SYSLOG"
  | .wakeAlarm => "CAP_WAKE_ALARM"

structure LinuxCapabilities where
  bounding : Option (List Capability)
  effective : Option (List Capability)
  inheritable : Option (List Capability)
  permitted : Option (List Capability)
  ambient : Option (List Capability)
  deriving DecidableEq

structure User where
  uid : Nat
  gid : Nat
  umask : Option Nat
  additionalGids : Option (List Nat)
  deriving DecidableEq

structure Process where
  terminal : Option Bool
  user : User
  args : Option (List String)
  env : Option (List String)
  cwd : String
  capabilities : Option LinuxCapabilities
  noNewPrivileges : Option Bool
  deriving DecidableEq

structure Mount where
  destination : String
  typ : Option String
  source : Option String
  options : Option (List String)
  deriving DecidableEq

structure Hook where
  path : String
  args : Option (List String)
  env : Option (List String)
  timeout : Option Int64
  deriving DecidableEq

structure Hooks where
  prestart : Option (List Hook)
  createRuntime : Option (List Hook)
  createContainer : Option (List Hook)
  startContainer : Option (List Hook)
  poststart : Option (List Hook)
  poststop : Option (List Hook)
  deriving DecidableEq

inductive LinuxNamespaceType where
  | mount
  | cgroup
  | uts
  | ipc
  | user
  | pid
  | network
  | time
  deriving DecidableEq

structure LinuxNamespace where
  typ : LinuxNamespaceType
  path : Option String
  deriving DecidableEq

structure Root where
  path : String
  readonly : Option Bool
  deriving DecidableEq

end Mars.Spec

namespace Mars

structure Spec where
  root : Option Spec.Root
  process : Option Spec.Process
  hostname : Option String
  domainname : Option String
  mounts : Option (List Spec.Mount)
  hooks : Option Spec.Hooks
  deriving DecidableEq

end Mars
