import Mars.Core.FileTree
import Mars.Rootfs.Mounts

/-! # Filling the rootfs

Before the root is moved, the mounts of the spec are made, then the default
devices and their links, then the devices of the spec. Every path begins at the
root of the host, and the image decides which links it meets.
-/

namespace Mars.Populate
open UnixPath Spec MountTable FileTree

structure Setup where
  rootfs : String
  cwd : Place
  userNamespace : Bool
  unifiedHost : Bool

/-! ## Mounts -/

/-- What the mount call lays over its target: the entry its source leads to when it
binds, the tree of a new mount, or nothing. -/
def layer (cwd : Place) (flags : MsFlags) (source : String) (t : Tree) : Except Errno Layer :=
  if contains flags MS_REMOUNT then .ok .same
  else if contains flags MS_BIND then
    match follow t MAXSYMLINKS cwd (components source) with
    | .dir _ _ => .ok .tree
    | .leaf _ place => .ok (.entry ((t place).getD .file))
    | .missing _ _ => .error .enoent
    | .blocked => .error .other
  else if PROPAGATION.any (contains flags) then .ok .same
  else .ok .tree

def io (outcome : Outcome Errno) (context : String) : Outcome Error :=
  outcome.mapError fun _ => .io context

def nix (outcome : Outcome Errno) (context : String) : Outcome Error :=
  outcome.mapError fun _ => .nix context

def createParent (host : Host) (t : Tree) (path : List Component) : Outcome Error :=
  match parent path with
  | some dir => io (createDirAll host t dir) ("create " ++ display dir)
  | none => ([], .ok t)

/-- A file is bound over a file, everything else goes over a directory. -/
def target (setup : Setup) (host : Host) (t : Tree) (destination : List Component)
    (flags : MsFlags) (source : String) : Outcome Error :=
  if contains flags MS_BIND && isFile t setup.cwd (components source) then
    (createParent host t destination).andThen fun t =>
      io (ensureFile host t destination) ("create " ++ display destination)
  else io (createDirAll host t destination) ("create " ++ display destination)

def linkPtmx (setup : Setup) (host : Host) (t : Tree) : Outcome Error :=
  let ptmx := components (join setup.rootfs "dev/ptmx")
  Outcome.andThen
    (if entryExists t ptmx then io (removeFile host t ptmx) ("remove " ++ display ptmx)
      else ([], .ok t))
    fun t => io (symlink host t (components "pts/ptmx") ptmx)
      ("symlink " ++ display ptmx ++ " -> pts/ptmx")

/-- The mount with its target, before the link that goes with it. -/
def mounted (setup : Setup) (host : Host) (t : Tree) (specMount : Mount) : Outcome Error :=
  let destination := Mounts.resolve setup.rootfs specMount.destination
  let fstype := Mounts.effectiveFstype (specMount.typ.getD "none") setup.unifiedHost
  let source := specMount.source.getD "none"
  let options := Mounts.parseOptions (specMount.options.getD [])
  (target setup host t destination options.flags source).andThen fun t =>
    nix (mountOn host t destination (layer setup.cwd options.flags source t))
      ("mount " ++ source ++ " type=" ++ fstype ++ " at " ++ specMount.destination ++ " flags=" ++
        Mounts.debugFlags options.flags ++ " data=" ++ Text.debugText options.data)

/-! ## Devices -/

/-- A device node as it is asked for: where, what the host calls it, and what it is. -/
structure Device where
  target : List Component
  host : String
  kind : DeviceKind
  mode : Nat
  major : Nat
  minor : Nat

inductive LinuxDeviceType where
  | a
  | b
  | c
  | p
  | u
  deriving DecidableEq

structure LinuxDevice where
  path : String
  typ : LinuxDeviceType
  major : Int
  minor : Int
  fileMode : Option Nat
  uid : Option Nat
  gid : Option Nat
  deriving DecidableEq

def DEFAULT_DEVICES : List (String × Nat × Nat × Nat) := [
  ("dev/null", 1, 3, 0o666),
  ("dev/zero", 1, 5, 0o666),
  ("dev/full", 1, 7, 0o666),
  ("dev/tty", 5, 0, 0o666),
  ("dev/random", 1, 8, 0o666),
  ("dev/urandom", 1, 9, 0o666)]

def SYMLINKS : List (String × String) := [
  ("/proc/self/fd", "dev/fd"),
  ("/proc/self/fd/0", "dev/stdin"),
  ("/proc/self/fd/1", "dev/stdout"),
  ("/proc/self/fd/2", "dev/stderr")]

def sflagFor : LinuxDeviceType → DeviceKind
  | .b => .block
  | .p => .fifo
  | _ => .char

-- the bits of `S_IFBLK` are those of two flags that are named before it
def debugKind : DeviceKind → String
  | .char => "SFlag(S_IFCHR)"
  | .block => "SFlag(S_IFCHR | S_IFDIR)"
  | .fifo => "SFlag(S_IFIFO)"

/-- `{mode:04o}` -/
def octal (mode : Nat) : String :=
  let digits := Nat.toDigits 8 mode
  String.ofList (List.replicate (4 - digits.length) '0' ++ digits)

def debugId : Option Nat → String
  | none => "None"
  | some id => "Some(" ++ toString id ++ ")"

/-- The signed number of the spec, read as the kernel's unsigned one. -/
def asU64 (number : Int) : Nat := (number % 2 ^ 64).toNat

def bind (setup : Setup) (host : Host) (t : Tree) (device : Device) : Outcome Error :=
  if pathExists t setup.cwd (components device.host) then
    (io (ensureFile host t device.target)
      ("create " ++ display device.target ++ " as a bind target")).andThen fun t =>
      nix (mountOn host t device.target (layer setup.cwd MS_BIND device.host t))
        ("bind " ++ device.host ++ " onto " ++ display device.target ++
          "; a user namespace may not call mknod(2) for a device at all, so the node has to " ++
          "come from the host")
  else ([], .error (.invalid ("cannot provide " ++ display device.target ++
    " because the host has no " ++ device.host)))

/-- The node is made, or bound from the host where it may not be made. -/
def makeNode (setup : Setup) (host : Host) (t : Tree) (device : Device) : Outcome Error :=
  match make host t (.mknod device.target device.kind device.mode device.major device.minor)
      device.target .device with
  | .ok (place, t') =>
      Outcome.andThen ([place], .ok t') fun t =>
        io (change host t (.chmod device.target device.mode))
          ("chmod " ++ display device.target ++ " to " ++ octal device.mode ++
            "; mknod(2) masks its mode argument with the umask, so the node would otherwise get " ++
            octal (device.mode &&& (0xffffffff ^^^ 0o022)))
  | .error error =>
      if error = .eperm ∨ error = .eoverflow then bind setup host t device
      else ([], .error (.nix ("mknod " ++ display device.target ++ " " ++ debugKind device.kind ++
        " " ++ toString device.major ++ ":" ++ toString device.minor)))

def node (setup : Setup) (host : Host) (t : Tree) (device : Device) : Outcome Error :=
  if entryExists t device.target then ([], .ok t)
  else
    (createParent host t device.target).andThen fun t =>
      if setup.userNamespace then bind setup host t device else makeNode setup host t device

def defaultDevice (setup : Setup) (device : String × Nat × Nat × Nat) : Device :=
  { target := components (join setup.rootfs device.1)
    host := join "/" device.1
    kind := .char
    mode := device.2.2.2
    major := device.2.1
    minor := device.2.2.1 }

def extraDevice (setup : Setup) (device : LinuxDevice) : Device :=
  { target := Mounts.resolve setup.rootfs device.path
    host := device.path
    kind := sflagFor device.typ
    mode := device.fileMode.getD 0o666
    major := asU64 device.major
    minor := asU64 device.minor }

def linkOne (setup : Setup) (host : Host) (t : Tree) (pair : String × String) : Outcome Error :=
  let link := components (join setup.rootfs pair.2)
  if entryExists t link then ([], .ok t)
  else io (symlink host t (components pair.1) link)
    ("symlink " ++ display link ++ " -> " ++ pair.1)

def extraOne (setup : Setup) (host : Host) (t : Tree) (device : LinuxDevice) : Outcome Error :=
  (node setup host t (extraDevice setup device)).andThen fun t =>
    if device.uid.isSome ∨ device.gid.isSome then
      let path := (extraDevice setup device).target
      nix (change host t (.chown path device.uid device.gid))
        ("chown " ++ display path ++ " to " ++ debugId device.uid ++ ":" ++ debugId device.gid)
    else ([], .ok t)

/-! ## The whole of it -/

/-- One turn of one of the loops, where the link that goes with a mount is one of its own. -/
inductive Turn where
  | mount (specMount : Mount)
  | ptmx
  | defaultDevice (device : String × Nat × Nat × Nat)
  | link (pair : String × String)
  | extra (device : LinuxDevice)

def turn (setup : Setup) (host : Host) (t : Tree) : Turn → Outcome Error
  | .mount specMount => mounted setup host t specMount
  | .ptmx => linkPtmx setup host t
  | .defaultDevice device => node setup host t (defaultDevice setup device)
  | .link pair => linkOne setup host t pair
  | .extra device => extraOne setup host t device

def applyOne (setup : Setup) (specMount : Mount) : List Turn :=
  let fstype := Mounts.effectiveFstype (specMount.typ.getD "none") setup.unifiedHost
  .mount specMount :: if fstype = "devpts" then [.ptmx] else []

def turns (setup : Setup) (mounts : List Mount) (extra : List LinuxDevice) : List Turn :=
  mounts.flatMap (applyOne setup) ++ DEFAULT_DEVICES.map .defaultDevice ++ SYMLINKS.map .link ++
    extra.map .extra

/-- The turns one after another, up to the first that fails. The host may answer
differently in every turn. -/
def run (setup : Setup) (hosts : Nat → Host) (t : Tree) : List Turn → Outcome Error
  | [] => ([], .ok t)
  | first :: rest =>
      (turn setup (hosts 0) t first).andThen fun t => run setup (fun n => hosts (n + 1)) t rest

/-- `mounts::apply` and then `devices::create`. -/
def populate (setup : Setup) (hosts : Nat → Host) (t : Tree) (mounts : List Mount)
    (extra : List LinuxDevice) : Outcome Error :=
  run setup hosts t (turns setup mounts extra)

end Mars.Populate
