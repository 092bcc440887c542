import Mars.Core.MountSides
import Mars.Core.Transition
import Mars.Rootfs.Harden
import Mars.Rootfs.OverlayMount
import Mars.Rootfs.Populate

/-! # Moving the root

The calls about mounts that init makes, from the moment it is alone in its mount
namespace to the program of the container: everything private, the rootfs a mount
of its own, what the spec mounts in it, the hooks, the pivot, and then what hides
or protects parts of the new root. Other processes go on in the meantime.
-/

namespace Mars.Pivot
open UnixPath MountSpace Transition
open MountTable (Call MsFlags MS_BIND MS_REC MS_REMOUNT MS_RDONLY MS_NOSUID MS_NODEV MS_NOEXEC
  MS_PRIVATE MS_SHARED MS_SLAVE MS_UNBINDABLE PROPAGATION contains walk)

/-! ## The calls -/

def makeRootPrivate : Call where
  source := none
  target := components "/"
  fstype := none
  flags := MS_PRIVATE ||| MS_REC
  data := none

def makeMountPoint (rootfs : String) : Call where
  source := some rootfs
  target := components rootfs
  fstype := none
  flags := MS_BIND ||| MS_REC
  data := none

def overlayCall (rootfs data : String) : Call where
  source := some "overlay"
  target := components rootfs
  fstype := some "overlay"
  flags := 0
  data := some data

def bindCall (source : String) (target : List Component) : Call where
  source := some source
  target := target
  fstype := none
  flags := MS_BIND
  data := none

def PROPAGATION_NAMES : List (String × MsFlags) := [
  ("shared", MS_SHARED),
  ("slave", MS_SLAVE),
  ("private", MS_PRIVATE),
  ("unbindable", MS_UNBINDABLE)]

def propagationCall (flag : MsFlags) : Call where
  source := none
  target := components "/"
  fstype := none
  flags := flag ||| MS_REC
  data := none

def maskDir (path : String) : Call where
  source := some "tmpfs"
  target := components path
  fstype := some "tmpfs"
  flags := MS_RDONLY
  data := some "size=0k"

def bindSelf (path : String) : Call where
  source := some path
  target := components path
  fstype := none
  flags := MS_BIND ||| MS_REC
  data := none

def remountSelf (path : String) : Call where
  source := some path
  target := components path
  fstype := none
  flags := MS_BIND ||| MS_REC ||| MS_REMOUNT ||| MS_RDONLY ||| MS_NOSUID ||| MS_NODEV ||| MS_NOEXEC
  data := none

def readonlyRootfs : Call where
  source := none
  target := components "/"
  fstype := none
  flags := MS_BIND ||| MS_REMOUNT ||| MS_RDONLY
  data := none

/-! ## The program of init -/

/-- What the mounts of the plan depend on. -/
structure Plan where
  rootfs : String
  overlay : Option Overlay.Layers
  mounts : List Spec.Mount
  devices : List Populate.LinuxDevice
  rootfsPropagation : Option String
  console : Bool
  maskedPaths : List String
  readonlyPaths : List String
  readonlyRootfs : Bool
  userNamespace : Bool
  host : Mounts.Host

inductive Act where
  | call (call : Call)
  /-- What is found in the file tree decides which calls are made. -/
  | either (alternatives : List (List Call))
  | chdir (path : String)
  | fail
  | hooks
  | openRoots (rootfs : String)
  | enterNew
  | pivotRoot
  | enterOld
  | privateOld
  | detachOld
  | leaveOld
  | bindConsole
  deriving DecidableEq

def mountRootfs (plan : Plan) : List Act :=
  match plan.overlay with
  | none => [.call (makeMountPoint plan.rootfs)]
  | some layers =>
      match Overlay.dataAndBase layers with
      | .error _ => [.fail]
      | .ok (data, none) => [.call (overlayCall plan.rootfs data)]
      | .ok (data, some base) =>
          [.chdir base.text, .call (overlayCall plan.rootfs data), .chdir "/"]

/-- A node that is not there and may not be made is bound from the host. -/
def node (target : List Component) (host : String) : Act := .either [[], [bindCall host target]]

def createDevices (plan : Plan) : List Act :=
  (Populate.DEFAULT_DEVICES.map fun device =>
    node (components (join plan.rootfs device.1)) (join "/" device.1)) ++
  plan.devices.map fun device => node (Mounts.resolve plan.rootfs device.path) device.path

def populate (plan : Plan) : List Act :=
  plan.mounts.map (fun specMount => .call (Mounts.mountCall plan.host plan.rootfs specMount)) ++
    createDevices plan ++ [.hooks]

def pivot (rootfs : String) : List Act :=
  [.openRoots rootfs, .enterNew, .pivotRoot, .enterOld, .privateOld, .detachOld, .leaveOld]

def setPropagation : Option String → List Act
  | none => []
  | some requested =>
      match PROPAGATION_NAMES.lookup requested with
      | some flag => [.call (propagationCall flag)]
      | none => [.fail]

def maskOne (path : String) : Act :=
  .either [[], [maskDir path], [bindCall "/dev/null" (components path)]]

def readonlyOne (path : String) : Act := .either [[], [bindSelf path, remountSelf path]]

def remountOne (specMount : Spec.Mount) : List Act :=
  if !contains (Mounts.parseOptions (specMount.options.getD [])).flags MS_RDONLY then []
  else if specMount.typ.getD "" ≠ "tmpfs" then []
  else [.call (Harden.remountCall specMount)]

def harden (plan : Plan) : List Act :=
  plan.maskedPaths.map maskOne ++ plan.readonlyPaths.map readonlyOne ++
    plan.mounts.flatMap remountOne ++ if plan.readonlyRootfs then [.call readonlyRootfs] else []

def settle (plan : Plan) : List Act :=
  setPropagation plan.rootfsPropagation ++ (if plan.console then [.bindConsole] else []) ++
    harden plan

def program (plan : Plan) : List Act :=
  .call makeRootPrivate ::
    (mountRootfs plan ++ (populate plan ++ (pivot plan.rootfs ++ settle plan)))

/-! ## What a call asks of the kernel -/

structure Process where
  ns : Nat
  root : Place
  cwd : Place
  /-- The names that lead from the root to the working directory. -/
  base : List Name
  oldroot : Option Place
  newroot : Option Place
  deriving DecidableEq

def Process.names (p : Process) (path : List Component) : List Name := walk [] p.base path

def Process.locate (p : Process) (s : Space) (path : List Component) : Place :=
  MountSpace.locate (s.view p.ns) p.root (p.names path)

def typeOf (flags : MsFlags) : Option Change :=
  let named := [(MS_SHARED, Change.makeShared), (MS_PRIVATE, .makePrivate),
    (MS_SLAVE, .makeSlave), (MS_UNBINDABLE, .makeUnbindable)]
  (named.find? fun type => flags = type.1 ∨ flags = type.1 ||| MS_REC).map Prod.snd

/-- A remount changes no place. A new file system has a root, which the kernel chooses. -/
def Process.asks (p : Process) (s : Space) (made : Dir) (call : Call) : Option (Option Op) :=
  let target := p.locate s call.target
  if contains call.flags MS_REMOUNT then some none
  else if contains call.flags MS_BIND then
    call.source.map fun source =>
      some (.bind (p.locate s (components source)) target (contains call.flags MS_REC))
  else if PROPAGATION.any (contains call.flags) then
    (typeOf call.flags).map fun change =>
      some (.change target change (contains call.flags MS_REC))
  else some (some (.create target made))

/-- A process whose root or working directory is the old root is taken along. -/
def Process.moved (p : Process) (ns : Nat) : Op → Process
  | .pivot root new =>
      if ns = p.ns then
        { p with
          root := if p.root = root then new else p.root
          cwd := if p.cwd = root then new else p.cwd }
      else p
  | _ => p

/-! ## The system -/

structure World where
  space : Space
  /-- The namespaces that come from the container's. -/
  inner : Nat → Bool
  init : Process
  ops : List Act
  done : List Act
  /-- Where unused names began when the first call had returned. -/
  since : Option Nat

/-- What the kernel and the file tree answer. -/
structure Answer where
  made : Dir
  choice : Nat
  pty : String
  lost : List Nat

def World.apply (w : World) (ns : Nat) (op : Op) : Option World :=
  (w.space.apply ns op).map fun space =>
    { w with
      space := space
      inner := extend w.space.next w.inner (w.inner ns)
      init := w.init.moved ns op }

def World.call (w : World) (made : Dir) (call : Call) : Option World := do
  match ← w.init.asks w.space made call with
  | none => some w
  | some op => w.apply w.init.ns op

def Act.run (w : World) (answer : Answer) : Act → Option World
  | .call c => w.call answer.made c
  | .either alternatives =>
      alternatives[answer.choice]?.map fun calls => { w with ops := calls.map .call ++ w.ops }
  | .chdir path =>
      let path := components path
      some { w with
        init := { w.init with cwd := w.init.locate w.space path, base := w.init.names path } }
  | .fail => none
  | .hooks => some w
  | .openRoots rootfs =>
      some { w with
        init := { w.init with
          oldroot := some (w.init.locate w.space (components "/"))
          newroot := some (w.init.locate w.space (components rootfs)) } }
  | .enterNew => w.init.newroot.map fun place => { w with init := { w.init with cwd := place } }
  | .pivotRoot => w.apply w.init.ns (.pivot w.init.root w.init.cwd)
  | .enterOld => w.init.oldroot.map fun place => { w with init := { w.init with cwd := place } }
  | .privateOld => w.apply w.init.ns (.change w.init.cwd .makePrivate true)
  | .detachOld => w.apply w.init.ns (.umount w.init.cwd answer.lost)
  | .leaveOld => some { w with init := { w.init with cwd := w.init.root, base := [] } }
  | .bindConsole => w.call answer.made (bindCall answer.pty (components "/dev/console"))

def World.perform (w : World) (answer : Answer) : Option World :=
  match w.ops with
  | [] => none
  | act :: rest =>
      (act.run { w with ops := rest } answer).map fun w =>
        { w with done := w.done ++ [act], since := w.since <|> some w.space.next }

inductive Event where
  | init (answer : Answer)
  | refused
  /-- A hook, or the container itself. -/
  | inside (ns : Nat) (op : Op)
  | outside (ns : Nat) (op : Op)

def World.step (w : World) : Event → Option World
  | .init answer => w.perform answer
  | .refused => if w.ops = [] then none else some { w with ops := [] }
  -- until its first call has returned, init is alone in the namespace
  | .inside ns op => if w.inner ns ∧ w.since.isSome then w.apply ns op else none
  | .outside ns op => if w.inner ns then none else w.apply ns op

/-- Init has just got a mount namespace of its own: a copy of the runtime's. -/
def start (plan : Plan) (s : Space) (runtime : Process) : World where
  space := s.fork runtime.ns plan.userNamespace
  inner := fun ns => ns = s.next
  init :=
    { runtime with
      ns := s.next
      root := { runtime.root with mnt := s.next + runtime.root.mnt }
      cwd := { runtime.cwd with mnt := s.next + runtime.cwd.mnt } }
  ops := program plan
  done := []
  since := none

end Mars.Pivot
