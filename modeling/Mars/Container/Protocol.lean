import Mars.Bundle
import Mars.Container.Hooks
import Mars.Core.History
import Mars.Core.Transition
import Mars.Namespace
import Mars.Sync

/-! # Creating a container: three parties and a socket pair

The runtime forks an intermediate process, which forks init. Each party works
through a program of steps computed from the plan; the runtime goes on with
another program when a message tells it to. A step may wait, fail on its own or
be made to fail; the runtime then cleans up and returns the error, a child
reports it and exits. The parties' steps interleave freely, and so do deaths.
-/

namespace Mars.Protocol
open Spec Namespace Hooks Sync History

/-! ## Plans -/

/-- What decides which steps there are. Sections of the spec that only decide
whether a step is taken are kept as whether they are there. -/
structure Plan where
  bundle : Bundle
  overlay : Bool
  unshareFlags : CloneFlags
  join : List (LinuxNamespaceType × String)
  cgroupNs : Bool
  console : Bool
  resources : Bool
  seccomp : Bool
  timeOffsets : Bool

/-- A plan, the pids the kernel will hand out and what the recorders will hold. -/
structure Setting where
  plan : Plan
  id : String
  initPid : Int
  intermediatePhases : List Sync.Phase
  initPhases : List Sync.Phase

/-! ## Steps -/

/-- `create`, `build` and `spawn`, up to the first message. -/
inductive PrepareOp where
  | checkState
  | createDirAll
  | checkTerminal
  | namespaceLayout
  | rootfs
  | overlay
  | checkOverlayNamespace
  | prepareOverlay
  | prepareMerged
  | rootfsIsDir
  | createCgroup
  | applyResources
  | createFifo
  | openConsole
  | setChildSubreaper
  | blockForwardable
  | pair
  | fork
  | dropChild
  | recv
  deriving DecidableEq

/-- `handshake` while the intermediate waits for its id mappings. -/
inductive MappingOp where
  | checkMappings
  | denySetgroups
  | writeUidMap
  | writeGidMap
  | sendUserMappingDone
  | recv
  deriving DecidableEq

/-- `handshake` from init's pid on. -/
inductive SettleOp where
  | waitIntermediate
  | addProcess (pid : Int)
  | hookPayload (phase : Hooks.Phase)
  | hook (phase : Hooks.Phase) (index : Nat)
  | sendCgroupApplied (pid : Int)
  | expectInitReady
  | startTime (pid : Int)
  | save (pid : Int)
  | writePidFile (pid : Int)
  | close
  deriving DecidableEq

inductive CleanupOp where
  | removeFifo
  | teardownKill
  | teardownWait
  | closeChannel
  | destroyCgroup
  | removeDirAll
  deriving DecidableEq

inductive IntermediateOp where
  | dropParent
  | openNamespace (path : String)
  | setns (kind : LinuxNamespaceType) (path : String)
  | unshare (name : String)
  | writeTimeOffsets
  | sendRequestUserMapping
  | expectUserMappingDone
  | setresgid
  | setresuid
  | fork
  | sendInitPid
  | exit
  deriving DecidableEq

inductive InitOp where
  | expectCgroupApplied
  | unshareCgroup
  | makeRootPrivate
  | overlayMountAt
  | makeMountPoint
  | mountsApply
  | devicesCreate
  | hookPayload (phase : Hooks.Phase)
  | hook (phase : Hooks.Phase) (index : Nat)
  | pivot
  | setPropagation
  | consoleSetup
  | sethostname
  | setDomainname
  | sysctlApply
  | maskPaths
  | readonlyPaths
  | remountReadonlyMounts
  | readonlyRootfs
  | argv
  | resolveExecutable
  | toCstrings
  | applyLimits
  | applyOomScoreAdj
  | applyUmask
  | chdir
  | seccompApply
  | dropBounding
  | dropPrivileges
  | applyCapabilities
  | setNoNewPrivs
  | sendInitReady
  | openFifo
  | meetReader
  | writeHandshake
  | unblockAll
  | execve
  deriving DecidableEq

/-- What a child does about an error. -/
inductive FailingOp where
  | sendFailed (reason : String)
  | exit
  deriving DecidableEq

inductive Op where
  | prepare (op : PrepareOp)
  | mapping (op : MappingOp)
  | settle (op : SettleOp)
  | cleanup (op : CleanupOp)
  | intermediate (op : IntermediateOp)
  | init (op : InitOp)
  | failing (op : FailingOp)
  | readerOpens
  deriving DecidableEq

/-! ## Programs -/

def hookOps {α : Type} (hookPayload : Hooks.Phase → α) (hook : Hooks.Phase → Nat → α)
    (plan : Plan) (phase : Hooks.Phase) : List α :=
  match selected plan.bundle.spec.hooks phase with
  | [] => []
  | list => hookPayload phase :: (List.range list.length).map (hook phase)

def ifTrue {α : Type} (condition : Bool) (ops : List α) : List α := if condition then ops else []

open PrepareOp in
def prepareProgram (plan : Plan) : List PrepareOp :=
  [checkState, createDirAll, checkTerminal, namespaceLayout, rootfs, overlay] ++
    ifTrue plan.overlay [checkOverlayNamespace, prepareOverlay, prepareMerged] ++
    [rootfsIsDir, createCgroup] ++
    ifTrue plan.resources [applyResources] ++
    [createFifo] ++
    ifTrue plan.console [openConsole] ++
    [setChildSubreaper, blockForwardable, pair, fork, dropChild, recv]

open MappingOp in
def mappingProgram : List MappingOp :=
  [checkMappings, denySetgroups, writeUidMap, writeGidMap, sendUserMappingDone, recv]

open SettleOp in
/-- What precedes the permission for init to go on. -/
def placement (plan : Plan) (pid : Int) : List SettleOp :=
  [waitIntermediate, addProcess pid] ++ hookOps hookPayload hook plan .prestart ++
    hookOps hookPayload hook plan .createRuntime

open SettleOp in
def settleProgram (plan : Plan) (pid : Int) : List SettleOp :=
  placement plan pid ++ sendCgroupApplied pid ::
    [expectInitReady, startTime pid, save pid, writePidFile pid, close]

def unshareOrder : List (String × CloneFlags) := [
  ("user", CLONE_NEWUSER),
  ("mnt", CLONE_NEWNS),
  ("uts", CLONE_NEWUTS),
  ("ipc", CLONE_NEWIPC),
  ("pid", CLONE_NEWPID),
  ("net", CLONE_NEWNET),
  ("time", CLONE_NEWTIME)]

open IntermediateOp in
def joinExisting (plan : Plan) : List IntermediateOp :=
  plan.join.flatMap fun entry => [openNamespace entry.2, setns entry.1 entry.2]

open IntermediateOp in
def unshareAll (plan : Plan) : List IntermediateOp :=
  unshareOrder.flatMap fun entry =>
    ifTrue (contains plan.unshareFlags entry.2)
      (unshare entry.1 :: ifTrue (entry.1 == "time" && plan.timeOffsets) [writeTimeOffsets])

open IntermediateOp in
def mapUser (plan : Plan) : List IntermediateOp :=
  ifTrue (contains plan.unshareFlags CLONE_NEWUSER)
    [sendRequestUserMapping, expectUserMappingDone, setresgid, setresuid]

open IntermediateOp in
def stageOne (plan : Plan) : List IntermediateOp :=
  dropParent :: joinExisting plan ++ unshareAll plan ++ mapUser plan ++
    [fork, sendInitPid, exit]

open InitOp in
def mountSteps (plan : Plan) : List InitOp :=
  if contains plan.unshareFlags CLONE_NEWNS then
    [makeRootPrivate, if plan.overlay then overlayMountAt else makeMountPoint, mountsApply,
      devicesCreate] ++ hookOps hookPayload hook plan .createContainer ++
      [pivot, setPropagation] ++ ifTrue plan.console [consoleSetup]
  else hookOps hookPayload hook plan .createContainer

open InitOp in
def hardenSteps (plan : Plan) : List InitOp :=
  ifTrue plan.bundle.spec.hostname.isSome [sethostname] ++
    ifTrue plan.bundle.spec.domainname.isSome [setDomainname] ++ [sysctlApply] ++
    ifTrue (contains plan.unshareFlags CLONE_NEWNS)
      ([maskPaths, readonlyPaths, remountReadonlyMounts] ++
        ifTrue plan.bundle.readonlyRootfs [readonlyRootfs])

open InitOp in
def securitySteps (plan : Plan) : List InitOp :=
  let noNewPrivs := (plan.bundle.spec.process.bind (·.noNewPrivileges)).getD false
  let caps := (plan.bundle.spec.process.bind (·.capabilities)).isSome
  ifTrue (!noNewPrivs && plan.seccomp) [seccompApply] ++
    ifTrue plan.bundle.spec.process.isSome
      (ifTrue caps [dropBounding] ++ [dropPrivileges] ++ ifTrue caps [applyCapabilities] ++
        ifTrue noNewPrivs [setNoNewPrivs]) ++
    ifTrue (noNewPrivs && plan.seccomp) [seccompApply]

open InitOp in
/-- Everything init sets up before it reports that it is ready. -/
def setup (plan : Plan) : List InitOp :=
  expectCgroupApplied :: ifTrue plan.cgroupNs [unshareCgroup] ++ mountSteps plan ++
    hardenSteps plan ++ [argv, resolveExecutable, toCstrings] ++
    ifTrue plan.bundle.spec.process.isSome [applyLimits, applyOomScoreAdj, applyUmask] ++
    [chdir] ++ securitySteps plan

open InitOp in
def parkAndExec (plan : Plan) : List InitOp :=
  [openFifo, meetReader, writeHandshake] ++ hookOps hookPayload hook plan .startContainer ++
    [unblockAll, execve]

open InitOp in
def containerInit (plan : Plan) : List InitOp :=
  setup plan ++ sendInitReady :: parkAndExec plan

/-! ## Cleaning up -/

open CleanupOp in
def handshakeCleanup : List CleanupOp :=
  [removeFifo, teardownKill, teardownWait, closeChannel, destroyCgroup, removeDirAll]

/-- The error paths of `create`, `build` and `spawn`. -/
def prepareCleanup : PrepareOp → List CleanupOp
  | .checkState => []
  | .createDirAll => []
  | .checkTerminal => [.removeDirAll]
  | .namespaceLayout => [.removeDirAll]
  | .rootfs => [.removeDirAll]
  | .overlay => [.removeDirAll]
  | .checkOverlayNamespace => [.removeDirAll]
  | .prepareOverlay => [.removeDirAll]
  | .prepareMerged => [.removeDirAll]
  | .rootfsIsDir => [.removeDirAll]
  | .createCgroup => [.removeDirAll]
  | .applyResources => [.destroyCgroup, .removeDirAll]
  | .createFifo => [.destroyCgroup, .removeDirAll]
  | .openConsole => [.destroyCgroup, .removeDirAll]
  | .setChildSubreaper => [.destroyCgroup, .removeDirAll]
  | .blockForwardable => [.destroyCgroup, .removeDirAll]
  | .pair => [.destroyCgroup, .removeDirAll]
  | .fork => [.closeChannel, .destroyCgroup, .removeDirAll]
  | .dropChild => handshakeCleanup
  | .recv => handshakeCleanup

/-! ## The world -/

inductive Who where
  | parent
  | intermediate
  | init
  deriving DecidableEq

inductive Life where
  | unborn
  | running
  | exited
  deriving DecidableEq

/-- A process, with its copies of the two ends of the socket pair. -/
structure Party where
  life : Life
  ops : List Op
  keepsParent : Bool
  keepsChild : Bool
  killed : Bool

structure World where
  party : Who → Party
  error : Option Error
  toParent : List Message
  toChild : List Message
  dir : Bool
  stateFile : Bool
  placed : List Int
  reader : Bool
  log : List (Entry Op)

def World.update (w : World) (who : Who) (f : Party → Party) : World :=
  { w with party := Function.update w.party who (f (w.party who)) }

def World.setOps (w : World) (who : Who) (ops : List Op) : World :=
  w.update who fun p => { p with ops := ops }

def World.record (w : World) (op : Op) (ok : Bool) : World :=
  { w with log := w.log ++ [⟨op, ok⟩] }

/-- Somebody still has a copy of the parent's end. -/
def World.parentOpen (w : World) : Bool :=
  (w.party .parent).keepsParent || (w.party .intermediate).keepsParent ||
    (w.party .init).keepsParent

def World.childOpen (w : World) : Bool :=
  (w.party .parent).keepsChild || (w.party .intermediate).keepsChild ||
    (w.party .init).keepsChild

def World.leave (w : World) (who : Who) : World :=
  w.update who fun p =>
    { p with life := .exited, ops := [], keepsParent := false, keepsChild := false }

/-- The forked child starts with the copies its parent has. -/
def World.forked (w : World) (who child : Who) (ops : List Op) : World :=
  w.update child fun _ =>
    { life := .running, ops := ops, keepsParent := (w.party who).keepsParent,
      keepsChild := (w.party who).keepsChild, killed := false }

inductive Outcome where
  | done (w : World)
  | failed (error : Error) (w : World)
  | blocked

def sendToParent (w : World) (message : Message) : Outcome :=
  if w.parentOpen then .done { w with toParent := w.toParent ++ [message] }
  else .failed .syscall w

def sendToChild (w : World) (message : Message) : Outcome :=
  if w.childOpen then .done { w with toChild := w.toChild ++ [message] }
  else .failed .syscall w

def expectFromParent (w : World) (want : Want) : Outcome :=
  match w.toChild with
  | [] => if w.parentOpen then .blocked else .failed .syncClosed w
  | message :: rest =>
      match expect want message with
      | .ok _ => .done { w with toChild := rest }
      | .error error => .failed error { w with toChild := rest }

def expectFromChild (w : World) (want : Want) : Outcome :=
  match w.toParent with
  | [] => if w.childOpen then .blocked else .failed .syncClosed w
  | message :: rest =>
      match expect want message with
      | .ok _ => .done { w with toParent := rest }
      | .error error => .failed error { w with toParent := rest }

/-! ## What a step does -/

/-- The two receives of `handshake`; only the first one takes a mapping request. -/
def recvInitPid (s : Setting) (w : World) (mayMap : Bool) : Outcome :=
  match w.toParent with
  | [] => if w.childOpen then .blocked else .failed .syncClosed w
  | message :: rest =>
      let w := { w with toParent := rest }
      match message with
      | .initPid pid _ => .done (w.setOps .parent ((settleProgram s.plan pid).map .settle))
      | .failed reason => .failed (.initFailed reason) w
      | .requestUserMapping =>
          if mayMap then .done (w.setOps .parent (mappingProgram.map .mapping))
          else .failed (.sync "expected InitPid, got RequestUserMapping") w
      | other => .failed (.sync ("expected InitPid, got " ++ other.debug)) w

def performPrepare (s : Setting) (w : World) : PrepareOp → Outcome
  | .checkState => if w.stateFile then .failed (.alreadyExists s.id) w else .done w
  | .createDirAll => .done { w with dir := true }
  | .checkOverlayNamespace =>
      if contains s.plan.unshareFlags CLONE_NEWNS then .done w
      else .failed (.overlay ("an overlay rootfs needs a mount namespace, otherwise the " ++
        "assembled filesystem would stay visible on the host after the container exits")) w
  | .pair => .done (w.update .parent fun p => { p with keepsParent := true, keepsChild := true })
  | .fork => .done (w.forked .parent .intermediate ((stageOne s.plan).map .intermediate))
  | .dropChild => .done (w.update .parent fun p => { p with keepsChild := false })
  | .recv => recvInitPid s w true
  | _ => .done w

def performMapping (s : Setting) (w : World) : MappingOp → Outcome
  | .sendUserMappingDone => sendToChild w .userMappingDone
  | .recv => recvInitPid s w false
  | _ => .done w

def performSettle (w : World) : SettleOp → Outcome
  | .waitIntermediate =>
      if (w.party .intermediate).life = .exited then .done w else .blocked
  | .addProcess pid => .done { w with placed := pid :: w.placed }
  | .sendCgroupApplied pid => sendToChild w (.cgroupApplied pid)
  | .expectInitReady => expectFromChild w .initReady
  | .save _ => .done { w with dir := true, stateFile := true }
  | .close => .done (w.update .parent fun p => { p with keepsParent := false })
  | _ => .done w

def performCleanup (s : Setting) (w : World) : CleanupOp → Outcome
  -- init is all of the cgroup that this attempt put there
  | .teardownKill =>
      if s.initPid ∈ w.placed ∧ (w.party .init).life = .running then
        .done (w.update .init fun p => { p with killed := true })
      else .done w
  -- a signalled process leaves the cgroup while the loop still polls
  | .teardownWait =>
      if (w.party .init).killed ∧ (w.party .init).life = .running then .blocked else .done w
  | .closeChannel =>
      .done (w.update .parent fun p => { p with keepsParent := false, keepsChild := false })
  | .removeDirAll => .done { w with dir := false, stateFile := false }
  | _ => .done w

def performIntermediate (s : Setting) (w : World) : IntermediateOp → Outcome
  | .dropParent => .done (w.update .intermediate fun p => { p with keepsParent := false })
  | .sendRequestUserMapping => sendToParent w .requestUserMapping
  | .expectUserMappingDone => expectFromParent w .userMappingDone
  | .fork => .done (w.forked .intermediate .init ((containerInit s.plan).map .init))
  | .sendInitPid => sendToParent w (.initPid s.initPid s.intermediatePhases)
  | .exit => .done (w.leave .intermediate)
  | _ => .done w

def performInit (s : Setting) (w : World) : InitOp → Outcome
  | .expectCgroupApplied => expectFromParent w .cgroupApplied
  | .sendInitReady => sendToParent w (.initReady s.initPhases)
  | .meetReader => if w.reader then .done w else .blocked
  | .execve => .done (w.update .init fun p => { p with keepsParent := false, keepsChild := false })
  | _ => .done w

def performFailing (w : World) (who : Who) : FailingOp → Outcome
  | .sendFailed reason => sendToParent w (.failed reason)
  | .exit => .done (w.leave who)

def perform (s : Setting) (w : World) (who : Who) : Op → Outcome
  | .prepare op => performPrepare s w op
  | .mapping op => performMapping s w op
  | .settle op => performSettle w op
  | .cleanup op => performCleanup s w op
  | .intermediate op => performIntermediate s w op
  | .init op => performInit s w op
  | .failing op => performFailing w who op
  | .readerOpens => .blocked

/-! ## Failing -/

/-- Closing and leaving cannot fail, and neither can making a directory that is there. -/
def fallible (w : World) : Op → Bool
  | .prepare .checkState => false
  | .prepare .createDirAll => !w.dir
  | .prepare .dropChild => false
  | .settle .close => false
  | .cleanup .closeChannel => false
  | .intermediate .dropParent => false
  | .intermediate .exit => false
  | .failing .exit => false
  | _ => true

/-- What the party does about an error of `op`. The outcome of a step that
cleans up or reports is ignored. -/
def World.fail (w : World) (op : Op) (error : Error) : World :=
  match op with
  | .prepare op =>
      { w.setOps .parent ((prepareCleanup op).map .cleanup) with error := some error }
  | .mapping _ => { w.setOps .parent (handshakeCleanup.map .cleanup) with error := some error }
  | .settle _ => { w.setOps .parent (handshakeCleanup.map .cleanup) with error := some error }
  | .intermediate _ =>
      w.setOps .intermediate [.failing (.sendFailed error.text), .failing .exit]
  | .init _ => w.setOps .init [.failing (.sendFailed error.text), .failing .exit]
  | _ => w

/-! ## Runs -/

inductive Event where
  | act (who : Who) (fault : Option Error)
  | die (who : Who)
  | kill (who : Who)
  | reader

/-- The party takes its next step, or has it fail with an error of the system's. -/
def act (s : Setting) (w : World) (who : Who) (fault : Option Error) : Option World :=
  match (w.party who).ops with
  | [] => none
  | op :: rest =>
      let popped := w.setOps who rest
      match perform s popped who op, fault with
      | .blocked, none => none
      | .done next, none => some (next.record op true)
      | .failed error next, none => some ((next.record op false).fail op error)
      | _, some error =>
          if fallible w op then some ((popped.record op false).fail op error) else none

def step (s : Setting) (w : World) : Event → Option World
  | .act who fault => if (w.party who).life = .running then act s w who fault else none
  | .die who =>
      if (w.party who).life = .running ∧ (w.party who).killed then some (w.leave who) else none
  | .kill who =>
      if who ≠ .parent ∧ (w.party who).life = .running then
        some (w.update who fun p => { p with killed := true })
      else none
  | .reader => some ({ w with reader := true }.record .readerOpens true)

/-- The runtime has just been called. A directory may be left over from before. -/
def start (s : Setting) (dir stateFile : Bool) : World where
  party := fun
    | .parent => { life := .running, ops := (prepareProgram s.plan).map .prepare,
                   keepsParent := false, keepsChild := false, killed := false }
    | _ => { life := .unborn, ops := [], keepsParent := false, keepsChild := false,
             killed := false }
  error := none
  toParent := []
  toChild := []
  dir := dir
  stateFile := stateFile
  placed := []
  reader := false
  log := []

/-- What `create` returned, once it has. -/
def World.returned (w : World) : Option (Except Error Unit) :=
  match (w.party .parent).ops with
  | _ :: _ => none
  | [] => match w.error with
      | some error => some (.error error)
      | none => some (.ok ())

end Mars.Protocol
