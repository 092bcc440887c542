import Mars.Cgroup.Location
import Mars.Cgroup.Resources
import Mars.Core.ProcessTable
import Mars.Core.Transition
import Mars.State

/-! # Whose processes a command signals

The killers take a container's processes to be whatever its cgroup lists. The
cgroup is a directory named by the spec or by the id alone, and a create accepts
one that is there already; the keys of `unified` may write to any file below it and
elsewhere. Any number of creates and later commands, on any runtime roots, interleave
step by step with one another and with forks, exits and moves.
-/

namespace Mars.Ownership
open UnixPath Paths V2 State ProcessTable

/-! ## Containers -/

/-- What the create of a container was asked for. -/
structure Request where
  layout : Layout
  id : String
  cgroupsPath : Option String
  resources : Option LinuxResources
  valid : validateId id = .ok ()

def Request.relative (r : Request) : String := relativePath r.cgroupsPath r.id

/-- The cgroup directory, which does not depend on the runtime root. -/
def Request.group (r : Request) : List Component := components (Cgroup.attach r.relative).path

def Request.dir (r : Request) : List Component := components (r.layout.containerDir r.id)

/-- A state file, as far as the cgroup is concerned. -/
structure Record (κ : Type) where
  container : κ
  cgroup : String

/-! ## Commands -/

/-- `run` stands for what it does after init has exited. -/
inductive Call where
  | killAll
  | delete (force : Bool)
  | exec (ignorePaused : Bool)
  | update (resources : LinuxResources)
  | run (keep : Bool)
  deriving DecidableEq

inductive Command where
  | create
  | call (call : Call)
  deriving DecidableEq

inductive Op where
  | write (file value : String)
  | fork
  | place
  | handshake
  | save
  | writePidFile
  | freeze
  | thaw
  | list
  | signal (pid : Nat)
  | wait
  | destroy
  | poststop
  | removeDir
  deriving DecidableEq

/-- `Cgroup::apply` -/
def applyProgram (resources : LinuxResources) : List Op :=
  (settings resources).map fun setting => .write setting.1 setting.2

/-- A create from its cgroup on. -/
def createProgram (r : Request) : List Op :=
  (r.resources.map applyProgram).getD [] ++ [.fork, .place, .handshake, .save, .writePidFile]

def teardownProgram : List Op := [.list, .wait, .destroy, .removeDir]

/-- The steps of a call that loads a container, if its status lets it go on. -/
def callProgram (status : Status) (frozen : Bool) : Call → Option (List Op)
  | .killAll =>
      if status ∈ [.created, .running, .paused] then
        some (if frozen then [.list] else [.freeze, .list, .thaw])
      else none
  | .delete force =>
      if status = .stopped then some [.destroy, .poststop, .removeDir]
      else if force then
        some ((if frozen then [.thaw] else []) ++ [.list, .wait, .destroy, .poststop, .removeDir])
      else none
  | .exec ignorePaused =>
      if status = .stopped ∨ status = .creating then none
      else if status = .paused ∧ ignorePaused = false then none
      else some [.fork, .place]
  | .update resources =>
      if status ∈ [.created, .running, .paused] then some (applyProgram resources) else none
  | .run keep => some (if keep then [.poststop, .destroy] else [.poststop, .destroy, .removeDir])

def Op.isSignal : Op → Bool
  | .signal _ => true
  | _ => false

/-- What is left to do when a step of a call fails. -/
def callAfterFault (rest : List Op) : Call → Op → List Op
  -- the pids are taken in turn up to the first failure, and the thaw is not skipped
  | .killAll, .signal _ => rest.dropWhile Op.isSignal
  | .killAll, .list => rest
  | .delete _, .list => rest
  | .delete _, .signal _ => rest
  | .delete _, .wait => rest
  | .delete _, .destroy => rest
  | .run _, .destroy => rest
  | .run _, .removeDir => rest
  | _, _ => []

/-- A create tears down what it has forked, and ignores an error of that. -/
def createAfterFault (rest : List Op) : Op → List Op
  | .write _ _ => [.destroy, .removeDir]
  | .fork => [.destroy, .removeDir]
  | .place => teardownProgram
  | .handshake => teardownProgram
  | .save => teardownProgram
  | .writePidFile => teardownProgram
  | _ => rest

def afterFault (rest : List Op) : Command → Op → List Op
  | .create => createAfterFault rest
  | .call c => callAfterFault rest c

/-! ## The world -/

/-- A command that holds the cgroup of a container. -/
structure Inside (κ : Type) where
  command : Command
  container : κ
  cgroup : Cgroup
  ops : List Op

inductive Stage (κ : Type) where
  | idle
  | checked
  | inside (i : Inside κ)
  | over

def Stage.inside? {κ : Type} : Stage κ → Option (Inside κ)
  | .inside i => some i
  | _ => none

/-- One signal: for whom it was sent, and who had placed the process it reached. -/
structure Signal (κ : Type) where
  container : κ
  pid : Nat
  placedBy : List κ
  deriving DecidableEq

/-- A party is the create of a container or a later call. `procsAt` names the cgroup
whose `cgroup.procs` a path opens, through whatever links and mounts. -/
structure World (κ γ : Type) where
  hierarchy : Hierarchy
  procsAt : List Component → Option (List Component)
  table : Table (List Component) κ
  party : κ ⊕ γ → Stage κ
  records : List (Record κ)
  signalled : List (Signal κ)

/-- The processes that run before any container does. -/
structure Host (κ : Type) where
  procsAt : List Component → Option (List Component)
  table : Table (List Component) κ
  unplaced : ∀ p ∈ table.procs, p.placedBy = []

def start {κ γ : Type} (hierarchy : Hierarchy) (host : Host κ) : World κ γ where
  hierarchy := hierarchy
  procsAt := host.procsAt
  table := host.table
  party := fun _ => .idle
  records := []
  signalled := []

variable {κ γ : Type} [DecidableEq κ] [DecidableEq γ]

def World.setParty (w : World κ γ) (p : κ ⊕ γ) (stage : Stage κ) : World κ γ :=
  { w with party := Function.update w.party p stage }

/-- A party goes on with these steps; after the last one it has returned. -/
def World.goOn (w : World κ γ) (p : κ ⊕ γ) (i : Inside κ) : List Op → World κ γ
  | [] => w.setParty p .over
  | ops => w.setParty p (.inside { i with ops := ops })

/-- A command is under way on the container, or it has a state file. -/
def World.Uses (w : World κ γ) (k : κ) : Prop :=
  (∃ p, ((w.party p).inside?.map Inside.container) = some k) ∨ k ∈ w.records.map Record.container

/-- Some killer has the pid on its list and has not come to it. -/
def World.Awaited (w : World κ γ) (pid : Nat) : Prop :=
  ∃ p, ∃ i ∈ (w.party p).inside?, Op.signal pid ∈ i.ops

variable (request : κ → Request)

/-- Nothing at the path of the container's directory. -/
def World.without (w : World κ γ) (dir : List Component) : List (Record κ) :=
  w.records.filter fun r => (request r.container).dir ≠ dir

def World.load (w : World κ γ) (dir : List Component) : Option (Record κ) :=
  w.records.find? fun r => (request r.container).dir = dir

/-! ## Steps -/

/-- `hierarchy` is anything else that happens below the mount point, such as
`destroy` removing a directory, and `migrate` any move that is not a command's own.
`pid` is the process a placement is about, or the one a write to a `cgroup.procs` names. -/
inductive Event (κ γ : Type) where
  | spawn (parent child : Nat)
  | exit (pid : Nat)
  | migrate (pid : Nat) (group : List Component)
  | hierarchy (h : Hierarchy) (procsAt : List Component → Option (List Component))
  | check (k : κ)
  | planFails (k : κ)
  | createCgroup (k : κ) (fails : Access → Bool)
  | call (g : γ) (call : Call) (layout : Layout) (id : String) (status : Status) (frozen : Bool)
  | act (p : κ ⊕ γ) (fault : Bool) (pid : Nat)
  | die (p : κ ⊕ γ)

/-- Where a write of a limit moves a process to. -/
def World.migratesTo (w : World κ γ) (cgroup : Cgroup) (file : String) :
    Option (List Component) :=
  w.procsAt (components (join cgroup.path file))

/-- One step of a command that the kernel does not refuse, if it can be taken. -/
def perform (w : World κ γ) (p : κ ⊕ γ) (i : Inside κ) (rest : List Op) (pid : Nat) :
    Op → Option (World κ γ)
  | .write file _ =>
      match w.migratesTo i.cgroup file with
      | some group => some (World.goOn { w with table := w.table.migrate pid group } p i rest)
      | none => some (w.goOn p i rest)
  | .place =>
      if (w.table.find pid).isSome then
        some (World.goOn
          { w with table := w.table.place pid (components i.cgroup.path) i.container } p i rest)
      else none
  | .save =>
      let record := { container := i.container, cgroup := i.cgroup.relative }
      some (World.goOn
        { w with records := record :: w.without request (request i.container).dir } p i rest)
  | .list =>
      let pids := (w.table.members (components i.cgroup.path)).map Process.pid
      some (w.goOn p i (pids.map .signal ++ rest))
  | .signal pid =>
      (w.table.find pid).map fun process =>
        let signal := { container := i.container, pid := pid, placedBy := process.placedBy }
        World.goOn { w with signalled := signal :: w.signalled } p i rest
  | .removeDir =>
      some (World.goOn { w with records := w.without request (request i.container).dir } p i rest)
  | _ => some (w.goOn p i rest)

def act (w : World κ γ) (p : κ ⊕ γ) (i : Inside κ) (fault : Bool) (pid : Nat) : World κ γ :=
  match i.ops with
  | [] => w.setParty p .over
  | op :: rest =>
      let done := if fault then none else perform request w p i rest pid op
      done.getD (w.goOn p i (afterFault rest i.command op))

/-- A call loads the container and attaches to the cgroup the record names. -/
def beginCall (w : World κ γ) (g : γ) (call : Call) (dir : List Component) (status : Status)
    (frozen : Bool) : World κ γ :=
  match w.load request dir, callProgram status frozen call with
  | some r, some ops =>
      w.goOn (.inr g)
        { command := .call call
          container := r.container
          cgroup := Cgroup.attach r.cgroup
          ops := [] } ops
  | _, _ => w.setParty (.inr g) .over

def createCgroup (w : World κ γ) (k : κ) (fails : Access → Bool) : World κ γ :=
  match Cgroup.create fails w.hierarchy (request k).relative with
  | (h, .error _) =>
      World.setParty { w with hierarchy := h
                              records := w.without request (request k).dir } (.inl k) .over
  | (h, .ok cgroup) =>
      World.goOn { w with hierarchy := h } (.inl k)
        { command := .create, container := k, cgroup := cgroup, ops := [] }
        (createProgram (request k))

def step (w : World κ γ) : Event κ γ → Option (World κ γ)
  | .spawn parent child =>
      (w.table.spawn parent child).map fun table => { w with table := table }
  | .exit pid => some { w with table := w.table.exit pid }
  | .migrate pid group => some { w with table := w.table.migrate pid group }
  | .hierarchy h procsAt => some { w with hierarchy := h, procsAt := procsAt }
  | .check k =>
      match w.party (.inl k) with
      | .idle =>
          if (w.load request (request k).dir).isSome then some (w.setParty (.inl k) .over)
          else some (w.setParty (.inl k) .checked)
      | _ => none
  | .planFails k =>
      match w.party (.inl k) with
      | .checked =>
          some (World.setParty { w with records := w.without request (request k).dir } (.inl k) .over)
      | _ => none
  | .createCgroup k fails =>
      match w.party (.inl k) with
      | .checked => some (createCgroup request w k fails)
      | _ => none
  | .call g call layout id status frozen =>
      match w.party (.inr g) with
      | .idle =>
          some (beginCall request w g call (components (layout.containerDir id)) status frozen)
      | _ => none
  | .act p fault pid =>
      match w.party p with
      | .inside i => some (act request w p i fault pid)
      | _ => none
  | .die p =>
      match w.party p with
      | .inside _ => some (w.setParty p .over)
      | .checked => some (w.setParty p .over)
      | _ => none

end Mars.Ownership
