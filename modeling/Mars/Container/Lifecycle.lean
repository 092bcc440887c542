import Mars.Cgroup.Resources
import Mars.Container.Exclusive
import Mars.State.Liveness

/-! # The life of one container

Each command runs to its end, with what the host did to it as its outcome.
Between commands processes exit, pids are taken again and the freezer catches up.
-/

namespace Mars.Lifecycle
open UnixPath Paths V2 State

/-! ## What the status depends on -/

/-- The files of the container's directory. -/
inductive Slot where
  | execFifo
  | stateFile
  deriving DecidableEq

/-- The container's place on the host. `tree` says which paths lead to its files,
whatever links are on the way, and `parse` reads a state file. -/
structure Place where
  layout : Layout
  id : String
  tree : String → Option Slot
  parse : String → Option Persisted

inductive StateFile where
  | absent
  | garbled
  | holds (record : Persisted)
  deriving DecidableEq

/-- `procs` has the start time of every process. The last four fields are the
history: how many containers there have been, whether a start of this one has
succeeded, its status before the last pause, and how the last command ended. -/
structure World where
  stateFile : StateFile
  fifo : Bool
  procs : Int → Option UInt64
  frozen : Bool
  life : Nat
  started : Bool
  beforePause : Option Status
  result : Except Error Unit

def empty : World where
  stateFile := .absent
  fifo := false
  procs := fun _ => none
  frozen := false
  life := 0
  started := false
  beforePause := none
  result := .ok ()

/-- A process that has not exited, as far as its stat line is read. -/
def procOf (time : UInt64) : Proc where
  comm := "init".toByteArray
  state := .sleeping
  before := List.replicate 18 0
  startTime := time.toNat
  after := []
  commLen := by decide
  beforeLen := length_zeros
  startTimeFits := time.toNat_lt

def eventsText (frozen : Bool) : String :=
  "populated 1\nfrozen " ++ (if frozen then "1" else "0") ++ "\n"

variable (place : Place)

def World.host (w : World) (container : Container) : Host where
  stat := fun pid => (w.procs pid).map fun time => (procOf time).stat pid
  cgroupFile := fun path =>
    if path = join container.cgroup.path "cgroup.events" then some (eventsText w.frozen) else none
  pathExists := fun path => path = place.layout.execFifo place.id && w.fifo

def World.load (w : World) : Except Error Container :=
  match w.stateFile with
  | .absent => .error (.notFound place.id)
  | .garbled => .error .json
  | .holds record => .ok { layout := place.layout, state := record }

/-- The status, where there is a container to ask for it. -/
def World.status (w : World) : Option Status :=
  match w.load place with
  | .error _ => none
  | .ok container => some (container.status (w.host place container))

/-! ## Commands -/

def World.finish (w : World) (result : Except Error Unit) : World := { w with result := result }

/-- A command on a loaded container whose status lets it go on. -/
def World.requiring (w : World) (expected : List Status) (act : Container → World) : World :=
  match w.load place with
  | .error error => w.finish (.error error)
  | .ok container =>
      match container.require (w.host place container) expected with
      | .error error => w.finish (.error error)
      | .ok _ => act container

/-- What a write to `cgroup.freeze` comes to. -/
inductive Freeze where
  | refused (error : Error)
  | late
  | reached

def freeze (w : World) (cgroup : Cgroup) (frozen : Bool) : Freeze → World × Except Error Unit
  | .refused error => (w, .error error)
  | .late => (w, .error (.invalid (display (components cgroup.path) ++ " did not reach frozen=" ++
      (if frozen then "true" else "false") ++ " within 5s")))
  | .reached => ({ w with frozen := frozen }, .ok ())

/-- What the removal of the container's directory comes to: it may end early,
with the fifo or the state file gone already. -/
inductive Removal where
  | complete
  | partly (fifo stateFile : Bool) (error : Error)

def create (w : World) (made : Except Error Persisted) : Option World :=
  match w.stateFile with
  | .absent =>
      match made with
      | .error error => some (w.finish (.error error))
      | .ok record =>
          if record.id = place.id ∧
              (w.procs record.pid).map UInt64.toNat = some record.startTime then
            some { w with
              stateFile := .holds record
              fifo := true
              life := w.life + 1
              started := false
              beforePause := none
              result := .ok () }
          else none
  | _ =>
      match w.load place with
      | .error error => some (w.finish (.error error))
      | .ok container =>
          let stopped := decide (container.status (w.host place container) = .stopped)
          some (w.finish (.error (Exclusive.takenError place.id stopped)))

/-- `fault` is the error `release` ends with, before it removes the fifo. -/
def start (w : World) (fault : Option Error) : World :=
  w.requiring place [.created] fun _ =>
    match fault with
    | some error => w.finish (.error error)
    | none => { w with fifo := false, started := true, beforePause := none, result := .ok () }

def pause (w : World) (paused : Bool) (outcome : Freeze) : World :=
  w.requiring place (if paused then [.created, .running] else [.paused]) fun container =>
    match freeze w container.cgroup paused outcome with
    | (w', .error error) => w'.finish (.error error)
    | (w', .ok ()) =>
        { w' with
          beforePause := if paused then w.status place else w'.beforePause
          result := .ok () }

def kill (w : World) (all : Bool) (freezing thawing : Freeze) (sent : Except Error Unit) : World :=
  w.requiring place [.created, .running, .paused] fun container =>
    if all = false ∨ isFrozen (w.host place container) container.cgroup = true then w.finish sent
    else
      match freeze w container.cgroup true freezing with
      | (w', .error error) => w'.finish (.error error)
      | (w', .ok ()) =>
          match freeze w' container.cgroup false thawing with
          | (w'', .error error) => w''.finish (.error error)
          | (w'', .ok ()) => w''.finish sent

/-- A write to a path that leads to one of the container's files. -/
def touch (w : World) (write : Write) : World :=
  match place.tree write.target with
  | some .execFifo => { w with fifo := true }
  | some .stateFile =>
      match place.parse write.value with
      | some record => { w with stateFile := .holds record }
      | none => { w with stateFile := .garbled }
  | none => w

def update (w : World) (resources : LinuxResources) (fails : Write → Bool) : World :=
  w.requiring place [.created, .running, .paused] fun container =>
    let (written, result) := container.cgroup.apply fails resources
    (written.foldl (touch place) w).finish result

/-- The pid file is made before the container is entered. `early` is an error
before that, and `late` what follows. -/
def exec (w : World) (ignorePaused : Bool) (pidFile : Option String) (early : Option Error)
    (late : Except Error Unit) : World :=
  match w.load place with
  | .error error => w.finish (.error error)
  | .ok container =>
      let status := container.status (w.host place container)
      if status = .stopped ∨ status = .creating then
        w.finish (.error (.badState place.id status.toText "created or running"))
      else if status = .paused ∧ ignorePaused = false then
        w.finish (.error (.badState place.id "paused"
          "running; pass --ignore-paused to exec anyway"))
      else
        match early with
        | some error => w.finish (.error error)
        | none =>
            match pidFile with
            | none => w.finish late
            | some path => (touch place w { target := path, value := "" }).finish late

/-- Processes die, or not, from what `delete` sends them before it stops waiting. -/
def World.killed (w : World) (pid : Int) (dies : Bool) : World :=
  if dies then { w with procs := Function.update w.procs pid none } else w

def World.remove (w : World) : Removal → World
  | .complete => { w with stateFile := .absent, fifo := false, result := .ok () }
  | .partly fifo stateFile error =>
      { w with
        stateFile := if stateFile then .absent else w.stateFile
        fifo := w.fifo && !fifo
        result := .error error }

def delete (w : World) (force : Bool) (thawing : Freeze) (dies : Bool) (removal : Removal) :
    World :=
  match w.load place with
  | .error error =>
      if error = .notFound place.id ∧ force = true then w.finish (.ok ())
      else w.finish (.error error)
  | .ok container =>
      let status := container.status (w.host place container)
      if status = .stopped then w.remove removal
      else if force = false then
        w.finish (.error (.badState place.id status.toText
          "stopped; pass --force to kill it first"))
      else if isFrozen (w.host place container) container.cgroup then
        match freeze w container.cgroup false thawing with
        | (w', .error error) => w'.finish (.error error)
        | (w', .ok ()) => (w'.killed container.state.pid dies).remove removal
      else (w.killed container.state.pid dies).remove removal

/-! ## Runs -/

inductive Event where
  | exit (pid : Int)
  | spawn (pid : Int) (time : UInt64)
  | freezer (frozen : Bool)
  | create (made : Except Error Persisted)
  | start (fault : Option Error)
  | pause (paused : Bool) (outcome : Freeze)
  | kill (all : Bool) (freezing thawing : Freeze) (sent : Except Error Unit)
  | update (resources : LinuxResources) (fails : Write → Bool)
  | exec (ignorePaused : Bool) (pidFile : Option String) (early : Option Error)
      (late : Except Error Unit)
  | delete (force : Bool) (thawing : Freeze) (dies : Bool) (removal : Removal)

/-- A process that takes the pid of the recorded one starts at another time. -/
def World.mayStart (w : World) (pid : Int) (time : UInt64) : Bool :=
  match w.stateFile with
  | .holds record => (w.procs pid).isNone && (record.pid ≠ pid || record.startTime ≠ time.toNat)
  | _ => (w.procs pid).isNone

def step (w : World) : Event → Option World
  | .exit pid => some { w with procs := Function.update w.procs pid none }
  | .spawn pid time =>
      if w.mayStart pid time then
        some { w with procs := Function.update w.procs pid (some time) }
      else none
  | .freezer frozen => some { w with frozen := frozen }
  | .create made => create place w made
  | .start fault => some (start place w fault)
  | .pause paused outcome => some (pause place w paused outcome)
  | .kill all freezing thawing sent => some (kill place w all freezing thawing sent)
  | .update resources fails => some (update place w resources fails)
  | .exec ignorePaused pidFile early late => some (exec place w ignorePaused pidFile early late)
  | .delete force thawing dies removal => some (delete place w force thawing dies removal)

end Mars.Lifecycle
