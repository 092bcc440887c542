import Mars.Cgroup.V2
import Mars.Cgroup.Events

/-! # The persisted record and the derived status

Nothing stores the status. It is computed from the record's process, its
cgroup's freezer and the exec fifo, all read from the host on every query.
-/

namespace Mars.State
open UnixPath Paths Text V2

inductive Status where
  | creating
  | created
  | running
  | stopped
  | paused
  deriving DecidableEq, Repr

def Status.toText : Status → String
  | .creating => "creating"
  | .created => "created"
  | .running => "running"
  | .stopped => "stopped"
  | .paused => "paused"

structure Persisted where
  ociVersion : String
  id : String
  pid : Int
  startTime : Nat
  bundle : String
  rootfs : String
  cgroup : String
  created : String
  rootless : Bool
  annotations : List (String × String)
  deriving DecidableEq

structure Container where
  layout : Layout
  state : Persisted
  deriving DecidableEq

/-- What a status query reads. -/
structure Host where
  /-- The bytes of `/proc/<pid>/stat`, where the process exists. -/
  stat : Int → Option ByteArray
  /-- The text of a cgroup file, where it can be read. -/
  cgroupFile : String → Option String
  /-- `Path::exists`. -/
  pathExists : String → Bool

/-! ## Liveness -/

def parseStartTime (stat : List Char) : Option Nat := do
  let tail ← afterLast ')' stat
  let field ← (splitWhitespace tail)[19]?
  parseU64 field

def startTime (host : Host) (pid : Int) : Except Error Nat :=
  let path := "/proc/" ++ String.ofList (decimalInt pid) ++ "/stat"
  match (host.stat pid).bind String.fromUTF8? with
  | none => .error (.io ("read " ++ path))
  | some text =>
      match parseStartTime text.toList with
      | none => .error (.invalid ("cannot parse " ++ path))
      | some time => .ok time

namespace Container

def execFifo (container : Container) : String := container.layout.execFifo container.state.id

def cgroup (container : Container) : Cgroup := Cgroup.attach container.state.cgroup

def alive (container : Container) (host : Host) : Bool :=
  match startTime host container.state.pid with
  | .ok observed => observed == container.state.startTime
  | .error _ => false

end Container

/-! ## Status -/

def isFrozen (host : Host) (cgroup : Cgroup) : Bool :=
  match host.cgroupFile (join cgroup.path "cgroup.events") with
  | none => false
  | some text => (Events.get (Events.parseFlatKeyed text.toList) "frozen").getD 0 == 1

namespace Container

def status (container : Container) (host : Host) : Status :=
  if !container.alive host then .stopped
  else if isFrozen host container.cgroup then .paused
  else if host.pathExists container.execFifo then .created
  else .running

def require (container : Container) (host : Host) (expected : List Status) :
    Except Error Status :=
  let actual := container.status host
  if expected.contains actual then .ok actual
  else .error (.badState container.state.id actual.toText
    (" or ".intercalate (expected.map Status.toText)))

/-! ## What a status says -/

theorem status_stopped_iff (container : Container) (host : Host) :
    container.status host = .stopped ↔ container.alive host = false := by
  unfold status
  cases container.alive host with
  | false => simp
  | true => simp; split <;> (try split) <;> simp

theorem require_ok_iff {container : Container} {host : Host} {expected : List Status}
    {actual : Status} :
    container.require host expected = .ok actual ↔
      container.status host = actual ∧ actual ∈ expected := by
  unfold require
  by_cases h : container.status host ∈ expected
  · simp only [List.contains_iff_mem, h, ↓reduceIte, Except.ok.injEq]
    constructor
    · intro heq
      exact ⟨heq, heq ▸ h⟩
    · exact fun hboth => hboth.1
  · simp only [List.contains_iff_mem, h, ↓reduceIte, reduceCtorEq, false_iff, not_and]
    intro heq
    exact heq ▸ h

end Container

example : parseStartTime
    ("77 (my (odd) name) S 1 77 77 0 -1 4194304 1 2 3 4 5 6 7 8 20 0 1 0 555 1 2 3").toList =
    some 555 := by decide

end Mars.State
