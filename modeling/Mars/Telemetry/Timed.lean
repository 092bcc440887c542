import Mars.Container.Unshared
import Mars.Telemetry.Recorder

/-! # A create with its recorders

Between the steps of a create stand the statements that use a recorder. A step
happens at an instant of the common clock, and so does each of the statements
around it, in the party's own order. Nothing else is said about when.
-/

namespace Mars.Timed
open Spec Namespace Protocol Sync Telemetry History

/-! ## Statements -/

/-- A statement that uses a recorder, or a variable for one. -/
inductive Stmt where
  | new
  | endPhase
  | openPhase (name : String)
  | forkedAt
  | initStarted
  | absorbIntermediate (phases : List Sync.Phase)
  | bindPhases (phases : List Sync.Phase)
  | absorbInit
  | take
  deriving DecidableEq

/-- The variables, and what `take` has given last. -/
structure Locals where
  clock : Option Recorder
  forkedAt : Nat
  initStarted : Nat
  phases : List Sync.Phase
  taken : List Sync.Phase

def Locals.empty : Locals := ⟨none, 0, 0, [], []⟩

/-- `wall` is the wall clock, which may go anywhere. -/
def Stmt.run (wall : Nat → Nat) (now : Nat) (l : Locals) : Stmt → Locals
  | .new => { l with clock := some (.new now (wall now)) }
  | .endPhase => { l with clock := l.clock.map (·.endPhase now) }
  | .openPhase name => { l with clock := l.clock.map (·.openPhase name now) }
  | .forkedAt => { l with forkedAt := (l.clock.map (·.elapsedUs now)).getD 0 }
  | .initStarted => { l with initStarted := (l.clock.map (·.elapsedUs now)).getD 0 }
  | .absorbIntermediate phases =>
      { l with clock := l.clock.map (·.absorb "intermediate" l.forkedAt phases) }
  | .bindPhases phases => { l with phases := phases }
  | .absorbInit => { l with clock := l.clock.map (·.absorb "init" l.initStarted l.phases) }
  | .take => match l.clock with
      | some r => { l with clock := some (r.take now).2, taken := (r.take now).1 }
      | none => l

/-- `clock.begin(name)`, whose two readings have an instant each. -/
def begin (name : String) : List Stmt := [.endPhase, .openPhase name]

/-- The statements between the step before and this one. -/
def before (plan : Plan) : Op → List Stmt
  | .prepare .checkState => .new :: begin "bundle"
  | .prepare .namespaceLayout => begin "plan"
  | .prepare .createCgroup => begin "cgroup"
  | .prepare .fork => begin "fork" ++ [.forkedAt]
  | .prepare .recv => begin "wait.initpid"
  | .settle .waitIntermediate => begin "reap.intermediate"
  | .settle (.addProcess _) => begin "cgroup.attach"
  | .settle (.sendCgroupApplied _) => begin "init" ++ [.initStarted]
  | .settle .close => [.endPhase, .absorbInit]
  | .intermediate (.unshare name) => begin ("unshare." ++ name)
  | .intermediate .sendRequestUserMapping => begin "unshare.user.map"
  | .intermediate .fork => begin "fork.init"
  | .intermediate .sendInitPid => [.take]
  | .init .makeRootPrivate => begin "rootfs.mount"
  | .init .pivot => begin "pivot_root"
  -- the phase is begun before the first of the three that there is
  | .init .sethostname => begin "identity"
  | .init .setDomainname => ifTrue plan.bundle.spec.hostname.isNone (begin "identity")
  | .init .sysctlApply =>
      ifTrue (plan.bundle.spec.hostname.isNone && plan.bundle.spec.domainname.isNone)
        (begin "identity")
  | .init .maskPaths => begin "harden"
  | .init .sendInitReady => [.take]
  | _ => []

/-- The statements right behind a step that has succeeded, given the message it took. -/
def after : Op → Option Message → List Stmt
  | .prepare .recv, some (.initPid _ phases) => [.absorbIntermediate phases]
  | .mapping .recv, some (.initPid _ phases) => [.absorbIntermediate phases]
  | .settle (.addProcess _), _ => begin "hooks.createRuntime"
  | .settle .expectInitReady, some (.initReady phases) => .bindPhases phases :: begin "state"
  | .intermediate .dropParent, _ => .new :: begin "join"
  | .init .expectCgroupApplied, _ => .new :: begin "unshare.cgroup"
  | .init .devicesCreate, _ => begin "hooks.createContainer"
  | .init .chdir, _ => begin "security"
  | _, _ => []

/-! ## Acts -/

/-- An attempt at a step, with the instants of it and of the statements around it. -/
structure Act where
  who : Who
  entry : Entry Op
  message : Option Message
  before : List Nat
  instant : Nat
  after : List Nat

def Act.behind (a : Act) : List Stmt := ifTrue a.entry.ok (Timed.after a.entry.op a.message)

def Act.stamps (plan : Plan) (a : Act) : List (Stmt × Nat) :=
  (Timed.before plan a.entry.op).zip a.before ++ a.behind.zip a.after

def Act.times (a : Act) : List Nat := a.before ++ a.instant :: a.after

/-- Each statement has its instant, none before what the party has done, and the
step comes no earlier than the last step of anybody. -/
def Act.Timely (plan : Plan) (last now : Nat) (a : Act) : Prop :=
  a.before.length = (Timed.before plan a.entry.op).length ∧ a.after.length = a.behind.length ∧
    (last :: a.times).Pairwise (· ≤ ·) ∧ now ≤ a.instant

instance (plan : Plan) (last now : Nat) (a : Act) : Decidable (a.Timely plan last now) :=
  inferInstanceAs (Decidable (_ ∧ _))

/-- What a party has done with its recorder. -/
def stamps (plan : Plan) (acts : List Act) (who : Who) : List (Stmt × Nat) :=
  (acts.filter fun a => a.who = who).flatMap (Act.stamps plan)

def locals (wall : Nat → Nat) (stamps : List (Stmt × Nat)) : Locals :=
  stamps.foldl (fun l stamp => stamp.1.run wall stamp.2 l) .empty

/-! ## Runs -/

structure State where
  world : World
  now : Nat
  last : Who → Nat
  acts : List Act

/-- An event of the create, with the instants of an act. -/
structure Tick where
  event : Protocol.Event
  before : List Nat
  instant : Nat
  after : List Nat

/-- The message a step of the runtime takes. -/
def received (w : World) : Op → Option Message
  | .prepare .recv => w.toParent.head?
  | .mapping .recv => w.toParent.head?
  | .settle .expectInitReady => w.toParent.head?
  | _ => none

/-- Who has come to life. -/
def forks : Entry Op → Option Who
  | ⟨.prepare .fork, true⟩ => some .intermediate
  | ⟨.intermediate .fork, true⟩ => some .init
  | _ => none

/-- The phases a child reports, which the setting foretells. -/
def reports (s : Setting) : Op → Option (Who × List Sync.Phase)
  | .intermediate .sendInitPid => some (.intermediate, s.intermediatePhases)
  | .init .sendInitReady => some (.init, s.initPhases)
  | _ => none

/-- A report is what the child has taken out of its recorder. -/
def Foretold (s : Setting) (wall : Nat → Nat) (acts : List Act) (entry : Entry Op) : Prop :=
  ∀ report ∈ reports s entry.op, entry.ok = true →
    (locals wall (stamps s.plan acts report.1)).taken = report.2

instance (s : Setting) (wall : Nat → Nat) (acts : List Act) (entry : Entry Op) :
    Decidable (Foretold s wall acts entry) :=
  inferInstanceAs (Decidable (∀ report ∈ reports s entry.op, entry.ok = true →
    (locals wall (stamps s.plan acts report.1)).taken = report.2))

/-- A child's time starts at its fork. -/
def State.perform (t : State) (next : World) (a : Act) : State where
  world := next
  now := a.instant
  last := fun who =>
    if who = a.who then a.after.getLastD a.instant
    else if forks a.entry = some who then a.instant else t.last who
  acts := t.acts ++ [a]

def step (s : Setting) (wall : Nat → Nat) (t : State) (tick : Tick) : Option State :=
  (Protocol.step s t.world tick.event).bind fun next =>
    match tick.event with
    | .act who _ => next.log.getLast?.bind fun entry =>
        let a : Act := ⟨who, entry, received t.world entry.op, tick.before, tick.instant,
          tick.after⟩
        if a.Timely s.plan (t.last who) t.now ∧ Foretold s wall (t.acts ++ [a]) entry then
          some (t.perform next a)
        else none
    | _ => some { t with world := next }

def start (s : Setting) (dir stateFile : Bool) : State where
  world := Protocol.start s dir stateFile
  now := 0
  last := fun _ => 0
  acts := []

/-- The runtime's variables. -/
def State.runtime (s : Setting) (wall : Nat → Nat) (t : State) : Locals :=
  locals wall (stamps s.plan t.acts .parent)

end Mars.Timed
