import Mars.Container.Commands
import Mars.Container.Smooth

/-! # A failing hook and the result of its command

The hooks of a create reach the command that waits for it, and nothing of the
last two phases reaches any. What init does behind the fifo reaches nobody: the
byte is all that a release hears.
-/

namespace Mars.HookContract
open Spec Hooks Protocol

section contract
variable {ι : Type}

/-- A startContainer hook has been executed and has failed. -/
def StartFailed (outcomes : Outcomes) (x : Commands.World ι) : Prop :=
  ∃ index, (Phase.startContainer, index) ∈ x.ran ∧ outcomes .startContainer index ≠ none

/-- The command has got init's byte. -/
def Released (x : Commands.World ι) (i : Option ι) : Prop := (x.fifo.caller i).holds = true

/-- The command does not succeed, and no poststart hook is run. -/
def Fails (x : Commands.World ι) (i : Option ι) : Prop :=
  (∀ result, x.stage i = .done result → ∃ error, result = .error error) ∧
    ∀ index, (Phase.poststart, index) ∉ x.ran

end contract

/-- A failing fatal hook fails its command, and no other hook changes a result. -/
structure Contract (s : Setting) (outcomes : Outcomes) : Prop where
  /-- A create one of whose hooks fails is going to return an error, -/
  creating : ∀ dir events w,
    Transition.run (hookedStep s outcomes) (Protocol.start s dir false) events = some w →
    HookFailed w → Doomed s w
  /-- which is the result of the `run` it is part of. -/
  running : ∀ (ι : Type) [DecidableEq ι] (c : Commands.Setup ι) (error : Error) events x,
    Transition.run (Commands.step c) (Commands.start c (.error error)) events = some x →
    x.stage none = .done (.error error)
  /-- A command that releases a container fails with the container's hooks. -/
  starting : ∀ dir events w,
    Transition.run (hookedStep s outcomes) (Protocol.start s dir false) events = some w →
    w.returned = some (.ok ()) →
    ∀ (ι : Type) [DecidableEq ι] (c : Commands.Setup ι), c.hooks = s.plan.bundle.spec.hooks →
    c.outcomes = outcomes → ∀ events x,
    Transition.run (Commands.step c) (Commands.start c (.ok ())) events = some x →
    StartFailed outcomes x → ∀ i, Released x i → Fails x i
  /-- The runs are the same whatever the other hooks do. -/
  reporting : ∀ others : Outcomes, (∀ phase, phase.isFatal = true → others phase = outcomes phase) →
    (∀ dir events, Transition.run (hookedStep s others) (Protocol.start s dir false) events =
      Transition.run (hookedStep s outcomes) (Protocol.start s dir false) events) ∧
    ∀ (ι : Type) [DecidableEq ι] (c : Commands.Setup ι), c.outcomes = outcomes →
    ∀ created events,
      Transition.run (Commands.step { c with outcomes := others })
          (Commands.start { c with outcomes := others } created) events =
        Transition.run (Commands.step c) (Commands.start c created) events

/-! ## What the contract needs -/

section hooked
variable {s : Setting} {outcomes others : Outcomes} {w : Protocol.World}

theorem program_hook_fatal {st : Protocol.Stage} {op : Op} {phase : Phase} {index : Nat}
    (hop : op ∈ program s st) (hhook : op.hook = some (phase, index)) : phase.isFatal = true := by
  rcases hook_stage hhook with rfl | rfl
  · obtain rfl : Protocol.Stage.settle = st := Option.some.inj (stage_of_mem_program hop)
    have hmem : .hook phase index ∈ settleProgram s.plan s.initPid := by
      simpa [program] using hop
    simp only [settleProgram, placement, List.mem_append, List.mem_cons, List.not_mem_nil,
      or_false] at hmem
    have hhooks : ∀ other, other.isFatal = true →
        .hook phase index ∈ hookOps SettleOp.hookPayload .hook s.plan other →
        phase.isFatal = true := by
      intro other hfatal hmem
      rcases mem_hookOps hmem with heq | ⟨i, heq⟩
      · cases heq
      · cases heq
        exact hfatal
    rcases hmem with (((heq | heq) | hmem) | hmem) | hmem
    · cases heq
    · cases heq
    · exact hhooks _ rfl hmem
    · exact hhooks _ rfl hmem
    · simp at hmem
  · obtain rfl : Protocol.Stage.init = st := Option.some.inj (stage_of_mem_program hop)
    have hmem : .hook phase index ∈ setup s.plan ++ .sendInitReady :: parkAndExec s.plan := by
      simpa [program, containerInit] using hop
    rcases List.mem_append.mp hmem with hmem | hmem
    · rw [setup_hook hmem]
      rfl
    · rcases List.mem_cons.mp hmem with heq | hmem
      · cases heq
      · rw [parked_hook hmem]
        rfl

theorem hookedStep_congr (h : ∀ phase, phase.isFatal = true → others phase = outcomes phase)
    (hw : Whole s w) (event : Protocol.Event) :
    hookedStep s others w event = hookedStep s outcomes w event := by
  cases event with
  | act who fault =>
      have hguide : guide s others w (.act who fault) = guide s outcomes w (.act who fault) := by
        cases hhook : (w.party who).ops.head?.bind Op.hook with
        | none => simp only [guide, hhook]
        | some hook =>
            obtain ⟨phase, index⟩ := hook
            obtain ⟨op, hhead, hop⟩ := Option.bind_eq_some_iff.mp hhook
            obtain ⟨rest, hops⟩ := List.head?_eq_some_iff.mp hhead
            obtain ⟨st, hst⟩ : ∃ st, op.stage = some st := by
              rcases hook_stage hop with rfl | rfl <;> exact ⟨_, rfl⟩
            have hfatal := program_hook_fatal (hw.inOrder.progress hops hst).2.mem hop
            have hsame : hookError s.plan others phase index =
                hookError s.plan outcomes phase index := by
              simp only [hookError, h phase hfatal]
            simp only [guide, hhook, hsame]
      simp only [hookedStep, hguide]
  | _ => rfl

end hooked

/-! ## A start that does not notice -/

section unnoticed
variable {s : Setting} {outcomes : Outcomes}

/-- The container's hooks with their outcomes, and one `start`. -/
def oneStart (hooks : Option Hooks) (outcomes : Outcomes) : Commands.Setup Unit where
  hooks := hooks
  outcomes := outcomes
  origin := .create
  command := fun _ => .start
  id := "c1"
  path := "/run/mars/c1/exec.fifo"

def answered : Commands.Answer := { bundle := true, outcome := .ok 0 }

def starting : Commands.Event Unit := .call (some ()) answered

/-- `start` has read the byte, and init is about to run its hooks. -/
def handshake : List (Commands.Event Unit) :=
  [starting, starting, starting, starting, .init, starting, .init, .init, starting, .init]

theorem handshake_run (hooks : Option Hooks) (outcomes : Outcomes) :
    ∃ x, Transition.run (Commands.step (oneStart hooks outcomes))
        (Commands.start (oneStart hooks outcomes) (.ok ())) handshake = some x ∧
      x.fifo.init = .startContainer ∧ x.stage (some ()) = .release ∧
      x.fifo.caller (some ()) = .removing ∧ x.fifo.pipe.linked = true ∧ x.ran = [] :=
  ⟨_, rfl, rfl, rfl, rfl, rfl, rfl⟩

/-- Where a startContainer hook fails `start` succeeds behind it. -/
theorem start_unnoticed {hooks : Option Hooks} {index : Nat}
    (hindex : index < (selected hooks .startContainer).length)
    (hfails : outcomes .startContainer index ≠ none) :
    ∃ events x, Transition.run (Commands.step (oneStart hooks outcomes))
        (Commands.start (oneStart hooks outcomes) (.ok ())) events = some x ∧
      StartFailed outcomes x ∧ Released x (some ()) ∧ x.stage (some ()) = .done (.ok 0) := by
  obtain ⟨x, hrun, hinit, hstage, hcaller, hlinked, -⟩ := handshake_run hooks outcomes
  obtain ⟨error, hresult, i, hi, hne⟩ :=
    run_error (show Phase.startContainer.isFatal = true from rfl) hindex hfails
  let c := oneStart hooks outcomes
  let executed := (run hooks .startContainer (outcomes .startContainer)).1
  have hphase : run c.hooks .startContainer (c.outcomes .startContainer) =
      (executed, .error error) := Prod.ext rfl hresult
  -- the hook fails and init is gone
  let failed := { x with fifo := x.fifo.initExit }.executes .startContainer executed
  have hfailed : Commands.step c x .init = some failed := by
    simp only [Commands.step, Commands.initStep, hinit, hphase, failed]
  -- the byte has been read before, so the fifo is taken away and the release is through
  let passed := { failed with
    fifo := { failed.fifo.setCaller (some ()) .poststart with
      pipe := failed.fifo.pipe.unlink.close (some (some ())) } }.setStage (some ()) .poststart
  have hpassed : Commands.step c failed starting = some passed := by
    have hstage' : failed.stage (some ()) = .release := hstage
    have hcaller' : failed.fifo.caller (some ()) = .removing := hcaller
    have hlinked' : failed.fifo.pipe.linked = true := by
      simp only [failed, Commands.World.executes, Fifo.World.initExit, NamedPipe.Pipe.close]
      exact hlinked
    simp [starting, Commands.step, Commands.callStep, hstage', Fifo.callStep, hcaller', hlinked',
      passed, Fifo.World.setCaller, Commands.released]
  let finished := ({ passed with
    fifo := { passed.fifo.setCaller (some ()) .ok with
      poststarts := some () :: passed.fifo.poststarts } }.executes .poststart
        (List.range (selected hooks .poststart).length)).setStage (some ()) (.done (.ok 0))
  have hover : Commands.step c passed starting = some finished := by
    have hstage' : passed.stage (some ()) = .poststart := by
      simp [passed, Commands.World.setStage]
    have hcaller' : passed.fifo.caller (some ()) = .poststart := by
      simp [passed, Commands.World.setStage, Fifo.World.setCaller]
    have hfound : c.found (some ()) answered = hooks := rfl
    simp [starting, Commands.step, Commands.callStep, hstage', Commands.tolerant_poststart,
      Fifo.callStep, hcaller', hfound, finished, Commands.afterPoststart]
  refine ⟨handshake ++ [.init, starting, starting], finished, ?_, ?_, ?_, ?_⟩
  · rw [Transition.run_append, hrun, Option.bind_some]
    simp only [Transition.run, c, hfailed, hpassed, hover, Option.bind_some]
  · refine ⟨i, ?_, hne⟩
    have hmem : (Phase.startContainer, i) ∈ failed.ran :=
      List.mem_append_right _ (List.mem_map_of_mem hi)
    exact List.mem_append_left _ hmem
  · simp [Released, finished, Commands.World.setStage, Commands.World.executes,
      Fifo.World.setCaller, Fifo.Point.holds]
  · simp [finished, Commands.World.setStage]

end unnoticed

/-! ## Exactly when the contract is kept -/

section kept
variable {s : Setting} {outcomes : Outcomes}

theorem creating_kept {dir : Bool} {events : List Protocol.Event} {w : Protocol.World}
    (hrun : Transition.run (hookedStep s outcomes) (Protocol.start s dir false) events = some w)
    (hhook : HookFailed w) : Doomed s w :=
  (whole_hooked hrun).doomed hhook

theorem running_kept {ι : Type} [DecidableEq ι] {c : Commands.Setup ι} {error : Error}
    {events : List (Commands.Event ι)} {x : Commands.World ι}
    (hrun : Transition.run (Commands.step c) (Commands.start c (.error error)) events = some x) :
    x.stage none = .done (.error error) :=
  @Transition.run_invariant _ _ _ (fun x : Commands.World ι => x.stage none = .done (.error error))
    (fun _ _ _ hx hstep => Commands.done_stays hx hstep) _ _ _ rfl hrun

theorem reporting_kept {others : Outcomes}
    (h : ∀ phase, phase.isFatal = true → others phase = outcomes phase) :
    (∀ dir events, Transition.run (hookedStep s others) (Protocol.start s dir false) events =
      Transition.run (hookedStep s outcomes) (Protocol.start s dir false) events) ∧
    ∀ (ι : Type) [DecidableEq ι] (c : Commands.Setup ι), c.outcomes = outcomes →
    ∀ created events,
      Transition.run (Commands.step { c with outcomes := others })
          (Commands.start { c with outcomes := others } created) events =
        Transition.run (Commands.step c) (Commands.start c created) events := by
  constructor
  · intro dir events
    exact @Transition.run_congr _ _ _ _ (Whole s)
      (fun w event hw => hookedStep_congr h hw event)
      (fun _ _ _ hw hstep => Whole.step hw hstep) _ (whole_start s dir) events
  · rintro ι _ c rfl created events
    rw [Commands.step_congr h]
    rfl

/-- The contract is kept exactly where no startContainer hook of a container
that can be made fails. -/
theorem contract_iff : Contract s outcomes ↔
    (Creatable s outcomes →
      ∀ index < (selected s.plan.bundle.spec.hooks .startContainer).length,
        outcomes .startContainer index = none) := by
  constructor
  · intro hcontract hcreatable index hindex
    by_contra hfails
    obtain ⟨events, w, hcreate, hreturned⟩ := exists_created hcreatable
    obtain ⟨commands, x, hrun, hfailed, hreleased, hdone⟩ := start_unnoticed hindex hfails
    obtain ⟨hresult, -⟩ := hcontract.starting false events w hcreate hreturned Unit _ rfl rfl
      commands x hrun hfailed (some ()) hreleased
    obtain ⟨error, herror⟩ := hresult _ hdone
    cases herror
  · intro hsucceeds
    constructor
    case creating => exact fun dir events w hrun hhook => creating_kept hrun hhook
    case running => exact fun ι _ c error events x hrun => running_kept hrun
    case reporting => exact fun others h => reporting_kept h
    case starting =>
      rintro dir events w hcreate hreturned ι _ c hhooks houtcomes commands x hrun
        ⟨index, hexecuted, hfails⟩ i -
      have hbounded := Commands.ran_bounded hrun _ hexecuted
      rw [hhooks] at hbounded
      exact absurd (hsucceeds (creatable_of_returned hcreate hreturned) index hbounded) hfails

end kept

/-! ## A failing startContainer hook -/

def falseHook : Hook where
  path := "/bin/false"
  args := none
  env := none
  timeout := none

/-- One startContainer hook and one poststart hook. -/
def twoHooks : Hooks where
  prestart := none
  createRuntime := none
  createContainer := none
  startContainer := some [falseHook]
  poststart := some [falseHook]
  poststop := none

def hookedSetting : Setting :=
  { Placement.userSetting with
    plan := { Placement.userPlan with
      bundle := { dir := "/bundle", spec := { Placement.emptySpec with hooks := some twoHooks } } } }

/-- Every hook exits with 1. -/
def allFail : Outcomes := fun _ _ => some (.invalid "exited with exit status: 1")

open Placement in
def hookedCreate : List Protocol.Event :=
  acts .parent 14 ++ acts .intermediate 3 ++ acts .parent 6 ++ acts .intermediate 6 ++
    acts .parent 4 ++ acts .init 8 ++ acts .parent 5

theorem hookedCreate_enabled : (Transition.run (hookedStep hookedSetting allFail)
    (Protocol.start hookedSetting false false) hookedCreate).isSome = true := by rfl

def createdWorld : Protocol.World := Option.get _ hookedCreate_enabled

def lateStart : List (Commands.Event Unit) := handshake ++ [.init, starting, starting]

theorem lateStart_enabled : (Transition.run (Commands.step (oneStart (some twoHooks) allFail))
    (Commands.start (oneStart (some twoHooks) allFail) (.ok ())) lateStart).isSome = true := by rfl

def startedWorld : Commands.World Unit := Option.get _ lateStart_enabled

/-- `create` returns well, and so does the `start` that releases the container,
with its poststart hook run behind the hook that failed. -/
theorem failing_hook_unnoticed :
    ¬Contract hookedSetting allFail ∧ startedWorld.stage (some ()) = .done (.ok 0) ∧
      startedWorld.ran = [(.startContainer, 0), (.poststart, 0)] := by
  have hran : startedWorld.ran = [(.startContainer, 0), (.poststart, 0)] := by rfl
  refine ⟨fun hcontract => ?_, rfl, hran⟩
  have hfailed : StartFailed allFail startedWorld :=
    ⟨0, by rw [hran]; exact List.mem_cons_self, nofun⟩
  obtain ⟨-, hnone⟩ := hcontract.starting false hookedCreate createdWorld
    (Option.some_get hookedCreate_enabled).symm rfl Unit (oneStart (some twoHooks) allFail) rfl rfl
    lateStart startedWorld (Option.some_get lateStart_enabled).symm hfailed (some ()) rfl
  exact hnone 0 (by simp [hran])

end Mars.HookContract
