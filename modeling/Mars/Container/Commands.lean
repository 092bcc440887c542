import Mars.Container.Hooks
import Mars.Container.Start

/-! # The commands on a container that has been made

Whoever makes the container may go on with it: `run` starts it, waits for its
end and tidies up. Other commands start it or take it away, each in a process
of its own and at any time. Init runs its hooks between the fifo and the
program. The hooks of a phase are one step of whoever runs them.
-/

namespace Mars.Commands
open Spec Hooks

inductive Command where
  | start
  | delete (force : Bool)

/-- The command that makes the container. -/
inductive Origin where
  | create
  | run (detach keep : Bool)
  deriving DecidableEq

/-- Where a command stands, with what it is going to return. -/
inductive Stage where
  | load
  | release
  | poststart
  | supervise
  | poststop (result : Except Error Nat)
  | remove (result : Except Error Nat)
  | done (result : Except Error Nat)
  | died

/-- The container's hooks, what becomes of each, and the commands. The one that
makes the container is `none`. -/
structure Setup (ι : Type) where
  hooks : Option Hooks
  outcomes : Outcomes
  origin : Origin
  command : ι → Command
  id : String
  path : String

/-- The hooks executed are listed oldest first. -/
structure World (ι : Type) where
  fifo : Fifo.World (Option ι)
  stage : Option ι → Stage
  stateFile : Bool
  ran : List (Phase × Nat)

/-- What the system tells a command: whether the bundle still loads, and how
init has ended. -/
structure Answer where
  bundle : Bool
  outcome : Except Error Nat

inductive Event (ι : Type) where
  | call (caller : Option ι) (answer : Answer)
  | callFails (caller : Option ι) (error : Error)
  | callerDies (caller : Option ι) (executed : Nat)
  | init
  | initFails
  | initDies (executed : Nat)

variable {ι : Type} [DecidableEq ι]

def World.setStage (w : World ι) (i : Option ι) (stage : Stage) : World ι :=
  { w with stage := Function.update w.stage i stage }

def World.executes (w : World ι) (phase : Phase) (indices : List Nat) : World ι :=
  { w with ran := w.ran ++ indices.map fun index => (phase, index) }

def World.removed (w : World ι) : World ι :=
  { w with stateFile := false, fifo := { w.fifo with pipe := w.fifo.pipe.unlink } }

/-! ## The steps of a command -/

/-- `run` has the bundle at hand, the others load it again. -/
def Setup.found (c : Setup ι) (i : Option ι) (answer : Answer) : Option Hooks :=
  if i.isNone || answer.bundle then c.hooks else none

def badState (id : String) (linked : Bool) : Error :=
  .badState id (if linked then "created" else "running") "stopped; pass --force to kill it first"

/-- `Container::load`, and what `delete` does about the status. -/
def load (c : Setup ι) (w : World ι) : Option ι → World ι
  | none => w.setStage none (if w.stateFile then .release else .done (.error (.notFound c.id)))
  | some i =>
      match c.command i with
      | .start =>
          w.setStage (some i) (if w.stateFile then .release else .done (.error (.notFound c.id)))
      | .delete force =>
          if w.stateFile then
            -- a killed init need not be gone when the wait for it is over
            if force || w.fifo.init = .dead then w.setStage (some i) (.poststop (.ok 0))
            else w.setStage (some i) (.done (.error (badState c.id w.fifo.pipe.linked)))
          else
            w.setStage (some i) (.done (if force then .ok 0 else .error (.notFound c.id)))

/-- A release that has failed, or has come to the poststart hooks. -/
def released : Fifo.Point → Stage
  | .poststart => .poststart
  | .failed error => .done (.error error)
  | _ => .release

/-- A foreground `run` waits for the end of init, everything else is through. -/
def afterPoststart (c : Setup ι) : Option ι → Stage
  | none => match c.origin with
      | .run false _ => .supervise
      | _ => .done (.ok 0)
  | some _ => .done (.ok 0)

/-- `run --keep` leaves the state behind. -/
def keeps (c : Setup ι) : Option ι → Bool
  | none => match c.origin with
      | .run _ keep => keep
      | .create => false
  | some _ => false

def callStep (c : Setup ι) (w : World ι) (i : Option ι) (answer : Answer) : Option (World ι) :=
  match w.stage i with
  | .load => some (load c w i)
  | .release =>
      (Fifo.callStep w.fifo i).map fun fifo =>
        { w with fifo := fifo }.setStage i (released (fifo.caller i))
  | .poststart =>
      match run (c.found i answer) .poststart (c.outcomes .poststart) with
      | (executed, .ok ()) =>
          (Fifo.callStep w.fifo i).map fun fifo =>
            ({ w with fifo := fifo }.executes .poststart executed).setStage i (afterPoststart c i)
      | (executed, .error error) =>
          some (({ w with fifo := w.fifo.fail i error }.executes .poststart executed).setStage i
            (.done (.error error)))
  | .supervise =>
      if w.fifo.init = .dead then some (w.setStage i (.poststop answer.outcome)) else none
  | .poststop result =>
      match run (c.found i answer) .poststop (c.outcomes .poststop) with
      | (executed, .ok ()) => some ((w.executes .poststop executed).setStage i (.remove result))
      | (executed, .error error) =>
          some ((w.executes .poststop executed).setStage i (.done (.error error)))
  | .remove result =>
      some ((if keeps c i then w else w.removed).setStage i (.done result))
  | .done _ => none
  | .died => none

/-- A step of a command fails. What `run` makes of its end is decided before it removes. -/
def callFails (w : World ι) (i : Option ι) (error : Error) : Option (World ι) :=
  match w.stage i with
  | .load => some (w.setStage i (.done (.error error)))
  | .release =>
      some ({ w with fifo := w.fifo.fail i error }.setStage i (.done (.error error)))
  | .poststart =>
      some ({ w with fifo := w.fifo.fail i error }.setStage i (.done (.error error)))
  | .supervise => none
  | .poststop _ => some (w.setStage i (.done (.error error)))
  | .remove result =>
      some (w.setStage i (.done (if i.isNone then result else .error error)))
  | .done _ => none
  | .died => none

/-- A command dies, with the first hooks of the phase it is in executed. -/
def callerDies (c : Setup ι) (w : World ι) (i : Option ι) (executed : Nat) : Option (World ι) :=
  let first (phase : Phase) := (run c.hooks phase (c.outcomes phase)).1.take executed
  match w.stage i with
  | .release => some ({ w with fifo := w.fifo.drop i .died }.setStage i .died)
  | .poststart =>
      some (({ w with fifo := w.fifo.drop i .died }.executes .poststart
        (first .poststart)).setStage i .died)
  | .poststop _ => some ((w.executes .poststop (first .poststop)).setStage i .died)
  | .done _ => none
  | .died => none
  | _ => some (w.setStage i .died)

/-! ## The steps of init -/

def initStep (c : Setup ι) (w : World ι) : Option (World ι) :=
  match w.fifo.init with
  | .startContainer =>
      match run c.hooks .startContainer (c.outcomes .startContainer) with
      | (executed, .ok ()) =>
          (Fifo.initStep w.fifo).map fun fifo =>
            { w with fifo := fifo }.executes .startContainer executed
      | (executed, .error _) =>
          some ({ w with fifo := w.fifo.initExit }.executes .startContainer executed)
  | _ => (Fifo.initStep w.fifo).map fun fifo => { w with fifo := fifo }

def initDies (c : Setup ι) (w : World ι) (executed : Nat) : Option (World ι) :=
  match w.fifo.init with
  | .dead => none
  | .startContainer =>
      some ({ w with fifo := w.fifo.initExit }.executes .startContainer
        ((run c.hooks .startContainer (c.outcomes .startContainer)).1.take executed))
  | _ => some { w with fifo := w.fifo.initExit }

def step (c : Setup ι) (w : World ι) : Event ι → Option (World ι)
  | .call i answer => callStep c w i answer
  | .callFails i error => callFails w i error
  | .callerDies i executed => callerDies c w i executed
  | .init => initStep c w
  | .initFails =>
      if w.fifo.init = .program ∨ w.fifo.init = .dead then none
      else some { w with fifo := w.fifo.initExit }
  | .initDies executed => initDies c w executed

/-- `create` has returned. `run` returns its error, and goes on where there is none. -/
def start (c : Setup ι) (created : Except Error Unit) : World ι where
  fifo := Fifo.created c.id c.path fun i => i.isSome
  stage := fun
    | some _ => .load
    | none => match created, c.origin with
        | .error error, _ => .done (.error error)
        | .ok (), .create => .done (.ok 0)
        | .ok (), .run _ _ => .load
  stateFile := match created with
    | .ok () => true
    | .error _ => false
  ran := []

/-! ## What a step executes -/

/-- A run of the phase's hooks, or the beginning of one. -/
def Executes (hooks : Option Hooks) (phase : Phase) (indices : List Nat) : Prop :=
  indices <+: List.range (selected hooks phase).length

/-- Whose step executes which phase, and where. -/
inductive Runs (w : World ι) : Event ι → Phase → Prop
  | poststart {i : Option ι} {answer : Answer} (h : w.stage i = .poststart) :
      Runs w (.call i answer) .poststart
  | poststop {i : Option ι} {answer : Answer} {result : Except Error Nat}
      (h : w.stage i = .poststop result) : Runs w (.call i answer) .poststop
  | poststartDies {i : Option ι} {executed : Nat} (h : w.stage i = .poststart) :
      Runs w (.callerDies i executed) .poststart
  | poststopDies {i : Option ι} {executed : Nat} {result : Except Error Nat}
      (h : w.stage i = .poststop result) : Runs w (.callerDies i executed) .poststop
  | startContainer (h : w.fifo.init = .startContainer) : Runs w .init .startContainer
  | startContainerDies {executed : Nat} (h : w.fifo.init = .startContainer) :
      Runs w (.initDies executed) .startContainer

theorem tolerant_poststart {hooks : Option Hooks} {outcome : Nat → Option Error} :
    run hooks .poststart outcome =
      (List.range (selected hooks .poststart).length, .ok ()) := run_tolerant rfl

theorem tolerant_poststop {hooks : Option Hooks} {outcome : Nat → Option Error} :
    run hooks .poststop outcome =
      (List.range (selected hooks .poststop).length, .ok ()) := run_tolerant rfl

section ran
variable {c : Setup ι} {w w' : World ι} {event : Event ι}

theorem executes_run (hooks : Option Hooks) (phase : Phase) (outcome : Nat → Option Error) :
    Executes hooks phase (run hooks phase outcome).1 := run_executed

theorem executes_take {hooks : Option Hooks} {phase : Phase} {indices : List Nat}
    (h : Executes hooks phase indices) (n : Nat) : Executes hooks phase (indices.take n) :=
  (List.take_prefix n indices).trans h

omit [DecidableEq ι] in
theorem executes_found (c : Setup ι) (i : Option ι) (answer : Answer) (phase : Phase)
    (outcome : Nat → Option Error) :
    Executes c.hooks phase (run (c.found i answer) phase outcome).1 := by
  unfold Setup.found
  split
  · exact executes_run _ _ _
  · exact List.nil_prefix

theorem load_ran (c : Setup ι) (w : World ι) (i : Option ι) : (load c w i).ran = w.ran := by
  unfold load
  split
  · rfl
  · split
    · rfl
    · split
      · split <;> rfl
      · rfl

/-- A step executes hooks of one phase at most, each at most once. -/
theorem step_ran (h : step c w event = some w') :
    w'.ran = w.ran ∨ ∃ phase indices, Runs w event phase ∧ Executes c.hooks phase indices ∧
      w'.ran = w.ran ++ indices.map fun index => (phase, index) := by
  cases event with
  | call i answer =>
      simp only [step, callStep] at h
      cases hstage : w.stage i with
      | load =>
          simp only [hstage, Option.some.injEq] at h
          subst h
          exact Or.inl (load_ran c w i)
      | release =>
          simp only [hstage, Option.map_eq_some_iff] at h
          obtain ⟨fifo, -, rfl⟩ := h
          exact Or.inl rfl
      | poststart =>
          simp only [hstage, tolerant_poststart, Option.map_eq_some_iff] at h
          obtain ⟨fifo, -, rfl⟩ := h
          have hexecuted := executes_found c i answer .poststart (c.outcomes .poststart)
          rw [run_tolerant rfl] at hexecuted
          exact Or.inr ⟨_, _, .poststart hstage, hexecuted, rfl⟩
      | supervise =>
          simp only [hstage, Option.ite_none_right_eq_some, Option.some.injEq] at h
          exact Or.inl (h.2 ▸ rfl)
      | poststop result =>
          simp only [hstage, tolerant_poststop, Option.some.injEq] at h
          subst h
          have hexecuted := executes_found c i answer .poststop (c.outcomes .poststop)
          rw [run_tolerant rfl] at hexecuted
          exact Or.inr ⟨_, _, .poststop hstage, hexecuted, rfl⟩
      | remove result =>
          simp only [hstage, Option.some.injEq] at h
          subst h
          left
          show (if keeps c i then w else w.removed).ran = w.ran
          split <;> rfl
      | done result => simp [hstage] at h
      | died => simp [hstage] at h
  | callFails i error =>
      left
      simp only [step, callFails] at h
      split at h <;> cases h <;> rfl
  | callerDies i executed =>
      simp only [step, callerDies] at h
      split at h
      next => exact Or.inl (Option.some.inj h ▸ rfl)
      next hstage =>
        obtain rfl := Option.some.inj h
        exact Or.inr ⟨_, _, .poststartDies hstage, executes_take (executes_run _ _ _) _, rfl⟩
      next result hstage =>
        obtain rfl := Option.some.inj h
        exact Or.inr ⟨_, _, .poststopDies hstage, executes_take (executes_run _ _ _) _, rfl⟩
      next => cases h
      next => cases h
      next => exact Or.inl (Option.some.inj h ▸ rfl)
  | init =>
      simp only [step, initStep] at h
      split at h
      next hinit =>
        right
        refine ⟨.startContainer, (run c.hooks .startContainer (c.outcomes .startContainer)).1,
          .startContainer hinit, executes_run _ _ _, ?_⟩
        split at h
        next executed hrun =>
          obtain ⟨fifo, -, rfl⟩ := Option.map_eq_some_iff.mp h
          rw [hrun]
          rfl
        next executed error hrun =>
          obtain rfl := Option.some.inj h
          rw [hrun]
          rfl
      next =>
        obtain ⟨fifo, -, rfl⟩ := Option.map_eq_some_iff.mp h
        exact Or.inl rfl
  | initFails =>
      simp only [step, Option.ite_none_left_eq_some, Option.some.injEq] at h
      exact Or.inl (h.2 ▸ rfl)
  | initDies executed =>
      simp only [step, initDies] at h
      split at h
      next => cases h
      next hinit =>
        obtain rfl := Option.some.inj h
        exact Or.inr ⟨_, _, .startContainerDies hinit, executes_take (executes_run _ _ _) _, rfl⟩
      next => exact Or.inl (Option.some.inj h ▸ rfl)

theorem bounded_step (hw : ∀ entry ∈ w.ran, entry.2 < (selected c.hooks entry.1).length)
    (h : step c w event = some w') :
    ∀ entry ∈ w'.ran, entry.2 < (selected c.hooks entry.1).length := by
  intro entry hentry
  rcases step_ran h with hsame | ⟨phase, indices, -, hexecuted, hran⟩
  · exact hw entry (hsame ▸ hentry)
  · rw [hran] at hentry
    rcases List.mem_append.mp hentry with hold | hnew
    · exact hw entry hold
    · obtain ⟨index, hindex, rfl⟩ := List.mem_map.mp hnew
      exact List.mem_range.mp (hexecuted.subset hindex)

/-- Only hooks there are have been executed. -/
theorem ran_bounded {created : Except Error Unit} {events : List (Event ι)}
    (h : Transition.run (step c) (start c created) events = some w) :
    ∀ entry ∈ w.ran, entry.2 < (selected c.hooks entry.1).length :=
  @Transition.run_invariant _ _ _
    (fun w : World ι => ∀ entry ∈ w.ran, entry.2 < (selected c.hooks entry.1).length)
    (fun _ _ _ => bounded_step) _ _ _ (by simp [start]) h

/-- The outcomes of the last two phases change nothing. -/
theorem step_congr {others : Outcomes}
    (h : ∀ phase, phase.isFatal = true → others phase = c.outcomes phase) :
    step { c with outcomes := others } = step c := by
  have hstart : others .startContainer = c.outcomes .startContainer := h _ rfl
  funext w event
  cases event with
  | call i answer =>
      simp only [step, callStep, tolerant_poststart, tolerant_poststop]
      rfl
  | callFails i error => rfl
  | callerDies i executed =>
      simp only [step, callerDies, tolerant_poststart, tolerant_poststop]
  | init => simp only [step, initStep, hstart]
  | initFails => rfl
  | initDies executed => simp only [step, initDies, hstart]

/-- Whose step it is, if it is a command's. -/
def Event.caller : Event ι → Option (Option ι)
  | .call i _ => some i
  | .callFails i _ => some i
  | .callerDies i _ => some i
  | _ => none

theorem setStage_other {i j : Option ι} (stage : Stage) (h : j ≠ i) :
    (w.setStage i stage).stage j = w.stage j := Function.update_of_ne h _ _

theorem load_stage_other {i j : Option ι} (h : j ≠ i) : (load c w i).stage j = w.stage j := by
  unfold load
  split
  · exact setStage_other _ h
  · split
    · exact setStage_other _ h
    · split
      · split <;> exact setStage_other _ h
      · exact setStage_other _ h

/-- A step moves at most the command whose step it is. -/
theorem step_stage_other {i : Option ι} (hcaller : event.caller ≠ some i)
    (h : step c w event = some w') : w'.stage i = w.stage i := by
  cases event with
  | call j answer =>
      have hne : i ≠ j := fun heq => hcaller (heq ▸ rfl)
      simp only [step, callStep] at h
      cases hstage : w.stage j with
      | load =>
          simp only [hstage, Option.some.injEq] at h
          exact h ▸ load_stage_other hne
      | release =>
          simp only [hstage, Option.map_eq_some_iff] at h
          obtain ⟨fifo, -, rfl⟩ := h
          exact setStage_other _ hne
      | poststart =>
          simp only [hstage, tolerant_poststart, Option.map_eq_some_iff] at h
          obtain ⟨fifo, -, rfl⟩ := h
          exact setStage_other _ hne
      | supervise =>
          simp only [hstage, Option.ite_none_right_eq_some, Option.some.injEq] at h
          exact h.2 ▸ setStage_other _ hne
      | poststop result =>
          simp only [hstage, tolerant_poststop, Option.some.injEq] at h
          exact h ▸ setStage_other _ hne
      | remove result =>
          simp only [hstage, Option.some.injEq] at h
          subst h
          rw [setStage_other _ hne]
          split <;> rfl
      | done result => simp [hstage] at h
      | died => simp [hstage] at h
  | callFails j error =>
      have hne : i ≠ j := fun heq => hcaller (heq ▸ rfl)
      simp only [step, callFails] at h
      split at h <;> cases h <;> exact setStage_other _ hne
  | callerDies j executed =>
      have hne : i ≠ j := fun heq => hcaller (heq ▸ rfl)
      simp only [step, callerDies] at h
      split at h <;> cases h <;> exact setStage_other _ hne
  | init =>
      simp only [step, initStep] at h
      split at h
      · split at h
        · obtain ⟨fifo, -, rfl⟩ := Option.map_eq_some_iff.mp h
          rfl
        · exact Option.some.inj h ▸ rfl
      · obtain ⟨fifo, -, rfl⟩ := Option.map_eq_some_iff.mp h
        rfl
  | initFails =>
      simp only [step, Option.ite_none_left_eq_some, Option.some.injEq] at h
      exact h.2 ▸ rfl
  | initDies executed =>
      simp only [step, initDies] at h
      split at h <;> cases h <;> rfl

theorem done_caller {i : Option ι} {result : Except Error Nat} (hw : w.stage i = .done result)
    (h : step c w event = some w') : event.caller ≠ some i := by
  cases event with
  | call j answer =>
      rintro ⟨⟩
      simp [step, callStep, hw] at h
  | callFails j error =>
      rintro ⟨⟩
      simp [step, callFails, hw] at h
  | callerDies j executed =>
      rintro ⟨⟩
      simp [step, callerDies, hw] at h
  | _ => nofun

/-- A command that is over stays so. -/
theorem done_stays {i : Option ι} {result : Except Error Nat} (hw : w.stage i = .done result)
    (h : step c w event = some w') : w'.stage i = .done result := by
  rw [step_stage_other (done_caller hw h) h, hw]

end ran

end Mars.Commands
