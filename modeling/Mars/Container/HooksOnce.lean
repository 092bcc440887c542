import Mars.Container.HookContract

/-! # No hook twice

The hooks of a create stand in the programs of its parties, each once. Init
comes through its own hooks once, and the byte lets one release come to the
poststart hooks. Nothing of the kind guards the poststop hooks: each `delete`
and each foreground `run` that comes to the container's end executes them.
-/

namespace Mars.HooksOnce
open Spec Hooks Protocol History

/-! ## What is executed over a container's life -/

/-- The hooks attempted while a create was going on. -/
def createHooks (w : Protocol.World) : List (Phase × Nat) :=
  (w.log.filterMap fun e => e.op.hook).filter fun hook => hook.1 ∈ early

/-- A create has returned well, and commands have followed. -/
structure Life {ι : Type} [DecidableEq ι] (s : Setting) (outcomes : Outcomes)
    (c : Commands.Setup ι) (w : Protocol.World) (events : List (Commands.Event ι))
    (x : Commands.World ι) : Prop where
  created : ∃ dir creation, Transition.run (hookedStep s outcomes) (Protocol.start s dir false)
    creation = some w
  returned : w.returned = some (.ok ())
  hooks : c.hooks = s.plan.bundle.spec.hooks
  outcomes : c.outcomes = outcomes
  commands : Transition.run (Commands.step c) (Commands.start c (.ok ())) events = some x

/-! ## The hooks of the programs -/

def phaseHooks (hooks : Option Hooks) (phase : Phase) : List (Phase × Nat) :=
  (List.range (selected hooks phase).length).map fun index => (phase, index)

section programs
variable {s : Setting} {w : Protocol.World} {plan : Plan} {phase : Phase}

theorem phaseHooks_nodup (hooks : Option Hooks) (phase : Phase) :
    (phaseHooks hooks phase).Nodup :=
  List.nodup_range.map fun _ _ h => (Prod.mk.inj h).2

theorem hookOps_hooks {α : Type} {hookPayload : Phase → α} {hook : Phase → Nat → α}
    {wrap : α → Op} (hpayload : ∀ phase, (wrap (hookPayload phase)).hook = none)
    (hhook : ∀ phase index, (wrap (hook phase index)).hook = some (phase, index))
    (plan : Plan) (phase : Phase) :
    ((hookOps hookPayload hook plan phase).map wrap).filterMap Op.hook =
      phaseHooks plan.bundle.spec.hooks phase := by
  unfold hookOps phaseHooks
  split
  next hnil => rw [hnil]; rfl
  next =>
    have hsame : (fun index => (wrap (hook phase index)).hook) =
        some ∘ fun index => (phase, index) := funext fun index => hhook phase index
    rw [List.map_cons, List.filterMap_cons_none (hpayload phase), List.map_map,
      List.filterMap_map]
    exact (congrArg (fun f => List.filterMap f _) hsame).trans
      (congrFun List.filterMap_eq_map _)

theorem settle_hooks (s : Setting) : (program s .settle).filterMap Op.hook =
    phaseHooks s.plan.bundle.spec.hooks .prestart ++
      phaseHooks s.plan.bundle.spec.hooks .createRuntime := by
  have hhooks : ∀ phase,
      ((hookOps SettleOp.hookPayload .hook s.plan phase).map Op.settle).filterMap Op.hook =
        phaseHooks s.plan.bundle.spec.hooks phase :=
    hookOps_hooks (fun _ => rfl) (fun _ _ => rfl) s.plan
  simp only [program, settleProgram, placement, List.map_append, List.filterMap_append,
    hhooks, List.map_cons, List.map_nil, List.filterMap_cons, List.filterMap_nil, Op.hook,
    List.nil_append, List.append_nil]

theorem init_hookOps (plan : Plan) (phase : Phase) :
    ((hookOps InitOp.hookPayload .hook plan phase).map Op.init).filterMap Op.hook =
      phaseHooks plan.bundle.spec.hooks phase :=
  hookOps_hooks (fun _ => rfl) (fun _ _ => rfl) plan phase

theorem ifTrue_hooks {condition : Bool} {ops : List InitOp}
    (h : (ops.map Op.init).filterMap Op.hook = []) :
    ((ifTrue condition ops).map Op.init).filterMap Op.hook = [] := by
  unfold ifTrue
  split
  · exact h
  · rfl

theorem mountSteps_hooks (plan : Plan) : ((mountSteps plan).map Op.init).filterMap Op.hook =
    phaseHooks plan.bundle.spec.hooks .createContainer := by
  unfold mountSteps
  split
  · have hconsole := @ifTrue_hooks plan.console [.consoleSetup] rfl
    simp only [List.map_append, List.filterMap_append, init_hookOps, hconsole, List.append_nil]
    split <;> exact List.append_nil _
  · exact init_hookOps plan _

theorem hardenSteps_hooks (plan : Plan) :
    ((hardenSteps plan).map Op.init).filterMap Op.hook = [] := by
  unfold hardenSteps
  simp only [List.map_append, List.filterMap_append, List.append_eq_nil_iff]
  refine ⟨⟨⟨ifTrue_hooks rfl, ifTrue_hooks rfl⟩, rfl⟩, ifTrue_hooks ?_⟩
  simp only [List.map_append, List.filterMap_append, List.append_eq_nil_iff]
  exact ⟨rfl, ifTrue_hooks rfl⟩

theorem securitySteps_hooks (plan : Plan) :
    ((securitySteps plan).map Op.init).filterMap Op.hook = [] := by
  unfold securitySteps
  simp only [List.map_append, List.filterMap_append, List.append_eq_nil_iff]
  refine ⟨⟨ifTrue_hooks rfl, ifTrue_hooks ?_⟩, ifTrue_hooks rfl⟩
  simp only [List.map_append, List.filterMap_append, List.append_eq_nil_iff]
  exact ⟨⟨⟨ifTrue_hooks rfl, rfl⟩, ifTrue_hooks rfl⟩, ifTrue_hooks rfl⟩

theorem init_hooks (s : Setting) : (program s .init).filterMap Op.hook =
    phaseHooks s.plan.bundle.spec.hooks .createContainer ++
      phaseHooks s.plan.bundle.spec.hooks .startContainer := by
  have hcgroup := @ifTrue_hooks s.plan.cgroupNs [.unshareCgroup] rfl
  have hlimits := @ifTrue_hooks s.plan.bundle.spec.process.isSome
    [.applyLimits, .applyOomScoreAdj, .applyUmask] rfl
  simp only [program, containerInit, setup, parkAndExec, List.map_append, List.filterMap_append,
    List.map_cons, List.map_nil, List.cons_append, List.filterMap_cons, List.filterMap_nil,
    mountSteps_hooks, hardenSteps_hooks, securitySteps_hooks, init_hookOps, hcgroup, hlimits,
    Op.hook, List.nil_append, List.append_nil]

/-- The hooks of all the programs are different ones. -/
theorem program_hooks_nodup (s : Setting) :
    ((program s .settle).filterMap Op.hook ++ (program s .init).filterMap Op.hook).Nodup := by
  have hne : ∀ {phase other : Phase}, phase ≠ other →
      (phaseHooks s.plan.bundle.spec.hooks phase).Disjoint
        (phaseHooks s.plan.bundle.spec.hooks other) := by
    intro phase other hne hook hleft hright
    obtain ⟨i, -, rfl⟩ := List.mem_map.mp hleft
    obtain ⟨j, -, heq⟩ := List.mem_map.mp hright
    exact hne (Prod.mk.inj heq).1.symm
  rw [settle_hooks, init_hooks]
  have hsettle : (phaseHooks s.plan.bundle.spec.hooks .prestart ++
      phaseHooks s.plan.bundle.spec.hooks .createRuntime).Nodup :=
    (phaseHooks_nodup _ _).append (phaseHooks_nodup _ _) (hne (by decide))
  have hinit : (phaseHooks s.plan.bundle.spec.hooks .createContainer ++
      phaseHooks s.plan.bundle.spec.hooks .startContainer).Nodup :=
    (phaseHooks_nodup _ _).append (phaseHooks_nodup _ _) (hne (by decide))
  apply hsettle.append hinit
  rw [List.disjoint_append_left, List.disjoint_append_right, List.disjoint_append_right]
  exact ⟨⟨hne (by decide), hne (by decide)⟩, hne (by decide), hne (by decide)⟩

theorem attempted_hooks (h : Stepwise s w) (st : Stage) :
    (w.attempted st).filterMap (fun e => e.op.hook) <+: (program s st).filterMap Op.hook := by
  have hprefix := (h.attempts st).isPrefix.filterMap Op.hook
  rwa [List.filterMap_map] at hprefix

/-- A create attempts no hook twice. -/
theorem createHooks_nodup (h : Stepwise s w) : (createHooks w).Nodup := by
  have hparts := (attempted_hooks h .settle).sublist.append (attempted_hooks h .init).sublist
  have hnodup := (hparts.nodup (program_hooks_nodup s))
  have hstage : ∀ op hook, Op.hook op = some hook →
      op.stage = some .settle ∨ op.stage = some .init := by
    intro op hook hop
    rcases hook_stage hop with rfl | rfl
    · exact Or.inl rfl
    · exact Or.inr rfl
  have hperm := w.filterMap_perm (a := .settle) (b := .init) nofun hstage
  exact (hperm.nodup_iff.mpr hnodup).filter _

end programs

/-! ## The moves of a command -/

section goes
variable {ι : Type} [DecidableEq ι] {c : Commands.Setup ι} {x x' : Commands.World ι}
  {event : Commands.Event ι} {i j : Option ι} {stage : Commands.Stage}
  {fifo : Fifo.World (Option ι)} {stateFile : Bool}

/-- From the poststop hooks to the removal. -/
def Ending : Commands.Stage → Prop
  | .poststop _ => True
  | .remove _ => True
  | _ => False

/-- A `delete` that finds the state and is not turned away. -/
def Takes (c : Commands.Setup ι) (x : Commands.World ι) : Option ι → Prop
  | none => False
  | some name => match c.command name with
      | .start => False
      | .delete force => x.stateFile = true ∧ (force = true ∨ x.fifo.init = .dead)

/-- Where a step takes a command, with the fifo and the state it leaves. -/
inductive Goes (c : Commands.Setup ι) (x : Commands.World ι) (i : Option ι) :
    Commands.Event ι → Commands.Stage → Fifo.World (Option ι) → Bool → Prop
  | found {answer : Commands.Answer} (h : x.stage i = .load) :
      Goes c x i (.call i answer) .release x.fifo x.stateFile
  | takes {answer : Commands.Answer} (h : x.stage i = .load) (htakes : Takes c x i) :
      Goes c x i (.call i answer) (.poststop (.ok 0)) x.fifo x.stateFile
  | refused {answer : Commands.Answer} {result : Except Error Nat} (h : x.stage i = .load) :
      Goes c x i (.call i answer) (.done result) x.fifo x.stateFile
  | release {answer : Commands.Answer} {fifo : Fifo.World (Option ι)} (h : x.stage i = .release)
      (hfifo : Fifo.callStep x.fifo i = some fifo) :
      Goes c x i (.call i answer) (Commands.released (fifo.caller i)) fifo x.stateFile
  | poststart {answer : Commands.Answer} {fifo : Fifo.World (Option ι)}
      (h : x.stage i = .poststart) (hfifo : Fifo.callStep x.fifo i = some fifo) :
      Goes c x i (.call i answer) (Commands.afterPoststart c i) fifo x.stateFile
  | ended {answer : Commands.Answer} (h : x.stage i = .supervise) :
      Goes c x i (.call i answer) (.poststop answer.outcome) x.fifo x.stateFile
  | stopped {answer : Commands.Answer} {result : Except Error Nat}
      (h : x.stage i = .poststop result) :
      Goes c x i (.call i answer) (.remove result) x.fifo x.stateFile
  | kept {answer : Commands.Answer} {result : Except Error Nat} (h : x.stage i = .remove result)
      (hkeeps : Commands.keeps c i = true) :
      Goes c x i (.call i answer) (.done result) x.fifo x.stateFile
  | removed {answer : Commands.Answer} {result : Except Error Nat}
      (h : x.stage i = .remove result) :
      Goes c x i (.call i answer) (.done result) x.removed.fifo false
  | releaseFails {error : Error} (h : x.stage i = .release ∨ x.stage i = .poststart) :
      Goes c x i (.callFails i error) (.done (.error error)) (x.fifo.fail i error) x.stateFile
  | loadFails {error : Error} {result : Except Error Nat} (h : x.stage i = .load) :
      Goes c x i (.callFails i error) (.done result) x.fifo x.stateFile
  | endFails {error : Error} {result : Except Error Nat} (h : Ending (x.stage i)) :
      Goes c x i (.callFails i error) (.done result) x.fifo x.stateFile
  | releaseDies {executed : Nat} (h : x.stage i = .release ∨ x.stage i = .poststart) :
      Goes c x i (.callerDies i executed) .died (x.fifo.drop i .died) x.stateFile
  | earlyDies {executed : Nat} (h : x.stage i = .load ∨ x.stage i = .supervise) :
      Goes c x i (.callerDies i executed) .died x.fifo x.stateFile
  | endDies {executed : Nat} (h : Ending (x.stage i)) :
      Goes c x i (.callerDies i executed) .died x.fifo x.stateFile

theorem load_goes {answer : Commands.Answer} (h : x.stage i = .load) :
    ∃ stage, Goes c x i (.call i answer) stage x.fifo x.stateFile ∧
      Commands.load c x i = x.setStage i stage := by
  unfold Commands.load
  cases i with
  | none =>
      by_cases hstate : x.stateFile = true
      · exact ⟨_, .found h, by simp only [hstate, if_true]⟩
      · exact ⟨_, .refused h, by simp only [if_neg hstate]; rfl⟩
  | some name =>
      cases hcommand : c.command name with
      | start =>
          by_cases hstate : x.stateFile = true
          · exact ⟨_, .found h, by simp only [hcommand, hstate, if_true]⟩
          · exact ⟨_, .refused h, by simp only [hcommand, if_neg hstate]; rfl⟩
      | delete force =>
          by_cases hstate : x.stateFile = true
          · by_cases hon : force = true ∨ x.fifo.init = .dead
            · have htakes : Takes c x (some name) := by
                simp only [Takes, hcommand]
                exact ⟨hstate, hon⟩
              have hon' : (force || decide (x.fifo.init = .dead)) = true := by simpa using hon
              exact ⟨_, .takes h htakes, by simp only [hcommand, hstate, if_true, hon']⟩
            · have hon' : ¬(force || decide (x.fifo.init = .dead)) = true := by simpa using hon
              exact ⟨_, .refused h, by simp only [hcommand, hstate, if_true, if_neg hon']; rfl⟩
          · exact ⟨_, .refused h, by simp only [hcommand, if_neg hstate]; rfl⟩

/-- What a step of a command can do. -/
theorem step_goes (h : Commands.step c x event = some x') (hcaller : event.caller = some i) :
    ∃ stage, Goes c x i event stage x'.fifo x'.stateFile ∧
      x'.stage = Function.update x.stage i stage := by
  cases event with
  | call j answer =>
      obtain rfl : j = i := Option.some.inj hcaller
      simp only [Commands.step, Commands.callStep] at h
      cases hstage : x.stage j with
      | load =>
          simp only [hstage, Option.some.injEq] at h
          obtain ⟨stage, hgoes, hload⟩ := load_goes hstage
          rw [← h, hload]
          exact ⟨stage, hgoes, rfl⟩
      | release =>
          simp only [hstage, Option.map_eq_some_iff] at h
          obtain ⟨fifo, hfifo, rfl⟩ := h
          exact ⟨_, .release hstage hfifo, rfl⟩
      | poststart =>
          simp only [hstage, Commands.tolerant_poststart, Option.map_eq_some_iff] at h
          obtain ⟨fifo, hfifo, rfl⟩ := h
          exact ⟨_, .poststart hstage hfifo, rfl⟩
      | supervise =>
          simp only [hstage, Option.ite_none_right_eq_some, Option.some.injEq] at h
          exact h.2 ▸ ⟨_, .ended hstage, rfl⟩
      | poststop result =>
          simp only [hstage, Commands.tolerant_poststop, Option.some.injEq] at h
          exact h ▸ ⟨_, .stopped hstage, rfl⟩
      | remove result =>
          simp only [hstage, Option.some.injEq] at h
          by_cases hkeeps : Commands.keeps c j = true
          · rw [if_pos hkeeps] at h
            exact h ▸ ⟨_, .kept hstage hkeeps, rfl⟩
          · rw [if_neg hkeeps] at h
            exact h ▸ ⟨_, .removed hstage, rfl⟩
      | done result => simp [hstage] at h
      | died => simp [hstage] at h
  | callFails j error =>
      obtain rfl : j = i := Option.some.inj hcaller
      simp only [Commands.step, Commands.callFails] at h
      cases hstage : x.stage j <;> simp only [hstage] at h <;> cases h
      case callFails.release.refl => exact ⟨_, .releaseFails (Or.inl hstage), rfl⟩
      case callFails.poststart.refl => exact ⟨_, .releaseFails (Or.inr hstage), rfl⟩
      case callFails.load.refl => exact ⟨_, .loadFails hstage, rfl⟩
      all_goals exact ⟨_, .endFails (by rw [hstage]; trivial), rfl⟩
  | callerDies j executed =>
      obtain rfl : j = i := Option.some.inj hcaller
      simp only [Commands.step, Commands.callerDies] at h
      cases hstage : x.stage j <;> simp only [hstage] at h <;> cases h
      case callerDies.release.refl => exact ⟨_, .releaseDies (Or.inl hstage), rfl⟩
      case callerDies.poststart.refl => exact ⟨_, .releaseDies (Or.inr hstage), rfl⟩
      case callerDies.load.refl => exact ⟨_, .earlyDies (Or.inl hstage), rfl⟩
      case callerDies.supervise.refl => exact ⟨_, .earlyDies (Or.inr hstage), rfl⟩
      all_goals exact ⟨_, .endDies (by rw [hstage]; trivial), rfl⟩
  | init => cases hcaller
  | initFails => cases hcaller
  | initDies executed => cases hcaller

/-- What a step of init can do. -/
theorem step_init (h : Commands.step c x event = some x') (hcaller : event.caller = none) :
    (Fifo.initStep x.fifo = some x'.fifo ∨ x'.fifo = x.fifo.initExit) ∧ x'.stage = x.stage ∧
      x'.stateFile = x.stateFile := by
  cases event with
  | call i answer => cases hcaller
  | callFails i error => cases hcaller
  | callerDies i executed => cases hcaller
  | init =>
      simp only [Commands.step, Commands.initStep] at h
      split at h
      · split at h
        · obtain ⟨fifo, hfifo, rfl⟩ := Option.map_eq_some_iff.mp h
          exact ⟨Or.inl hfifo, rfl, rfl⟩
        · exact Option.some.inj h ▸ ⟨Or.inr rfl, rfl, rfl⟩
      · obtain ⟨fifo, hfifo, rfl⟩ := Option.map_eq_some_iff.mp h
        exact ⟨Or.inl hfifo, rfl, rfl⟩
  | initFails =>
      simp only [Commands.step, Option.ite_none_left_eq_some, Option.some.injEq] at h
      exact h.2 ▸ ⟨Or.inr rfl, rfl, rfl⟩
  | initDies executed =>
      simp only [Commands.step, Commands.initDies] at h
      split at h <;> cases h <;> exact ⟨Or.inr rfl, rfl, rfl⟩

theorem Goes.caller_other (h : Goes c x i event stage fifo stateFile) (hne : j ≠ i) :
    fifo.caller j = x.fifo.caller j := by
  cases h with
  | release _ hfifo => exact Fifo.callStep_other hfifo hne
  | poststart _ hfifo => exact Fifo.callStep_other hfifo hne
  | releaseFails => exact Function.update_of_ne hne _ _
  | releaseDies => exact Function.update_of_ne hne _ _
  | _ => rfl

end goes

/-! ## A byte that is gone -/

section spent
variable {κ : Type} {w w' : Fifo.World κ} {i : κ}

/-- Init has written, and whoever had the byte is through. -/
structure Spent (w : Fifo.World κ) : Prop where
  wrote : w.wrote = true
  empty : w.pipe.buffer = []
  passed : ∀ i, (w.caller i).holds = true → w.caller i = .ok

variable [DecidableEq κ] {point : Fifo.Point} {pipe : NamedPipe.Pipe (Option κ)}
  {opened : List κ}

theorem Spent.caller (h : Spent w) (hpoint : point.holds = false)
    (hbuffer : pipe.buffer = w.pipe.buffer ∨ pipe.buffer = []) :
    Spent { w.setCaller i point with pipe := pipe, opened := opened } where
  wrote := h.wrote
  empty := by
    rcases hbuffer with hsame | hnil
    · exact hsame.trans h.empty
    · exact hnil
  passed := by
    intro j hj
    show Function.update w.caller i point j = .ok
    have hholds : (Function.update w.caller i point j).holds = true := hj
    by_cases hne : j = i
    · rw [hne, Function.update_self, hpoint] at hholds
      cases hholds
    · rw [Function.update_of_ne hne] at hholds ⊢
      exact h.passed j hholds

theorem Spent.drop (h : Spent w) (hpoint : point.holds = false) : Spent (w.drop i point) :=
  h.caller hpoint (Fifo.buffer_close _ _)

/-- Nobody comes to the byte any more. -/
theorem Spent.callStep (h : Spent w) (hstep : Fifo.callStep w i = some w') : Spent w' := by
  have hwaiting : ∀ {point}, w.caller i = point → point.holds = true → point ≠ .ok → False := by
    intro point hpoint hholds hne
    rw [← hpoint] at hholds hne
    exact hne (h.passed i hholds)
  unfold Fifo.callStep at hstep
  cases hcaller : w.caller i with
  | requireCreated =>
      simp only [hcaller] at hstep
      split at hstep <;> cases hstep
      · exact h.caller rfl (Or.inl rfl)
      · exact h.drop rfl
  | checkExists =>
      simp only [hcaller] at hstep
      split at hstep <;> cases hstep
      · exact h.caller rfl (Or.inl rfl)
      · exact h.drop rfl
  | openFifo =>
      simp only [hcaller] at hstep
      split at hstep <;> cases hstep
      · exact h.caller rfl (Or.inl rfl)
      · exact h.drop rfl
  | opening =>
      simp only [hcaller] at hstep
      split at hstep <;> cases hstep
      exact h.caller rfl (Or.inl rfl)
  | reading =>
      simp only [hcaller] at hstep
      split at hstep
      next value rest hread =>
        have hbuffer := NamedPipe.read_byte hread
        rw [h.empty] at hbuffer
        cases hbuffer
      next => exact Option.some.inj hstep ▸ h.drop rfl
      next => cases hstep
  | removing => exact (hwaiting hcaller rfl nofun).elim
  | poststart => exact (hwaiting hcaller rfl nofun).elim
  | ok => simp [hcaller] at hstep
  | failed error => simp [hcaller] at hstep
  | died => simp [hcaller] at hstep

theorem Spent.initExit (h : Spent w) : Spent w.initExit where
  wrote := h.wrote
  empty := by
    rcases Fifo.buffer_close w.pipe none with hsame | hnil
    · exact hsame.trans h.empty
    · exact hnil
  passed := h.passed

/-- Init writes before it has written, and never again. -/
theorem Spent.initStep (h : Spent w) (hw : Fifo.Inv w) (hstep : Fifo.initStep w = some w') :
    Spent w' := by
  have hbefore := hw.written h.wrote
  unfold Fifo.initStep at hstep
  cases hinit : w.init with
  | openFifo => simp [hinit, Fifo.InitPoint.beforeWrite] at hbefore
  | opening => simp [hinit, Fifo.InitPoint.beforeWrite] at hbefore
  | writing => simp [hinit, Fifo.InitPoint.beforeWrite] at hbefore
  | closing =>
      simp only [hinit, Option.some.injEq] at hstep
      exact hstep ▸ ⟨h.wrote, h.initExit.empty, h.passed⟩
  | startContainer =>
      simp only [hinit, Option.some.injEq] at hstep
      exact hstep ▸ ⟨h.wrote, h.empty, h.passed⟩
  | unblock =>
      simp only [hinit, Option.some.injEq] at hstep
      exact hstep ▸ ⟨h.wrote, h.empty, h.passed⟩
  | execve =>
      simp only [hinit, Option.some.injEq] at hstep
      exact hstep ▸ ⟨h.wrote, h.empty, h.passed⟩
  | program => simp [hinit] at hstep
  | dead => simp [hinit] at hstep

/-- The one that has the byte is through with it, or gives it up. -/
theorem spent_holder {poststarts : List κ} (hw : Fifo.Inv w) (hi : (w.caller i).holds = true)
    (hpoint : point.holds = true → point = .ok)
    (hbuffer : pipe.buffer = w.pipe.buffer ∨ pipe.buffer = []) :
    Spent { w.setCaller i point with pipe := pipe, poststarts := poststarts } where
  wrote := by
    cases hwrote : w.wrote with
    | true => exact hwrote
    | false =>
        have hnone := (hw.unwritten hwrote).2 i
        rw [hi] at hnone
        cases hnone
  empty := by
    rcases hbuffer with hsame | hnil
    · by_contra hfull
      have hnone := hw.buffered (hsame ▸ hfull) i
      rw [hi] at hnone
      cases hnone
    · exact hnil
  passed := by
    intro j hj
    have hcaller : (Function.update w.caller i point j).holds = true := hj
    show Function.update w.caller i point j = .ok
    by_cases hne : j = i
    · rw [hne, Function.update_self] at hcaller ⊢
      exact hpoint hcaller
    · rw [Function.update_of_ne hne] at hcaller
      exact absurd (hw.holder j i hcaller hi) hne

theorem spent_poststart (hw : Fifo.Inv w) (hi : w.caller i = .poststart)
    (hstep : Fifo.callStep w i = some w') : Spent w' := by
  simp only [Fifo.callStep, hi, Option.some.injEq] at hstep
  rw [← hstep]
  exact spent_holder hw (by rw [hi]; rfl) (fun _ => rfl) (Or.inl rfl)

theorem spent_drop (hw : Fifo.Inv w) (hi : w.caller i = .poststart)
    (hpoint : point.holds = false) : Spent (w.drop i point) := by
  have hnever : point.holds = true → point = .ok := by simp [hpoint]
  exact spent_holder hw (by rw [hi]; rfl) hnever (Fifo.buffer_close _ _)

end spent

/-! ## Start and release -/

section tidy
variable {ι : Type} [DecidableEq ι] {c : Commands.Setup ι} {x x' : Commands.World ι}
  {event : Commands.Event ι} {i j : Option ι} {stage : Commands.Stage}
  {fifo : Fifo.World (Option ι)} {stateFile : Bool} {phase : Phase} {index : Nat}

def Foreground (c : Commands.Setup ι) : Prop := ∃ keep, c.origin = .run false keep

/-- Where the release of a command is while the command is somewhere. -/
def Agrees (c : Commands.Setup ι) (i : Option ι) (point : Fifo.Point) : Commands.Stage → Prop
  | .load => point.over = false ∧ point ≠ .poststart
  | .release => point.over = false ∧ point ≠ .poststart
  | .poststart => point = .poststart
  | .supervise => i = none ∧ Foreground c ∧ point = .ok
  | .poststop _ => i = none → Foreground c ∧ point = .ok
  | .remove _ => i = none → Foreground c ∧ point = .ok
  | .done _ => True
  | .died => True

/-- A release passes the poststart hooks before it is over. -/
theorem released_agrees (hne : x.fifo.caller i ≠ .poststart)
    (hfifo : Fifo.callStep x.fifo i = some fifo) :
    Agrees c i (fifo.caller i) (Commands.released (fifo.caller i)) := by
  have hpoint : fifo.caller i ≠ .ok ∧ fifo.caller i ≠ .died := by
    unfold Fifo.callStep at hfifo
    repeat' split at hfifo
    all_goals first
      | cases hfifo; done
      | contradiction
      | (rw [← Option.some.inj hfifo]
         simp [Fifo.World.setCaller, Fifo.World.fail, Fifo.World.drop])
  cases hcaller : fifo.caller i with
  | ok => exact absurd hcaller hpoint.1
  | died => exact absurd hcaller hpoint.2
  | poststart => rfl
  | failed error => trivial
  | _ => exact ⟨rfl, by simp⟩

theorem Goes.agrees (h : Goes c x i event stage fifo stateFile)
    (hx : Agrees c i (x.fifo.caller i) (x.stage i)) : Agrees c i (fifo.caller i) stage := by
  cases h with
  | found hstage =>
      rw [hstage] at hx
      exact hx
  | takes hstage htakes =>
      cases i with
      | none => cases htakes
      | some name => exact nofun
  | refused => trivial
  | release hstage hfifo =>
      rw [hstage] at hx
      exact released_agrees hx.2 hfifo
  | poststart hstage hfifo =>
      rw [hstage] at hx
      have hpoint : x.fifo.caller i = .poststart := hx
      simp only [Fifo.callStep, hpoint, Option.some.injEq] at hfifo
      rw [← hfifo]
      cases i with
      | some name => trivial
      | none =>
          have hok : (x.fifo.setCaller none .ok).caller none = .ok := by
            simp [Fifo.World.setCaller]
          cases horigin : c.origin with
          | create => simp only [Commands.afterPoststart, horigin, Agrees]
          | run detach keep =>
              cases detach with
              | true => simp only [Commands.afterPoststart, horigin, Agrees]
              | false =>
                  simp only [Commands.afterPoststart, horigin, Agrees]
                  exact ⟨trivial, ⟨keep, horigin⟩, hok⟩
  | ended hstage =>
      rw [hstage] at hx
      exact fun _ => hx.2
  | stopped hstage =>
      rw [hstage] at hx
      exact hx
  | _ => trivial

/-- What holds of the commands whatever they are. -/
structure Tidy (c : Commands.Setup ι) (x : Commands.World ι) : Prop where
  fifo : Fifo.Inv x.fifo
  agrees : ∀ i, Agrees c i (x.fifo.caller i) (x.stage i)
  started : ∀ index, (Phase.startContainer, index) ∈ x.ran →
    x.fifo.init = .unblock ∨ x.fifo.init = .execve ∨ x.fifo.init = .program ∨ x.fifo.init = .dead
  released : ∀ index, (Phase.poststart, index) ∈ x.ran → Spent x.fifo
  later : ∀ hook ∈ x.ran, hook.1 ∉ early

omit [DecidableEq ι] in
theorem tidy_start (c : Commands.Setup ι) : Tidy c (Commands.start c (.ok ())) where
  fifo := Fifo.inv_created _ _ _
  agrees := by
    intro i
    cases i with
    | some name => exact ⟨rfl, by intro hpoint; cases hpoint⟩
    | none =>
        cases horigin : c.origin with
        | create => simp only [Commands.start, horigin, Agrees]
        | run detach keep =>
            simp only [Commands.start, horigin, Agrees]
            exact ⟨rfl, by intro hpoint; cases hpoint⟩
  started := by
    intro index hran
    cases hran
  released := by
    intro index hran
    cases hran
  later := by
    intro hook hran
    cases hran

theorem ran_of_step (h : Commands.step c x event = some x') (hmem : (phase, index) ∈ x'.ran) :
    (phase, index) ∈ x.ran ∨ Commands.Runs x event phase := by
  rcases Commands.step_ran h with hsame | ⟨other, indices, hruns, -, hran⟩
  · exact Or.inl (hsame ▸ hmem)
  · rw [hran] at hmem
    rcases List.mem_append.mp hmem with hold | hnew
    · exact Or.inl hold
    · obtain ⟨i, -, heq⟩ := List.mem_map.mp hnew
      exact Or.inr ((Prod.mk.inj heq).1 ▸ hruns)

theorem Goes.inv (h : Goes c x i event stage fifo stateFile) (hx : Tidy c x) : Fifo.Inv fifo := by
  have hgiven : x.stage i = .release ∨ x.stage i = .poststart → x.fifo.caller i ≠ .ok := by
    intro hstage hok
    have hagrees := hx.agrees i
    rcases hstage with hstage | hstage
    · rw [hstage, hok] at hagrees
      exact nomatch hagrees.1
    · rw [hstage, hok] at hagrees
      cases hagrees
  cases h with
  | release _ hfifo => exact Fifo.callStep_inv hx.fifo hfifo
  | poststart _ hfifo => exact Fifo.callStep_inv hx.fifo hfifo
  | removed =>
      have hw := hx.fifo
      exact ⟨hw.written, hw.unwritten, hw.single, hw.buffered, hw.holder, hw.poststarts,
        hw.executed, hw.readers, hw.met, hw.running⟩
  | releaseFails hstage => exact hx.fifo.drop (hgiven hstage) rfl
  | releaseDies hstage => exact hx.fifo.drop (hgiven hstage) rfl
  | _ => exact hx.fifo

theorem Goes.init (h : Goes c x i event stage fifo stateFile) : fifo.init = x.fifo.init := by
  cases h with
  | release _ hfifo => exact (Fifo.callStep_init hfifo).1
  | poststart _ hfifo => exact (Fifo.callStep_init hfifo).1
  | _ => rfl

theorem Goes.spent (h : Goes c x i event stage fifo stateFile) (hx : Spent x.fifo) :
    Spent fifo := by
  cases h with
  | release _ hfifo => exact hx.callStep hfifo
  | poststart _ hfifo => exact hx.callStep hfifo
  | removed => exact ⟨hx.wrote, hx.empty, hx.passed⟩
  | releaseFails => exact hx.drop rfl
  | releaseDies => exact hx.drop rfl
  | _ => exact hx

/-- Where the poststart hooks are executed the byte is spent. -/
theorem Goes.spends (h : Goes c x i event stage fifo stateFile) (hx : Tidy c x)
    (hruns : Commands.Runs x event .poststart) : Spent fifo := by
  have hcaller : x.stage i = .poststart → x.fifo.caller i = .poststart := by
    intro hstage
    have hagrees := hx.agrees i
    rw [hstage] at hagrees
    exact hagrees
  cases hruns with
  | poststart hstage =>
      cases h with
      | poststart _ hfifo => exact spent_poststart hx.fifo (hcaller hstage) hfifo
      | found hother | takes hother | refused hother | release hother | ended hother
      | stopped hother | kept hother | removed hother =>
          exact absurd (hstage.symm.trans hother) nofun
  | poststartDies hstage =>
      cases h with
      | releaseDies => exact spent_drop hx.fifo (hcaller hstage) rfl
      | earlyDies hother => exact absurd (hstage ▸ hother) (by simp)
      | endDies hother =>
          rw [hstage] at hother
          cases hother

omit [DecidableEq ι] in
theorem runs_late (h : Commands.Runs x event phase) : phase ∉ early := by
  cases h <;> decide

/-- A hook that init executes is behind it then. -/
theorem runs_startContainer (h : Commands.step c x event = some x')
    (hruns : Commands.Runs x event .startContainer) :
    x'.fifo.init = .unblock ∨ x'.fifo.init = .dead := by
  have hinits : x.fifo.init = .startContainer → event.caller = none →
      x'.fifo.init = .unblock ∨ x'.fifo.init = .dead := by
    intro hinit hcaller
    obtain ⟨hmove | hexit, -, -⟩ := step_init h hcaller
    · simp only [Fifo.initStep, hinit, Option.some.injEq] at hmove
      exact Or.inl (hmove ▸ rfl)
    · exact Or.inr (hexit ▸ rfl)
  cases hruns with
  | startContainer hinit => exact hinits hinit rfl
  | startContainerDies hinit => exact hinits hinit rfl

theorem init_later {w w' : Fifo.World (Option ι)} (hmove : Fifo.initStep w = some w' ∨
    w' = w.initExit) (hw : w.init = .unblock ∨ w.init = .execve ∨ w.init = .program ∨
    w.init = .dead) :
    w'.init = .unblock ∨ w'.init = .execve ∨ w'.init = .program ∨ w'.init = .dead := by
  rcases hmove with hmove | hexit
  · rcases hw with hinit | hinit | hinit | hinit <;>
      simp only [Fifo.initStep, hinit, Option.some.injEq, reduceCtorEq] at hmove
    · exact Or.inr (Or.inl (hmove ▸ rfl))
    · exact Or.inr (Or.inr (Or.inl (hmove ▸ rfl)))
  · exact Or.inr (Or.inr (Or.inr (hexit ▸ rfl)))

theorem Tidy.step (hx : Tidy c x) (h : Commands.step c x event = some x') : Tidy c x' := by
  have hlater : ∀ hook ∈ x'.ran, hook.1 ∉ early := by
    intro hook hmem
    rcases ran_of_step h hmem with hold | hruns
    · exact hx.later hook hold
    · exact runs_late hruns
  cases hcaller : event.caller with
  | some i =>
      obtain ⟨stage, hgoes, hstage⟩ := step_goes h hcaller
      refine ⟨hgoes.inv hx, ?_, ?_, ?_, hlater⟩
      · intro j
        rw [hstage]
        by_cases hne : j = i
        · subst hne
          rw [Function.update_self]
          exact hgoes.agrees (hx.agrees j)
        · rw [Function.update_of_ne hne, hgoes.caller_other hne]
          exact hx.agrees j
      · intro index hmem
        rw [hgoes.init]
        rcases ran_of_step h hmem with hold | hruns
        · exact hx.started index hold
        · cases hruns <;> cases hcaller
      · intro index hmem
        rcases ran_of_step h hmem with hold | hruns
        · exact hgoes.spent (hx.released index hold)
        · exact hgoes.spends hx hruns
  | none =>
      obtain ⟨hmove, hstage, -⟩ := step_init h hcaller
      have hfifo : x'.fifo.caller = x.fifo.caller := by
        rcases hmove with hmove | hexit
        · exact Fifo.initStep_caller hmove
        · exact hexit ▸ rfl
      refine ⟨?_, ?_, ?_, ?_, hlater⟩
      · rcases hmove with hmove | hexit
        · exact Fifo.initStep_inv hx.fifo hmove
        · exact hexit ▸ hx.fifo.initExit
      · rw [hstage, hfifo]
        exact hx.agrees
      · intro index hmem
        rcases ran_of_step h hmem with hold | hruns
        · exact init_later hmove (hx.started index hold)
        · rcases runs_startContainer h hruns with hinit | hinit
          · exact Or.inl hinit
          · exact Or.inr (Or.inr (Or.inr hinit))
      · intro index hmem
        rcases ran_of_step h hmem with hold | hruns
        · rcases hmove with hmove | hexit
          · exact (hx.released index hold).initStep hx.fifo hmove
          · exact hexit ▸ (hx.released index hold).initExit
        · cases hruns <;> cases hcaller

end tidy

/-! ## The end of the container -/

section stopping
variable {ι : Type} [DecidableEq ι] {c : Commands.Setup ι} {x x' : Commands.World ι}
  {event : Commands.Event ι} {i j : Option ι} {stage : Commands.Stage}
  {fifo : Fifo.World (Option ι)} {stateFile : Bool} {phase : Phase} {index : Nat}

/-- A foreground `run` has gone all its way. -/
def Through (c : Commands.Setup ι) (x : Commands.World ι) : Prop :=
  Foreground c ∧ (∃ result, x.stage none = .done result) ∧ x.fifo.caller none = .ok

/-- Nobody is at the container's end or has left it behind with the state there. -/
def Alone (c : Commands.Setup ι) (x : Commands.World ι) : Prop :=
  (∀ i, ¬Ending (x.stage i)) ∧ ¬Through c x

/-- Each command comes to the end alone, with the state still there, and goes
from the hooks to the removal. -/
def Careful (c : Commands.Setup ι) (x : Commands.World ι) : Commands.Event ι → Prop
  | .call i _ => match x.stage i with
      | .load => Takes c x i → Alone c x
      | .supervise => x.stateFile = true ∧ Alone c x
      | _ => True
  | .callFails i _ => match x.stage i with
      | .remove _ => i = none
      | _ => True
  | .callerDies i executed => match x.stage i with
      | .poststop _ => executed = 0
      | .remove _ => False
      | _ => True
  | _ => True

/-- One command at most is at the end, and where the hooks have been executed
it is past them, or the state is gone or was left by a foreground `run`. -/
structure Stopping (c : Commands.Setup ι) (x : Commands.World ι) : Prop where
  single : ∀ i j, Ending (x.stage i) → Ending (x.stage j) → i = j
  stopped : ∀ index, (Phase.poststop, index) ∈ x.ran → (∃ i result, x.stage i = .remove result) ∨
    (∀ i, ¬Ending (x.stage i)) ∧ (x.stateFile = false ∨ Through c x)

omit [DecidableEq ι] in
theorem stopping_start (c : Commands.Setup ι) : Stopping c (Commands.start c (.ok ())) where
  single := by
    intro i j hi
    exfalso
    cases i with
    | some name => exact hi
    | none => cases horigin : c.origin <;> simp [Commands.start, horigin, Ending] at hi
  stopped := nofun

theorem Through.step (hx : Through c x) (h : Commands.step c x event = some x') :
    Through c x' := by
  obtain ⟨hforeground, ⟨result, hdone⟩, hok⟩ := hx
  refine ⟨hforeground, ⟨result, Commands.done_stays hdone h⟩, ?_⟩
  cases hcaller : event.caller with
  | none =>
      rcases (step_init h hcaller).1 with hmove | hexit
      · rw [Fifo.initStep_caller hmove, hok]
      · rw [hexit]
        exact hok
  | some i =>
      have hne : none ≠ i := fun heq => Commands.done_caller hdone h (heq ▸ hcaller)
      obtain ⟨stage, hgoes, -⟩ := step_goes h hcaller
      rw [hgoes.caller_other hne, hok]

omit [DecidableEq ι] in
/-- Who executes the poststop hooks stands at the end. -/
theorem runs_poststop (hcaller : event.caller = some i)
    (hruns : Commands.Runs x event .poststop) : ∃ result, x.stage i = .poststop result := by
  cases hruns with
  | poststop hstage =>
      cases hcaller
      exact ⟨_, hstage⟩
  | poststopDies hstage =>
      cases hcaller
      exact ⟨_, hstage⟩

/-- A step away from the end changes nothing about it. -/
theorem Stopping.apart (hx : Stopping c x) (h : Commands.step c x event = some x')
    (hcaller : event.caller = some i) (hstage : x'.stage = Function.update x.stage i stage)
    (hfile : x'.stateFile = x.stateFile) (hbefore : ¬Ending (x.stage i)) (hafter : ¬Ending stage) :
    Stopping c x' := by
  have hsame : ∀ j, Ending (x'.stage j) ↔ Ending (x.stage j) := by
    intro j
    by_cases hne : j = i
    · rw [hstage, hne, Function.update_self]
      exact iff_of_false hafter hbefore
    · rw [hstage, Function.update_of_ne hne]
  constructor
  · intro j k hj hk
    exact hx.single j k ((hsame j).mp hj) ((hsame k).mp hk)
  · intro index hmem
    rcases ran_of_step h hmem with hold | hruns
    · rcases hx.stopped index hold with ⟨j, result, hj⟩ | ⟨hnone, hover⟩
      · have hne : j ≠ i := by
          rintro rfl
          exact hbefore (by rw [hj]; trivial)
        exact Or.inl ⟨j, result, by rw [hstage, Function.update_of_ne hne, hj]⟩
      · refine Or.inr ⟨fun j hj => hnone j ((hsame j).mp hj), ?_⟩
        rcases hover with hgone | hthrough
        · exact Or.inl (hfile.trans hgone)
        · exact Or.inr (hthrough.step h)
    · obtain ⟨result, hi⟩ := runs_poststop hcaller hruns
      exact absurd (by rw [hi]; trivial) hbefore

/-- Who comes to the end alone is the first to do so. -/
theorem Stopping.enters (hx : Stopping c x) (h : Commands.step c x event = some x')
    (hcaller : event.caller = some i) (hstage : x'.stage = Function.update x.stage i stage)
    (hfile : x.stateFile = true) (halone : Alone c x) : Stopping c x' := by
  have honly : ∀ j, Ending (x'.stage j) → j = i := by
    intro j hj
    by_contra hne
    rw [hstage, Function.update_of_ne hne] at hj
    exact halone.1 j hj
  constructor
  · intro j k hj hk
    rw [honly j hj, honly k hk]
  · intro index hmem
    exfalso
    rcases ran_of_step h hmem with hold | hruns
    · rcases hx.stopped index hold with ⟨j, result, hj⟩ | ⟨-, hgone | hthrough⟩
      · exact halone.1 j (by rw [hj]; trivial)
      · cases hfile.symm.trans hgone
      · exact halone.2 hthrough
    · obtain ⟨result, hi⟩ := runs_poststop hcaller hruns
      exact halone.1 i (by rw [hi]; trivial)

/-- Who leaves the end was the last there. -/
theorem Stopping.leaves (hx : Stopping c x) (hstage : x'.stage = Function.update x.stage i stage)
    (hbefore : Ending (x.stage i)) (hafter : ¬Ending stage)
    (hover : (∀ index, (Phase.poststop, index) ∉ x'.ran) ∨ x'.stateFile = false ∨ Through c x') :
    Stopping c x' := by
  have hnone : ∀ j, ¬Ending (x'.stage j) := by
    intro j hj
    by_cases hne : j = i
    · rw [hstage, hne, Function.update_self] at hj
      exact hafter hj
    · rw [hstage, Function.update_of_ne hne] at hj
      exact hne (hx.single j i hj hbefore)
  constructor
  · intro j k hj
    exact absurd hj (hnone j)
  · intro index hmem
    rcases hover with hfresh | hover
    · exact absurd hmem (hfresh index)
    · exact Or.inr ⟨hnone, hover⟩

omit [DecidableEq ι] in
/-- Before the hooks are executed they have not been. -/
theorem Stopping.fresh {result : Except Error Nat} (hx : Stopping c x)
    (hi : x.stage i = .poststop result) : (Phase.poststop, index) ∉ x.ran := by
  intro hmem
  have hending : Ending (x.stage i) := by rw [hi]; trivial
  rcases hx.stopped index hmem with ⟨j, other, hj⟩ | ⟨hnone, -⟩
  · obtain rfl := hx.single i j hending (by rw [hj]; trivial)
    cases hi.symm.trans hj
  · exact hnone i hending

/-- A foreground `run` that does not remove the state is through. -/
theorem Tidy.through {result other : Except Error Nat} (hx : Tidy c x)
    (hi : x.stage none = .remove result)
    (hstage : x'.stage = Function.update x.stage none (.done other))
    (hfifo : x'.fifo = x.fifo) : Through c x' := by
  have hagrees := hx.agrees none
  rw [hi] at hagrees
  obtain ⟨hforeground, hok⟩ := hagrees rfl
  refine ⟨hforeground, ⟨other, ?_⟩, hfifo ▸ hok⟩
  rw [hstage, Function.update_self]

omit [DecidableEq ι] in
theorem takes_found (h : Takes c x i) : x.stateFile = true := by
  unfold Takes at h
  split at h
  · cases h
  · split at h
    · cases h
    · exact h.1

omit [DecidableEq ι] in
theorem keeps_none (h : Commands.keeps c i = true) : i = none := by
  cases i with
  | none => rfl
  | some name => cases h

/-- The one at the end goes on from the hooks to the removal. -/
theorem Stopping.stops {result : Except Error Nat} (hx : Stopping c x)
    (hi : x.stage i = .poststop result)
    (hstage : x'.stage = Function.update x.stage i (.remove result)) : Stopping c x' := by
  have hending : ∀ j, Ending (x'.stage j) → Ending (x.stage j) := by
    intro j hj
    by_cases hne : j = i
    · rw [hne, hi]
      trivial
    · rwa [hstage, Function.update_of_ne hne] at hj
  constructor
  · intro j k hj hk
    exact hx.single j k (hending j hj) (hending k hk)
  · exact fun _ _ => Or.inl ⟨i, result, by rw [hstage, Function.update_self]⟩

theorem not_ending_released (point : Fifo.Point) : ¬Ending (Commands.released point) := by
  cases point <;> exact id

omit [DecidableEq ι] in
theorem not_ending_afterPoststart (c : Commands.Setup ι) (i : Option ι) :
    ¬Ending (Commands.afterPoststart c i) := by
  unfold Commands.afterPoststart
  split
  · split <;> exact id
  · exact id

/-- A command that dies before its first hook executes none. -/
theorem ran_callerDies (h : Commands.step c x (.callerDies i 0) = some x') : x'.ran = x.ran := by
  simp only [Commands.step, Commands.callerDies, List.take_zero] at h
  split at h <;> cases h <;> simp [Commands.World.executes, Commands.World.setStage]

/-- No careful step executes a poststop hook twice. -/
theorem Stopping.step (hx : Stopping c x) (htidy : Tidy c x) (hcareful : Careful c x event)
    (h : Commands.step c x event = some x') : Stopping c x' := by
  cases hcaller : event.caller with
  | none =>
      obtain ⟨-, hstage, hfile⟩ := step_init h hcaller
      constructor
      · rw [hstage]
        exact hx.single
      · intro index hmem
        rcases ran_of_step h hmem with hold | hruns
        · rw [hstage, hfile]
          rcases hx.stopped index hold with hremoving | ⟨hnone, hgone | hthrough⟩
          · exact Or.inl hremoving
          · exact Or.inr ⟨hnone, Or.inl hgone⟩
          · exact Or.inr ⟨hnone, Or.inr (hthrough.step h)⟩
        · cases hruns <;> cases hcaller
  | some i =>
      obtain ⟨stage, hgoes, hstage⟩ := step_goes h hcaller
      have hapart : ∀ {before after}, x.stage i = before → ¬Ending before →
          x'.stage = Function.update x.stage i after → ¬Ending after →
          x'.stateFile = x.stateFile → Stopping c x' := by
        intro before after hbefore hnot hafter hnot' hfile
        exact hx.apart h hcaller hafter hfile (hbefore ▸ hnot) hnot'
      generalize hfifo : x'.fifo = fifo, hfile : x'.stateFile = stateFile at hgoes
      cases hgoes with
      | found hi => exact hapart hi id hstage id hfile
      | takes hi htakes =>
          simp only [Careful, hi] at hcareful
          exact hx.enters h hcaller hstage (takes_found htakes) (hcareful htakes)
      | refused hi => exact hapart hi id hstage id hfile
      | release hi => exact hapart hi id hstage (not_ending_released _) hfile
      | poststart hi => exact hapart hi id hstage (not_ending_afterPoststart c i) hfile
      | ended hi =>
          simp only [Careful, hi] at hcareful
          exact hx.enters h hcaller hstage hcareful.1 hcareful.2
      | stopped hi => exact hx.stops hi hstage
      | kept hi hkeeps =>
          obtain rfl := keeps_none hkeeps
          exact hx.leaves hstage (by rw [hi]; trivial) id
            (Or.inr (Or.inr (htidy.through hi hstage hfifo)))
      | removed hi => exact hx.leaves hstage (by rw [hi]; trivial) id (Or.inr (Or.inl hfile))
      | releaseFails hi =>
          rcases hi with hi | hi <;> exact hapart hi id hstage id hfile
      | loadFails hi => exact hapart hi id hstage id hfile
      | endFails hi =>
          cases hend : x.stage i with
          | poststop result =>
              refine hx.leaves hstage hi id (Or.inl fun index hmem => ?_)
              rcases ran_of_step h hmem with hold | hruns
              · exact hx.fresh hend hold
              · cases hruns
          | remove result =>
              simp only [Careful, hend] at hcareful
              subst hcareful
              exact hx.leaves hstage hi id (Or.inr (Or.inr (htidy.through hend hstage hfifo)))
          | _ => simp [hend, Ending] at hi
      | releaseDies hi =>
          rcases hi with hi | hi <;> exact hapart hi id hstage id hfile
      | earlyDies hi =>
          rcases hi with hi | hi <;> exact hapart hi id hstage id hfile
      | @endDies executed hi =>
          cases hend : x.stage i with
          | poststop result =>
              simp only [Careful, hend] at hcareful
              subst hcareful
              refine hx.leaves hstage hi id (Or.inl fun index hmem => ?_)
              rw [ran_callerDies h] at hmem
              exact hx.fresh hend hmem
          | remove result =>
              simp only [Careful, hend] at hcareful
          | _ => simp [hend, Ending] at hi

end stopping

/-! ## Once -/

section once
variable {ι : Type} [DecidableEq ι] {c : Commands.Setup ι} {x x' : Commands.World ι}
  {event : Commands.Event ι} {events : List (Commands.Event ι)}

/-- No hook of a phase that the step executes has been executed. -/
def Fresh (x : Commands.World ι) (event : Commands.Event ι) : Prop :=
  ∀ phase, Commands.Runs x event phase → ∀ index, (phase, index) ∉ x.ran

theorem nodup_step (hx : x.ran.Nodup) (hfresh : Fresh x event)
    (h : Commands.step c x event = some x') : x'.ran.Nodup := by
  rcases Commands.step_ran h with hsame | ⟨phase, indices, hruns, hexecutes, hran⟩
  · exact hsame ▸ hx
  · rw [hran]
    have hnew : (indices.map fun index => (phase, index)).Nodup :=
      (hexecutes.sublist.nodup List.nodup_range).map fun _ _ heq => (Prod.mk.inj heq).2
    apply hx.append hnew
    rintro ⟨other, index⟩ hold hmem
    obtain ⟨_, -, heq⟩ := List.mem_map.mp hmem
    obtain ⟨rfl, -⟩ := Prod.mk.inj heq
    exact hfresh _ hruns index hold

omit [DecidableEq ι] in
theorem Tidy.poststart_fresh (hx : Tidy c x) {i : Option ι} (hi : x.stage i = .poststart)
    (index : Nat) : (Phase.poststart, index) ∉ x.ran := by
  intro hmem
  have hagrees := hx.agrees i
  rw [hi] at hagrees
  have hcaller : x.fifo.caller i = .poststart := hagrees
  cases hcaller.symm.trans ((hx.released index hmem).passed i (by rw [hcaller]; rfl))

omit [DecidableEq ι] in
theorem Tidy.startContainer_fresh (hx : Tidy c x) (hinit : x.fifo.init = .startContainer)
    (index : Nat) : (Phase.startContainer, index) ∉ x.ran := by
  intro hmem
  have hlater := hx.started index hmem
  rw [hinit] at hlater
  simp at hlater

omit [DecidableEq ι] in
theorem fresh (hx : Tidy c x) (hstop : ∀ i result, x.stage i = .poststop result →
    ∀ index, (Phase.poststop, index) ∉ x.ran) (event : Commands.Event ι) : Fresh x event := by
  intro phase hruns
  cases hruns with
  | poststart hi => exact hx.poststart_fresh hi
  | poststartDies hi => exact hx.poststart_fresh hi
  | poststop hi => exact hstop _ _ hi
  | poststopDies hi => exact hstop _ _ hi
  | startContainer hinit => exact hx.startContainer_fresh hinit
  | startContainerDies hinit => exact hx.startContainer_fresh hinit

theorem commands_once (h : Transition.run (Commands.step c) (Commands.start c (.ok ())) events =
      some x)
    (hcareful : selected c.hooks .poststop ≠ [] →
      Transition.Along (Commands.step c) (Careful c) (Commands.start c (.ok ())) events) :
    x.ran.Nodup := by
  by_cases hnone : selected c.hooks .poststop = []
  · -- without poststop hooks none is executed
    have hboth := @Transition.run_invariant _ _ _ (fun x => Tidy c x ∧
      (∀ hook ∈ x.ran, hook.2 < (selected c.hooks hook.1).length) ∧ x.ran.Nodup) ?_ _ _ _
      ⟨tidy_start c, nofun, List.nodup_nil⟩ h
    · exact hboth.2.2
    · rintro x event x' ⟨htidy, hbounded, hnodup⟩ hstep
      have hfresh := fresh htidy (fun i result _ index hmem => by
        have hindex := hbounded _ hmem
        simp [hnone] at hindex) event
      exact ⟨htidy.step hstep, Commands.bounded_step hbounded hstep,
        nodup_step hnodup hfresh hstep⟩
  · have hboth := @Transition.run_invariant_along _ _ _
      (fun x => Tidy c x ∧ Stopping c x ∧ x.ran.Nodup) (Careful c) ?_ _ _ _
      ⟨tidy_start c, stopping_start c, List.nodup_nil⟩ h (hcareful hnone)
    · exact hboth.2.2
    · rintro x event x' ⟨htidy, hstopping, hnodup⟩ hevent hstep
      have hfresh := fresh htidy (fun _ _ hi _ => hstopping.fresh hi) event
      exact ⟨htidy.step hstep, hstopping.step htidy hevent hstep, nodup_step hnodup hfresh hstep⟩

theorem commands_late (h : Transition.run (Commands.step c) (Commands.start c (.ok ())) events =
    some x) : ∀ hook ∈ x.ran, hook.1 ∉ early :=
  (@Transition.run_invariant _ _ _ (Tidy c) (fun _ _ _ hx hstep => hx.step hstep) _ _ _
    (tidy_start c) h).later

/-- No hook is executed twice over a container's life in which each command
comes to its end alone, or in which there are no hooks for the end. -/
theorem hooks_once {s : Setting} {outcomes : Outcomes} {w : Protocol.World}
    (h : Life s outcomes c w events x)
    (hcareful : selected c.hooks .poststop ≠ [] →
      Transition.Along (Commands.step c) (Careful c) (Commands.start c (.ok ())) events) :
    (createHooks w ++ x.ran).Nodup := by
  obtain ⟨dir, creation, hcreation⟩ := h.created
  have hcreate := createHooks_nodup (whole_hooked hcreation).stepwise
  apply hcreate.append (commands_once h.commands hcareful)
  intro hook hleft hright
  have hearly : hook.1 ∈ early := by simpa using (List.mem_filter.mp hleft).2
  exact commands_late h.commands hook hright hearly

end once

/-! ## A container kept, and deleted later -/

def trueHook : Hook where
  path := "/bin/true"
  args := none
  env := none
  timeout := none

/-- A hook before and after the life of the program. -/
def bothEnds : Hooks where
  prestart := none
  createRuntime := some [trueHook]
  createContainer := none
  startContainer := some [trueHook]
  poststart := some [trueHook]
  poststop := some [trueHook]

def endsSetting : Setting :=
  { Placement.userSetting with
    plan := { Placement.userPlan with
      bundle := { dir := "/bundle", spec := { Placement.emptySpec with hooks := some bothEnds } } } }

def allPass : Outcomes := fun _ _ => none

open Placement in
def creation : List Protocol.Event :=
  acts .parent 14 ++ acts .intermediate 3 ++ acts .parent 6 ++ acts .intermediate 6 ++
    acts .parent 6 ++ acts .init 8 ++ acts .parent 5

theorem creation_enabled : (Transition.run (hookedStep endsSetting allPass)
    (Protocol.start endsSetting false false) creation).isSome = true := by rfl

def created : Protocol.World := Option.get _ creation_enabled

/-- A `run` or a `create`, with one other command. -/
def pair (origin : Commands.Origin) (other : Commands.Command) : Commands.Setup Unit where
  hooks := some bothEnds
  outcomes := allPass
  origin := origin
  command := fun _ => other
  id := "c1"
  path := "/run/mars/c1/exec.fifo"

def answer : Commands.Answer := { bundle := true, outcome := .ok 0 }

def own : Commands.Event Unit := .call none answer
def others : Commands.Event Unit := .call (some ()) answer

/-- The foreground `run` comes to its end. -/
def foregroundRun : List (Commands.Event Unit) :=
  [own, own, own, .init, own, .init, .init, own, .init, own, .init, own, .init, .init,
    .initDies 0, own, own, own]

theorem life_of {c : Commands.Setup Unit} {events : List (Commands.Event Unit)}
    (hhooks : c.hooks = some bothEnds) (houtcomes : c.outcomes = allPass)
    (h : (Transition.run (Commands.step c) (Commands.start c (.ok ())) events).isSome = true) :
    Life endsSetting allPass c created events (Option.get _ h) where
  created := ⟨false, creation, (Option.some_get creation_enabled).symm⟩
  returned := rfl
  hooks := hhooks
  outcomes := houtcomes
  commands := (Option.some_get h).symm

def keptThenDeleted : List (Commands.Event Unit) := foregroundRun ++ [others, others, others]

theorem keptThenDeleted_enabled : (Transition.run (Commands.step (pair (.run false true)
    (.delete false))) (Commands.start (pair (.run false true) (.delete false)) (.ok ()))
      keptThenDeleted).isSome = true := by rfl

/-- `run --keep` executes the poststop hook, and so does the `delete` that follows. -/
theorem poststop_twice : Life endsSetting allPass (pair (.run false true) (.delete false)) created
      keptThenDeleted (Option.get _ keptThenDeleted_enabled) ∧
    createHooks created ++ (Option.get _ keptThenDeleted_enabled).ran =
      [(.createRuntime, 0), (.startContainer, 0), (.poststart, 0), (.poststop, 0),
        (.poststop, 0)] ∧
    ¬(createHooks created ++ (Option.get _ keptThenDeleted_enabled).ran).Nodup := by
  have hran : createHooks created ++ (Option.get _ keptThenDeleted_enabled).ran =
      [(.createRuntime, 0), (.startContainer, 0), (.poststart, 0), (.poststop, 0),
        (.poststop, 0)] := by rfl
  refine ⟨life_of rfl rfl _, hran, ?_⟩
  rw [hran]
  decide

/-- The container is created, started and, once it has stopped, deleted. -/
def startedThenDeleted : List (Commands.Event Unit) :=
  foregroundRun.take 15 ++ [others, others, others]

theorem startedThenDeleted_enabled : (Transition.run (Commands.step (pair (.run true false)
    (.delete false))) (Commands.start (pair (.run true false) (.delete false)) (.ok ()))
      startedThenDeleted).isSome = true := by rfl

theorem hooks_once_detached : (createHooks created ++
    (Option.get _ startedThenDeleted_enabled).ran).Nodup := by
  refine hooks_once (life_of rfl rfl startedThenDeleted_enabled) fun _ => ?_
  refine ⟨fun htakes => htakes.elim, trivial, trivial, trivial, trivial, trivial, trivial, trivial,
    trivial, trivial, trivial, trivial, trivial, trivial, trivial, fun _ => ⟨?_, ?_⟩, trivial,
    trivial, trivial⟩
  · intro i
    cases i with
    | none => exact id
    | some name => exact id
  · rintro ⟨⟨keep, horigin⟩, -⟩
    cases horigin

end Mars.HooksOnce
