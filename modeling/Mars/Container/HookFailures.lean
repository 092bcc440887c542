import Mars.Container.FailedCreate
import Mars.Container.Progress
import Mars.Container.Returning

/-! # A fatal hook of a create fails

A failing hook of the runtime's own leads straight to the clean-up. A failing
hook in init ends it before it is ready, and the runtime, which waits for just
that, reads the report or finds the socket closed. Either way `create` comes to
its end, and with an error.
-/

namespace Mars.Protocol
open Spec Namespace Hooks Sync History

/-! ## Where the runtime waits -/

section waiting
variable {s : Setting} {w : World} {op : Op}

/-- A receive of the runtime's. -/
def Op.Receives (op : Op) : Prop :=
  op = .prepare .recv ∨ op = .mapping .recv ∨ op = .settle .expectInitReady

theorem recv_blocked {mayMap : Bool} (h : recvInitPid s w mayMap = .blocked) :
    w.toParent = [] ∧ w.childOpen = true := by
  unfold recvInitPid at h
  split at h
  next hqueue =>
    split at h
    next hopen => exact ⟨hqueue, hopen⟩
    next => cases h
  next message rest hqueue =>
    cases message with
    | requestUserMapping =>
        dsimp only at h
        split at h <;> cases h
    | _ => cases h

theorem expectFromChild_blocked {want : Want} (h : expectFromChild w want = .blocked) :
    w.toParent = [] ∧ w.childOpen = true := by
  unfold expectFromChild at h
  split at h
  next hqueue =>
    split at h
    next hopen => exact ⟨hqueue, hopen⟩
    next => cases h
  next => split at h <;> cases h

/-- The runtime waits for a message, for the intermediate to be reaped or for
the killed init to leave the cgroup. -/
theorem blocked_parent (h : perform s w .parent op = .blocked)
    (hop : (∃ st, op.stage = some st ∧ st.owner = .parent) ∨ ∃ c, op = .cleanup c) :
    op.Receives ∧ w.toParent = [] ∧ w.childOpen = true ∨
      op = .settle .waitIntermediate ∧ (w.party .intermediate).life ≠ .exited ∨
      op = .cleanup .teardownWait ∧ (w.party .init).killed = true ∧
        (w.party .init).life = .running := by
  have hsend : ∀ m, sendToChild w m ≠ .blocked := by
    intro m
    unfold sendToChild
    split <;> nofun
  cases op with
  | prepare op =>
      cases op with
      | recv => exact Or.inl ⟨Or.inl rfl, recv_blocked h⟩
      | checkState =>
          simp only [perform, performPrepare] at h
          split at h <;> cases h
      | checkOverlayNamespace =>
          simp only [perform, performPrepare] at h
          split at h <;> cases h
      | _ => cases h
  | mapping op =>
      cases op with
      | recv => exact Or.inl ⟨Or.inr (Or.inl rfl), recv_blocked h⟩
      | sendUserMappingDone => exact absurd h (hsend _)
      | _ => cases h
  | settle op =>
      cases op with
      | waitIntermediate =>
          simp only [perform, performSettle] at h
          split at h
          next => cases h
          next hlife => exact Or.inr (Or.inl ⟨rfl, hlife⟩)
      | expectInitReady => exact Or.inl ⟨Or.inr (Or.inr rfl), expectFromChild_blocked h⟩
      | sendCgroupApplied pid => exact absurd h (hsend _)
      | _ => cases h
  | cleanup op =>
      cases op with
      | teardownWait =>
          simp only [perform, performCleanup] at h
          split at h
          next hkilled => exact Or.inr (Or.inr ⟨rfl, hkilled⟩)
          next => cases h
      | teardownKill =>
          simp only [perform, performCleanup] at h
          split at h <;> cases h
      | _ => cases h
  | intermediate op =>
      rcases hop with ⟨st, hst, howner⟩ | ⟨c, hc⟩
      · cases hst
        cases howner
      · cases hc
  | init op =>
      rcases hop with ⟨st, hst, howner⟩ | ⟨c, hc⟩
      · cases hst
        cases howner
      · cases hc
  | failing op => simp [Op.stage] at hop
  | readerOpens => simp [Op.stage] at hop

end waiting

/-! ## A create that returns well -/

section created
variable {s : Setting} {w : World}

theorem returned_ok (h : w.returned = some (.ok ())) :
    (w.party .parent).ops = [] ∧ w.error = none := by
  unfold World.returned at h
  split at h
  next => cases h
  next hops =>
    split at h
    next => cases h
    next hnone => exact ⟨hops, hnone⟩

theorem Whole.closed (h : Whole s w) (hreturned : w.returned = some (.ok ())) :
    ⟨.settle .close, true⟩ ∈ w.log := by
  obtain ⟨hops, hnone⟩ := returned_ok hreturned
  rcases h.ending.finished hnone with hclose | ⟨x, hlast, -⟩
  · exact hclose
  · simp [hops] at hlast

open SettleOp in
def beforeClose (s : Setting) : List SettleOp :=
  placement s.plan s.initPid ++ [sendCgroupApplied s.initPid, expectInitReady,
    startTime s.initPid, save s.initPid, writePidFile s.initPid]

theorem close_not_mem_before (s : Setting) : .close ∉ beforeClose s := by
  intro hmem
  rcases List.mem_append.mp hmem with hmem | hmem
  · rcases mem_placement hmem with heq | heq | ⟨phase, heq | ⟨index, heq⟩⟩ <;> cases heq
  · simp at hmem

/-- Where the runtime has closed its channel everything else has been done. -/
theorem InOrder.settled (h : InOrder s w) (hclose : ⟨.settle .close, true⟩ ∈ w.log)
    {y : SettleOp} (hy : y ∈ beforeClose s) : ⟨.settle y, true⟩ ∈ w.log := by
  have hfront : beforeClose s <+: settleProgram s.plan s.initPid :=
    ⟨[.close], by simp [settleProgram, beforeClose]⟩
  have hfirst : Precedes w.log ⟨.settle y, true⟩ fun e => e.op = .settle .close := by
    apply h.across (hfront.map Op.settle : _ <+: program s .settle) rfl
    · rw [List.mem_map_of_injective fun _ _ => Op.settle.inj]
      exact close_not_mem_before s
    · exact List.mem_map_of_mem hy
  exact hfirst.mem hclose rfl

theorem InOrder.setup_done (h : InOrder s w) (hclose : ⟨.settle .close, true⟩ ∈ w.log)
    {y : InitOp} (hy : y ∈ setup s.plan ∨ y = .sendInitReady) : ⟨.init y, true⟩ ∈ w.log := by
  have hsave : ⟨.settle (.save s.initPid), true⟩ ∈ w.log :=
    h.settled hclose (by simp [beforeClose])
  exact (h.setup_first hy s.initPid).mem hsave rfl

end created

/-! ## The hooks of a create -/

/-- The hook that a step runs. -/
def Op.hook : Op → Option (Hooks.Phase × Nat)
  | .settle (.hook phase index) => some (phase, index)
  | .init (.hook phase index) => some (phase, index)
  | _ => none

/-- The phases that a create runs before it returns. -/
def early : List Hooks.Phase := [.prestart, .createRuntime, .createContainer]

def HookFailed (w : World) : Prop :=
  ∃ op phase index, op.hook = some (phase, index) ∧ phase ∈ early ∧ ⟨op, false⟩ ∈ w.log

section hooks
variable {s : Setting} {w w' : World} {op : Op} {phase : Hooks.Phase} {index : Nat}

theorem hook_stage (h : op.hook = some (phase, index)) :
    op = .settle (.hook phase index) ∨ op = .init (.hook phase index) := by
  unfold Op.hook at h
  split at h
  · cases h
    exact Or.inl rfl
  · cases h
    exact Or.inr rfl
  · cases h

theorem parked_hook {plan : Plan} (h : .hook phase index ∈ parkAndExec plan) :
    phase = .startContainer := by
  simp only [parkAndExec, List.mem_append, List.mem_cons, List.not_mem_nil, or_false] at h
  rcases h with ((h | h | h) | h) | h | h
  case inl.inr =>
    rcases mem_hookOps h with h | ⟨other, h⟩
    · cases h
    · cases h
      rfl
  all_goals cases h

/-- An early hook that failed in init keeps it from getting ready. -/
theorem Whole.not_ready (h : Whole s w) (hearly : phase ∈ early)
    (hfailed : ⟨.init (.hook phase index), false⟩ ∈ w.log) :
    ⟨.init .sendInitReady, true⟩ ∉ w.log := by
  intro hready
  have hmem : ∀ {x : InitOp} {ok}, ⟨.init x, ok⟩ ∈ w.log → ⟨.init x, ok⟩ ∈ w.attempted .init :=
    fun hx => List.mem_filter.mpr ⟨hx, by simp [Op.stage]⟩
  obtain ⟨front, back, hsplit, hfront⟩ :=
    (h.stepwise.attempts .init).failure_last (hmem hfailed) (hmem hready)
  have hprogram : program s .init = (setup s.plan).map .init ++ .init .sendInitReady ::
      (parkAndExec s.plan).map .init := by
    simp [program, containerInit]
  have hsetup : .init .sendInitReady ∉ (setup s.plan).map Op.init := by
    rw [List.mem_map_of_injective fun _ _ => Op.init.inj]
    intro hx
    cases setup_not_late _ _ hx
  -- what failed stands behind the report, and no early hook does
  have hbehind : .init (.hook phase index) ∈ (parkAndExec s.plan).map Op.init := by
    rw [hprogram] at hsplit
    rcases List.append_eq_append_iff.mp hsplit with ⟨middle, hmiddle, hback⟩ | ⟨middle, hsetup', -⟩
    · cases middle with
      | nil =>
          rw [List.append_nil] at hmiddle
          exact absurd (hmiddle ▸ hfront) hsetup
      | cons x rest =>
          simp only [List.cons_append, List.cons.injEq] at hback
          rw [hback.2]
          simp
    · exact absurd (hsetup' ▸ List.mem_append_left _ hfront) hsetup
  rw [List.mem_map_of_injective fun _ _ => Op.init.inj] at hbehind
  rw [parked_hook hbehind] at hearly
  simp [early] at hearly

end hooks

/-! ## The error comes back -/

/-- However its parties go on, `create` comes to its end with an error. -/
inductive Doomed (s : Setting) : World → Prop
  | returned {w : World} {error : Error} (h : w.returned = some (.error error)) : Doomed s w
  | next {w : World} (hmoves : ∃ w', Next s w' w) (h : ∀ w', Next s w' w → Doomed s w') :
      Doomed s w

section doomed
variable {s : Setting} {w w' : World} {op : Op} {rest : List Op} {phase : Hooks.Phase}
  {index : Nat}

theorem Settled.of_no_next (h : ¬∃ w', Next s w' w) : Settled s w := by
  intro who
  refine ⟨?_, ?_⟩
  · rw [Option.eq_none_iff_forall_ne_some]
    exact fun w' hstep => h ⟨w', .act who none hstep⟩
  · rw [Option.eq_none_iff_forall_ne_some]
    exact fun w' hstep => h ⟨w', .die who hstep⟩

/-- A clean-up that stands still is over. -/
theorem Whole.cleaned (h : Whole s w) (hsettled : Settled s w) (herror : w.error.isSome) :
    ∃ error, w.returned = some (.error error) := by
  have hnone : (w.party .parent).ops = [] := by
    cases hops : (w.party .parent).ops with
    | nil => rfl
    | cons op rest =>
        obtain ⟨c, rfl⟩ := h.cleaning.cleanup herror op (hops ▸ List.mem_cons_self)
        have hblocked := hsettled.blocked h.ending.running hops
        rcases blocked_parent hblocked (Or.inr ⟨c, rfl⟩) with
          ⟨hop, -⟩ | ⟨hop, -⟩ | ⟨-, hkilled, hlife⟩
        · rcases hop with hop | hop | hop <;> cases hop
        · cases hop
        · rw [setOps_killed] at hkilled
          rw [setOps_life] at hlife
          rw [hsettled.not_killed hlife] at hkilled
          cases hkilled
  obtain ⟨error, herror⟩ := Option.isSome_iff_exists.mp herror
  exact ⟨error, by simp [World.returned, hnone, herror]⟩

/-- After a failure init only reports and leaves, and waits for nothing. -/
theorem Whole.failed_init_gone (h : Whole s w) (hsettled : Settled s w) {x : InitOp}
    (hfailed : ⟨.init x, false⟩ ∈ w.log) (hready : ⟨.init .sendInitReady, true⟩ ∉ w.log) :
    (w.party .init).life ≠ .running := by
  intro hlife
  have hexecve : ⟨.init .execve, true⟩ ∉ w.log := by
    intro hmem
    have hfront : setup s.plan ++ [.sendInitReady] <+: containerInit s.plan :=
      ⟨parkAndExec s.plan, by simp [containerInit]⟩
    have hnot : Op.init .execve ∉ (setup s.plan ++ [InitOp.sendInitReady]).map Op.init := by
      rw [List.mem_map_of_injective fun _ _ => Op.init.inj]
      intro hx
      rcases List.mem_append.mp hx with hx | hx
      · cases setup_not_late _ _ hx
      · simp at hx
    have hfirst : Precedes w.log ⟨.init .sendInitReady, true⟩ fun e => e.op = .init .execve :=
      h.inOrder.across (hfront.map Op.init : _ <+: program s .init) rfl hnot (by simp)
    exact hready (hfirst.mem hmem rfl)
  obtain ⟨last, hlast, -⟩ := (h.children.ending .init (by decide) hlife).resolve_right hexecve
  cases hops : (w.party .init).ops with
  | nil => simp [hops] at hlast
  | cons op rest =>
      have hidle : op.Idle := by
        cases hstage : op.stage with
        | none => exact hstage
        | some st =>
            have hreached := h.stepwise.current .init op rest st hops hstage
            have howner : st = .init := by
              have := (h.inOrder.progress hops hstage).1
              cases st <;> first | rfl | cases this
            subst howner
            have hmem : ⟨.init x, false⟩ ∈ w.attempted .init :=
              List.mem_filter.mpr ⟨hfailed, by simp [Op.stage]⟩
            cases hreached.succeeded hmem
      obtain ⟨f, rfl⟩ := h.children.own .init (by decide) op (hops ▸ List.mem_cons_self) hidle
      have hblocked := hsettled.blocked hlife hops
      rcases blocked_child hblocked (Or.inr (Or.inr ⟨f, rfl⟩)) with ⟨hop, -⟩ | ⟨hop, -⟩ | ⟨hop, -⟩ <;>
        cases hop

theorem Whole.hook_failed_returns (h : Whole s w) (hsettled : Settled s w) (hhook : HookFailed w) :
    ∃ error, w.returned = some (.error error) := by
  by_cases herror : w.error.isSome
  · exact h.cleaned hsettled herror
  have hnone : w.error = none := by simpa using herror
  exfalso
  obtain ⟨op, phase, index, hop, hearly, hfailed⟩ := hhook
  rcases hook_stage hop with rfl | rfl
  · exact herror (h.ending.failed _ .settle rfl rfl hfailed)
  have hready := h.not_ready hearly hfailed
  -- init has attempted a step, so the runtime has let it go on
  have hfirst : Precedes w.log ⟨.settle .waitIntermediate, true⟩
      fun e => e.op = .init (.hook phase index) :=
    h.inOrder.placement_first (by simp [placement]) (by simp)
  have hwaited := hfirst.mem hfailed rfl
  have hexited := h.cleaning.waited hwaited
  have hclose : ⟨.settle .close, true⟩ ∉ w.log := fun hclose =>
    hready (h.inOrder.setup_done hclose (Or.inr rfl))
  obtain ⟨last, hlast, hends⟩ := (h.ending.finished hnone).resolve_left hclose
  have hgone := h.failed_init_gone hsettled hfailed hready
  cases hops : (w.party .parent).ops with
  | nil => simp [hops] at hlast
  | cons x rest =>
      obtain ⟨st, hst⟩ : ∃ st, x.stage = some st := by
        obtain ⟨st, hst⟩ : ∃ st, last.stage = some st := by
          rcases hends with rfl | rfl | rfl <;> exact ⟨_, rfl⟩
        have hmem := List.mem_of_getLast? hlast
        rw [hops] at hmem
        rcases List.mem_cons.mp hmem with rfl | hmem
        · exact ⟨st, hst⟩
        · exact ⟨st, (h.inOrder.rest_stage hops last hmem) ▸ hst⟩
      have hparent := (h.inOrder.progress hops hst).1
      have hblocked := hsettled.blocked h.ending.running hops
      have hdropped : (w.party .parent).keepsChild = false := by
        rw [Bool.eq_false_iff]
        intro hkeeps
        rcases h.ending.dropped hkeeps with hahead | hsome
        · exact h.cleaning.unsettled _ hahead _ _ hwaited
        · exact herror hsome
      have hclosed : (w.setOps .parent rest).childOpen = false := by
        have hintermediate := h.ending.gone .intermediate (by simp [hexited])
        have hinit := h.ending.gone .init hgone
        simp [World.childOpen, hdropped, hintermediate, hinit]
      rcases blocked_parent hblocked (Or.inl ⟨st, hst, hparent⟩) with
        ⟨-, -, hopen⟩ | ⟨-, hlife⟩ | ⟨-, hkilled, hlife⟩
      · rw [hclosed] at hopen
        cases hopen
      · rw [setOps_life] at hlife
        exact hlife hexited
      · rw [setOps_life] at hlife
        exact hgone hlife

theorem Whole.next (h : Whole s w) (hnext : Next s w' w) : Whole s w' := by
  cases hnext with
  | act who fault hstep => exact h.step hstep
  | die who hstep => exact h.step hstep

theorem Whole.next_log (h : Whole s w) (hnext : Next s w' w) {e : Entry Op} (he : e ∈ w.log) :
    e ∈ w'.log := by
  cases hnext with
  | act who fault hstep =>
      simp only [Protocol.step, Option.ite_none_right_eq_some] at hstep
      obtain ⟨op, rest, ok, put, hmoves⟩ := act_moves h.inOrder hstep.2
      rw [hmoves.log]
      exact List.mem_append_left _ he
  | die who hstep =>
      simp only [Protocol.step, Option.ite_none_right_eq_some, Option.some.injEq] at hstep
      exact hstep.2 ▸ he

/-- A create one of whose hooks has failed is going to return an error. -/
theorem Whole.doomed (h : Whole s w) (hhook : HookFailed w) : Doomed s w := by
  induction w using (next_wellFounded s).induction with
  | _ w ih =>
      by_cases hmoves : ∃ w', Next s w' w
      · refine .next hmoves fun w' hnext => ih w' hnext (h.next hnext) ?_
        obtain ⟨op, phase, index, hop, hearly, hfailed⟩ := hhook
        exact ⟨op, phase, index, hop, hearly, h.next_log hnext hfailed⟩
      · obtain ⟨error, hreturned⟩ := h.hook_failed_returns (.of_no_next hmoves) hhook
        exact .returned hreturned

end doomed

end Mars.Protocol
