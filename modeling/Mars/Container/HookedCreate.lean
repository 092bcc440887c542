import Mars.Container.HookFailures

/-! # A create whose hooks have given outcomes

The assignment decides which hooks fail; everything else about a run stays
free. A create returns well in some run exactly where no hook of its early
phases fails and its plan is not refused.
-/

namespace Mars.Protocol
open Spec Namespace Hooks Sync History

/-- The error a hook's step has, where the hook fails. -/
def hookError (plan : Plan) (outcomes : Outcomes) (phase : Hooks.Phase) (index : Nat) :
    Option Error :=
  (selected plan.bundle.spec.hooks phase)[index]?.bind fun hook =>
    (outcomes phase index).map (failure phase index hook)

/-- A hook's step fails as its hook does, every other one as it happens to. -/
def guide (s : Setting) (outcomes : Outcomes) (w : World) : Event → Event
  | .act who fault =>
      match (w.party who).ops.head?.bind Op.hook with
      | some (phase, index) => .act who (hookError s.plan outcomes phase index)
      | none => .act who fault
  | event => event

def hookedStep (s : Setting) (outcomes : Outcomes) (w : World) (event : Event) : Option World :=
  step s w (guide s outcomes w event)

/-- No hook of an early phase fails, and an overlay has a mount namespace to live in. -/
structure Creatable (s : Setting) (outcomes : Outcomes) : Prop where
  overlay : s.plan.overlay = true → contains s.plan.unshareFlags CLONE_NEWNS = true
  early : ∀ phase ∈ early, ∀ index < (selected s.plan.bundle.spec.hooks phase).length,
    outcomes phase index = none

theorem whole_hooked {s : Setting} {outcomes : Outcomes} {dir : Bool} {events : List Event}
    {w : World}
    (h : Transition.run (hookedStep s outcomes) (start s dir false) events = some w) :
    Whole s w :=
  Transition.run_invariant (fun _ _ _ hinv hstep => Whole.step hinv hstep) (whole_start s dir) h

/-! ## What a create that returns well has passed -/

section passed
variable {s : Setting} {outcomes : Outcomes} {w w' next : World} {who : Who} {op : Op}
  {rest : List Op} {fault : Option Error}

theorem act_fault {error : Error} (h : act s w who (some error) = some w') :
    ∃ op rest, (w.party who).ops = op :: rest ∧
      w' = ((w.setOps who rest).record op false).fail op error := by
  unfold act at h
  split at h
  next => cases h
  next op rest hops =>
    refine ⟨op, rest, hops, ?_⟩
    dsimp only at h
    split at h
    next heq => cases heq
    next heq => cases heq
    next heq => cases heq
    next heq =>
      cases heq
      split at h
      next =>
        cases h
        rfl
      next => cases h

/-- A hook has succeeded only if its outcome is success. -/
def Obeys (s : Setting) (outcomes : Outcomes) (w : World) : Prop :=
  ∀ op phase index, op.hook = some (phase, index) → ⟨op, true⟩ ∈ w.log →
    hookError s.plan outcomes phase index = none

theorem obeys_step (hinv : InOrder s w) (hw : Obeys s outcomes w) {event : Event}
    (h : hookedStep s outcomes w event = some w') : Obeys s outcomes w' := by
  cases event with
  | act who fault =>
      intro x phase index hx hmem
      obtain ⟨fault', hguide⟩ : ∃ fault', guide s outcomes w (.act who fault) = .act who fault' := by
        simp only [guide]
        split
        · exact ⟨_, rfl⟩
        · exact ⟨_, rfl⟩
      have hstep : Protocol.step s w (.act who fault') = some w' := hguide ▸ h
      simp only [Protocol.step, Option.ite_none_right_eq_some] at hstep
      obtain ⟨op, rest, ok, put, hmoves⟩ := act_moves hinv hstep.2
      rw [hmoves.log] at hmem
      rcases List.mem_append.mp hmem with hmem | hmem
      · exact hw x phase index hx hmem
      · obtain ⟨rfl, rfl⟩ : x = op ∧ true = ok := by simpa using hmem
        simp only [guide, hmoves.ops, List.head?_cons, Option.bind_some, hx] at hguide
        obtain rfl : hookError s.plan outcomes phase index = fault' := by simpa using hguide
        -- a step that is made to fail is recorded as a failure
        cases hfault : hookError s.plan outcomes phase index with
        | none => rfl
        | some error =>
            rw [hfault] at hstep
            obtain ⟨op', rest', hops, rfl⟩ := act_fault hstep.2
            have hlog := hmoves.log
            rw [fail_log] at hlog
            simp [World.record, World.setOps, World.update] at hlog
  | die who =>
      simp only [hookedStep, guide, Protocol.step, Option.ite_none_right_eq_some,
        Option.some.injEq] at h
      exact h.2 ▸ hw
  | kill who =>
      simp only [hookedStep, guide, Protocol.step, Option.ite_none_right_eq_some,
        Option.some.injEq] at h
      exact h.2 ▸ hw
  | reader =>
      simp only [hookedStep, guide, Protocol.step, Option.some.injEq] at h
      subst h
      intro x phase index hx hmem
      have hold : ⟨x, true⟩ ∈ w.log := by
        rcases List.mem_append.mp hmem with hmem | hmem
        · exact hmem
        · obtain rfl : x = .readerOpens := by simpa using hmem
          cases hx
      exact hw x phase index hx hold

/-- Where the overlay has no mount namespace the runtime does not get past noticing. -/
def Refused (w : World) : Prop :=
  .prepare .checkOverlayNamespace ∈ (w.party .parent).ops ∨ w.error.isSome

theorem refused_step {event : Event} (hplan : contains s.plan.unshareFlags CLONE_NEWNS = false)
    (hinv : Whole s w) (h : Refused w) (hstep : Protocol.step s w event = some w') :
    Refused w' := by
  cases event <;> simp only [Protocol.step, Option.ite_none_right_eq_some] at hstep
  case act who fault =>
    obtain ⟨op, rest, hops, ⟨next, hdone, rfl⟩ | ⟨error, next, hfails, rfl⟩⟩ := act_cases hstep.2
    · rcases h with hahead | hsome
      · rcases hinv.ending.ahead_done hinv.inOrder hops hdone hahead (by simp) with hstill | rfl
        · exact Or.inl hstill
        · simp [perform, performPrepare, hplan] at hdone
      · right
        show next.error.isSome
        rw [(perform_done hdone).error]
        exact hsome
    · rcases h with hahead | hsome
      · exact ahead_fail hinv.inOrder hops hfails hahead
      · right
        cases hcleanup : op.onFailure with
        | none =>
            rw [(fail_none_parent hfails hcleanup).2]
            exact hsome
        | some cleanup =>
            rw [fail_error hcleanup]
            rfl
  case die who =>
    obtain ⟨⟨-, hkilled⟩, hnext⟩ := hstep
    obtain rfl := Option.some.inj hnext
    have hwho : who ≠ .parent := by
      rintro rfl
      rw [hinv.cleaning.alive] at hkilled
      cases hkilled
    unfold Refused
    rw [leave_party_other hwho.symm]
    exact h
  case kill who =>
    obtain rfl := Option.some.inj hstep.2
    unfold Refused
    rw [update_party_other w who _ _ hstep.1.1.symm]
    exact h
  case reader => exact Option.some.inj hstep ▸ h

theorem early_hook_mem {plan : Plan} {pid : Int} {phase : Hooks.Phase} {index : Nat}
    (hphase : phase ∈ early)
    (hindex : index < (selected plan.bundle.spec.hooks phase).length) :
    .hook phase index ∈ placement plan pid ∨ .hook phase index ∈ setup plan := by
  have hmem : (phase = .prestart ∨ phase = .createRuntime) ∨ phase = .createContainer := by
    simpa [early, or_assoc] using hphase
  rcases hmem with hruntime | rfl
  · exact Or.inl (Placement.hook_mem_placement hruntime hindex)
  · right
    have hhook : .hook _ index ∈ hookOps InitOp.hookPayload .hook plan _ :=
      hook_mem_hookOps hindex
    have hmount : .hook .createContainer index ∈ mountSteps plan := by
      unfold mountSteps
      split <;> simp [hhook]
    simp [setup, hmount]

/-- A create that has returned well has had none of its early hooks fail. -/
theorem creatable_of_returned {dir : Bool} {events : List Event}
    (hrun : Transition.run (hookedStep s outcomes) (start s dir false) events = some w)
    (hreturned : w.returned = some (.ok ())) : Creatable s outcomes := by
  have hboth : Whole s w ∧ Obeys s outcomes w :=
    @Transition.run_invariant _ _ _ (fun w => Whole s w ∧ Obeys s outcomes w)
      (fun _ _ _ hinv hstep => ⟨hinv.1.step hstep, obeys_step hinv.1.inOrder hinv.2 hstep⟩) _ _ _
      ⟨whole_start s dir, nofun⟩ hrun
  obtain ⟨hwhole, hobeys⟩ := hboth
  have hclose := hwhole.closed hreturned
  constructor
  case overlay =>
    intro hoverlay
    by_contra hplan
    have hrefused : Whole s w ∧ Refused w :=
      @Transition.run_invariant _ _ _ (fun w => Whole s w ∧ Refused w)
        (fun _ _ _ hinv hstep =>
          ⟨hinv.1.step hstep, refused_step (by simpa using hplan) hinv.1 hinv.2 hstep⟩) _ _ _
        ⟨whole_start s dir, Or.inl (by simp [start, prepareProgram, hoverlay])⟩ hrun
    obtain ⟨hops, hnone⟩ := returned_ok hreturned
    rcases hrefused.2 with hahead | hsome
    · simp [hops] at hahead
    · simp [hnone] at hsome
  case early =>
    intro phase hphase index hindex
    have hsucceeded : ∃ op : Op, op.hook = some (phase, index) ∧ ⟨op, true⟩ ∈ w.log := by
      rcases @early_hook_mem s.plan s.initPid _ _ hphase hindex with hmem | hmem
      · exact ⟨.settle (.hook phase index), rfl,
          hwhole.inOrder.settled hclose (List.mem_append_left _ hmem)⟩
      · exact ⟨.init (.hook phase index), rfl,
          hwhole.inOrder.setup_done hclose (Or.inl hmem)⟩
    obtain ⟨op, hop, hlog⟩ := hsucceeded
    have herror := hobeys op phase index hop hlog
    simpa [hookError, List.getElem?_eq_getElem hindex] using herror

end passed

end Mars.Protocol
