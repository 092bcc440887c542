import Mars.Telemetry.Timekeeping

/-! # What the runtime does with its recorder

A create that has not failed has the runtime go through one fixed list of
statements: those it has executed and those around the steps it has ahead.
-/

namespace Mars.Timed
open Spec Namespace Protocol Sync Telemetry History

/-! ## The runtime's statements -/

/-- The statements around a step, where the message init is to send is given. -/
def around (s : Setting) (op : Op) : List Stmt :=
  before s.plan op ++ after op (some (.initReady s.initPhases))

/-- The statements from the message about init's pid on. -/
def settled (s : Setting) : List Stmt :=
  .absorbIntermediate s.intermediatePhases :: (program s .settle).flatMap (around s)

/-- The statements that come with a step of the runtime and with what follows its program. -/
def ahead (s : Setting) (op : Op) : List Stmt :=
  around s op ++ if op = .prepare .recv ∨ op = .mapping .recv then settled s else []

/-- All the runtime's statements, from `create`'s recorder to the end of `handshake`. -/
def runtimeStmts (s : Setting) : List Stmt :=
  .new :: begin "bundle" ++ begin "plan" ++ begin "cgroup" ++ begin "fork" ++ .forkedAt ::
    begin "wait.initpid" ++ .absorbIntermediate s.intermediatePhases ::
    begin "reap.intermediate" ++ begin "cgroup.attach" ++ begin "hooks.createRuntime" ++
    begin "init" ++ .initStarted :: .bindPhases s.initPhases :: begin "state" ++
    [.endPhase, .absorbInit]

section programs
variable {s : Setting}

theorem ifTrue_nothing {α : Type} {f : α → Op} (condition : Bool) (ops : List α)
    (h : ∀ x ∈ ops, ahead s (f x) = []) :
    ((ifTrue condition ops).map f).flatMap (ahead s) = [] := by
  rw [List.flatMap_eq_nil_iff]
  intro op hop
  obtain ⟨x, hx, rfl⟩ := List.mem_map.mp hop
  exact h x (mem_ifTrue.mp hx).2

theorem hooks_nothing (plan : Plan) (phase : Hooks.Phase) :
    ((hookOps SettleOp.hookPayload .hook plan phase).map Op.settle).flatMap (ahead s) = [] := by
  rw [List.flatMap_eq_nil_iff]
  intro op hop
  obtain ⟨x, hx, rfl⟩ := List.mem_map.mp hop
  rcases mem_hookOps hx with rfl | ⟨index, rfl⟩ <;> rfl

theorem settle_ahead : (program s .settle).flatMap (ahead s) =
    (program s .settle).flatMap (around s) := by
  apply List.flatMap_congr
  intro op hop
  obtain ⟨x, -, rfl⟩ := List.mem_map.mp hop
  rw [ahead, if_neg (by simp), List.append_nil]

theorem mapping_ahead : (program s .mapping).flatMap (ahead s) = settled s := by
  simp [program, mappingProgram, ahead, around, before, after]

theorem settled_eq : settled s = .absorbIntermediate s.intermediatePhases ::
    (begin "reap.intermediate" ++ begin "cgroup.attach" ++ begin "hooks.createRuntime" ++
      begin "init" ++ .initStarted :: .bindPhases s.initPhases :: begin "state" ++
      [.endPhase, .absorbInit]) := by
  rw [settled, ← settle_ahead, program, settleProgram, placement]
  simp only [List.map_append, List.flatMap_append, hooks_nothing]
  rfl

theorem prepare_ahead : (program s .prepare).flatMap (ahead s) = runtimeStmts s := by
  have hnothing : ∀ x, x = .checkOverlayNamespace ∨ x = .prepareOverlay ∨ x = .prepareMerged ∨
      x = .applyResources ∨ x = .openConsole → ahead s (.prepare x) = [] := by
    rintro x (rfl | rfl | rfl | rfl | rfl) <;> rfl
  have hoverlay := ifTrue_nothing (s := s) (f := .prepare) s.plan.overlay
    [.checkOverlayNamespace, .prepareOverlay, .prepareMerged] fun x hx => hnothing x (by
      simp only [List.mem_cons, List.not_mem_nil, or_false] at hx
      tauto)
  have hresources := ifTrue_nothing (s := s) (f := .prepare) s.plan.resources [.applyResources]
    fun x hx => hnothing x (by simp [List.mem_singleton.mp hx])
  have hconsole := ifTrue_nothing (s := s) (f := .prepare) s.plan.console [.openConsole]
    fun x hx => hnothing x (by simp [List.mem_singleton.mp hx])
  rw [program, prepareProgram]
  simp only [List.map_append, List.flatMap_append, hoverlay, hresources, hconsole]
  simp only [List.map_cons, List.map_nil, List.flatMap_cons, List.flatMap_nil, ahead, settled_eq]
  rfl

end programs

/-! ## The runtime goes through them -/

/-- What the runtime has done with its recorder and what it has ahead. -/
def Foreseen (s : Setting) (t : State) : Prop :=
  t.world.error = none → (stamps s.plan t.acts .parent).map Prod.fst ++
    (t.world.party .parent).ops.flatMap (ahead s) = runtimeStmts s

theorem foreseen_start (s : Setting) (dir stateFile : Bool) :
    Foreseen s (start s dir stateFile) :=
  fun _ => prepare_ahead

section foreseen
variable {s : Setting} {wall : Nat → Nat} {t t' : State} {c : Act} {op : Op}

theorem ahead_unstaged (h : op.stage = none) : ahead s op = [] := by
  rw [ahead, around, before_unstaged h, after_unstaged h, if_neg]
  · rfl
  · rintro (rfl | rfl) <;> cases h

theorem mapping_recv_last {w : World} {who : Who} {rest : List Op} (hinv : InOrder s w)
    (hops : (w.party who).ops = .mapping .recv :: rest) : rest = [] :=
  hinv.nothing_behind hops rfl rfl (count_mapping_recv s)

/-- Only three steps look at a message. -/
theorem after_message (hop : ¬op.Receives) (m m' : Option Message) : after op m = after op m' := by
  cases op with
  | prepare op => cases op <;> first | rfl | exact absurd (Or.inl rfl) hop
  | mapping op => cases op <;> first | rfl | exact absurd (Or.inr (Or.inl rfl)) hop
  | settle op => cases op <;> first | rfl | exact absurd (Or.inr (Or.inr rfl)) hop
  | init op => cases op <;> rfl
  | intermediate op => cases op <;> rfl
  | _ => rfl

/-- The messages that bring phases bring the foretold ones. -/
theorem Kept.carries (h : Kept s wall t) {m : Message} (hm : m ∈ t.world.toParent) :
    (∀ pid phases, m = .initPid pid phases → pid = s.initPid ∧ phases = s.intermediatePhases) ∧
      ∀ phases, m = .initReady phases → phases = s.initPhases := by
  obtain ⟨op, hsends, -⟩ := h.carried m hm
  constructor
  · rintro pid phases rfl
    cases hsends
    exact ⟨rfl, rfl⟩
  · rintro phases rfl
    cases hsends
    rfl

/-- A receive behind which the runtime goes on with one of its programs. -/
theorem Acted.runtime_recv (h : Acted s wall t t' c) (hkept : Kept s wall t)
    (hwho : c.who = .parent) (hok : c.entry.ok = true)
    (hop : c.entry.op = .prepare .recv ∨ c.entry.op = .mapping .recv) :
    c.behind ++ (t'.world.party .parent).ops.flatMap (ahead s) = settled s := by
  obtain ⟨rest, put, hattempt⟩ := h.attempt
  obtain ⟨next, hdone, hworld⟩ := hattempt.done hok
  obtain ⟨mayMap, hrecv⟩ : ∃ mayMap, recvInitPid s (t.world.setOps .parent rest) mayMap =
      .done next := by
    rw [hwho] at hdone
    rcases hop with hop | hop <;> rw [hop] at hdone
    · exact ⟨true, hdone⟩
    · exact ⟨false, hdone⟩
  have hbehind : c.behind = after c.entry.op t.world.toParent.head? := by
    rw [Act.behind, hok, h.message]
    rcases hop with hop | hop <;> rw [hop] <;> rfl
  rw [hbehind, hworld, record_party]
  obtain ⟨messages, ⟨pid, phases, hqueue, rfl⟩ | ⟨hqueue, rfl⟩⟩ := recvInitPid_done hrecv
  · rw [setOps_toParent] at hqueue
    obtain ⟨rfl, rfl⟩ := (hkept.carries (hqueue ▸ List.mem_cons_self)).1 pid phases rfl
    have hsettle : ((settleProgram s.plan s.initPid).map Op.settle).flatMap (ahead s) =
        (program s .settle).flatMap (around s) := settle_ahead
    rw [hqueue, setOps_ops_self, hsettle]
    rcases hop with hop | hop <;> rw [hop] <;> rfl
  · rw [setOps_toParent] at hqueue
    have hmapping : (mappingProgram.map Op.mapping).flatMap (ahead s) = settled s := mapping_ahead
    rw [hqueue, setOps_ops_self, hmapping]
    rcases hop with hop | hop <;> rw [hop] <;> rfl

/-- Behind a step that takes no other program comes what was to come. -/
theorem Acted.runtime_after (h : Acted s wall t t' c) (hkept : Kept s wall t)
    (hok : c.entry.ok = true)
    (hop : ¬(c.entry.op = .prepare .recv ∨ c.entry.op = .mapping .recv)) :
    c.behind = after c.entry.op (some (.initReady s.initPhases)) := by
  have hbehind : c.behind = after c.entry.op c.message := by
    rw [Act.behind, hok]
    rfl
  rw [hbehind]
  by_cases hready : c.entry.op = .settle .expectInitReady
  · obtain ⟨rest, put, hattempt⟩ := h.attempt
    obtain ⟨next, hdone, -⟩ := hattempt.done hok
    rw [hready] at hdone
    obtain ⟨m, messages, hqueue, hwant, -⟩ := expectFromChild_done hdone
    rw [setOps_toParent] at hqueue
    obtain ⟨phases, rfl⟩ := of_matches_initReady hwant
    obtain rfl := (hkept.carries (hqueue ▸ List.mem_cons_self)).2 phases rfl
    rw [h.message, hready, received, hqueue]
    rfl
  · apply after_message
    rintro (hrecv | hrecv | hrecv)
    · exact hop (Or.inl hrecv)
    · exact hop (Or.inr hrecv)
    · exact hready hrecv

/-- A step of the runtime that succeeds takes its statements from those ahead. -/
theorem Acted.runtime_done (h : Acted s wall t t' c) (hkept : Kept s wall t)
    (hwho : c.who = .parent) (hok : c.entry.ok = true) :
    before s.plan c.entry.op ++ (c.behind ++ (t'.world.party .parent).ops.flatMap (ahead s)) =
      (t.world.party .parent).ops.flatMap (ahead s) := by
  obtain ⟨rest, put, hattempt⟩ := h.attempt
  have hops := hattempt.ops
  rw [hwho] at hops
  rw [hops, List.flatMap_cons]
  by_cases hop : c.entry.op = .prepare .recv ∨ c.entry.op = .mapping .recv
  · have hnil : rest = [] := by
      rcases hop with hop | hop <;> rw [hop] at hops
      · exact hkept.whole.inOrder.recv_last hops
      · exact mapping_recv_last hkept.whole.inOrder hops
    have hahead : ahead s c.entry.op = before s.plan c.entry.op ++ settled s := by
      rw [ahead, if_pos hop, around]
      rcases hop with hop | hop <;> rw [hop] <;> rfl
    rw [h.runtime_recv hkept hwho hok hop, hnil, hahead, List.flatMap_nil, List.append_nil]
  · obtain ⟨next, hdone, hworld⟩ := hattempt.done hok
    have hexit : c.entry.op = .failing .exit → c.who ≠ .parent := by
      intro hexit
      rw [hexit] at hops
      exact absurd (hops ▸ List.mem_cons_self) (hkept.whole.ending.own .exit)
    have hnext := (perform_done hdone).onParent.ops (not_or.mp hop) hexit
    rw [hwho, setOps_ops_self] at hnext
    rw [hworld, record_party, hnext, h.runtime_after hkept hok hop, ahead, if_neg hop,
      List.append_nil, around, List.append_assoc]

theorem Acted.foreseen (h : Acted s wall t t' c) (hkept : Kept s wall t)
    (hforeseen : Foreseen s t) : Foreseen s t' := by
  intro hnone
  obtain ⟨rest, put, hattempt⟩ := h.attempt
  have hops := hattempt.ops
  have hpopped := popped_ops_parent hops
  rw [h.stamps_eq]
  cases hok : c.entry.ok with
  | true =>
      obtain ⟨next, hdone, hworld⟩ := hattempt.done hok
      have herror : t.world.error = none := by
        rw [hworld, record_error, (perform_done hdone).error] at hnone
        exact hnone
      by_cases hwho : c.who = .parent
      · rw [if_pos hwho, List.map_append, h.timely.stmts, List.append_assoc, List.append_assoc,
          h.runtime_done hkept hwho hok]
        exact hforeseen herror
      · have hrecv : c.entry.op ≠ .prepare .recv ∧ c.entry.op ≠ .mapping .recv := by
          constructor
          · intro hop
            exact hwho (h.owner hkept .prepare (by rw [hop]; rfl)).symm
          · intro hop
            exact hwho (h.owner hkept .mapping (by rw [hop]; rfl)).symm
        have hsame := (perform_done hdone).onParent.ops hrecv fun _ => hwho
        rw [hworld, record_party, hsame, if_neg hwho, List.append_nil,
          (hpopped.resolve_left fun hparent => hwho hparent.1).2]
        exact hforeseen herror
  | false =>
      obtain ⟨error, next, hfails, hworld⟩ := hattempt.failed hok
      have hcleanup : c.entry.op.onFailure = none := by
        cases hcleanup : c.entry.op.onFailure with
        | none => rfl
        | some cleanup =>
            rw [hworld, fail_error hcleanup] at hnone
            cases hnone
      obtain ⟨hparty, herror⟩ := @fail_none_parent _ _ _ _ _ _ error hfails hcleanup
      rw [← hworld] at hparty herror
      rw [hparty]
      have hold := hforeseen (herror ▸ hnone)
      by_cases hwho : c.who = .parent
      · have hstage : c.entry.op.stage = none := by
          cases hstage : c.entry.op.stage with
          | none => rfl
          | some st =>
              exact absurd ((h.owner hkept _ hstage).trans hwho) (onFailure_none hcleanup hstage)
        rw [hwho] at hops
        rw [hops, List.flatMap_cons, ahead_unstaged hstage] at hold
        rw [stamps_unstaged hstage, ite_self, List.append_nil, hwho, setOps_ops_self]
        exact hold
      · rw [if_neg hwho, List.append_nil, (hpopped.resolve_left fun hparent => hwho hparent.1).2]
        exact hold

theorem Passed.foreseen (h : Passed t t') (hforeseen : Foreseen s t) : Foreseen s t' := by
  intro hnone
  have hacts : t'.acts = t.acts := by rw [h.result]
  rw [hacts, h.ops]
  exact hforeseen (h.error ▸ hnone)

theorem foreseen_step {tick : Tick} (hkept : Kept s wall t) (h : Foreseen s t)
    (hstep : step s wall t tick = some t') : Foreseen s t' := by
  by_cases hact : ∃ who fault, tick.event = .act who fault
  · obtain ⟨who, fault, hevent⟩ := hact
    obtain ⟨c, hacted⟩ := step_acted hkept.whole.inOrder hstep hevent
    exact hacted.foreseen hkept h
  · have hevent : ∀ who fault, tick.event ≠ .act who fault := by simpa using hact
    exact (step_passed hkept.whole hstep hevent).foreseen h

end foreseen

end Mars.Timed
