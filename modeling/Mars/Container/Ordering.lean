import Mars.Container.Steps

/-! # The order of the steps of a create

Each party works through its programs in order, so a step comes after the
successes before it in its program. A message ties a receiver's step to the
sender's, and the two orders compose.
-/

namespace Mars.Protocol
open Spec Namespace Hooks Sync History

/-! ## Whose steps -/

inductive Stage where
  | prepare
  | mapping
  | settle
  | intermediate
  | init
  deriving DecidableEq

def Stage.owner : Stage → Who
  | .prepare => .parent
  | .mapping => .parent
  | .settle => .parent
  | .intermediate => .intermediate
  | .init => .init

/-- The runtime settles the pid that the kernel gave to init. -/
def program (s : Setting) : Stage → List Op
  | .prepare => (prepareProgram s.plan).map .prepare
  | .mapping => mappingProgram.map .mapping
  | .settle => (settleProgram s.plan s.initPid).map .settle
  | .intermediate => (stageOne s.plan).map .intermediate
  | .init => (containerInit s.plan).map .init

def Op.stage : Op → Option Stage
  | .prepare _ => some .prepare
  | .mapping _ => some .mapping
  | .settle _ => some .settle
  | .intermediate _ => some .intermediate
  | .init _ => some .init
  | .cleanup _ => none
  | .failing _ => none
  | .readerOpens => none

section stages
variable {s : Setting} {w : World} {op : Op} {st : Stage} {error : Error}

theorem stage_of_mem_program (h : op ∈ program s st) : op.stage = some st := by
  cases st <;>
    · obtain ⟨x, -, rfl⟩ := List.mem_map.mp h
      rfl

/-- What is in no stage cleans up or reports. -/
def Op.Idle (op : Op) : Prop := op.stage = none

theorem apart_program (s : Setting) : Apart (program s) Op.Idle where
  programs := by
    intro op st st' h h'
    exact Option.some.inj ((stage_of_mem_program h).symm.trans (stage_of_mem_program h'))
  idle := by
    intro op st h hidle
    cases hidle.symm.trans (stage_of_mem_program h)

theorem fail_of_no_stage (h : op.stage = none) : w.fail op error = w := by
  cases op with
  | cleanup op => rfl
  | failing op => rfl
  | readerOpens => rfl
  | _ => cases h

theorem fail_party_other {who : Who} (h : op.stage = some st) (hwho : who ≠ st.owner) :
    (w.fail op error).party who = w.party who := by
  cases op <;> cases h <;> exact setOps_party_other w _ _ _ hwho

theorem cleanup_no_stage (ops : List CleanupOp) : ∀ x ∈ ops.map Op.cleanup, x.stage = none := by
  intro x hx
  obtain ⟨y, -, rfl⟩ := List.mem_map.mp hx
  rfl

theorem report_no_stage (reason : String) :
    ∀ x ∈ [Op.failing (.sendFailed reason), Op.failing .exit], x.stage = none := by
  simp [Op.stage]

/-- After an error the party only cleans up or reports. -/
theorem fail_no_stage (h : op.stage = some st) :
    ∀ x ∈ ((w.fail op error).party st.owner).ops, x.stage = none := by
  cases op with
  | prepare op =>
      cases h
      have hops : ((w.fail (.prepare op) error).party .parent).ops = _ := setOps_ops_self w _ _
      exact hops ▸ cleanup_no_stage _
  | mapping op =>
      cases h
      have hops : ((w.fail (.mapping op) error).party .parent).ops = _ := setOps_ops_self w _ _
      exact hops ▸ cleanup_no_stage _
  | settle op =>
      cases h
      have hops : ((w.fail (.settle op) error).party .parent).ops = _ := setOps_ops_self w _ _
      exact hops ▸ cleanup_no_stage _
  | intermediate op =>
      cases h
      have hops : ((w.fail (.intermediate op) error).party .intermediate).ops = _ :=
        setOps_ops_self w _ _
      exact hops ▸ report_no_stage _
  | init op =>
      cases h
      have hops : ((w.fail (.init op) error).party .init).ops = _ := setOps_ops_self w _ _
      exact hops ▸ report_no_stage _
  | _ => cases h

end stages

/-! ## Parts of the programs -/

theorem mem_hookOps {α : Type} {hookPayload : Hooks.Phase → α} {hook : Hooks.Phase → Nat → α}
    {plan : Plan} {phase : Hooks.Phase} {x : α} (h : x ∈ hookOps hookPayload hook plan phase) :
    x = hookPayload phase ∨ ∃ index, x = hook phase index := by
  unfold hookOps at h
  split at h
  · cases h
  · rcases List.mem_cons.mp h with h | h
    · exact Or.inl h
    · obtain ⟨index, -, rfl⟩ := List.mem_map.mp h
      exact Or.inr ⟨index, rfl⟩

theorem hook_mem_hookOps {α : Type} {hookPayload : Hooks.Phase → α}
    {hook : Hooks.Phase → Nat → α} {plan : Plan} {phase : Hooks.Phase} {index : Nat}
    (hindex : index < (selected plan.bundle.spec.hooks phase).length) :
    hook phase index ∈ hookOps hookPayload hook plan phase := by
  unfold hookOps
  split
  next hnil => simp [hnil] at hindex
  next => exact List.mem_cons_of_mem _ (List.mem_map_of_mem (List.mem_range.mpr hindex))

/-- The pid a step of the runtime is about. -/
def SettleOp.pid : SettleOp → Option Int
  | .addProcess pid => some pid
  | .sendCgroupApplied pid => some pid
  | .startTime pid => some pid
  | .save pid => some pid
  | .writePidFile pid => some pid
  | _ => none

theorem settle_pid {plan : Plan} {pid p : Int} {op : SettleOp} (h : op ∈ settleProgram plan pid)
    (hp : op.pid = some p) : p = pid := by
  have hhook : ∀ phase, op ∈ hookOps .hookPayload .hook plan phase → op.pid = none := by
    intro phase hop
    rcases mem_hookOps hop with rfl | ⟨index, rfl⟩ <;> rfl
  simp only [settleProgram, placement, List.mem_append, List.mem_cons, List.not_mem_nil,
    or_false] at h
  rcases h with (((rfl | rfl) | hop) | hop) | rfl | rfl | rfl | rfl | rfl | rfl
  case inl.inl.inr => simp [hhook _ hop] at hp
  case inl.inr => simp [hhook _ hop] at hp
  all_goals simp [SettleOp.pid] at hp
  all_goals exact hp.symm

theorem program_settle_pid {s : Setting} {pid : Int} {op : SettleOp}
    (h : .settle op ∈ program s .settle) (hp : op.pid = some pid) : pid = s.initPid := by
  obtain ⟨x, hx, heq⟩ := List.mem_map.mp h
  obtain rfl : x = op := by simpa using heq
  exact settle_pid hx hp

/-! ## The invariant -/

structure InOrder (s : Setting) (w : World) : Prop where
  working : ∀ who, Working (program s) Stage.owner Op.Idle w.log who (w.party who).ops
  ordered : ∀ st, Ordered w.log (program s st)
  staged : ∀ e ∈ w.log, ∀ st, e.op.stage = some st → e.op ∈ program s st
  initPid : ∀ pid phases, .initPid pid phases ∈ w.toParent → pid = s.initPid
  ready : ∀ phases, .initReady phases ∈ w.toParent → ⟨.init .sendInitReady, true⟩ ∈ w.log
  mapped : .userMappingDone ∈ w.toChild → ⟨.mapping .sendUserMappingDone, true⟩ ∈ w.log
  applied : ∀ pid, .cgroupApplied pid ∈ w.toChild →
    ⟨.settle (.sendCgroupApplied s.initPid), true⟩ ∈ w.log
  reader : w.reader = true → ⟨.readerOpens, true⟩ ∈ w.log
  afterMapped : Precedes w.log ⟨.mapping .sendUserMappingDone, true⟩
    (· = ⟨.intermediate .expectUserMappingDone, true⟩)
  afterApplied : Precedes w.log ⟨.settle (.sendCgroupApplied s.initPid), true⟩
    (· = ⟨.init .expectCgroupApplied, true⟩)
  afterReady : Precedes w.log ⟨.init .sendInitReady, true⟩ (· = ⟨.settle .expectInitReady, true⟩)
  afterReader : Precedes w.log ⟨.readerOpens, true⟩ (· = ⟨.init .meetReader, true⟩)

theorem inOrder_start (s : Setting) (dir stateFile : Bool) :
    InOrder s (start s dir stateFile) where
  working := by
    intro who
    cases who with
    | parent => exact working_start [] Stage.prepare
    | intermediate => exact working_nil [] _
    | init => exact working_nil [] _
  ordered := fun _ => ordered_nil _
  staged := by simp [start]
  initPid := by simp [start]
  ready := by simp [start]
  mapped := by simp [start]
  applied := by simp [start]
  reader := by simp [start]
  afterMapped := precedes_nil
  afterApplied := precedes_nil
  afterReady := precedes_nil
  afterReader := precedes_nil

/-! ## Steps that succeed -/

section effects
variable {s : Setting} {w next : World} {who : Who} {op : Op}

theorem Effect.log (h : Effect s w who op next) : next.log = w.log := by cases h <;> rfl

theorem Effect.reader (h : Effect s w who op next) : next.reader = w.reader := by cases h <;> rfl

/-- A step leaves a party's programs alone, ends them or puts a whole program there. -/
theorem Effect.ops (h : Effect s w who op next)
    (hpid : ∀ pid phases, .initPid pid phases ∈ w.toParent → pid = s.initPid) (other : Who) :
    (next.party other).ops = (w.party other).ops ∨ (next.party other).ops = [] ∨
      ∃ st, st.owner = other ∧ (next.party other).ops = program s st := by
  cases h with
  | recvInitPid hop hqueue =>
      obtain rfl := hpid _ _ (hqueue ▸ List.mem_cons_self)
      by_cases hother : other = .parent
      · subst hother
        exact Or.inr (Or.inr ⟨.settle, rfl, setOps_ops_self _ _ _⟩)
      · exact Or.inl (by rw [setOps_party_other _ _ _ _ hother])
  | recvRequest hop hqueue =>
      by_cases hother : other = .parent
      · subst hother
        exact Or.inr (Or.inr ⟨.mapping, rfl, setOps_ops_self _ _ _⟩)
      · exact Or.inl (by rw [setOps_party_other _ _ _ _ hother])
  | forkIntermediate =>
      by_cases hother : other = .intermediate
      · subst hother
        exact Or.inr (Or.inr ⟨.intermediate, rfl, forked_ops_self _ _ _ _⟩)
      · exact Or.inl (by rw [forked_party_other _ _ _ _ _ hother])
  | forkInit =>
      by_cases hother : other = .init
      · subst hother
        exact Or.inr (Or.inr ⟨.init, rfl, forked_ops_self _ _ _ _⟩)
      · exact Or.inl (by rw [forked_party_other _ _ _ _ _ hother])
  | exitIntermediate => exact (leave_ops w _ other).imp_right Or.inl
  | exitFailing => exact (leave_ops w _ other).imp_right Or.inl
  | pair => exact Or.inl (update_ops w _ other _ fun _ => rfl)
  | dropChild => exact Or.inl (update_ops w _ other _ fun _ => rfl)
  | close => exact Or.inl (update_ops w _ other _ fun _ => rfl)
  | teardownKill => exact Or.inl (update_ops w _ other _ fun _ => rfl)
  | closeChannel => exact Or.inl (update_ops w _ other _ fun _ => rfl)
  | dropParent => exact Or.inl (update_ops w _ other _ fun _ => rfl)
  | execve => exact Or.inl (update_ops w _ other _ fun _ => rfl)
  | _ => exact Or.inl rfl

/-- What is in a queue was there before or has just been sent. -/
theorem Effect.toChild (h : Effect s w who op next) {m : Message} (hm : m ∈ next.toChild) :
    m ∈ w.toChild ∨ SendsChild op m := by
  cases h with
  | sendToChild hsends =>
      rcases List.mem_append.mp hm with hm | hm
      · exact Or.inl hm
      · exact Or.inr (List.mem_singleton.mp hm ▸ hsends)
  | expectFromParent hexpects hqueue hwant =>
      exact Or.inl (hqueue ▸ List.mem_cons_of_mem _ hm)
  | _ => exact Or.inl hm

theorem Effect.toParent (h : Effect s w who op next) {m : Message} (hm : m ∈ next.toParent) :
    m ∈ w.toParent ∨ SendsParent s op m := by
  cases h with
  | sendToParent hsends =>
      rcases List.mem_append.mp hm with hm | hm
      · exact Or.inl hm
      · exact Or.inr (List.mem_singleton.mp hm ▸ hsends)
  | recvRequest hop hqueue => exact Or.inl (hqueue ▸ List.mem_cons_of_mem _ hm)
  | recvInitPid hop hqueue => exact Or.inl (hqueue ▸ List.mem_cons_of_mem _ hm)
  | expectInitReady hqueue hwant => exact Or.inl (hqueue ▸ List.mem_cons_of_mem _ hm)
  | _ => exact Or.inl hm

/-- What a step that waits has to find. -/
def Found (w : World) : Op → Prop
  | .intermediate .expectUserMappingDone => .userMappingDone ∈ w.toChild
  | .init .expectCgroupApplied => ∃ pid, .cgroupApplied pid ∈ w.toChild
  | .settle .expectInitReady => ∃ phases, .initReady phases ∈ w.toParent
  | .init .meetReader => w.reader = true
  | _ => True

theorem found_of_quiet (hquiet : special op = false) : Found w op := by
  unfold Found
  split
  case h_5 => trivial
  all_goals cases hquiet

/-- A step that waits for something succeeds only if it was there. -/
theorem Effect.found (h : Effect s w who op next) : Found w op := by
  cases h with
  | quiet hquiet => exact found_of_quiet hquiet
  | recvRequest hop => rcases hop with rfl | rfl <;> trivial
  | recvInitPid hop => rcases hop with rfl | rfl <;> trivial
  | sendToChild hsends => cases hsends <;> trivial
  | sendToParent hsends => cases hsends <;> trivial
  | expectFromParent hexpects hqueue hwant =>
      cases hexpects with
      | userMappingDone => simp [Found, hqueue, of_matches_userMappingDone hwant]
      | cgroupApplied =>
          obtain ⟨pid, rfl⟩ := of_matches_cgroupApplied hwant
          exact ⟨pid, hqueue ▸ List.mem_cons_self⟩
  | expectInitReady hqueue hwant =>
      obtain ⟨phases, rfl⟩ := of_matches_initReady hwant
      exact ⟨phases, hqueue ▸ List.mem_cons_self⟩
  | meetReader hreader => exact hreader
  | _ => trivial

end effects

/-! ## One event -/

section step
variable {s : Setting} {w w' next : World} {who : Who} {op : Op} {rest : List Op}

/-- The step is taken off the party's program before it is performed. -/
theorem InOrder.popped (h : InOrder s w) (hops : (w.party who).ops = op :: rest) :
    Working (program s) Stage.owner Op.Idle w.log who (op :: rest) := hops ▸ h.working who

theorem InOrder.progress {st : Stage} (h : InOrder s w) (hops : (w.party who).ops = op :: rest)
    (hstage : op.stage = some st) :
    st.owner = who ∧ Progress w.log (program s st) (op :: rest) := by
  have hidle : ¬op.Idle := by
    intro hidle
    cases hidle.symm.trans hstage
  obtain ⟨st', howner, hprogress⟩ := (h.popped hops).progress hidle
  obtain rfl : st' = st :=
    Option.some.inj ((stage_of_mem_program hprogress.mem).symm.trans hstage)
  exact ⟨howner, hprogress⟩

/-- A step that its program has once is not to come again, -/
theorem InOrder.not_again {st : Stage} (h : InOrder s w) (hops : (w.party who).ops = op :: rest)
    (hstage : op.stage = some st) (hcount : (program s st).count op ≤ 1) : op ∉ rest := by
  obtain ⟨-, done, hsplit, -⟩ := h.progress hops hstage
  rw [hsplit, List.count_append, List.count_cons_self] at hcount
  exact List.count_eq_zero.mp (by omega)

/-- and where it is the last one, nothing is. -/
theorem InOrder.nothing_behind {st : Stage} (h : InOrder s w)
    (hops : (w.party who).ops = op :: rest) (hstage : op.stage = some st)
    (hlast : (program s st).getLast? = some op) (hcount : (program s st).count op ≤ 1) :
    rest = [] := by
  obtain ⟨-, done, hsplit, -⟩ := h.progress hops hstage
  by_contra hrest
  rw [hsplit, List.getLast?_append_of_ne_nil _ (List.cons_ne_nil _ _),
    List.getLast?_cons_of_ne_nil hrest] at hlast
  exact h.not_again hops hstage hcount (List.mem_of_getLast? hlast)

theorem InOrder.staged_snoc (h : InOrder s w) (hops : (w.party who).ops = op :: rest) (ok : Bool) :
    ∀ e ∈ w.log ++ [⟨op, ok⟩], ∀ st, e.op.stage = some st → e.op ∈ program s st := by
  intro e he st hstage
  rcases List.mem_append.mp he with he | he
  · exact h.staged e he st hstage
  · obtain rfl := List.mem_singleton.mp he
    exact (h.progress hops hstage).2.mem

theorem InOrder.done (h : InOrder s w) (hops : (w.party who).ops = op :: rest)
    (heffect : Effect s (w.setOps who rest) who op next) : InOrder s (next.record op true) := by
  have hlog : next.log = w.log := heffect.log
  have hworking := h.popped hops
  have hkeep : ∀ {a : Entry Op}, a ∈ w.log → a ∈ w.log ++ [⟨op, true⟩] :=
    List.mem_append_left _
  constructor
  case working =>
    intro other
    show Working (program s) Stage.owner Op.Idle (next.log ++ [⟨op, true⟩]) other
      (next.party other).ops
    rw [hlog]
    rcases heffect.ops h.initPid other with hsame | hnil | ⟨st, howner, hprogram⟩
    · rw [hsame]
      by_cases hother : other = who
      · subst hother
        rw [setOps_ops_self]
        exact hworking.next
      · rw [setOps_party_other w who other rest hother]
        exact (h.working other).snoc _
    · exact Or.inr (by simp [hnil])
    · exact Or.inl ⟨st, howner, hprogram ▸ progress_start _ _⟩
  case ordered =>
    intro st
    rw [record_log, hlog]
    exact hworking.ordered (apart_program s) (h.ordered st)
  case staged =>
    rw [record_log, hlog]
    exact h.staged_snoc hops true
  case initPid =>
    intro pid phases hm
    rcases heffect.toParent hm with hm | hsends
    · exact h.initPid pid phases hm
    · cases hsends
      rfl
  case ready =>
    intro phases hm
    rw [record_log, hlog]
    rcases heffect.toParent hm with hm | hsends
    · exact hkeep (h.ready phases hm)
    · cases hsends
      simp
  case mapped =>
    intro hm
    rw [record_log, hlog]
    rcases heffect.toChild hm with hm | hsends
    · exact hkeep (h.mapped hm)
    · cases hsends
      simp
  case applied =>
    intro pid hm
    rw [record_log, hlog]
    rcases heffect.toChild hm with hm | hsends
    · exact hkeep (h.applied pid hm)
    · cases hsends
      obtain rfl := program_settle_pid (h.progress hops rfl).2.mem rfl
      simp
  case reader =>
    intro hreader
    rw [record_log, hlog]
    exact hkeep (h.reader (heffect.reader ▸ hreader))
  case afterMapped =>
    rw [record_log, hlog]
    apply h.afterMapped.snoc
    intro heq
    cases heq
    exact h.mapped heffect.found
  case afterApplied =>
    rw [record_log, hlog]
    apply h.afterApplied.snoc
    intro heq
    cases heq
    obtain ⟨pid, hm⟩ := heffect.found
    exact h.applied pid hm
  case afterReady =>
    rw [record_log, hlog]
    apply h.afterReady.snoc
    intro heq
    cases heq
    obtain ⟨phases, hm⟩ := heffect.found
    exact h.ready phases hm
  case afterReader =>
    rw [record_log, hlog]
    apply h.afterReader.snoc
    intro heq
    cases heq
    exact h.reader heffect.found

theorem InOrder.failed {error : Error} (h : InOrder s w)
    (hops : (w.party who).ops = op :: rest) (hread : OnlyRead (w.setOps who rest) next) :
    InOrder s ((next.record op false).fail op error) := by
  obtain ⟨toParent, toChild, rfl, hparent, hchild⟩ := hread
  have hworking := h.popped hops
  have hkeep : ∀ {a : Entry Op}, a ∈ w.log → a ∈ w.log ++ [⟨op, false⟩] :=
    List.mem_append_left _
  have hother : ∀ other, other ≠ who →
      Working (program s) Stage.owner Op.Idle (w.log ++ [⟨op, false⟩]) other
        ((w.setOps who rest).party other).ops := by
    intro other hne
    rw [setOps_party_other w who other rest hne]
    exact (h.working other).snoc _
  constructor
  case working =>
    intro other
    rw [fail_log]
    cases hstage : op.stage with
    | none =>
        rw [fail_of_no_stage hstage]
        by_cases hne : other = who
        · subst hne
          right
          show ∀ x ∈ ((w.setOps other rest).party other).ops, x.stage = none
          rw [setOps_ops_self]
          rcases hworking with ⟨st, -, hprogress⟩ | hnone
          · rw [stage_of_mem_program hprogress.mem] at hstage
            cases hstage
          · exact fun x hx => hnone x (List.mem_cons_of_mem _ hx)
        · exact hother other hne
    | some st =>
        obtain ⟨rfl, -⟩ := h.progress hops hstage
        by_cases hne : other = st.owner
        · subst hne
          exact Or.inr (fail_no_stage hstage)
        · rw [fail_party_other hstage hne]
          exact hother other hne
  case ordered =>
    intro st
    rw [fail_log]
    exact hworking.ordered (apart_program s) (h.ordered st)
  case staged =>
    rw [fail_log]
    exact h.staged_snoc hops false
  case initPid =>
    rw [fail_toParent]
    exact fun pid phases hm => h.initPid pid phases (hparent _ hm)
  case ready =>
    rw [fail_toParent, fail_log]
    exact fun phases hm => hkeep (h.ready phases (hparent _ hm))
  case mapped =>
    rw [fail_toChild, fail_log]
    exact fun hm => hkeep (h.mapped (hchild _ hm))
  case applied =>
    rw [fail_toChild, fail_log]
    exact fun pid hm => hkeep (h.applied pid (hchild _ hm))
  case reader =>
    rw [fail_reader, fail_log]
    exact fun hreader => hkeep (h.reader hreader)
  case afterMapped =>
    rw [fail_log]
    exact h.afterMapped.snoc fun heq => by cases heq
  case afterApplied =>
    rw [fail_log]
    exact h.afterApplied.snoc fun heq => by cases heq
  case afterReady =>
    rw [fail_log]
    exact h.afterReady.snoc fun heq => by cases heq
  case afterReader =>
    rw [fail_log]
    exact h.afterReader.snoc fun heq => by cases heq

theorem InOrder.leave (h : InOrder s w) (who : Who) : InOrder s (w.leave who) where
  working := by
    intro other
    rcases leave_ops w who other with hsame | hnil
    · rw [hsame]
      exact h.working other
    · exact Or.inr (by simp [hnil])
  ordered := h.ordered
  staged := h.staged
  initPid := h.initPid
  ready := h.ready
  mapped := h.mapped
  applied := h.applied
  reader := h.reader
  afterMapped := h.afterMapped
  afterApplied := h.afterApplied
  afterReady := h.afterReady
  afterReader := h.afterReader

theorem InOrder.kill (h : InOrder s w) (who : Who) :
    InOrder s (w.update who fun p => { p with killed := true }) where
  working := by
    intro other
    have hsame := update_ops w who other (fun p => { p with killed := true }) fun _ => rfl
    rw [hsame]
    exact h.working other
  ordered := h.ordered
  staged := h.staged
  initPid := h.initPid
  ready := h.ready
  mapped := h.mapped
  applied := h.applied
  reader := h.reader
  afterMapped := h.afterMapped
  afterApplied := h.afterApplied
  afterReady := h.afterReady
  afterReader := h.afterReader

theorem InOrder.opened (h : InOrder s w) :
    InOrder s ({ w with reader := true }.record .readerOpens true) where
  working := fun who => (h.working who).snoc _
  ordered := by
    intro st
    apply (h.ordered st).snoc_other
    intro hmem
    have hstage := stage_of_mem_program hmem
    cases hstage
  staged := by
    intro e he st hstage
    rcases List.mem_append.mp he with he | he
    · exact h.staged e he st hstage
    · obtain rfl := List.mem_singleton.mp he
      cases hstage
  initPid := h.initPid
  ready := fun phases hm => List.mem_append_left _ (h.ready phases hm)
  mapped := fun hm => List.mem_append_left _ (h.mapped hm)
  applied := fun pid hm => List.mem_append_left _ (h.applied pid hm)
  reader := fun _ => by simp
  afterMapped := h.afterMapped.snoc fun heq => by cases heq
  afterApplied := h.afterApplied.snoc fun heq => by cases heq
  afterReady := h.afterReady.snoc fun heq => by cases heq
  afterReader := h.afterReader.snoc fun heq => by cases heq

theorem InOrder.step {event : Event} (h : InOrder s w) (hstep : step s w event = some w') :
    InOrder s w' := by
  cases event with
  | act who fault =>
      simp only [Protocol.step, Option.ite_none_right_eq_some] at hstep
      obtain ⟨op, rest, hops, ⟨next, hdone, rfl⟩ | ⟨error, next, hfails, rfl⟩⟩ :=
        act_cases hstep.2
      · exact h.done hops (perform_done hdone)
      · exact h.failed hops hfails.read
  | die who =>
      simp only [Protocol.step, Option.ite_none_right_eq_some] at hstep
      exact Option.some.inj hstep.2 ▸ h.leave who
  | kill who =>
      simp only [Protocol.step, Option.ite_none_right_eq_some] at hstep
      exact Option.some.inj hstep.2 ▸ h.kill who
  | reader => exact Option.some.inj hstep ▸ h.opened

end step

/-! ## What stands behind what -/

@[simp] theorem mem_ifTrue {α : Type} {condition : Bool} {ops : List α} {x : α} :
    x ∈ ifTrue condition ops ↔ condition = true ∧ x ∈ ops := by
  unfold ifTrue
  split <;> simp_all

/-- Steps that stand behind init's setup. -/
def InitOp.late : InitOp → Bool
  | .sendInitReady => true
  | .openFifo => true
  | .meetReader => true
  | .writeHandshake => true
  | .unblockAll => true
  | .execve => true
  | _ => false

theorem mountSteps_not_late (plan : Plan) : ∀ x ∈ mountSteps plan, x.late = false := by
  have hhook : ∀ x ∈ hookOps InitOp.hookPayload .hook plan .createContainer, x.late = false := by
    intro x hx
    rcases mem_hookOps hx with rfl | ⟨index, rfl⟩ <;> rfl
  unfold mountSteps
  split
  · split <;>
      · simp +contextual [or_imp, InitOp.late]
        exact hhook
  · exact hhook

theorem hardenSteps_not_late (plan : Plan) : ∀ x ∈ hardenSteps plan, x.late = false := by
  simp +contextual [hardenSteps, or_imp, InitOp.late]

theorem securitySteps_not_late (plan : Plan) : ∀ x ∈ securitySteps plan, x.late = false := by
  simp +contextual [securitySteps, or_imp, InitOp.late]

theorem setup_not_late (plan : Plan) : ∀ x ∈ setup plan, x.late = false := by
  simp +contextual [setup, or_imp, forall_and, InitOp.late]
  exact ⟨mountSteps_not_late plan, hardenSteps_not_late plan, securitySteps_not_late plan⟩

/-- Steps that stand behind the id mapping. -/
def IntermediateOp.mappedLate : IntermediateOp → Bool
  | .setresgid => true
  | .setresuid => true
  | .fork => true
  | _ => false

theorem joinExisting_not_late (plan : Plan) :
    ∀ x ∈ joinExisting plan, x.mappedLate = false := by
  simp +contextual [joinExisting, or_imp, IntermediateOp.mappedLate]

theorem unshareAll_not_late (plan : Plan) : ∀ x ∈ unshareAll plan, x.mappedLate = false := by
  intro x hx
  obtain ⟨entry, -, hx⟩ := List.mem_flatMap.mp hx
  simp only [mem_ifTrue, List.mem_cons, List.not_mem_nil, or_false] at hx
  rcases hx.2 with rfl | ⟨-, rfl⟩ <;> rfl

section across
variable {s : Setting} {w : World} {st : Stage} {x y : Op} {front : List Op}

/-- What is behind a part of the program follows the successes of that part. -/
theorem InOrder.across (h : InOrder s w) (hfront : front <+: program s st)
    (hstage : x.stage = some st) (hx : x ∉ front) (hy : y ∈ front) :
    Precedes w.log ⟨y, true⟩ fun e => e.op = x := by
  apply (h.ordered st).across hfront _ hx hy
  intro e he heq
  exact heq ▸ h.staged e he st (heq ▸ hstage)

theorem InOrder.idMap_first (h : InOrder s w)
    (huser : contains s.plan.unshareFlags CLONE_NEWUSER = true) {x : IntermediateOp}
    (hx : x.mappedLate = true) {y : MappingOp} (hy : y = .writeUidMap ∨ y = .writeGidMap) :
    Precedes w.log ⟨.mapping y, true⟩ fun e => e.op = .intermediate x := by
  have hsend : Precedes w.log ⟨.mapping y, true⟩
      fun e => e.op = .mapping .sendUserMappingDone := by
    have hfront : [.checkMappings, .denySetgroups, .writeUidMap, .writeGidMap] <+:
        mappingProgram := ⟨[.sendUserMappingDone, .recv], rfl⟩
    apply h.across (hfront.map Op.mapping) rfl
    · decide
    · rcases hy with rfl | rfl <;> decide
  have hexpect : Precedes w.log ⟨.intermediate .expectUserMappingDone, true⟩
      fun e => e.op = .intermediate x := by
    have hfront : .dropParent :: joinExisting s.plan ++ unshareAll s.plan ++
        [.sendRequestUserMapping, .expectUserMappingDone] <+: stageOne s.plan :=
      ⟨[.setresgid, .setresuid, .fork, .sendInitPid, .exit], by
        simp [stageOne, mapUser, huser, ifTrue]⟩
    apply h.across (hfront.map Op.intermediate) rfl
    · rw [List.mem_map_of_injective fun _ _ => Op.intermediate.inj]
      simp only [List.mem_append, List.mem_cons, List.not_mem_nil, or_false]
      rintro (((rfl | hz) | hz) | rfl | rfl)
      · cases hx
      · cases hx.symm.trans (joinExisting_not_late _ _ hz)
      · cases hx.symm.trans (unshareAll_not_late _ _ hz)
      · cases hx
      · cases hx
    · simp
  exact ((hsend.mono fun e he => by rw [he]).trans h.afterMapped).trans hexpect

theorem mem_placement {plan : Plan} {pid : Int} {op : SettleOp} (h : op ∈ placement plan pid) :
    op = .waitIntermediate ∨ op = .addProcess pid ∨
      ∃ phase, op = .hookPayload phase ∨ ∃ index, op = .hook phase index := by
  simp only [placement, List.mem_append, List.mem_cons, List.not_mem_nil, or_false] at h
  rcases h with ((h | h) | h) | h
  · exact Or.inl h
  · exact Or.inr (Or.inl h)
  · exact Or.inr (Or.inr ⟨_, mem_hookOps h⟩)
  · exact Or.inr (Or.inr ⟨_, mem_hookOps h⟩)

theorem sendCgroupApplied_not_mem_placement (plan : Plan) (pid p : Int) :
    .sendCgroupApplied p ∉ placement plan pid := by
  intro hmem
  rcases mem_placement hmem with h | h | ⟨phase, h | ⟨index, h⟩⟩ <;> cases h

theorem save_not_mem_placement (plan : Plan) (pid p : Int) : .save p ∉ placement plan pid := by
  intro hmem
  rcases mem_placement hmem with h | h | ⟨phase, h | ⟨index, h⟩⟩ <;> cases h

theorem InOrder.placement_first (h : InOrder s w) {y : SettleOp}
    (hy : y ∈ placement s.plan s.initPid) {x : InitOp} (hx : x ≠ .expectCgroupApplied) :
    Precedes w.log ⟨.settle y, true⟩ fun e => e.op = .init x := by
  have hsend : Precedes w.log ⟨.settle y, true⟩
      fun e => e.op = .settle (.sendCgroupApplied s.initPid) := by
    have hfront : placement s.plan s.initPid <+: settleProgram s.plan s.initPid :=
      List.prefix_append _ _
    apply h.across (hfront.map Op.settle) rfl
    · rw [List.mem_map_of_injective fun _ _ => Op.settle.inj]
      exact sendCgroupApplied_not_mem_placement _ _ _
    · exact List.mem_map_of_mem hy
  have hexpect : Precedes w.log ⟨.init .expectCgroupApplied, true⟩ fun e => e.op = .init x := by
    have hfront : [.expectCgroupApplied] <+: containerInit s.plan := ⟨_, rfl⟩
    apply h.across (hfront.map Op.init) rfl
    · simpa using hx
    · simp
  exact ((hsend.mono fun e he => by rw [he]).trans h.afterApplied).trans hexpect

theorem InOrder.setup_first (h : InOrder s w) {y : InitOp}
    (hy : y ∈ setup s.plan ∨ y = .sendInitReady) (pid : Int) :
    Precedes w.log ⟨.init y, true⟩ fun e => e.op = .settle (.save pid) := by
  have hexpect : Precedes w.log ⟨.init y, true⟩ (· = ⟨.settle .expectInitReady, true⟩) := by
    rcases hy with hy | rfl
    · have hfront : setup s.plan <+: containerInit s.plan := List.prefix_append _ _
      have hsend : Precedes w.log ⟨.init y, true⟩ fun e => e.op = .init .sendInitReady := by
        apply h.across (hfront.map Op.init) rfl
        · rw [List.mem_map_of_injective fun _ _ => Op.init.inj]
          intro hmem
          cases setup_not_late _ _ hmem
        · exact List.mem_map_of_mem hy
      exact (hsend.mono fun e he => by rw [he]).trans h.afterReady
    · exact h.afterReady
  have hsave : Precedes w.log ⟨.settle .expectInitReady, true⟩
      fun e => e.op = .settle (.save pid) := by
    have hfront : placement s.plan s.initPid ++ [.sendCgroupApplied s.initPid, .expectInitReady,
        .startTime s.initPid] <+: settleProgram s.plan s.initPid :=
      ⟨[.save s.initPid, .writePidFile s.initPid, .close], by simp [settleProgram]⟩
    apply h.across (hfront.map Op.settle) rfl
    · rw [List.mem_map_of_injective fun _ _ => Op.settle.inj]
      simp [save_not_mem_placement]
    · simp
  exact hexpect.trans hsave

theorem InOrder.reader_first (h : InOrder s w) :
    Precedes w.log ⟨.init .meetReader, true⟩ fun e => e.op = .init .execve := by
  have hfront : setup s.plan ++ .sendInitReady :: [.openFifo, .meetReader, .writeHandshake] <+:
      containerInit s.plan :=
    ⟨hookOps .hookPayload .hook s.plan .startContainer ++ [.unblockAll, .execve], by
      simp [containerInit, parkAndExec]⟩
  apply h.across (hfront.map Op.init) rfl
  · rw [List.mem_map_of_injective fun _ _ => Op.init.inj]
    intro hmem
    rcases List.mem_append.mp hmem with hmem | hmem
    · cases setup_not_late _ _ hmem
    · simp at hmem
  · simp

end across

/-! ## Runs -/

theorem inOrder_run {s : Setting} {dir stateFile : Bool} {events : List Event} {w : World}
    (h : Transition.run (step s) (start s dir stateFile) events = some w) : InOrder s w :=
  Transition.run_invariant (fun _ _ _ hinv hstep => hinv.step hstep)
    (inOrder_start s dir stateFile) h

end Mars.Protocol
