import Mars.Container.Attempts

/-! # How the runtime ends

The runtime runs until it has worked through its last program or through a
clean-up. It has no error of its own only if nothing of its own has failed, and
then it has closed its channel behind everything else.
-/

namespace Mars.Protocol
open Spec Namespace Hooks Sync History

/-! ## How the runtime ends -/

/-- The last step of a program of the runtime. -/
def Op.EndsParent (op : Op) : Prop :=
  op = .prepare .recv ∨ op = .mapping .recv ∨ op = .settle .close

/-- A process that is gone has no copy of the children's end. -/
def Gone (w : World) : Prop :=
  ∀ who, (w.party who).life ≠ .running → (w.party who).keepsChild = false

structure Ending (w : World) : Prop where
  running : (w.party .parent).life = .running
  own : ∀ f, .failing f ∉ (w.party .parent).ops
  failed : ∀ op st, op.stage = some st → st.owner = .parent → ⟨op, false⟩ ∈ w.log →
    w.error.isSome
  finished : w.error = none → ⟨.settle .close, true⟩ ∈ w.log ∨
    ∃ x, (w.party .parent).ops.getLast? = some x ∧ x.EndsParent
  gone : Gone w
  dropped : (w.party .parent).keepsChild = true →
    .prepare .dropChild ∈ (w.party .parent).ops ∨ w.error.isSome

theorem prepareProgram_getLast (plan : Plan) :
    (prepareProgram plan).getLast? = some .recv := by
  rw [prepareProgram, List.getLast?_append]
  rfl

theorem settleProgram_getLast (plan : Plan) (pid : Int) :
    (settleProgram plan pid).getLast? = some .close := by
  simp [settleProgram]

theorem ending_start (s : Setting) (dir stateFile : Bool) : Ending (start s dir stateFile) where
  running := rfl
  own := by simp [start]
  failed := by simp [start]
  finished := by
    intro _
    refine Or.inr ⟨.prepare .recv, ?_, Or.inl rfl⟩
    simp [start, List.getLast?_map, prepareProgram_getLast]
  gone := by
    intro who _
    cases who <;> rfl
  dropped := nofun

section ending
variable {s : Setting} {w next w' : World} {who : Who} {op : Op} {rest : List Op} {error : Error}

/-- A receive that succeeds gives the runtime another program. -/
theorem recv_ops {mayMap : Bool} (h : recvInitPid s w mayMap = .done next) :
    ∃ x, (next.party .parent).ops.getLast? = some x ∧ x.EndsParent := by
  obtain ⟨messages, ⟨pid, phases, -, rfl⟩ | ⟨-, rfl⟩⟩ := recvInitPid_done h
  · refine ⟨.settle .close, ?_, Or.inr (Or.inr rfl)⟩
    rw [setOps_ops_self, List.getLast?_map, settleProgram_getLast]
    rfl
  · exact ⟨.mapping .recv, by rw [setOps_ops_self]; rfl, Or.inr (Or.inl rfl)⟩

theorem perform_recv_ops (h : perform s w who op = .done next)
    (hop : op = .prepare .recv ∨ op = .mapping .recv) :
    ∃ x, (next.party .parent).ops.getLast? = some x ∧ x.EndsParent := by
  rcases hop with rfl | rfl <;> exact recv_ops h

theorem Gone.update {f : Party → Party} (h : Gone w)
    (hf : (f (w.party who)).life ≠ .running → (f (w.party who)).keepsChild = false) :
    Gone (w.update who f) := by
  intro other
  rw [update_party]
  split
  · exact hf
  · exact h other

theorem Gone.setOps (h : Gone w) (ops : List Op) : Gone (w.setOps who ops) := h.update (h who)

theorem Gone.done (h : Gone w) (hparent : (w.party .parent).life = .running)
    (hdone : perform s w who op = .done next) : Gone next := by
  cases perform_done hdone with
  | pair => exact h.update fun hlife => absurd hparent hlife
  | dropChild => exact h.update fun _ => rfl
  | close => exact h.update (h .parent)
  | closeChannel => exact h.update fun _ => rfl
  | dropParent => exact h.update (h .intermediate)
  | teardownKill => exact h.update (h .init)
  | execve => exact h.update fun _ => rfl
  | forkIntermediate => exact h.update fun hlife => absurd rfl hlife
  | forkInit => exact h.update fun hlife => absurd rfl hlife
  | exitIntermediate => exact h.update fun _ => rfl
  | exitFailing => exact h.update fun _ => rfl
  | recvInitPid hop hqueue => exact Gone.setOps (w := { w with toParent := _ }) h _
  | recvRequest hop hqueue => exact Gone.setOps (w := { w with toParent := _ }) h _
  | _ => exact h

theorem InOrder.recv_last (hinv : InOrder s w)
    (hops : (w.party who).ops = .prepare .recv :: rest) : rest = [] := by
  have hlast : (program s .prepare).getLast? = some (.prepare .recv) := by
    rw [program, List.getLast?_map, prepareProgram_getLast]
    rfl
  exact hinv.nothing_behind hops rfl hlast (count_prepare s .recv)

/-- Dropping the copy comes behind making it. -/
theorem InOrder.dropChild_ahead (hinv : InOrder s w)
    (hops : (w.party who).ops = .prepare .pair :: rest) : .prepare .dropChild ∈ rest := by
  have hback : [.fork, .dropChild, .recv] <:+ prepareProgram s.plan :=
    ⟨_ ++ [.setChildSubreaper, .blockForwardable, .pair], List.append_assoc _ _ _⟩
  have hsuffix := (hinv.progress hops rfl).2.suffix (hback.map Op.prepare) (by decide)
  exact hsuffix.subset (by simp)

@[simp] theorem setOps_keepsChild (w : World) (who other : Who) (ops : List Op) :
    ((w.setOps who ops).party other).keepsChild = (w.party other).keepsChild := by
  rw [World.setOps, update_party]
  split <;> simp_all

theorem popped_ops_parent (hops : (w.party who).ops = op :: rest) :
    who = .parent ∧ ((w.setOps who rest).party .parent).ops = rest ∨
      who ≠ .parent ∧ ((w.setOps who rest).party .parent).ops = (w.party .parent).ops := by
  by_cases hwho : who = .parent
  · subst hwho
    exact Or.inl ⟨rfl, setOps_ops_self _ _ _⟩
  · exact Or.inr ⟨hwho, by rw [setOps_party_other w who _ rest (Ne.symm hwho)]⟩

/-- A step of the first program stays ahead until it is taken. -/
theorem Ending.ahead_done (h : Ending w) (hinv : InOrder s w)
    (hops : (w.party who).ops = op :: rest)
    (hdone : perform s (w.setOps who rest) who op = .done next) {x : PrepareOp}
    (hx : .prepare x ∈ (w.party .parent).ops) (hlast : x ≠ .recv) :
    .prepare x ∈ (next.party .parent).ops ∨ op = .prepare x := by
  have hrecv : op ≠ .prepare .recv ∧ op ≠ .mapping .recv := by
    constructor
    · rintro rfl
      have hnil : rest = [] := hinv.recv_last hops
      obtain ⟨rfl, -⟩ := hinv.progress hops rfl
      rw [show (w.party .parent).ops = [.prepare .recv] from hnil ▸ hops] at hx
      exact hlast (by simpa using hx)
    · rintro rfl
      obtain ⟨rfl, -⟩ := hinv.progress hops rfl
      cases hinv.same_stage hops rfl hx
  have hexit : op = .failing .exit → who ≠ .parent := by
    rintro rfl rfl
    exact h.own .exit (hops ▸ List.mem_cons_self)
  rw [(perform_done hdone).onParent.ops hrecv hexit]
  rcases popped_ops_parent (w := w) hops with ⟨rfl, hrest⟩ | ⟨-, hsame⟩
  · rw [hrest]
    rw [hops] at hx
    rcases List.mem_cons.mp hx with heq | hx
    · exact Or.inr heq.symm
    · exact Or.inl hx
  · exact Or.inl (hsame ▸ hx)

theorem Ending.done (h : Ending w) (hinv : InOrder s w) (hops : (w.party who).ops = op :: rest)
    (hdone : perform s (w.setOps who rest) who op = .done next) :
    Ending (next.record op true) := by
  have heffect := perform_done hdone
  have hexit : op = .failing .exit → who ≠ .parent := by
    rintro rfl rfl
    exact h.own .exit (hops ▸ List.mem_cons_self)
  have herror : next.error = w.error := heffect.error
  have hpopped := popped_ops_parent (w := w) hops
  have hrunning : ((w.setOps who rest).party .parent).life = .running := by
    rw [setOps_life, h.running]
  constructor
  case running =>
    rw [record_party, heffect.onParent.life hexit]
    exact hrunning
  case own =>
    intro f hf
    rcases heffect.ops hinv.initPid .parent with hsame | hnil | ⟨st, -, hprogram⟩
    · have hmem : .failing f ∈ (next.party .parent).ops := hf
      rw [hsame] at hmem
      exact h.own f (popped_subset hops hmem)
    · have hmem : .failing f ∈ (next.party .parent).ops := hf
      rw [hnil] at hmem
      cases hmem
    · have hmem : .failing f ∈ (next.party .parent).ops := hf
      rw [hprogram] at hmem
      cases stage_of_mem_program hmem
  case failed =>
    intro x st hstage howner hmem
    rw [record_log, heffect.log] at hmem
    have hold : ⟨x, false⟩ ∈ w.log := by simpa [World.setOps, World.update] using hmem
    show next.error.isSome
    rw [herror]
    exact h.failed x st hstage howner hold
  case finished =>
    intro hnone
    have hnone' : w.error = none := herror ▸ hnone
    rw [record_log, heffect.log, record_party]
    by_cases hrecv : op = .prepare .recv ∨ op = .mapping .recv
    · exact Or.inr (perform_recv_ops hdone hrecv)
    · rw [heffect.onParent.ops (not_or.mp hrecv) hexit]
      rcases h.finished hnone' with hclose | ⟨x, hlast, hx⟩
      · exact Or.inl (List.mem_append_left _ hclose)
      · rcases hpopped with ⟨rfl, hrest⟩ | ⟨-, hsame⟩
        · rw [hrest]
          rw [hops] at hlast
          by_cases hnil : rest = []
          · subst hnil
            obtain rfl : op = x := by simpa using hlast
            rcases hx with hx | hx | rfl
            · exact absurd (Or.inl hx) hrecv
            · exact absurd (Or.inr hx) hrecv
            · exact Or.inl (by simp [World.setOps, World.update])
          · exact Or.inr ⟨x, by rw [← hlast, List.getLast?_cons_of_ne_nil hnil], hx⟩
        · exact Or.inr ⟨x, hsame ▸ hlast, hx⟩
  case gone =>
    have hpopped : Gone (w.setOps who rest) := h.gone.setOps rest
    have hnext : Gone next := hpopped.done hrunning hdone
    exact hnext
  case dropped =>
    intro hkeeps
    show .prepare .dropChild ∈ (next.party .parent).ops ∨ next.error.isSome
    rcases heffect.onParent.keepsChild hkeeps with ⟨hkept, hne⟩ | rfl
    · have hbefore : (w.party .parent).keepsChild = true := by
        rwa [setOps_keepsChild] at hkept
      rcases h.dropped hbefore with hahead | hsome
      · rcases h.ahead_done hinv hops hdone hahead (by simp) with hstill | hop
        · exact Or.inl hstill
        · exact absurd hop hne
      · exact Or.inr (herror ▸ hsome)
    · obtain ⟨rfl, -⟩ := hinv.progress hops rfl
      rw [heffect.onParent.ops ⟨by simp, by simp⟩ hexit]
      rcases hpopped with ⟨-, hrest⟩ | ⟨hwho, -⟩
      · rw [hrest]
        exact Or.inl (hinv.dropChild_ahead hops)
      · exact absurd rfl hwho

theorem fail_error {cleanup : List CleanupOp} (h : op.onFailure = some cleanup) :
    (w.fail op error).error = some error := by
  cases op <;> cases h <;> rfl

/-- A step that is not of the runtime's own stages fails without an error of it. -/
theorem onFailure_none (h : op.onFailure = none) {st : Stage} (hstage : op.stage = some st) :
    st.owner ≠ .parent := by
  cases op <;> cases hstage <;> first | (cases h; done) | nofun

theorem fail_none_parent (hfails : Fails s w who op rest next) (hnone : op.onFailure = none) :
    ((next.record op false).fail op error).party .parent =
        (w.setOps who rest).party .parent ∧
      ((next.record op false).fail op error).error = w.error := by
  obtain ⟨hparty, herror⟩ := @fail_parent (next.record op false) op error hnone
  exact ⟨hparty.trans (congrFun hfails.read.party _), herror.trans hfails.read.error_eq⟩

/-- Whatever fails of the runtime's own steps is of one of its stages. -/
theorem InOrder.not_parent (hinv : InOrder s w) (hops : (w.party who).ops = op :: rest)
    (hnone : op.onFailure = none) {x : Op} (hx : x ∈ (w.party .parent).ops) {st : Stage}
    (hstage : x.stage = some st) : who ≠ .parent := by
  rintro rfl
  have hop : op.stage = some st := by
    rw [hops] at hx
    rcases List.mem_cons.mp hx with rfl | hx
    · exact hstage
    · exact (hinv.rest_stage hops x hx).symm.trans hstage
  exact onFailure_none hnone hop (hinv.progress hops hop).1

theorem ahead_fail (hinv : InOrder s w) (hops : (w.party who).ops = op :: rest)
    (hfails : Fails s w who op rest next) {x : PrepareOp}
    (hx : .prepare x ∈ (w.party .parent).ops) :
    .prepare x ∈ (((next.record op false).fail op error).party .parent).ops ∨
      ((next.record op false).fail op error).error.isSome := by
  cases hcleanup : op.onFailure with
  | none =>
      rw [(fail_none_parent hfails hcleanup).1]
      rcases popped_ops_parent (w := w) hops with ⟨hwho, -⟩ | ⟨-, hsame⟩
      · exact absurd hwho (hinv.not_parent hops hcleanup hx rfl)
      · exact Or.inl (hsame ▸ hx)
  | some cleanup =>
      rw [fail_error hcleanup]
      exact Or.inr rfl

theorem Ending.fail (h : Ending w) (hinv : InOrder s w) (hops : (w.party who).ops = op :: rest)
    (hfails : Fails s w who op rest next) : Ending ((next.record op false).fail op error) := by
  have hlog : ((next.record op false).fail op error).log = w.log ++ [⟨op, false⟩] := by
    rw [fail_log, record_log, hfails.read.log]
    rfl
  have hset : ∀ {cleanup}, op.onFailure = some cleanup →
      ((next.record op false).fail op error).error.isSome := by
    intro cleanup hsome
    rw [fail_error hsome]
    rfl
  have hpopped := popped_ops_parent (w := w) hops
  constructor
  case running => rw [hfails.life, h.running]
  case own =>
    intro f hf
    cases hcleanup : op.onFailure with
    | none =>
        rw [(fail_none_parent hfails hcleanup).1] at hf
        exact h.own f (popped_subset hops hf)
    | some cleanup =>
        rw [fail_ops hcleanup] at hf
        simp at hf
  case failed =>
    intro x st hstage howner hmem
    cases hcleanup : op.onFailure with
    | none =>
        rw [(fail_none_parent hfails hcleanup).2]
        rw [hlog] at hmem
        rcases List.mem_append.mp hmem with hmem | hmem
        · exact h.failed x st hstage howner hmem
        · obtain rfl : x = op := by simpa using hmem
          exact absurd howner (onFailure_none hcleanup hstage)
    | some cleanup => exact hset hcleanup
  case finished =>
    intro hnone
    cases hcleanup : op.onFailure with
    | none =>
        obtain ⟨hparty, herror⟩ := @fail_none_parent _ _ _ _ _ _ error hfails hcleanup
        rw [hlog, hparty]
        rcases h.finished (herror ▸ hnone) with hclose | ⟨x, hlast, hx⟩
        · exact Or.inl (List.mem_append_left _ hclose)
        · have hmem : x ∈ (w.party .parent).ops := List.mem_of_getLast? hlast
          obtain ⟨st, hstage⟩ : ∃ st, x.stage = some st := by
            rcases hx with rfl | rfl | rfl <;> exact ⟨_, rfl⟩
          rcases hpopped with ⟨hwho, -⟩ | ⟨-, hsame⟩
          · exact absurd hwho (hinv.not_parent hops hcleanup hmem hstage)
          · exact Or.inr ⟨x, hsame ▸ hlast, hx⟩
    | some cleanup =>
        have hsome := hset hcleanup
        rw [hnone] at hsome
        cases hsome
  case gone =>
    intro other hlife
    rw [hfails.life] at hlife
    obtain ⟨ops, hparty⟩ := @fail_party (next.record op false) other op error
    rw [hparty]
    show (next.party other).keepsChild = false
    rw [hfails.read.party, setOps_keepsChild]
    exact h.gone other hlife
  case dropped =>
    intro hkeeps
    obtain ⟨ops, hparty⟩ := @fail_party (next.record op false) .parent op error
    rw [hparty] at hkeeps
    have hbefore : (w.party .parent).keepsChild = true := by
      have hread : (next.party .parent).keepsChild = true := hkeeps
      rwa [hfails.read.party, setOps_keepsChild] at hread
    rcases h.dropped hbefore with hahead | hsome
    · exact ahead_fail hinv hops hfails hahead
    · cases hcleanup : op.onFailure with
      | none =>
          rw [(fail_none_parent hfails hcleanup).2]
          exact Or.inr hsome
      | some cleanup => exact Or.inr (hset hcleanup)

theorem Ending.leave (h : Ending w) (hwho : who ≠ .parent) : Ending (w.leave who) := by
  have hparent : (w.leave who).party .parent = w.party .parent :=
    leave_party_other hwho.symm
  refine ⟨hparent ▸ h.running, hparent ▸ h.own, h.failed, hparent ▸ h.finished, ?_,
    hparent ▸ h.dropped⟩
  exact h.gone.update fun _ => rfl

theorem Ending.kill (h : Ending w) (hwho : who ≠ .parent) :
    Ending (w.update who fun p => { p with killed := true }) := by
  have hparent : (w.update who fun p => { p with killed := true }).party .parent =
      w.party .parent := update_party_other w who _ _ hwho.symm
  refine ⟨hparent ▸ h.running, hparent ▸ h.own, h.failed, hparent ▸ h.finished, ?_,
    hparent ▸ h.dropped⟩
  exact h.gone.update (h.gone who)

theorem Ending.opened (h : Ending w) :
    Ending ({ w with reader := true }.record .readerOpens true) where
  running := h.running
  own := h.own
  failed := by simpa using h.failed
  finished := by simpa using h.finished
  gone := h.gone
  dropped := h.dropped

end ending

/-! ## Runs -/

/-- What holds of every world a create can get into, from its beginning to its end. -/
structure Whole (s : Setting) (w : World) : Prop extends Sound s w where
  stepwise : Stepwise s w
  ending : Ending w

section runs
variable {s : Setting} {w w' : World}

theorem Whole.step {event : Event} (h : Whole s w) (hstep : step s w event = some w') :
    Whole s w' := by
  refine ⟨h.toSound.step hstep, h.stepwise.step h.inOrder hstep, ?_⟩
  cases event <;> simp only [Protocol.step, Option.ite_none_right_eq_some] at hstep
  case act who fault =>
    obtain ⟨op, rest, hops, ⟨next, hdone, rfl⟩ | ⟨error, next, hfails, rfl⟩⟩ :=
      act_cases hstep.2
    · exact h.ending.done h.inOrder hops hdone
    · exact h.ending.fail h.inOrder hops hfails
  case die who =>
    obtain rfl := Option.some.inj hstep.2
    apply h.ending.leave
    rintro rfl
    rw [h.cleaning.alive] at hstep
    cases hstep.1.2
  case kill who => exact Option.some.inj hstep.2 ▸ h.ending.kill hstep.1.1
  case reader => exact Option.some.inj hstep ▸ h.ending.opened

theorem whole_start (s : Setting) (dir : Bool) : Whole s (start s dir false) :=
  ⟨⟨inOrder_start s dir false, children_start s dir false, cleaning_start s dir⟩,
    stepwise_start s dir false, ending_start s dir false⟩

theorem whole_run {dir : Bool} {events : List Event}
    (h : Transition.run (Protocol.step s) (start s dir false) events = some w) : Whole s w :=
  Transition.run_invariant (fun _ _ _ hinv hstep => hinv.step hstep) (whole_start s dir) h

end runs

end Mars.Protocol
