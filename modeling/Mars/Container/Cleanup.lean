import Mars.Container.Children

/-! # What a failed create leaves behind

What the runtime still has to clean up is among its remaining steps, wherever
the failure was. A child is left only if it waits, and none waits for ever: the
socket closes, and a process that no longer listens to it is in the cgroup.
-/

namespace Mars.Protocol
open Spec Namespace Hooks Sync History

/-! ## What is left to clean up -/

/-- The step is still to come, or it has failed. -/
def Pending (w : World) (op : CleanupOp) : Prop :=
  .cleanup op ∈ (w.party .parent).ops ∨ ⟨.cleanup op, false⟩ ∈ w.log

structure Cleaning (s : Setting) (w : World) : Prop where
  cleanup : w.error.isSome → ∀ op ∈ (w.party .parent).ops, ∃ c, op = .cleanup c
  alive : (w.party .parent).killed = false
  fresh : .prepare .checkState ∈ (w.party .parent).ops → w.stateFile = false
  unpaired : .prepare .pair ∈ (w.party .parent).ops → (w.party .parent).keepsParent = false
  unsettled : ∀ x, .prepare x ∈ (w.party .parent).ops → ∀ y ok, ⟨.settle y, ok⟩ ∉ w.log
  waited : ⟨.settle .waitIntermediate, true⟩ ∈ w.log → (w.party .intermediate).life = .exited
  placed : s.initPid ∈ w.placed ↔ ⟨.settle (.addProcess s.initPid), true⟩ ∈ w.log
  dir : w.error.isSome → w.dir = true → Pending w .removeDirAll
  channel : w.error.isSome → (w.party .parent).keepsParent = true → Pending w .closeChannel
  killed : w.error.isSome → s.initPid ∈ w.placed → (w.party .init).life = .running →
    (w.party .init).killed = true ∨ Pending w .teardownKill

theorem cleaning_start (s : Setting) (dir : Bool) : Cleaning s (start s dir false) where
  cleanup := nofun
  alive := rfl
  fresh := fun _ => rfl
  unpaired := fun _ => rfl
  unsettled := by simp [start]
  waited := by simp [start]
  placed := by simp [start]
  dir := nofun
  channel := nofun
  killed := nofun

/-! ## What a step changes -/

section effects
variable {s : Setting} {w next : World} {who : Who} {op : Op}

theorem Effect.error (h : Effect s w who op next) : next.error = w.error := by cases h <;> rfl

theorem Effect.stateFile (h : Effect s w who op next) (hfile : next.stateFile = true) :
    w.stateFile = true ∨ ∃ pid, op = .settle (.save pid) := by
  cases h with
  | save pid => exact Or.inr ⟨pid, rfl⟩
  | removeDirAll => cases hfile
  | _ => exact Or.inl hfile

theorem Effect.dir (h : Effect s w who op next) (hdir : next.dir = true) :
    w.dir = true ∨ op = .prepare .createDirAll ∨ ∃ pid, op = .settle (.save pid) := by
  cases h with
  | createDirAll => exact Or.inr (Or.inl rfl)
  | save pid => exact Or.inr (Or.inr ⟨pid, rfl⟩)
  | removeDirAll => cases hdir
  | _ => exact Or.inl hdir

theorem Effect.placed (h : Effect s w who op next) {pid : Int} (hpid : pid ∈ next.placed) :
    pid ∈ w.placed ∨ op = .settle (.addProcess pid) := by
  cases h with
  | addProcess added =>
      rcases List.mem_cons.mp hpid with rfl | hpid
      · exact Or.inr rfl
      · exact Or.inl hpid
  | _ => exact Or.inl hpid

theorem Effect.placed_mono (h : Effect s w who op next) {pid : Int} (hpid : pid ∈ w.placed) :
    pid ∈ next.placed := by
  cases h with
  | addProcess added => exact List.mem_cons_of_mem _ hpid
  | _ => exact hpid

theorem touches_parent (h : touches .parent op = true) :
    op = .prepare .pair ∨ op = .prepare .dropChild ∨ op = .prepare .recv ∨ op = .mapping .recv ∨
      op = .settle .close ∨ op = .cleanup .closeChannel ∨ op = .failing .exit := by
  unfold touches at h
  split at h <;> simp_all

theorem leave_party_other {other : Who} (h : other ≠ who) :
    (w.leave who).party other = w.party other := update_party_other w who other _ h

/-- What a step can do to the runtime itself. -/
inductive OnParent (who : Who) (p : Party) : Op → Party → Prop
  | untouched {op : Op} (htouch : touches .parent op = false) : OnParent who p op p
  | pair : OnParent who p (.prepare .pair) { p with keepsParent := true, keepsChild := true }
  | dropChild : OnParent who p (.prepare .dropChild) { p with keepsChild := false }
  | recv {op : Op} {ops : List Op} (hop : op = .prepare .recv ∨ op = .mapping .recv)
      (hlater : ∀ x, .prepare x ∉ ops) : OnParent who p op { p with ops := ops }
  | close : OnParent who p (.settle .close) { p with keepsParent := false }
  | closeChannel : OnParent who p (.cleanup .closeChannel)
      { p with keepsParent := false, keepsChild := false }
  | exit (hwho : who = .parent) : OnParent who p (.failing .exit)
      { p with life := .exited, ops := [], keepsParent := false, keepsChild := false }
  | exitOther (hwho : who ≠ .parent) : OnParent who p (.failing .exit) p

theorem Effect.onParent (h : Effect s w who op next) :
    OnParent who (w.party .parent) op (next.party .parent) := by
  cases htouch : touches .parent op with
  | false =>
      rw [h.untouched htouch]
      exact .untouched htouch
  | true =>
      cases h with
      | pair => exact .pair
      | dropChild => exact .dropChild
      | recvRequest hop => exact .recv hop (by simp)
      | recvInitPid hop => exact .recv hop (by simp)
      | close => exact .close
      | closeChannel => exact .closeChannel
      | exitFailing =>
          by_cases hwho : who = .parent
          · subst hwho
            exact .exit rfl
          · rw [leave_party_other (Ne.symm hwho)]
            exact .exitOther hwho
      | quiet hquiet =>
          rcases touches_parent htouch with rfl | rfl | rfl | rfl | rfl | rfl | rfl <;> cases hquiet
      | sendToChild hsends => cases hsends <;> cases htouch
      | sendToParent hsends => cases hsends <;> cases htouch
      | expectFromParent hexpects => cases hexpects <;> cases htouch
      | _ => cases htouch

section runtime
variable {p p' : Party}

theorem OnParent.ops (h : OnParent who p op p')
    (hrecv : op ≠ .prepare .recv ∧ op ≠ .mapping .recv)
    (hexit : op = .failing .exit → who ≠ .parent) : p'.ops = p.ops := by
  cases h with
  | recv hop => exact absurd hop (not_or.mpr hrecv)
  | exit hwho => exact absurd hwho (hexit rfl)
  | _ => rfl

/-- No step brings back one of the first program. -/
theorem OnParent.prepare (h : OnParent who p op p') {x : PrepareOp} (hx : .prepare x ∈ p'.ops) :
    .prepare x ∈ p.ops := by
  cases h with
  | recv hop hlater => exact absurd hx (hlater x)
  | exit hwho => cases hx
  | _ => exact hx

theorem OnParent.life (h : OnParent who p op p') (hexit : op = .failing .exit → who ≠ .parent) :
    p'.life = p.life := by
  cases h with
  | exit hwho => exact absurd hwho (hexit rfl)
  | _ => rfl

theorem OnParent.killed (h : OnParent who p op p') : p'.killed = p.killed := by
  cases h <;> rfl

theorem OnParent.keepsParent (h : OnParent who p op p') (hkeeps : p'.keepsParent = true) :
    (p.keepsParent = true ∧ op ≠ .cleanup .closeChannel) ∨ op = .prepare .pair := by
  cases h with
  | pair => exact Or.inr rfl
  | untouched htouch =>
      refine Or.inl ⟨hkeeps, ?_⟩
      rintro rfl
      cases htouch
  | recv hop => exact Or.inl ⟨hkeeps, by rcases hop with rfl | rfl <;> simp⟩
  | dropChild => exact Or.inl ⟨hkeeps, by simp⟩
  | exitOther => exact Or.inl ⟨hkeeps, by simp⟩
  | close => cases hkeeps
  | closeChannel => cases hkeeps
  | exit => cases hkeeps

/-- The runtime gives up its own end only where it is done with it. -/
theorem OnParent.keepsParent_still (h : OnParent who p op p') (hkeeps : p.keepsParent = true)
    (hclose : op ≠ .settle .close ∧ op ≠ .cleanup .closeChannel)
    (hexit : op = .failing .exit → who ≠ .parent) : p'.keepsParent = true := by
  cases h with
  | pair => rfl
  | close => exact absurd rfl hclose.1
  | closeChannel => exact absurd rfl hclose.2
  | exit hwho => exact absurd hwho (hexit rfl)
  | _ => exact hkeeps

/-- The runtime has a copy of the children's end only between making and dropping it. -/
theorem OnParent.keepsChild (h : OnParent who p op p') (hkeeps : p'.keepsChild = true) :
    (p.keepsChild = true ∧ op ≠ .prepare .dropChild) ∨ op = .prepare .pair := by
  cases h with
  | pair => exact Or.inr rfl
  | untouched htouch =>
      refine Or.inl ⟨hkeeps, ?_⟩
      rintro rfl
      cases htouch
  | recv hop => exact Or.inl ⟨hkeeps, by rcases hop with rfl | rfl <;> simp⟩
  | close => exact Or.inl ⟨hkeeps, by simp⟩
  | exitOther => exact Or.inl ⟨hkeeps, by simp⟩
  | dropChild => cases hkeeps
  | closeChannel => cases hkeeps
  | exit => cases hkeeps

end runtime

end effects

/-! ## Steps that succeed -/

section done
variable {s : Setting} {w next : World} {who : Who} {op : Op} {rest : List Op}

/-- A party's remaining steps are of the stage it is in. -/
theorem InOrder.same_stage {st : Stage} (hinv : InOrder s w) (hops : (w.party who).ops = op :: rest)
    (hstage : op.stage = some st) {x : Op} (hx : x ∈ (w.party who).ops) : x.stage = some st := by
  obtain ⟨-, done, hsplit, -⟩ := hinv.progress hops hstage
  apply stage_of_mem_program (s := s)
  rw [hsplit, ← hops]
  exact List.mem_append_right _ hx

theorem prepareProgram_nodup (plan : Plan) : (prepareProgram plan).Nodup := by
  unfold prepareProgram ifTrue
  cases plan.overlay <;> cases plan.resources <;> cases plan.console <;> decide

theorem count_prepare (s : Setting) (x : PrepareOp) :
    (program s .prepare).count (.prepare x) ≤ 1 := by
  apply List.nodup_iff_count_le_one.mp
  exact (prepareProgram_nodup s.plan).map fun _ _ => Op.prepare.inj

/-- While the runtime cleans up it does nothing else. -/
theorem Cleaning.only_cleanup (h : Cleaning s w) (hops : (w.party who).ops = op :: rest)
    (herror : w.error.isSome) (hwho : who = .parent) : ∃ c, op = .cleanup c := by
  subst hwho
  exact h.cleanup herror op (hops ▸ List.mem_cons_self)

theorem Cleaning.not_parental (h : Cleaning s w) (hinv : InOrder s w)
    (hops : (w.party who).ops = op :: rest) (herror : w.error.isSome) {st : Stage}
    (hstage : op.stage = some st) : st.owner ≠ .parent := by
  intro howner
  obtain ⟨hwho, -⟩ := hinv.progress hops hstage
  obtain ⟨c, rfl⟩ := h.only_cleanup hops herror (hwho.symm.trans howner)
  cases hstage

theorem Cleaning.ops_done (h : Cleaning s w) (hinv : InOrder s w)
    (hops : (w.party who).ops = op :: rest)
    (hdone : perform s (w.setOps who rest) who op = .done next) (herror : w.error.isSome) :
    (next.party .parent).ops = ((w.setOps who rest).party .parent).ops := by
  apply (perform_done hdone).onParent.ops
  · constructor
    · rintro rfl
      exact h.not_parental hinv hops herror rfl rfl
    · rintro rfl
      exact h.not_parental hinv hops herror rfl rfl
  · rintro rfl hwho
    obtain ⟨c, heq⟩ := h.only_cleanup hops herror hwho
    cases heq

/-- A pending step stays pending until it is performed. -/
theorem Cleaning.pending_done (h : Cleaning s w) (hinv : InOrder s w)
    (hops : (w.party who).ops = op :: rest)
    (hdone : perform s (w.setOps who rest) who op = .done next) (herror : w.error.isSome)
    {c : CleanupOp} (hpending : Pending w c) :
    Pending (next.record op true) c ∨ op = .cleanup c := by
  rcases hpending with hleft | hfailed
  · by_cases hwho : who = .parent
    · subst hwho
      rw [hops] at hleft
      rcases List.mem_cons.mp hleft with heq | hleft
      · exact Or.inr heq.symm
      · left
        left
        rw [record_party, h.ops_done hinv hops hdone herror, setOps_ops_self]
        exact hleft
    · left
      left
      rw [record_party, h.ops_done hinv hops hdone herror,
        setOps_party_other w who _ rest (Ne.symm hwho)]
      exact hleft
  · left
    right
    rw [record_log, (perform_done hdone).log]
    exact List.mem_append_left _ hfailed

/-- The socket pair is made once. -/
theorem InOrder.pair_once (hinv : InOrder s w)
    (hops : (w.party who).ops = .prepare .pair :: rest) :
    .prepare .pair ∉ ((w.setOps who rest).party .parent).ops := by
  obtain ⟨rfl, -⟩ := hinv.progress hops rfl
  rw [show Stage.owner .prepare = .parent from rfl, setOps_ops_self]
  exact hinv.not_again hops rfl (count_prepare s .pair)

/-- The intermediate stays gone: only the first program forks it. -/
theorem Cleaning.gone_done (h : Cleaning s w) (hinv : InOrder s w)
    (hops : (w.party who).ops = op :: rest)
    (hdone : perform s (w.setOps who rest) who op = .done next)
    (hwaited : ⟨.settle .waitIntermediate, true⟩ ∈ w.log) :
    (next.party .intermediate).life = .exited := by
  have hgone := h.waited hwaited
  cases htouch : touches .intermediate op with
  | false => rw [(perform_done hdone).untouched htouch, setOps_life, hgone]
  | true =>
      rcases touches_intermediate htouch with rfl | rfl | rfl | rfl
      · obtain ⟨rfl, -⟩ := hinv.progress hops rfl
        have hmem : .prepare .fork ∈ (w.party .parent).ops :=
          (show (w.party .parent).ops = _ from hops) ▸ List.mem_cons_self
        exact absurd hwaited (h.unsettled _ hmem _ _)
      · cases hdone
        simp [hgone]
      · cases hdone
        simp [World.leave]
      · cases hdone
        rw [World.leave, update_party]
        split
        next => rfl
        next => rw [setOps_life, hgone]

theorem InOrder.waited_first (hinv : InOrder s w)
    (hplaced : ⟨.settle (.addProcess s.initPid), true⟩ ∈ w.log) :
    ⟨.settle .waitIntermediate, true⟩ ∈ w.log := by
  have hfront : [.waitIntermediate] <+: settleProgram s.plan s.initPid := ⟨_, rfl⟩
  have hfirst : Precedes w.log ⟨.settle .waitIntermediate, true⟩
      fun e => e.op = .settle (.addProcess s.initPid) := by
    apply hinv.across (hfront.map Op.settle) rfl <;> simp
  exact hfirst.mem hplaced rfl

/-- Init does not come back after it is in the cgroup. -/
theorem Cleaning.killed_done (h : Cleaning s w) (hinv : InOrder s w)
    (hops : (w.party who).ops = op :: rest) (hlife : (w.party who).life = .running)
    (hdone : perform s (w.setOps who rest) who op = .done next)
    (hplaced : s.initPid ∈ w.placed) (hrunning : (next.party .init).life = .running) :
    (w.party .init).life = .running ∧
      ((w.party .init).killed = true → (next.party .init).killed = true) := by
  cases htouch : touches .init op with
  | false =>
      have hsame := (perform_done hdone).untouched htouch
      rw [hsame] at hrunning ⊢
      exact ⟨by simpa using hrunning, by simp⟩
  | true =>
      rcases touches_init htouch with rfl | rfl | rfl | rfl
      · obtain ⟨rfl, -⟩ := hinv.progress hops rfl
        have hgone := h.waited (hinv.waited_first (h.placed.mp hplaced))
        rw [show (w.party .intermediate).life = .running from hlife] at hgone
        cases hgone
      · cases hdone
        exact ⟨by simpa using hrunning, by simp⟩
      · simp only [perform, performCleanup] at hdone
        split at hdone <;> cases hdone
        · exact ⟨by simpa using hrunning, by simp⟩
        · exact ⟨by simpa using hrunning, by simp⟩
      · cases hdone
        rw [World.leave, update_party] at hrunning ⊢
        split at hrunning
        next => cases hrunning
        next hne =>
          rw [if_neg hne]
          exact ⟨by simpa using hrunning, by simp⟩

theorem Cleaning.done (h : Cleaning s w) (hinv : InOrder s w)
    (hops : (w.party who).ops = op :: rest) (hlife : (w.party who).life = .running)
    (hdone : perform s (w.setOps who rest) who op = .done next) :
    Cleaning s (next.record op true) := by
  have heffect := perform_done hdone
  have hlog : next.log = w.log := heffect.log
  have herror : next.error = w.error := heffect.error
  have hfirst : ∀ {x : PrepareOp}, .prepare x ∈ (next.party .parent).ops →
      .prepare x ∈ (w.party .parent).ops :=
    fun hx => popped_subset hops (heffect.onParent.prepare hx)
  -- the runtime is in one program at a time
  have hother : ∀ {x : PrepareOp} {y : SettleOp}, op = .settle y →
      .prepare x ∉ (w.party .parent).ops := by
    rintro x y rfl hx
    obtain ⟨rfl, -⟩ := hinv.progress hops rfl
    have hstage := hinv.same_stage hops rfl hx
    cases hstage
  constructor
  case cleanup =>
    intro hsome x hx
    rw [record_party] at hx
    have hsome' : w.error.isSome := herror ▸ hsome
    rw [h.ops_done hinv hops hdone hsome'] at hx
    exact h.cleanup hsome' x (popped_subset hops hx)
  case alive =>
    rw [record_party, heffect.onParent.killed, setOps_killed]
    exact h.alive
  case fresh =>
    intro hx
    have hbefore := hfirst hx
    rw [Bool.eq_false_iff]
    intro hfile
    rcases heffect.stateFile hfile with hfile | ⟨pid, hop⟩
    · exact Bool.eq_false_iff.mp (h.fresh hbefore) hfile
    · exact hother hop hbefore
  case unpaired =>
    intro hx
    rw [record_party, Bool.eq_false_iff]
    intro hkeeps
    rcases heffect.onParent.keepsParent hkeeps with ⟨hkeeps, -⟩ | rfl
    · rw [setOps_keepsParent] at hkeeps
      exact Bool.eq_false_iff.mp (h.unpaired (hfirst hx)) hkeeps
    · exact hinv.pair_once hops (heffect.onParent.prepare hx)
  case unsettled =>
    intro x hx y ok hmem
    have hbefore := hfirst hx
    rw [record_log, hlog] at hmem
    rcases List.mem_append.mp hmem with hmem | hmem
    · exact h.unsettled x hbefore y ok hmem
    · exact hother (by simpa using (congrArg Entry.op (List.mem_singleton.mp hmem)).symm) hbefore
  case waited =>
    intro hmem
    rw [record_log, hlog] at hmem
    rcases List.mem_append.mp hmem with hmem | hmem
    · rw [record_party]
      exact h.gone_done hinv hops hdone hmem
    · obtain rfl : .settle .waitIntermediate = op := by simpa using hmem
      simp only [perform, performSettle] at hdone
      split at hdone
      next hgone =>
        cases hdone
        exact hgone
      next => cases hdone
  case placed =>
    rw [record_log, hlog]
    constructor
    · intro hpid
      rcases heffect.placed hpid with hpid | rfl
      · exact List.mem_append_left _ (h.placed.mp hpid)
      · simp
    · intro hmem
      rcases List.mem_append.mp hmem with hmem | hmem
      · exact heffect.placed_mono (h.placed.mpr hmem)
      · obtain rfl : .settle (.addProcess s.initPid) = op := by simpa using hmem
        cases hdone
        exact List.mem_cons_self
  case dir =>
    intro hsome hdir
    have hsome' : w.error.isSome := herror ▸ hsome
    have hstaged : ∀ {st}, op.stage = some st → st.owner ≠ .parent :=
      h.not_parental hinv hops hsome'
    rcases heffect.dir hdir with hdir' | rfl | ⟨pid, rfl⟩
    · rcases h.pending_done hinv hops hdone hsome' (h.dir hsome' hdir') with hleft | rfl
      · exact hleft
      · cases hdone
        cases hdir
    · exact absurd rfl (hstaged rfl)
    · exact absurd rfl (hstaged rfl)
  case channel =>
    intro hsome hkeeps
    have hsome' : w.error.isSome := herror ▸ hsome
    rcases heffect.onParent.keepsParent hkeeps with ⟨hkeeps, hne⟩ | rfl
    · rw [setOps_keepsParent] at hkeeps
      exact (h.pending_done hinv hops hdone hsome' (h.channel hsome' hkeeps)).resolve_right hne
    · exact absurd rfl (h.not_parental hinv hops hsome' rfl)
  case killed =>
    intro hsome hpid hrunning
    have hsome' : w.error.isSome := herror ▸ hsome
    rcases heffect.placed hpid with hplaced | rfl
    · obtain ⟨hwas, hkept⟩ := h.killed_done hinv hops hlife hdone hplaced hrunning
      rcases h.killed hsome' hplaced hwas with hkilled | hpending
      · exact Or.inl (hkept hkilled)
      · rcases h.pending_done hinv hops hdone hsome' hpending with hleft | rfl
        · exact Or.inr hleft
        · left
          simp only [perform, performCleanup] at hdone
          split at hdone
          next =>
            cases hdone
            simp
          next hnone => exact absurd ⟨hplaced, by simpa using hwas⟩ hnone
    · exact absurd rfl (h.not_parental hinv hops hsome' rfl)

end done

/-! ## Steps that fail -/

section failed
variable {s : Setting} {w next : World} {who : Who} {op : Op} {rest : List Op} {error : Error}

@[simp] theorem fail_dir : (w.fail op error).dir = w.dir := by cases op <;> rfl
@[simp] theorem fail_stateFile : (w.fail op error).stateFile = w.stateFile := by cases op <;> rfl
@[simp] theorem fail_placed : (w.fail op error).placed = w.placed := by cases op <;> rfl

/-- What the runtime does about a failure, if it is its own. -/
def Op.onFailure : Op → Option (List CleanupOp)
  | .prepare op => some (prepareCleanup op)
  | .mapping _ => some handshakeCleanup
  | .settle _ => some handshakeCleanup
  | _ => none

theorem fail_ops {cleanup : List CleanupOp} (h : op.onFailure = some cleanup) :
    ((w.fail op error).party .parent).ops = cleanup.map .cleanup := by
  cases op <;> cases h <;> exact setOps_ops_self w _ _

theorem fail_parent (h : op.onFailure = none) :
    (w.fail op error).party .parent = w.party .parent ∧ (w.fail op error).error = w.error := by
  cases op with
  | intermediate op => exact ⟨setOps_party_other w _ _ _ nofun, rfl⟩
  | init op => exact ⟨setOps_party_other w _ _ _ nofun, rfl⟩
  | prepare op => cases h
  | mapping op => cases h
  | settle op => cases h
  | _ => exact ⟨rfl, rfl⟩

theorem removeDirAll_mem_cleanup {cleanup : List CleanupOp} (h : op.onFailure = some cleanup)
    (hstate : op ≠ .prepare .checkState) (hdir : op ≠ .prepare .createDirAll) :
    .removeDirAll ∈ cleanup := by
  cases op with
  | prepare op =>
      cases h
      cases op <;> simp_all [prepareCleanup, handshakeCleanup]
  | mapping op =>
      cases h
      decide
  | settle op =>
      cases h
      decide
  | _ => cases h

/-- The first program's last steps, from the socket pair on. -/
def channelSteps : List PrepareOp := [.pair, .fork, .dropChild, .recv]

theorem closeChannel_mem_cleanup {cleanup : List CleanupOp} (h : op.onFailure = some cleanup) :
    .closeChannel ∈ cleanup ∨
      ∃ x, op = .prepare x ∧ (x = .pair ∨ x ∉ channelSteps) := by
  cases op with
  | prepare op =>
      cases h
      cases op <;> simp [prepareCleanup, handshakeCleanup, channelSteps]
  | mapping op =>
      cases h
      exact Or.inl (by decide)
  | settle op =>
      cases h
      exact Or.inl (by decide)
  | _ => cases h

theorem teardownKill_mem_cleanup {cleanup : List CleanupOp} (h : op.onFailure = some cleanup) :
    .teardownKill ∈ cleanup ∨ ∃ x, op = .prepare x := by
  cases op with
  | prepare op => exact Or.inr ⟨op, rfl⟩
  | mapping op =>
      cases h
      exact Or.inl (by decide)
  | settle op =>
      cases h
      exact Or.inl (by decide)
  | _ => cases h

/-- Before the socket pair is made it is still to come. -/
theorem InOrder.pair_ahead (hinv : InOrder s w) {x : PrepareOp}
    (hops : (w.party who).ops = .prepare x :: rest) (hx : x = .pair ∨ x ∉ channelSteps) :
    .prepare .pair ∈ (w.party .parent).ops := by
  obtain ⟨rfl, hprogress⟩ := hinv.progress hops rfl
  rw [show (w.party .parent).ops = _ from hops]
  rcases hx with rfl | hx
  · exact List.mem_cons_self
  · have hback : channelSteps.map Op.prepare <:+ program s .prepare := by
      apply List.IsSuffix.map
      exact ⟨_ ++ [.setChildSubreaper, .blockForwardable], List.append_assoc _ _ _⟩
    have hleft : channelSteps.map Op.prepare <:+ rest := by
      apply hprogress.suffix hback
      rwa [List.mem_map_of_injective fun _ _ => Op.prepare.inj]
    exact List.mem_cons_of_mem _ (hleft.subset (by simp [channelSteps]))

/-- A failure of the runtime's own finds everything left to do in its cleanup. -/
theorem Cleaning.failed_runtime {cleanup : List CleanupOp} (hw : Cleaning s w)
    (hinv : InOrder s w) (hops : (w.party who).ops = op :: rest)
    (h : Fails s w who op rest next) (hcleanup : op.onFailure = some cleanup)
    (hparent : who = .parent) : Cleaning s ((next.record op false).fail op error) := by
  have hnew : (((next.record op false).fail op error).party .parent).ops =
      cleanup.map .cleanup := fail_ops hcleanup
  have hno : ∀ {x : PrepareOp}, .prepare x ∉
      (((next.record op false).fail op error).party .parent).ops := by
    intro x hx
    simp [hnew] at hx
  have hlog : ((next.record op false).fail op error).log = w.log ++ [⟨op, false⟩] := by
    rw [fail_log, record_log, h.read.log]
    rfl
  have hpending : ∀ {c}, c ∈ cleanup → Pending ((next.record op false).fail op error) c := by
    intro c hc
    left
    rw [hnew]
    exact List.mem_map_of_mem hc
  have hhead : op ∈ (w.party .parent).ops := hparent ▸ hops ▸ List.mem_cons_self
  constructor
  case cleanup =>
    intro _ x hx
    rw [hnew] at hx
    obtain ⟨c, -, rfl⟩ := List.mem_map.mp hx
    exact ⟨c, rfl⟩
  case alive =>
    rw [h.killed]
    exact hw.alive
  case fresh => exact fun hx => absurd hx hno
  case unpaired => exact fun hx => absurd hx hno
  case unsettled => exact fun x hx => absurd hx hno
  case waited =>
    intro hmem
    rw [hlog] at hmem
    rw [h.life]
    exact hw.waited (by simpa using hmem)
  case placed =>
    rw [hlog, fail_placed, record_placed, h.read.placed]
    simpa using hw.placed
  case dir =>
    intro _ hdir
    apply hpending
    apply removeDirAll_mem_cleanup hcleanup
    · rintro rfl
      obtain hable | ⟨error, herror⟩ := h.able
      · cases hable
      · simp only [perform, performPrepare] at herror
        split at herror
        next hfile =>
          rw [setOps_stateFile, hw.fresh hhead] at hfile
          cases hfile
        next => cases herror
    · rintro rfl
      rw [fail_dir, record_dir, h.read.dir, setOps_dir] at hdir
      obtain hable | ⟨error, herror⟩ := h.able
      · simp [fallible, hdir] at hable
      · cases herror
  case channel =>
    intro _ hkeeps
    apply hpending
    rcases closeChannel_mem_cleanup hcleanup with hmem | ⟨x, rfl, hx⟩
    · exact hmem
    · rw [h.keepsParent, hw.unpaired (hinv.pair_ahead hops hx)] at hkeeps
      cases hkeeps
  case killed =>
    intro _ hpid _
    right
    apply hpending
    rcases teardownKill_mem_cleanup hcleanup with hmem | ⟨x, rfl⟩
    · exact hmem
    · rw [fail_placed, record_placed, h.read.placed] at hpid
      exact absurd (hw.placed.mp hpid) (hw.unsettled x hhead _ _)

/-- Any other failure leaves the runtime as it was, less a step that has failed. -/
theorem Cleaning.failed_other (hw : Cleaning s w) (hops : (w.party who).ops = op :: rest)
    (h : Fails s w who op rest next) (hcleanup : op.onFailure = none) :
    Cleaning s ((next.record op false).fail op error) := by
  obtain ⟨hparent, herror⟩ := @fail_parent (next.record op false) op error hcleanup
  have hlog : ((next.record op false).fail op error).log = w.log ++ [⟨op, false⟩] := by
    rw [fail_log, record_log, h.read.log]
    rfl
  have hops' : (((next.record op false).fail op error).party .parent).ops =
      ((w.setOps who rest).party .parent).ops := by
    rw [hparent, record_party, h.read.party]
  have herror' : ((next.record op false).fail op error).error = w.error := by
    rw [herror, record_error, h.read.error_eq, setOps_error]
  have hsub : ∀ {x}, x ∈ (((next.record op false).fail op error).party .parent).ops →
      x ∈ (w.party .parent).ops := by
    intro x hx
    rw [hops'] at hx
    exact popped_subset hops hx
  have hpending : ∀ {c}, Pending w c → Pending ((next.record op false).fail op error) c := by
    rintro c (hleft | hfailed)
    · by_cases hwho : who = .parent
      · subst hwho
        rw [hops] at hleft
        rcases List.mem_cons.mp hleft with rfl | hleft
        · right
          rw [hlog]
          simp
        · left
          rw [hops', setOps_ops_self]
          exact hleft
      · left
        rw [hops', setOps_party_other w who _ rest (Ne.symm hwho)]
        exact hleft
    · right
      rw [hlog]
      exact List.mem_append_left _ hfailed
  constructor
  case cleanup => exact fun hsome x hx => hw.cleanup (herror' ▸ hsome) x (hsub hx)
  case alive =>
    rw [h.killed]
    exact hw.alive
  case fresh =>
    intro hx
    rw [fail_stateFile, record_stateFile, h.read.stateFile]
    exact hw.fresh (hsub hx)
  case unpaired =>
    intro hx
    rw [h.keepsParent]
    exact hw.unpaired (hsub hx)
  case unsettled =>
    intro x hx y ok hmem
    rw [hlog] at hmem
    rcases List.mem_append.mp hmem with hmem | hmem
    · exact hw.unsettled x (hsub hx) y ok hmem
    · obtain ⟨rfl, rfl⟩ : .settle y = op ∧ ok = false := by simpa using hmem
      cases hcleanup
  case waited =>
    intro hmem
    rw [hlog] at hmem
    rw [h.life]
    exact hw.waited (by simpa using hmem)
  case placed =>
    rw [hlog, fail_placed, record_placed, h.read.placed]
    simpa using hw.placed
  case dir =>
    intro hsome hdir
    rw [fail_dir, record_dir, h.read.dir] at hdir
    exact hpending (hw.dir (herror' ▸ hsome) hdir)
  case channel =>
    intro hsome hkeeps
    rw [h.keepsParent] at hkeeps
    exact hpending (hw.channel (herror' ▸ hsome) hkeeps)
  case killed =>
    intro hsome hpid hrunning
    rw [h.life] at hrunning
    rw [h.killed]
    rw [fail_placed, record_placed, h.read.placed] at hpid
    exact (hw.killed (herror' ▸ hsome) hpid hrunning).imp_right hpending

theorem onFailure_parental {cleanup : List CleanupOp} (h : op.onFailure = some cleanup) :
    ∃ st, op.stage = some st ∧ st.owner = .parent := by
  cases op <;> cases h <;> exact ⟨_, rfl, rfl⟩

theorem Cleaning.failed (hw : Cleaning s w) (hinv : InOrder s w)
    (hops : (w.party who).ops = op :: rest) (h : Fails s w who op rest next) :
    Cleaning s ((next.record op false).fail op error) := by
  cases hcleanup : op.onFailure with
  | none => exact hw.failed_other hops h hcleanup
  | some cleanup =>
      obtain ⟨st, hstage, howner⟩ := onFailure_parental hcleanup
      obtain ⟨hwho, -⟩ := hinv.progress hops hstage
      exact hw.failed_runtime hinv hops h hcleanup (hwho.symm.trans howner)

end failed

/-! ## Runs -/

section runs
variable {s : Setting} {w w' : World} {who : Who} {op : Op} {rest : List Op}

theorem Cleaning.leave (hw : Cleaning s w) (hwho : who ≠ .parent) : Cleaning s (w.leave who) where
  cleanup := by
    rw [leave_party_other hwho.symm]
    exact hw.cleanup
  alive := by
    rw [leave_party_other hwho.symm]
    exact hw.alive
  fresh := by
    rw [leave_party_other hwho.symm]
    exact hw.fresh
  unpaired := by
    rw [leave_party_other hwho.symm]
    exact hw.unpaired
  unsettled := by
    rw [leave_party_other hwho.symm]
    exact hw.unsettled
  waited := by
    rw [World.leave, update_party]
    split
    next => exact fun _ => rfl
    next => exact hw.waited
  placed := hw.placed
  dir := by
    unfold Pending
    rw [leave_party_other hwho.symm]
    exact hw.dir
  channel := by
    unfold Pending
    rw [leave_party_other hwho.symm]
    exact hw.channel
  killed := by
    unfold Pending
    rw [leave_party_other hwho.symm, World.leave, update_party]
    split
    next =>
      intro _ _ hlife
      cases hlife
    next => exact hw.killed

theorem kill_party {other : Who} :
    ∃ killed, ((w.update who fun p => { p with killed := true }).party other) =
      { w.party other with killed := killed } := by
  rw [update_party]
  split
  next heq => exact ⟨true, by rw [heq]⟩
  next => exact ⟨(w.party other).killed, rfl⟩

theorem Cleaning.kill (hw : Cleaning s w) (hwho : who ≠ .parent) :
    Cleaning s (w.update who fun p => { p with killed := true }) := by
  have hparent : (w.update who fun p => { p with killed := true }).party .parent =
      w.party .parent := update_party_other w who _ _ hwho.symm
  constructor
  case waited =>
    obtain ⟨killed, heq⟩ := @kill_party w who .intermediate
    rw [heq]
    exact hw.waited
  case killed =>
    unfold Pending
    rw [hparent, update_party]
    split
    next heq => exact fun _ _ _ => Or.inl rfl
    next => exact hw.killed
  case placed => exact hw.placed
  all_goals
    try unfold Pending
    rw [hparent]
  case cleanup => exact hw.cleanup
  case alive => exact hw.alive
  case fresh => exact hw.fresh
  case unpaired => exact hw.unpaired
  case unsettled => exact hw.unsettled
  case dir => exact hw.dir
  case channel => exact hw.channel

theorem Cleaning.opened (hw : Cleaning s w) :
    Cleaning s ({ w with reader := true }.record .readerOpens true) where
  cleanup := hw.cleanup
  alive := hw.alive
  fresh := hw.fresh
  unpaired := hw.unpaired
  unsettled := by simpa using hw.unsettled
  waited := by simpa using hw.waited
  placed := by simpa using hw.placed
  dir := by simpa [Pending] using hw.dir
  channel := by simpa [Pending] using hw.channel
  killed := by simpa [Pending] using hw.killed

/-- What holds of every world a create can get into. -/
structure Sound (s : Setting) (w : World) : Prop where
  inOrder : InOrder s w
  children : Children w
  cleaning : Cleaning s w

theorem Sound.step {event : Event} (h : Sound s w) (hstep : step s w event = some w') :
    Sound s w' := by
  refine ⟨h.inOrder.step hstep, ?_, ?_⟩ <;>
    cases event <;>
      simp only [Protocol.step, Option.ite_none_right_eq_some] at hstep
  case refine_1.act who fault =>
    obtain ⟨op, rest, hops, ⟨next, hdone, rfl⟩ | ⟨error, next, hfails, rfl⟩⟩ :=
      act_cases hstep.2
    · exact h.children.done h.inOrder hops hdone
    · exact h.children.failed h.inOrder hops hfails
  case refine_1.die who => exact Option.some.inj hstep.2 ▸ h.children.leave
  case refine_1.kill who => exact Option.some.inj hstep.2 ▸ h.children.kill
  case refine_1.reader => exact Option.some.inj hstep ▸ h.children.opened
  case refine_2.act who fault =>
    obtain ⟨op, rest, hops, ⟨next, hdone, rfl⟩ | ⟨error, next, hfails, rfl⟩⟩ :=
      act_cases hstep.2
    · exact h.cleaning.done h.inOrder hops hstep.1 hdone
    · exact h.cleaning.failed h.inOrder hops hfails
  case refine_2.die who =>
    apply Option.some.inj hstep.2 ▸ h.cleaning.leave _
    rintro rfl
    rw [h.cleaning.alive] at hstep
    cases hstep.1.2
  case refine_2.kill who => exact Option.some.inj hstep.2 ▸ h.cleaning.kill hstep.1.1
  case refine_2.reader => exact Option.some.inj hstep ▸ h.cleaning.opened

theorem sound_run {dir : Bool} {events : List Event}
    (h : Transition.run (Protocol.step s) (start s dir false) events = some w) : Sound s w :=
  Transition.run_invariant (fun _ _ _ hinv hstep => hinv.step hstep)
    ⟨inOrder_start s dir false, children_start s dir false, cleaning_start s dir⟩ h

end runs

end Mars.Protocol
