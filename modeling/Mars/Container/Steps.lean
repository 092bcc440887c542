import Mars.Container.Protocol

/-! # What the steps of a create can do

Stated once for each part of the world, so that the invariants need not look
into the steps again.
-/

namespace Mars.Protocol
open Spec Namespace Hooks Sync History

/-! ## Parts of an updated world -/

section parts
variable (w : World) (who other child : Who) (f : Party → Party) (ops : List Op) (op : Op)
  (ok : Bool) (error : Error)

@[simp] theorem update_party_self : (w.update who f).party who = f (w.party who) := by
  simp [World.update]

theorem update_party_other (h : other ≠ who) : (w.update who f).party other = w.party other := by
  simp [World.update, h]

@[simp] theorem setOps_toParent : (w.setOps who ops).toParent = w.toParent := rfl
@[simp] theorem setOps_toChild : (w.setOps who ops).toChild = w.toChild := rfl
@[simp] theorem record_log : (w.record op ok).log = w.log ++ [⟨op, ok⟩] := rfl
@[simp] theorem record_party : (w.record op ok).party = w.party := rfl
@[simp] theorem record_toParent : (w.record op ok).toParent = w.toParent := rfl
@[simp] theorem record_toChild : (w.record op ok).toChild = w.toChild := rfl

@[simp] theorem setOps_error : (w.setOps who ops).error = w.error := rfl
@[simp] theorem setOps_dir : (w.setOps who ops).dir = w.dir := rfl
@[simp] theorem setOps_stateFile : (w.setOps who ops).stateFile = w.stateFile := rfl
@[simp] theorem setOps_placed : (w.setOps who ops).placed = w.placed := rfl
@[simp] theorem record_error : (w.record op ok).error = w.error := rfl
@[simp] theorem record_dir : (w.record op ok).dir = w.dir := rfl
@[simp] theorem record_stateFile : (w.record op ok).stateFile = w.stateFile := rfl
@[simp] theorem record_placed : (w.record op ok).placed = w.placed := rfl

@[simp] theorem setOps_ops_self : ((w.setOps who ops).party who).ops = ops := by
  simp [World.setOps]

theorem setOps_party_other (h : other ≠ who) : (w.setOps who ops).party other = w.party other :=
  update_party_other w who other _ h

/-- A step that changes a party otherwise leaves its program alone. -/
theorem update_ops (h : ∀ p, (f p).ops = p.ops) :
    ((w.update who f).party other).ops = (w.party other).ops := by
  by_cases hother : other = who
  · subst hother
    rw [update_party_self, h]
  · rw [update_party_other w who other f hother]

theorem leave_ops : ((w.leave who).party other).ops = (w.party other).ops ∨
    ((w.leave who).party other).ops = [] := by
  by_cases hother : other = who
  · subst hother
    exact Or.inr (by rw [World.leave, update_party_self])
  · exact Or.inl (by rw [World.leave, update_party_other w who other _ hother])

theorem forked_ops_self : ((w.forked who child ops).party child).ops = ops := by
  rw [World.forked, update_party_self]

theorem forked_party_other (h : other ≠ child) :
    (w.forked who child ops).party other = w.party other :=
  update_party_other w child other _ h

@[simp] theorem fail_log : (w.fail op error).log = w.log := by cases op <;> rfl
@[simp] theorem fail_toParent : (w.fail op error).toParent = w.toParent := by cases op <;> rfl
@[simp] theorem fail_toChild : (w.fail op error).toChild = w.toChild := by cases op <;> rfl
@[simp] theorem fail_reader : (w.fail op error).reader = w.reader := by cases op <;> rfl

end parts

/-! ## Sending and receiving -/

section messages
variable {s : Setting} {w next : World} {m : Message} {want : Want} {error : Error}

theorem sendToParent_done (h : sendToParent w m = .done next) :
    next = { w with toParent := w.toParent ++ [m] } := by
  unfold sendToParent at h
  split at h
  · cases h
    rfl
  · cases h

theorem sendToChild_done (h : sendToChild w m = .done next) :
    next = { w with toChild := w.toChild ++ [m] } := by
  unfold sendToChild at h
  split at h
  · cases h
    rfl
  · cases h

theorem expectFromParent_done (h : expectFromParent w want = .done next) :
    ∃ message rest, w.toChild = message :: rest ∧ want.matches message = true ∧
      next = { w with toChild := rest } := by
  unfold expectFromParent at h
  split at h
  next => split at h <;> cases h
  next message rest hqueue =>
    split at h
    next result hexpect =>
      cases h
      exact ⟨message, rest, hqueue, (expect_ok hexpect).2, rfl⟩
    next => cases h

theorem expectFromChild_done (h : expectFromChild w want = .done next) :
    ∃ message rest, w.toParent = message :: rest ∧ want.matches message = true ∧
      next = { w with toParent := rest } := by
  unfold expectFromChild at h
  split at h
  next => split at h <;> cases h
  next message rest hqueue =>
    split at h
    next result hexpect =>
      cases h
      exact ⟨message, rest, hqueue, (expect_ok hexpect).2, rfl⟩
    next => cases h

/-- The runtime goes on with one of two programs. -/
theorem recvInitPid_done {mayMap : Bool} (h : recvInitPid s w mayMap = .done next) :
    ∃ rest, (∃ pid phases, w.toParent = .initPid pid phases :: rest ∧
        next = { w with toParent := rest }.setOps .parent
          ((settleProgram s.plan pid).map .settle)) ∨
      (w.toParent = .requestUserMapping :: rest ∧
        next = { w with toParent := rest }.setOps .parent (mappingProgram.map .mapping)) := by
  unfold recvInitPid at h
  split at h
  next => split at h <;> cases h
  next message rest hqueue =>
    refine ⟨rest, ?_⟩
    cases message with
    | initPid pid phases =>
        cases h
        exact Or.inl ⟨pid, phases, hqueue, rfl⟩
    | requestUserMapping =>
        dsimp only at h
        split at h
        · cases h
          exact Or.inr ⟨hqueue, rfl⟩
        · cases h
    | _ => cases h

end messages

/-! ## Failing -/

section failing
variable {s : Setting} {w next : World} {m : Message} {want : Want} {error : Error} {who : Who}

/-- A failing step has at most read a message. -/
def OnlyRead (w next : World) : Prop :=
  ∃ toParent toChild, next = { w with toParent := toParent, toChild := toChild } ∧
    (∀ m ∈ toParent, m ∈ w.toParent) ∧ ∀ m ∈ toChild, m ∈ w.toChild

theorem onlyRead_refl (w : World) : OnlyRead w w :=
  ⟨w.toParent, w.toChild, rfl, fun _ h => h, fun _ h => h⟩

theorem OnlyRead.party (h : OnlyRead w next) : next.party = w.party := by
  obtain ⟨toParent, toChild, rfl, -⟩ := h
  rfl

theorem OnlyRead.error_eq (h : OnlyRead w next) : next.error = w.error := by
  obtain ⟨toParent, toChild, rfl, -⟩ := h
  rfl

theorem OnlyRead.dir (h : OnlyRead w next) : next.dir = w.dir := by
  obtain ⟨toParent, toChild, rfl, -⟩ := h
  rfl

theorem OnlyRead.stateFile (h : OnlyRead w next) : next.stateFile = w.stateFile := by
  obtain ⟨toParent, toChild, rfl, -⟩ := h
  rfl

theorem OnlyRead.placed (h : OnlyRead w next) : next.placed = w.placed := by
  obtain ⟨toParent, toChild, rfl, -⟩ := h
  rfl

theorem OnlyRead.log (h : OnlyRead w next) : next.log = w.log := by
  obtain ⟨toParent, toChild, rfl, -⟩ := h
  rfl

theorem OnlyRead.reader (h : OnlyRead w next) : next.reader = w.reader := by
  obtain ⟨toParent, toChild, rfl, -⟩ := h
  rfl

theorem sendToParent_failed (h : sendToParent w m = .failed error next) : OnlyRead w next := by
  unfold sendToParent at h
  split at h
  · cases h
  · cases h
    exact onlyRead_refl w

theorem sendToChild_failed (h : sendToChild w m = .failed error next) : OnlyRead w next := by
  unfold sendToChild at h
  split at h
  · cases h
  · cases h
    exact onlyRead_refl w

theorem expectFromParent_failed (h : expectFromParent w want = .failed error next) :
    OnlyRead w next := by
  unfold expectFromParent at h
  split at h
  next =>
    split at h
    · cases h
    · cases h
      exact onlyRead_refl w
  next message rest hqueue =>
    split at h
    next => cases h
    next =>
      cases h
      exact ⟨w.toParent, rest, rfl, fun _ h => h, fun m h => by simp [hqueue, h]⟩

theorem expectFromChild_failed (h : expectFromChild w want = .failed error next) :
    OnlyRead w next := by
  unfold expectFromChild at h
  split at h
  next =>
    split at h
    · cases h
    · cases h
      exact onlyRead_refl w
  next message rest hqueue =>
    split at h
    next => cases h
    next =>
      cases h
      exact ⟨rest, w.toChild, rfl, fun m h => by simp [hqueue, h], fun _ h => h⟩

theorem recvInitPid_failed {mayMap : Bool} (h : recvInitPid s w mayMap = .failed error next) :
    OnlyRead w next := by
  unfold recvInitPid at h
  split at h
  next =>
    split at h
    · cases h
    · cases h
      exact onlyRead_refl w
  next message rest hqueue =>
    have hread : OnlyRead w { w with toParent := rest } :=
      ⟨rest, w.toChild, rfl, fun m h => by simp [hqueue, h], fun _ h => h⟩
    cases message with
    | initPid pid phases => cases h
    | requestUserMapping =>
        dsimp only at h
        split at h
        · cases h
        · cases h
          exact hread
    | _ =>
        cases h
        exact hread

theorem performPrepare_failed {op : PrepareOp} (h : performPrepare s w op = .failed error next) :
    OnlyRead w next := by
  unfold performPrepare at h
  split at h
  case h_7 => exact recvInitPid_failed h
  all_goals
    first
    | cases h
    | split at h
      all_goals
        cases h
        try exact onlyRead_refl w

theorem performMapping_failed {op : MappingOp} (h : performMapping s w op = .failed error next) :
    OnlyRead w next := by
  unfold performMapping at h
  split at h
  · exact sendToChild_failed h
  · exact recvInitPid_failed h
  · cases h

theorem performSettle_failed {op : SettleOp} (h : performSettle w op = .failed error next) :
    OnlyRead w next := by
  unfold performSettle at h
  split at h
  · split at h <;> cases h
  · cases h
  · exact sendToChild_failed h
  · exact expectFromChild_failed h
  · cases h
  · cases h
  · cases h

theorem performCleanup_failed {op : CleanupOp} (h : performCleanup s w op = .failed error next) :
    OnlyRead w next := by
  unfold performCleanup at h
  split at h
  · split at h <;> cases h
  · split at h <;> cases h
  · cases h
  · cases h
  · cases h

theorem performIntermediate_failed {op : IntermediateOp}
    (h : performIntermediate s w op = .failed error next) : OnlyRead w next := by
  unfold performIntermediate at h
  split at h
  · cases h
  · exact sendToParent_failed h
  · exact expectFromParent_failed h
  · cases h
  · exact sendToParent_failed h
  · cases h
  · cases h

theorem performInit_failed {op : InitOp} (h : performInit s w op = .failed error next) :
    OnlyRead w next := by
  unfold performInit at h
  split at h
  · exact expectFromParent_failed h
  · exact sendToParent_failed h
  · split at h <;> cases h
  · cases h
  · cases h

theorem performFailing_failed {op : FailingOp} (h : performFailing w who op = .failed error next) :
    OnlyRead w next := by
  unfold performFailing at h
  split at h
  · exact sendToParent_failed h
  · cases h

theorem perform_failed {op : Op} (h : perform s w who op = .failed error next) :
    OnlyRead w next := by
  cases op with
  | prepare op => exact performPrepare_failed h
  | mapping op => exact performMapping_failed h
  | settle op => exact performSettle_failed h
  | cleanup op => exact performCleanup_failed h
  | intermediate op => exact performIntermediate_failed h
  | init op => exact performInit_failed h
  | failing op => exact performFailing_failed h
  | readerOpens => cases h

end failing

/-! ## Succeeding -/

/-- Steps that change more than the log. -/
def special : Op → Bool
  | .prepare .createDirAll => true
  | .prepare .pair => true
  | .prepare .fork => true
  | .prepare .dropChild => true
  | .prepare .recv => true
  | .mapping .sendUserMappingDone => true
  | .mapping .recv => true
  | .settle .waitIntermediate => true
  | .settle (.addProcess _) => true
  | .settle (.sendCgroupApplied _) => true
  | .settle .expectInitReady => true
  | .settle (.save _) => true
  | .settle .close => true
  | .cleanup .teardownKill => true
  | .cleanup .teardownWait => true
  | .cleanup .closeChannel => true
  | .cleanup .removeDirAll => true
  | .intermediate .dropParent => true
  | .intermediate .sendRequestUserMapping => true
  | .intermediate .expectUserMappingDone => true
  | .intermediate .fork => true
  | .intermediate .sendInitPid => true
  | .intermediate .exit => true
  | .init .expectCgroupApplied => true
  | .init .sendInitReady => true
  | .init .meetReader => true
  | .init .execve => true
  | .failing _ => true
  | _ => false

/-- What is sent to a child, by which step. -/
inductive SendsChild : Op → Message → Prop
  | userMappingDone : SendsChild (.mapping .sendUserMappingDone) .userMappingDone
  | cgroupApplied (pid : Int) :
      SendsChild (.settle (.sendCgroupApplied pid)) (.cgroupApplied pid)

inductive SendsParent (s : Setting) : Op → Message → Prop
  | requestUserMapping :
      SendsParent s (.intermediate .sendRequestUserMapping) .requestUserMapping
  | initPid : SendsParent s (.intermediate .sendInitPid) (.initPid s.initPid s.intermediatePhases)
  | initReady : SendsParent s (.init .sendInitReady) (.initReady s.initPhases)
  | failed (reason : String) : SendsParent s (.failing (.sendFailed reason)) (.failed reason)

inductive Expects : Op → Want → Prop
  | userMappingDone : Expects (.intermediate .expectUserMappingDone) .userMappingDone
  | cgroupApplied : Expects (.init .expectCgroupApplied) .cgroupApplied

/-- Everything a step that succeeds can do. -/
inductive Effect (s : Setting) (w : World) (who : Who) : Op → World → Prop
  | quiet {op : Op} (hquiet : special op = false) : Effect s w who op w
  | createDirAll : Effect s w who (.prepare .createDirAll) { w with dir := true }
  | pair : Effect s w who (.prepare .pair)
      (w.update .parent fun p => { p with keepsParent := true, keepsChild := true })
  | forkIntermediate : Effect s w who (.prepare .fork)
      (w.forked .parent .intermediate ((stageOne s.plan).map .intermediate))
  | dropChild : Effect s w who (.prepare .dropChild)
      (w.update .parent fun p => { p with keepsChild := false })
  | recvRequest {op : Op} {rest : List Message} (hop : op = .prepare .recv ∨ op = .mapping .recv)
      (hqueue : w.toParent = .requestUserMapping :: rest) : Effect s w who op
      ({ w with toParent := rest }.setOps .parent (mappingProgram.map .mapping))
  | recvInitPid {op : Op} {pid : Int} {phases : List Sync.Phase} {rest : List Message}
      (hop : op = .prepare .recv ∨ op = .mapping .recv)
      (hqueue : w.toParent = .initPid pid phases :: rest) : Effect s w who op
      ({ w with toParent := rest }.setOps .parent ((settleProgram s.plan pid).map .settle))
  | sendToChild {op : Op} {m : Message} (hsends : SendsChild op m) :
      Effect s w who op { w with toChild := w.toChild ++ [m] }
  | sendToParent {op : Op} {m : Message} (hsends : SendsParent s op m) :
      Effect s w who op { w with toParent := w.toParent ++ [m] }
  | expectFromParent {op : Op} {want : Want} {m : Message} {rest : List Message}
      (hexpects : Expects op want) (hqueue : w.toChild = m :: rest)
      (hwant : want.matches m = true) : Effect s w who op { w with toChild := rest }
  | expectInitReady {m : Message} {rest : List Message} (hqueue : w.toParent = m :: rest)
      (hwant : Want.initReady.matches m = true) :
      Effect s w who (.settle .expectInitReady) { w with toParent := rest }
  | waitIntermediate (hgone : (w.party .intermediate).life = .exited) :
      Effect s w who (.settle .waitIntermediate) w
  | addProcess (pid : Int) :
      Effect s w who (.settle (.addProcess pid)) { w with placed := pid :: w.placed }
  | save (pid : Int) :
      Effect s w who (.settle (.save pid)) { w with dir := true, stateFile := true }
  | close : Effect s w who (.settle .close)
      (w.update .parent fun p => { p with keepsParent := false })
  | teardownKill (hplaced : s.initPid ∈ w.placed) (halive : (w.party .init).life = .running) :
      Effect s w who (.cleanup .teardownKill) (w.update .init fun p => { p with killed := true })
  | nothingToKill (hnone : ¬(s.initPid ∈ w.placed ∧ (w.party .init).life = .running)) :
      Effect s w who (.cleanup .teardownKill) w
  | teardownWait (hgone : ¬((w.party .init).killed = true ∧ (w.party .init).life = .running)) :
      Effect s w who (.cleanup .teardownWait) w
  | closeChannel : Effect s w who (.cleanup .closeChannel)
      (w.update .parent fun p => { p with keepsParent := false, keepsChild := false })
  | removeDirAll : Effect s w who (.cleanup .removeDirAll)
      { w with dir := false, stateFile := false }
  | dropParent : Effect s w who (.intermediate .dropParent)
      (w.update .intermediate fun p => { p with keepsParent := false })
  | forkInit : Effect s w who (.intermediate .fork)
      (w.forked .intermediate .init ((containerInit s.plan).map .init))
  | exitIntermediate : Effect s w who (.intermediate .exit) (w.leave .intermediate)
  | meetReader (hreader : w.reader = true) : Effect s w who (.init .meetReader) w
  | execve : Effect s w who (.init .execve)
      (w.update .init fun p => { p with keepsParent := false, keepsChild := false })
  | exitFailing : Effect s w who (.failing .exit) (w.leave who)

section succeeding
variable {s : Setting} {w next : World} {who : Who}

theorem recvInitPid_effect {op : Op} {mayMap : Bool}
    (hop : op = .prepare .recv ∨ op = .mapping .recv)
    (h : recvInitPid s w mayMap = .done next) : Effect s w who op next := by
  obtain ⟨rest, ⟨pid, phases, hqueue, rfl⟩ | ⟨hqueue, rfl⟩⟩ := recvInitPid_done h
  · exact .recvInitPid hop hqueue
  · exact .recvRequest hop hqueue

theorem performPrepare_done {op : PrepareOp} (h : performPrepare s w op = .done next) :
    Effect s w who (.prepare op) next := by
  cases op with
  | recv => exact recvInitPid_effect (Or.inl rfl) h
  | createDirAll =>
      cases h
      exact .createDirAll
  | pair =>
      cases h
      exact .pair
  | fork =>
      cases h
      exact .forkIntermediate
  | dropChild =>
      cases h
      exact .dropChild
  | checkState =>
      simp only [performPrepare] at h
      split at h <;> cases h
      exact .quiet rfl
  | checkOverlayNamespace =>
      simp only [performPrepare] at h
      split at h <;> cases h
      exact .quiet rfl
  | _ =>
      cases h
      exact .quiet rfl

theorem performMapping_done {op : MappingOp} (h : performMapping s w op = .done next) :
    Effect s w who (.mapping op) next := by
  cases op with
  | sendUserMappingDone => exact sendToChild_done h ▸ .sendToChild .userMappingDone
  | recv => exact recvInitPid_effect (Or.inr rfl) h
  | _ =>
      cases h
      exact .quiet rfl

theorem performSettle_done {op : SettleOp} (h : performSettle w op = .done next) :
    Effect s w who (.settle op) next := by
  cases op with
  | waitIntermediate =>
      simp only [performSettle] at h
      split at h
      next hgone =>
        cases h
        exact .waitIntermediate hgone
      next => cases h
  | sendCgroupApplied pid => exact sendToChild_done h ▸ .sendToChild (.cgroupApplied pid)
  | expectInitReady =>
      obtain ⟨m, rest, hqueue, hwant, rfl⟩ := expectFromChild_done h
      exact .expectInitReady hqueue hwant
  | addProcess pid =>
      cases h
      exact .addProcess pid
  | save pid =>
      cases h
      exact .save pid
  | close =>
      cases h
      exact .close
  | _ =>
      cases h
      exact .quiet rfl

theorem performCleanup_done {op : CleanupOp} (h : performCleanup s w op = .done next) :
    Effect s w who (.cleanup op) next := by
  cases op with
  | teardownKill =>
      simp only [performCleanup] at h
      split at h
      next hkill =>
        cases h
        exact .teardownKill hkill.1 hkill.2
      next hnone =>
        cases h
        exact .nothingToKill hnone
  | teardownWait =>
      simp only [performCleanup] at h
      split at h
      next => cases h
      next hgone =>
        cases h
        exact .teardownWait hgone
  | closeChannel =>
      cases h
      exact .closeChannel
  | removeDirAll =>
      cases h
      exact .removeDirAll
  | _ =>
      cases h
      exact .quiet rfl

theorem performIntermediate_done {op : IntermediateOp}
    (h : performIntermediate s w op = .done next) : Effect s w who (.intermediate op) next := by
  cases op with
  | dropParent =>
      cases h
      exact .dropParent
  | sendRequestUserMapping => exact sendToParent_done h ▸ .sendToParent .requestUserMapping
  | expectUserMappingDone =>
      obtain ⟨m, rest, hqueue, hwant, rfl⟩ := expectFromParent_done h
      exact .expectFromParent .userMappingDone hqueue hwant
  | fork =>
      cases h
      exact .forkInit
  | sendInitPid => exact sendToParent_done h ▸ .sendToParent .initPid
  | exit =>
      cases h
      exact .exitIntermediate
  | _ =>
      cases h
      exact .quiet rfl

theorem performInit_done {op : InitOp} (h : performInit s w op = .done next) :
    Effect s w who (.init op) next := by
  cases op with
  | expectCgroupApplied =>
      obtain ⟨m, rest, hqueue, hwant, rfl⟩ := expectFromParent_done h
      exact .expectFromParent .cgroupApplied hqueue hwant
  | sendInitReady => exact sendToParent_done h ▸ .sendToParent .initReady
  | meetReader =>
      simp only [performInit] at h
      split at h
      next hreader =>
        cases h
        exact .meetReader hreader
      next => cases h
  | execve =>
      cases h
      exact .execve
  | _ =>
      cases h
      exact .quiet rfl

theorem perform_done {op : Op} (h : perform s w who op = .done next) : Effect s w who op next := by
  cases op with
  | prepare op => exact performPrepare_done h
  | mapping op => exact performMapping_done h
  | settle op => exact performSettle_done h
  | cleanup op => exact performCleanup_done h
  | intermediate op => exact performIntermediate_done h
  | init op => exact performInit_done h
  | failing op =>
      cases op with
      | sendFailed reason => exact sendToParent_done h ▸ .sendToParent (.failed reason)
      | exit =>
          cases h
          exact .exitFailing
  | readerOpens => cases h

end succeeding

/-! ## The two ways a step ends -/

/-- The step of `op` fails with an error of its own or of the system's. -/
structure Fails (s : Setting) (w : World) (who : Who) (op : Op) (rest : List Op)
    (next : World) : Prop where
  read : OnlyRead (w.setOps who rest) next
  able : fallible w op = true ∨
    ∃ error, perform s (w.setOps who rest) who op = .failed error next

theorem act_cases {s : Setting} {w w' : World} {who : Who} {fault : Option Error}
    (h : act s w who fault = some w') :
    ∃ op rest, (w.party who).ops = op :: rest ∧
      ((∃ next, perform s (w.setOps who rest) who op = .done next ∧ w' = next.record op true) ∨
        ∃ error next, Fails s w who op rest next ∧ w' = (next.record op false).fail op error) := by
  unfold act at h
  split at h
  next => cases h
  next op rest hops =>
    refine ⟨op, rest, hops, ?_⟩
    dsimp only at h
    split at h
    next => cases h
    next next hdone =>
      cases h
      exact Or.inl ⟨next, hdone, rfl⟩
    next error next hfailed =>
      cases h
      exact Or.inr ⟨error, next, ⟨perform_failed hfailed, Or.inr ⟨error, hfailed⟩⟩, rfl⟩
    next error =>
      split at h
      next hfallible =>
        cases h
        exact Or.inr ⟨error, _, ⟨onlyRead_refl _, Or.inl hfallible⟩, rfl⟩
      next => cases h

end Mars.Protocol
