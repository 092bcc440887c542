import Mars.Container.Smooth

/-! # The handshake does not wedge

All that could still reach the runtime is in its queue or in the hands of a
child that is not waiting itself. The one exception is an intermediate that
goes without its report once it has forked init: init holds a copy of the
children's end of the socket and waits for the runtime.
-/

namespace Mars.Protocol
open Spec Namespace Hooks Sync History

/-! ## Waiting for each other -/

def Op.Reads (op : Op) : Prop := op.Receives ∨ ∃ want, Expects op want

/-- The party is inside a receive, with neither a message nor the end of the
socket to be read. -/
structure BlockedInRecv (s : Setting) (w : World) (who : Who) : Prop where
  running : (w.party who).life = .running
  reading : ∃ op rest, (w.party who).ops = op :: rest ∧ op.Reads ∧
    perform s (w.setOps who rest) who op = .blocked

structure Wedged (s : Setting) (w : World) : Prop where
  parent : BlockedInRecv s w .parent
  others : ∀ who, (w.party who).life = .running → BlockedInRecv s w who
  toParent : w.toParent = []
  toChild : w.toChild = []

/-! ## Messages on their way -/

/-- What a step does to the two queues. -/
inductive Carries (s : Setting) (w w' : World) (op : Op) (ok : Bool) : Prop
  | still (hparent : w'.toParent = w.toParent) (hchild : w'.toChild = w.toChild)
      (hquiet : ok = true → ∀ m, ¬SendsParent s op m ∧ ¬SendsChild op m)
  | reported {m : Message} (hsends : SendsParent s op m) (hok : ok = true)
      (hparent : w'.toParent = w.toParent ++ [m]) (hchild : w'.toChild = w.toChild)
  | ordered {m : Message} (hsends : SendsChild op m) (hok : ok = true)
      (hparent : w'.toParent = w.toParent) (hchild : w'.toChild = w.toChild ++ [m])
  | received {m : Message} (hop : op.Receives) (hparent : w.toParent = m :: w'.toParent)
      (hchild : w'.toChild = w.toChild)
  | obeyed {m : Message} {want : Want} (hop : Expects op want)
      (hparent : w'.toParent = w.toParent) (hchild : w.toChild = m :: w'.toChild)

section carries
variable {s : Setting} {w next w' : World} {who : Who} {op : Op} {rest : List Op} {error : Error}

theorem receives_sends_nothing (h : op.Receives) (m : Message) :
    ¬SendsParent s op m ∧ ¬SendsChild op m := by
  rcases h with rfl | rfl | rfl <;> exact ⟨nofun, nofun⟩

theorem special_of_sends {m : Message} (h : SendsParent s op m ∨ SendsChild op m) :
    special op = true := by
  rcases h with h | h <;> cases h <;> rfl

theorem Effect.carries (h : Effect s w who op next) : Carries s w next op true := by
  cases h with
  | quiet hquiet =>
      refine .still rfl rfl fun _ m => ⟨fun hsends => ?_, fun hsends => ?_⟩
      · cases hquiet.symm.trans (special_of_sends (Or.inl hsends))
      · cases hquiet.symm.trans (special_of_sends (s := s) (Or.inr hsends))
  | recvInitPid hop hqueue => exact .received (hop.imp_right Or.inl) hqueue rfl
  | recvRequest hop hqueue => exact .received (hop.imp_right Or.inl) hqueue rfl
  | expectInitReady hqueue => exact .received (Or.inr (Or.inr rfl)) hqueue rfl
  | sendToChild hsends => exact .ordered hsends rfl rfl rfl
  | sendToParent hsends => exact .reported hsends rfl rfl rfl
  | expectFromParent hexpects hqueue => exact .obeyed hexpects rfl hqueue
  | _ => exact .still rfl rfl fun _ _ => ⟨nofun, nofun⟩

theorem recvInitPid_failed_carries {mayMap : Bool} (hop : op.Receives)
    (h : recvInitPid s w mayMap = .failed error next) : Carries s w next op false := by
  unfold recvInitPid at h
  split at h
  next =>
    split at h
    next => cases h
    next =>
      cases h
      exact .still rfl rfl nofun
  next message rest hqueue =>
    cases message with
    | initPid pid phases => cases h
    | requestUserMapping =>
        dsimp only at h
        split at h
        next => cases h
        next =>
          cases h
          exact .received hop hqueue rfl
    | _ =>
        cases h
        exact .received hop hqueue rfl

theorem expectFromChild_failed_carries {want : Want} (hop : op.Receives)
    (h : expectFromChild w want = .failed error next) : Carries s w next op false := by
  unfold expectFromChild at h
  split at h
  next =>
    split at h
    next => cases h
    next =>
      cases h
      exact .still rfl rfl nofun
  next message rest hqueue =>
    split at h
    next => cases h
    next =>
      cases h
      exact .received hop hqueue rfl

theorem expectFromParent_failed_carries {want : Want} (hop : Expects op want)
    (h : expectFromParent w want = .failed error next) : Carries s w next op false := by
  unfold expectFromParent at h
  split at h
  next =>
    split at h
    next => cases h
    next =>
      cases h
      exact .still rfl rfl nofun
  next message rest hqueue =>
    split at h
    next => cases h
    next =>
      cases h
      exact .obeyed hop rfl hqueue

theorem sendToParent_failed_carries {m : Message} (h : sendToParent w m = .failed error next) :
    Carries s w next op false := by
  unfold sendToParent at h
  split at h <;> cases h
  exact .still rfl rfl nofun

theorem sendToChild_failed_carries {m : Message} (h : sendToChild w m = .failed error next) :
    Carries s w next op false := by
  unfold sendToChild at h
  split at h <;> cases h
  exact .still rfl rfl nofun

/-- A failing step has at most read the first message. -/
theorem perform_failed_carries (h : perform s w who op = .failed error next) :
    Carries s w next op false := by
  cases op with
  | prepare op =>
      cases op with
      | recv => exact recvInitPid_failed_carries (Or.inl rfl) h
      | checkState =>
          simp only [perform, performPrepare] at h
          split at h <;> cases h
          exact .still rfl rfl (by simp)
      | checkOverlayNamespace =>
          simp only [perform, performPrepare] at h
          split at h <;> cases h
          exact .still rfl rfl (by simp)
      | _ => cases h
  | mapping op =>
      cases op with
      | recv => exact recvInitPid_failed_carries (Or.inr (Or.inl rfl)) h
      | sendUserMappingDone => exact sendToChild_failed_carries h
      | _ => cases h
  | settle op =>
      cases op with
      | waitIntermediate =>
          simp only [perform, performSettle] at h
          split at h <;> cases h
      | expectInitReady => exact expectFromChild_failed_carries (Or.inr (Or.inr rfl)) h
      | sendCgroupApplied pid => exact sendToChild_failed_carries h
      | _ => cases h
  | cleanup op =>
      cases op with
      | teardownKill =>
          simp only [perform, performCleanup] at h
          split at h <;> cases h
      | teardownWait =>
          simp only [perform, performCleanup] at h
          split at h <;> cases h
      | _ => cases h
  | intermediate op =>
      cases op with
      | expectUserMappingDone => exact expectFromParent_failed_carries .userMappingDone h
      | sendRequestUserMapping => exact sendToParent_failed_carries h
      | sendInitPid => exact sendToParent_failed_carries h
      | _ => cases h
  | init op =>
      cases op with
      | expectCgroupApplied => exact expectFromParent_failed_carries .cgroupApplied h
      | sendInitReady => exact sendToParent_failed_carries h
      | meetReader =>
          simp only [perform, performInit] at h
          split at h <;> cases h
      | _ => cases h
  | failing op =>
      cases op with
      | sendFailed reason => exact sendToParent_failed_carries h
      | exit => cases h
  | readerOpens => cases h

theorem Carries.congr {v v' : World} {ok : Bool} (h : Carries s v v' op ok)
    (hparent : v.toParent = w.toParent) (hchild : v.toChild = w.toChild)
    (hparent' : v'.toParent = w'.toParent) (hchild' : v'.toChild = w'.toChild) :
    Carries s w w' op ok := by
  cases h with
  | still hp hc hquiet =>
      exact .still (by rw [← hparent', hp, hparent]) (by rw [← hchild', hc, hchild]) hquiet
  | reported hsends hok hp hc =>
      exact .reported hsends hok (by rw [← hparent', hp, hparent]) (by rw [← hchild', hc, hchild])
  | ordered hsends hok hp hc =>
      exact .ordered hsends hok (by rw [← hparent', hp, hparent]) (by rw [← hchild', hc, hchild])
  | received hop hp hc =>
      exact .received hop (by rw [← hparent', ← hp, hparent]) (by rw [← hchild', hc, hchild])
  | obeyed hop hp hc =>
      exact .obeyed hop (by rw [← hparent', hp, hparent]) (by rw [← hchild', ← hc, hchild])

/-- A queue that holds something still does, unless its reader has read. -/
theorem Carries.toParent_ne_nil {ok : Bool} (h : Carries s w w' op ok) (hop : ¬op.Receives)
    (hqueue : w.toParent ≠ []) : w'.toParent ≠ [] := by
  cases h with
  | still hparent => rwa [hparent]
  | reported hsends hok hparent => simp [hparent]
  | ordered hsends hok hparent => rwa [hparent]
  | received hreceives => exact absurd hreceives hop
  | obeyed hexpects hparent => rwa [hparent]

theorem Carries.toChild_ne_nil {ok : Bool} (h : Carries s w w' op ok)
    (hop : ∀ want, ¬Expects op want) (hqueue : w.toChild ≠ []) : w'.toChild ≠ [] := by
  cases h with
  | still hparent hchild => rwa [hchild]
  | reported hsends hok hparent hchild => rwa [hchild]
  | ordered hsends hok hparent hchild => simp [hchild]
  | received hreceives hparent hchild => rwa [hchild]
  | obeyed hexpects => exact absurd hexpects (hop _)

/-- What has been sent is there. -/
theorem Carries.reports {m : Message} (h : Carries s w w' op true) (hsends : SendsParent s op m) :
    ∃ m', SendsParent s op m' ∧ w'.toParent = w.toParent ++ [m'] := by
  cases h with
  | still hparent hchild hquiet => exact absurd hsends (hquiet rfl m).1
  | reported hsent hok hparent => exact ⟨_, hsent, hparent⟩
  | ordered hsent => cases hsent <;> cases hsends
  | received hreceives => exact absurd hsends (receives_sends_nothing hreceives m).1
  | obeyed hexpects => cases hexpects <;> cases hsends

theorem Carries.orders {m : Message} (h : Carries s w w' op true) (hsends : SendsChild op m) :
    w'.toChild ≠ [] := by
  cases h with
  | still hparent hchild hquiet => exact absurd hsends (hquiet rfl m).2
  | reported hsent => cases hsent <;> cases hsends
  | ordered hsent hok hparent hchild => simp [hchild]
  | received hreceives => exact absurd hsends (receives_sends_nothing (s := s) hreceives m).2
  | obeyed hexpects => cases hexpects <;> cases hsends

/-- One attempt of a party, with what it did to the queues and how it ended. -/
structure Attempt (s : Setting) (w w' : World) (who : Who) (op : Op) (rest : List Op) (ok : Bool)
    (put : Option Stage) : Prop extends Moves s w w' who op rest ok put where
  carries : Carries s w w' op ok
  done : ok = true → ∃ next, perform s (w.setOps who rest) who op = .done next ∧
    w' = next.record op true
  failed : ok = false → ∃ error next, Fails s w who op rest next ∧
    w' = (next.record op false).fail op error

theorem act_attempt {fault : Option Error} (hinv : InOrder s w) (h : act s w who fault = some w') :
    ∃ op rest ok put, Attempt s w w' who op rest ok put := by
  obtain ⟨op, rest, ok, put, hmoves⟩ := act_moves hinv h
  refine ⟨op, rest, ok, put, ?_⟩
  have hok : ∀ {b : Bool}, w'.log = w.log ++ [⟨op, b⟩] → ok = b := by
    intro b hlog
    simpa using hmoves.log.symm.trans hlog
  simp only [act, hmoves.ops] at h
  split at h
  next => cases h
  next next hdone =>
    cases h
    obtain rfl := hok (b := true) (by rw [record_log, (perform_done hdone).log]; rfl)
    exact ⟨hmoves, (perform_done hdone).carries.congr rfl rfl rfl rfl,
      fun _ => ⟨next, hdone, rfl⟩, by simp⟩
  next error next hfailed =>
    cases h
    have hread := perform_failed hfailed
    obtain rfl := hok (b := false) (by rw [fail_log, record_log, hread.log]; rfl)
    refine ⟨hmoves, ?_, by simp, fun _ => ⟨error, next, ⟨hread, Or.inr ⟨error, hfailed⟩⟩, rfl⟩⟩
    exact (perform_failed_carries hfailed).congr rfl rfl (by simp) (by simp)
  next error =>
    split at h
    next hfallible =>
      cases h
      obtain rfl := hok (b := false) (by rw [fail_log, record_log]; rfl)
      exact ⟨hmoves, .still (by simp) (by simp) (by simp), by simp,
        fun _ => ⟨error, _, ⟨onlyRead_refl _, Or.inl hfallible⟩, rfl⟩⟩
    next => cases h

end carries

/-! ## Receives happen once -/

section once
variable {s : Setting} {w w' : World} {who : Who} {op : Op} {rest : List Op} {ok : Bool}
  {put : Option Stage} {st : Stage}

theorem count_mapping_recv (s : Setting) : (program s .mapping).count (.mapping .recv) ≤ 1 :=
  (show (mappingProgram.map Op.mapping).count (.mapping .recv) ≤ 1 by decide)

theorem count_expectUserMappingDone (s : Setting) :
    (program s .intermediate).count (.intermediate .expectUserMappingDone) ≤ 1 := by
  have hfront : .expectUserMappingDone ∉
      .dropParent :: joinExisting s.plan ++ unshareAll s.plan := by
    simp [joinExisting, unshareAll]
  have hmap : (mapUser s.plan).count .expectUserMappingDone ≤ 1 := by
    unfold mapUser ifTrue
    split <;> decide
  rw [program, List.count_map_of_injective _ _ fun _ _ => Op.intermediate.inj, stageOne,
    List.count_append, List.count_append, List.count_eq_zero_of_not_mem hfront]
  simpa using hmap

theorem count_expectCgroupApplied (s : Setting) :
    (program s .init).count (.init .expectCgroupApplied) ≤ 1 := by
  obtain ⟨tail, htail, honce⟩ := setup_tail s.plan
  have hlate : .expectCgroupApplied ∉ .sendInitReady :: parkAndExec s.plan := by
    intro hmem
    simp only [parkAndExec, List.mem_cons, List.mem_append, List.not_mem_nil, or_false] at hmem
    rcases hmem with hmem | ((hmem | hmem | hmem) | hmem) | hmem | hmem
    case inr.inl.inr => rcases mem_hookOps hmem with hmem | ⟨index, hmem⟩ <;> cases hmem
    all_goals cases hmem
  rw [program, List.count_map_of_injective _ _ fun _ _ => Op.init.inj, containerInit, htail,
    List.count_append, List.count_cons_self, List.count_eq_zero_of_not_mem honce,
    List.count_eq_zero_of_not_mem hlate]

end once

/-! ## What the runtime waits for -/

/-- The runtime has still to hear of init. -/
def World.Awaiting (w : World) : Prop :=
  .prepare .recv ∈ (w.party .parent).ops ∨ .mapping .recv ∈ (w.party .parent).ops

/-- Messages after which the runtime no longer waits to hear of init. -/
def reports : Message → Bool
  | .initPid _ _ => true
  | .failed _ => true
  | _ => false

/-- Init has been forked and waits, and no report is there for the runtime. -/
def World.Unheard (w : World) : Prop :=
  w.Awaiting ∧ .init .expectCgroupApplied ∈ (w.party .init).ops ∧
    ∀ m ∈ w.toParent, reports m = false

/-- The intermediate is going to report. -/
def World.Underway (w : World) : Prop :=
  (w.party .intermediate).life = .running ∧
    (.intermediate .sendInitPid ∈ (w.party .intermediate).ops ∨
      ∃ reason, (w.party .intermediate).ops = [.failing (.sendFailed reason), .failing .exit])

/-- Where a party waits, what it waits for is in its queue or on its way. -/
structure Talking (s : Setting) (w : World) : Prop where
  channel : w.Awaiting →
    .prepare .pair ∈ (w.party .parent).ops ∨ (w.party .parent).keepsParent = true
  request : .prepare .recv ∈ (w.party .parent).ops →
    ⟨.intermediate .sendRequestUserMapping, true⟩ ∈ w.log → w.toParent ≠ []
  mapped : ⟨.mapping .sendUserMappingDone, true⟩ ∈ w.log →
    .intermediate .expectUserMappingDone ∈ (w.party .intermediate).ops → w.toChild ≠ []
  applied : ⟨.settle (.sendCgroupApplied s.initPid), true⟩ ∈ w.log →
    .init .expectCgroupApplied ∈ (w.party .init).ops → w.toChild ≠ []
  heard : w.Unheard → w.Underway

theorem talking_start (s : Setting) (dir stateFile : Bool) : Talking s (start s dir stateFile) where
  channel := by
    intro _
    exact Or.inl (List.mem_map_of_mem (by simp [prepareProgram]))
  request := by simp [start]
  mapped := by simp [start]
  applied := by simp [start]
  heard := by
    intro hunheard
    cases hunheard.2.1

section awaiting
variable {s : Setting} {w w' : World} {who : Who} {op : Op} {rest : List Op} {ok : Bool}
  {put : Option Stage} {st : Stage}

theorem receives_stage (h : op.Receives) : ∃ st, op.stage = some st ∧ st.owner = .parent := by
  rcases h with rfl | rfl | rfl <;> exact ⟨_, rfl, rfl⟩

/-- Who is about to receive has nothing of another program left. -/
theorem InOrder.receives_only (hinv : InOrder s w) (hops : (w.party who).ops = op :: rest)
    (hop : op.Receives) {x : Op} (hx : x ∈ (w.party .parent).ops) : x.stage = op.stage := by
  obtain ⟨st, hst, howner⟩ := receives_stage hop
  obtain ⟨hwho, -⟩ := hinv.progress hops hst
  rw [hst]
  exact hinv.same_stage hops hst (hwho ▸ howner ▸ hx)

/-- A request for a mapping is all that leaves the runtime waiting for more. -/
theorem Attempt.awaiting (h : Attempt s w w' who op rest ok put) (hinv : InOrder s w)
    (hw' : w'.Awaiting) : w.Awaiting ∧ (op.Receives →
      .prepare .recv ∉ (w'.party .parent).ops ∧ w.toParent = .requestUserMapping :: w'.toParent) := by
  rcases hw' with hrecv | hrecv
  · rcases @Moves.earlier _ _ _ _ _ _ _ _ .prepare h.toMoves hinv _ hrecv rfl with
      hput | ⟨-, hold, hagain⟩
    · cases h.installs _ hput
    · refine ⟨Or.inl hold, fun hop => ?_⟩
      have hstage := hinv.receives_only h.ops hop hold
      rcases hop with rfl | rfl | rfl
      · exact absurd (hagain rfl) (hinv.not_again h.ops rfl (count_prepare s .recv))
      · cases hstage
      · cases hstage
  · rcases @Moves.earlier _ _ _ _ _ _ _ _ .mapping h.toMoves hinv _ hrecv rfl with
      hput | ⟨-, hold, hagain⟩
    · have hop : op = .prepare .recv := by
        cases h.installs _ hput
        rfl
      subst hop
      obtain ⟨rfl, -⟩ := hinv.progress h.ops rfl
      refine ⟨Or.inl (h.ops ▸ List.mem_cons_self), fun _ => ?_⟩
      have hprogram := h.placed _ hput
      have hnone : .prepare .recv ∉ (w'.party .parent).ops := by
        rw [show (w'.party .parent).ops = _ from hprogram]
        intro hmem
        cases stage_of_mem_program hmem
      refine ⟨hnone, ?_⟩
      cases ok with
      | false =>
          obtain ⟨error, next, -, rfl⟩ := h.failed rfl
          cases @fail_no_stage _ (.prepare .recv) .prepare _ rfl _ hrecv
      | true =>
          obtain ⟨next, hdone, rfl⟩ := h.done rfl
          obtain ⟨messages, ⟨pid, phases, -, rfl⟩ | ⟨hqueue, rfl⟩⟩ :=
            recvInitPid_done (show recvInitPid _ _ _ = _ from hdone)
          · rw [record_party, setOps_ops_self] at hrecv
            obtain ⟨x, -, hx⟩ := List.mem_map.mp hrecv
            cases hx
          · exact hqueue
    · refine ⟨Or.inr hold, fun hop => ?_⟩
      have hstage := hinv.receives_only h.ops hop hold
      rcases hop with rfl | rfl | rfl
      · cases hstage
      · exact absurd (hagain rfl) (hinv.not_again h.ops rfl (count_mapping_recv s))
      · cases hstage

/-- Until then the runtime is in one of its first two programs. -/
theorem InOrder.awaiting_stage (hinv : InOrder s w) (hw : w.Awaiting)
    (hops : (w.party .parent).ops = op :: rest) :
    op.stage = some .prepare ∨ op.stage = some .mapping := by
  have hsame : ∀ x ∈ op :: rest, x.stage = op.stage := by
    intro x hx
    rcases List.mem_cons.mp hx with rfl | hx
    · rfl
    · exact hinv.rest_stage hops x hx
  rcases hw with hrecv | hrecv
  · exact Or.inl (hsame (.prepare .recv) (hops ▸ hrecv)).symm
  · exact Or.inr (hsame (.mapping .recv) (hops ▸ hrecv)).symm

/-- After a failure of its own the runtime waits for nothing. -/
theorem Attempt.failed_other (h : Attempt s w w' who op rest false put) (hinv : InOrder s w)
    (hw' : w'.Awaiting) : who ≠ .parent := by
  rintro rfl
  obtain ⟨hold, -⟩ := h.awaiting hinv hw'
  obtain ⟨error, next, -, rfl⟩ := h.failed rfl
  have hidle : ∀ x ∈ (((next.record op false).fail op error).party .parent).ops,
      x.stage = none := by
    rcases hinv.awaiting_stage hold h.ops with hstage | hstage
    · exact @fail_no_stage _ _ .prepare _ hstage
    · exact @fail_no_stage _ _ .mapping _ hstage
  rcases hw' with hrecv | hrecv
  · cases hidle _ hrecv
  · cases hidle _ hrecv

theorem Attempt.keepsParent (h : Attempt s w w' who op rest ok put) (hwhole : Whole s w)
    (hw' : w'.Awaiting) (hkeeps : (w.party .parent).keepsParent = true) :
    (w'.party .parent).keepsParent = true := by
  obtain ⟨hold, -⟩ := h.awaiting hwhole.inOrder hw'
  have hown : who = .parent → op.stage = some .prepare ∨ op.stage = some .mapping := by
    rintro rfl
    exact hwhole.inOrder.awaiting_stage hold h.ops
  cases ok with
  | false =>
      obtain ⟨error, next, hfails, rfl⟩ := h.failed rfl
      rw [hfails.keepsParent, hkeeps]
  | true =>
      obtain ⟨next, hdone, rfl⟩ := h.done rfl
      rw [record_party]
      have hpopped : ((w.setOps who rest).party .parent).keepsParent = true := by
        rw [setOps_keepsParent, hkeeps]
      refine (perform_done hdone).onParent.keepsParent_still hpopped ⟨?_, ?_⟩ ?_
      · rintro rfl
        obtain ⟨rfl, -⟩ := hwhole.inOrder.progress h.ops rfl
        rcases hown rfl with hstage | hstage <;> cases hstage
      · rintro rfl
        have hwho : who = .parent := by
          by_contra hwho
          obtain ⟨f, hf⟩ := hwhole.children.own who hwho (.cleanup .closeChannel)
            (h.ops ▸ List.mem_cons_self) rfl
          cases hf
        rcases hown hwho with hstage | hstage <;> cases hstage
      · rintro rfl rfl
        exact hwhole.ending.own .exit (h.ops ▸ List.mem_cons_self)

/-- The runtime holds its end of the socket as long as it waits to hear of init. -/
theorem Talking.channel_act (hw : Talking s w) (hwhole : Whole s w)
    (h : Attempt s w w' who op rest ok put) (hw' : w'.Awaiting) :
    .prepare .pair ∈ (w'.party .parent).ops ∨ (w'.party .parent).keepsParent = true := by
  obtain ⟨hold, -⟩ := h.awaiting hwhole.inOrder hw'
  rcases hw.channel hold with hpair | hkeeps
  · cases ok with
    | false =>
        have hwho := h.failed_other hwhole.inOrder hw'
        obtain ⟨error, next, hfails, rfl⟩ := h.failed rfl
        rw [hfails.party_other hwhole.inOrder h.ops hwho.symm]
        exact Or.inl hpair
    | true =>
        obtain ⟨next, hdone, rfl⟩ := h.done rfl
        rcases hwhole.ending.ahead_done hwhole.inOrder h.ops hdone hpair nofun with hahead | rfl
        · exact Or.inl hahead
        · cases hdone
          simp
  · exact Or.inr (h.keepsParent hwhole hw' hkeeps)

theorem Talking.request_act (hw : Talking s w) (hinv : InOrder s w)
    (h : Attempt s w w' who op rest ok put) (hrecv : .prepare .recv ∈ (w'.party .parent).ops)
    (hlog : ⟨.intermediate .sendRequestUserMapping, true⟩ ∈ w'.log) : w'.toParent ≠ [] := by
  rw [h.log] at hlog
  rcases List.mem_append.mp hlog with hlog | hlog
  · have hqueue := hw.request (by
      rcases @Moves.earlier _ _ _ _ _ _ _ _ .prepare h.toMoves hinv _ hrecv rfl with
        hput | ⟨-, hold, -⟩
      · cases h.installs _ hput
      · exact hold) hlog
    have hstill := (h.awaiting hinv (Or.inl hrecv)).2
    exact h.carries.toParent_ne_nil (fun hop => (hstill hop).1 hrecv) hqueue
  · obtain ⟨rfl, rfl⟩ : op = .intermediate .sendRequestUserMapping ∧ ok = true := by
      simpa [eq_comm] using hlog
    obtain ⟨m, -, hqueue⟩ := h.carries.reports .requestUserMapping
    simp [hqueue]

/-- The end of a program is still to come where something in front of it is. -/
theorem InOrder.behind (hinv : InOrder s w) (st : Stage) {x : Op} {back : List Op}
    (hx : x ∈ (w.party st.owner).ops) (hstage : x.stage = some st)
    (hback : back <:+ program s st) (hnot : x ∉ back) : back <:+ (w.party st.owner).ops := by
  rcases hinv.working st.owner with ⟨st', howner, done, hsplit, -⟩ | hidle
  · have hmem : x ∈ program s st' := hsplit ▸ List.mem_append_right _ hx
    obtain rfl : st' = st := Option.some.inj ((stage_of_mem_program hmem).symm.trans hstage)
    rcases List.suffix_or_suffix_of_suffix ⟨done, hsplit.symm⟩ hback with hshort | hlong
    · exact absurd (hshort.subset hx) hnot
    · exact hlong
  · cases hstage.symm.trans (hidle x hx)

/-- The fork of init comes behind the id mapping, -/
theorem InOrder.fork_behind (hinv : InOrder s w)
    (hexpect : .intermediate .expectUserMappingDone ∈ (w.party .intermediate).ops) :
    .intermediate .fork ∈ (w.party .intermediate).ops := by
  have hback : ([.fork, .sendInitPid, .exit].map Op.intermediate) <:+ program s .intermediate :=
    List.IsSuffix.map _ ⟨_, rfl⟩
  exact (hinv.behind .intermediate hexpect rfl hback (by simp)).subset (by simp)

/-- and the fork of the intermediate behind the socket pair. -/
theorem InOrder.fork_behind_pair (hinv : InOrder s w)
    (hpair : .prepare .pair ∈ (w.party .parent).ops) :
    .prepare .fork ∈ (w.party .parent).ops := by
  have hback : ([.fork, .dropChild, .recv].map Op.prepare) <:+ program s .prepare :=
    List.IsSuffix.map _ ⟨_ ++ [.setChildSubreaper, .blockForwardable, .pair],
      List.append_assoc _ _ _⟩
  exact (hinv.behind .prepare hpair rfl hback (by simp)).subset (by simp)

/-- While the intermediate waits for its mapping there is no init. -/
theorem Whole.unforked_init (hwhole : Whole s w) {x : Op}
    (hexpect : .intermediate .expectUserMappingDone ∈ (w.party .intermediate).ops)
    (hx : x ∈ (w.party .init).ops) (hstage : x.stage = some .init) : False :=
  (hwhole.stepwise.unborn (hwhole.inOrder.fork_behind hexpect)).absent x hx hstage

theorem Talking.mapped_act (hw : Talking s w) (hwhole : Whole s w)
    (h : Attempt s w w' who op rest ok put)
    (hlog : ⟨.mapping .sendUserMappingDone, true⟩ ∈ w'.log)
    (hexpect : .intermediate .expectUserMappingDone ∈ (w'.party .intermediate).ops) :
    w'.toChild ≠ [] := by
  rw [h.log] at hlog
  rcases List.mem_append.mp hlog with hbefore | hnow
  · rcases @Moves.earlier _ _ _ _ _ _ _ _ .intermediate h.toMoves hwhole.inOrder _ hexpect rfl with
      hput | ⟨-, hold, hagain⟩
    · -- only the first program forks the intermediate
      have hop : op = .prepare .fork := by
        cases h.installs _ hput
        rfl
      subst hop
      obtain ⟨rfl, -⟩ := hwhole.inOrder.progress h.ops rfl
      have hmem : .prepare .fork ∈ (w.party .parent).ops :=
        (show (w.party .parent).ops = _ from h.ops) ▸ List.mem_cons_self
      have hnone := (hwhole.stepwise.unmapped _ hmem).1.untouched
      have hsome : ⟨.mapping .sendUserMappingDone, true⟩ ∈ w.attempted .mapping :=
        List.mem_filter.mpr ⟨hbefore, by simp [Op.stage]⟩
      rw [hnone] at hsome
      cases hsome
    · refine h.carries.toChild_ne_nil (fun want hop => ?_) (hw.mapped hbefore hold)
      cases hop with
      | userMappingDone =>
          exact absurd (hagain rfl)
            (hwhole.inOrder.not_again h.ops rfl (count_expectUserMappingDone s))
      | cgroupApplied =>
          obtain ⟨rfl, -⟩ := hwhole.inOrder.progress h.ops rfl
          exact (hwhole.unforked_init hold (h.ops ▸ List.mem_cons_self) rfl).elim
  · obtain ⟨rfl, rfl⟩ : op = .mapping .sendUserMappingDone ∧ ok = true := by
      simpa [eq_comm] using hnow
    exact h.carries.orders .userMappingDone

theorem Talking.applied_act (hw : Talking s w) (hwhole : Whole s w)
    (hlife : (w.party who).life = .running) (h : Attempt s w w' who op rest ok put)
    (hlog : ⟨.settle (.sendCgroupApplied s.initPid), true⟩ ∈ w'.log)
    (hexpect : .init .expectCgroupApplied ∈ (w'.party .init).ops) : w'.toChild ≠ [] := by
  rw [h.log] at hlog
  rcases List.mem_append.mp hlog with hbefore | hnow
  · -- the runtime has reaped the intermediate before it gave its permission
    have hexited : who ≠ .intermediate := by
      rintro rfl
      have hfirst : Precedes w.log ⟨.settle .waitIntermediate, true⟩
          fun e => e.op = .settle (.sendCgroupApplied s.initPid) := by
        have hfront : placement s.plan s.initPid <+: settleProgram s.plan s.initPid :=
          List.prefix_append _ _
        apply hwhole.inOrder.across (hfront.map Op.settle : _ <+: program s .settle) rfl
        · rw [List.mem_map_of_injective fun _ _ => Op.settle.inj]
          exact sendCgroupApplied_not_mem_placement _ _ _
        · simp [placement]
      rw [hwhole.cleaning.waited (hfirst.mem hbefore rfl)] at hlife
      cases hlife
    rcases @Moves.earlier _ _ _ _ _ _ _ _ .init h.toMoves hwhole.inOrder _ hexpect rfl with
      hput | ⟨-, hold, hagain⟩
    · have hop : op = .intermediate .fork := by
        cases h.installs _ hput
        rfl
      subst hop
      exact absurd (hwhole.inOrder.progress h.ops rfl).1.symm hexited
    · refine h.carries.toChild_ne_nil (fun want hop => ?_) (hw.applied hbefore hold)
      cases hop with
      | userMappingDone => exact absurd (hwhole.inOrder.progress h.ops rfl).1.symm hexited
      | cgroupApplied =>
          exact absurd (hagain rfl)
            (hwhole.inOrder.not_again h.ops rfl (count_expectCgroupApplied s))
  · obtain ⟨rfl, rfl⟩ : op = .settle (.sendCgroupApplied s.initPid) ∧ ok = true := by
      simpa [eq_comm] using hnow
    exact h.carries.orders (.cgroupApplied _)

/-- The intermediate does nothing behind its exit. -/
theorem InOrder.exit_last (hinv : InOrder s w)
    (hops : (w.party who).ops = .intermediate .exit :: rest) : rest = [] := by
  have hcount : (program s .intermediate).count (.intermediate .exit) ≤ 1 := by
    have hfront : .exit ∉ .dropParent :: joinExisting s.plan ++ unshareAll s.plan ++
        mapUser s.plan := by
      simp [joinExisting, unshareAll, mapUser]
    rw [program, List.count_map_of_injective _ _ fun _ _ => Op.intermediate.inj, stageOne,
      List.count_append, List.count_eq_zero_of_not_mem hfront]
    decide
  exact hinv.nothing_behind hops rfl (stageOne_getLast s.plan) hcount

/-- Where init is not heard of after a step, it was not before, or has just been forked. -/
theorem Attempt.unheard (h : Attempt s w w' who op rest ok put) (hinv : InOrder s w)
    (hw' : w'.Unheard) : op = .intermediate .fork ∨ w.Unheard := by
  obtain ⟨hawaiting, hexpect, hnone⟩ := hw'
  rcases @Moves.earlier _ _ _ _ _ _ _ _ .init h.toMoves hinv _ hexpect rfl with
    hput | ⟨-, hold, -⟩
  · left
    cases h.installs _ hput
    rfl
  · right
    obtain ⟨hawaiting', hreceives⟩ := h.awaiting hinv hawaiting
    refine ⟨hawaiting', hold, ?_⟩
    intro m hm
    cases h.carries with
    | still hparent => exact hnone m (hparent ▸ hm)
    | reported hsends hok hparent => exact hnone m (hparent ▸ List.mem_append_left _ hm)
    | ordered hsends hok hparent => exact hnone m (hparent ▸ hm)
    | obeyed hop hparent => exact hnone m (hparent ▸ hm)
    | received hop =>
        rw [(hreceives hop).2] at hm
        rcases List.mem_cons.mp hm with rfl | hm
        · rfl
        · exact hnone m hm

/-- Nobody else takes the report out of the intermediate's hands. -/
theorem Attempt.intermediate_same (h : Attempt s w w' who op rest ok put) (hwhole : Whole s w)
    (hexpect : .init .expectCgroupApplied ∈ (w.party .init).ops) (hwho : who ≠ .intermediate) :
    w'.party .intermediate = w.party .intermediate := by
  have hpopped : (w.setOps who rest).party .intermediate = w.party .intermediate :=
    setOps_party_other w who _ rest hwho.symm
  cases ok with
  | false =>
      obtain ⟨error, next, hfails, rfl⟩ := h.failed rfl
      exact hfails.party_other hwhole.inOrder h.ops hwho.symm
  | true =>
      obtain ⟨next, hdone, rfl⟩ := h.done rfl
      rw [record_party]
      cases htouch : touches .intermediate op with
      | false => rw [(perform_done hdone).untouched htouch, hpopped]
      | true =>
          rcases touches_intermediate htouch with rfl | rfl | rfl | rfl
          · obtain ⟨rfl, -⟩ := hwhole.inOrder.progress h.ops rfl
            have hmem : .prepare .fork ∈ (w.party .parent).ops :=
              (show (w.party .parent).ops = _ from h.ops) ▸ List.mem_cons_self
            exact absurd rfl ((hwhole.stepwise.unforked hmem).2.absent _ hexpect)
          · exact absurd (hwhole.inOrder.progress h.ops rfl).1.symm hwho
          · exact absurd (hwhole.inOrder.progress h.ops rfl).1.symm hwho
          · cases hdone
            rw [World.leave, update_party, if_neg hwho.symm, hpopped]

/-- A failed step of the intermediate leaves it with its report to make. -/
theorem Attempt.fails_underway {op : IntermediateOp} {rest : List Op}
    (h : Attempt s w w' .intermediate (.intermediate op) rest false put)
    (hlife : (w.party .intermediate).life = .running) : w'.Underway := by
  obtain ⟨error, next, hfails, rfl⟩ := h.failed rfl
  refine ⟨?_, Or.inr ⟨error.text, ?_⟩⟩
  · rw [hfails.life, hlife]
  · exact setOps_ops_self _ _ _

/-- A report that is sent is there to be read. -/
theorem Attempt.not_sent (h : Attempt s w w' who op rest true put) (hw' : w'.Unheard)
    (hreports : ∀ m, SendsParent s op m → reports m = true) (hsends : ∃ m, SendsParent s op m) :
    False := by
  obtain ⟨m, hm⟩ := hsends
  obtain ⟨m', hsent, hqueue⟩ := h.carries.reports hm
  have hmem := hw'.2.2 m' (hqueue ▸ List.mem_append_right _ (List.mem_singleton.mpr rfl))
  rw [hreports m' hsent] at hmem
  cases hmem

theorem Attempt.step_underway {op : Op}
    (h : Attempt s w w' .intermediate op rest ok put) (hwhole : Whole s w)
    (hlife : (w.party .intermediate).life = .running) (hw' : w'.Unheard)
    (hsend : .intermediate .sendInitPid ∈ op :: rest) : w'.Underway := by
  have hstage : op.stage = some .intermediate := by
    rcases List.mem_cons.mp hsend with rfl | hrest
    · rfl
    · exact (hwhole.inOrder.rest_stage h.ops _ hrest).symm
  obtain ⟨x, rfl⟩ : ∃ x, op = .intermediate x := by
    cases op <;> cases hstage
    exact ⟨_, rfl⟩
  cases ok with
  | false => exact h.fails_underway hlife
  | true =>
      have hrest : .intermediate .sendInitPid ∈ rest := by
        rcases List.mem_cons.mp hsend with heq | hrest
        · cases heq
          refine (h.not_sent hw' ?_ ⟨_, .initPid⟩).elim
          intro m hm
          cases hm
          rfl
        · exact hrest
      obtain ⟨next, hdone, rfl⟩ := h.done rfl
      have hops : ((w.setOps .intermediate rest).party .intermediate).ops = rest :=
        setOps_ops_self _ _ _
      have hpopped : (next.party .intermediate).life = .running ∧
          (next.party .intermediate).ops = rest := by
        cases htouch : touches .intermediate (.intermediate x) with
        | false =>
            rw [(perform_done hdone).untouched htouch, setOps_life]
            exact ⟨hlife, hops⟩
        | true =>
            rcases touches_intermediate htouch with hop | hop | hop | hop <;> cases hop
            · cases hdone
              simp [hlife]
            · have hnil : rest = [] := hwhole.inOrder.exit_last h.ops
              rw [hnil] at hrest
              cases hrest
      exact ⟨hpopped.1, Or.inl (hpopped.2.symm ▸ hrest)⟩

end awaiting

/-! ## The condition -/

def sendsFailed : Op → Bool
  | .failing (.sendFailed _) => true
  | _ => false

/-- While init is not heard of, the intermediate is not killed and its report of
a failure does not itself fail. -/
def Reporting (w : World) : Event → Prop
  | .die .intermediate => ¬w.Unheard
  | .act .intermediate (some _) =>
      w.Unheard → (w.party .intermediate).ops.head?.any sendsFailed = false
  | _ => True

section heard
variable {s : Setting} {w w' : World} {who : Who} {op : Op} {rest : List Op} {ok : Bool}
  {put : Option Stage} {fault : Option Error}

/-- The runtime's end is open, so a report goes through. -/
theorem Attempt.sendFailed_ok {reason : String}
    (h : Attempt s w w' .intermediate (.failing (.sendFailed reason)) rest false put)
    (hact : act s w .intermediate none = some w') (hopen : w.parentOpen = true) : False := by
  have hpopped : (w.setOps .intermediate rest).parentOpen = true := by
    simpa [World.parentOpen] using hopen
  simp only [act, h.ops, perform, performFailing, sendToParent, if_pos hpopped,
    Option.some.injEq] at hact
  have hlog := congrArg World.log hact
  rw [h.log, record_log] at hlog
  simp at hlog

theorem Talking.parent_open (hw : Talking s w) (hwhole : Whole s w) (hunheard : w.Unheard) :
    w.parentOpen = true := by
  rcases hw.channel hunheard.1 with hpair | hkeeps
  · have hfork := hwhole.inOrder.fork_behind_pair hpair
    exact absurd rfl ((hwhole.stepwise.unforked hfork).2.absent _ hunheard.2.1)
  · simp [World.parentOpen, hkeeps]

theorem Talking.heard_act (hw : Talking s w) (hwhole : Whole s w)
    (hlife : (w.party who).life = .running) (hact : act s w who fault = some w')
    (h : Attempt s w w' who op rest ok put) (hok : Reporting w (.act who fault))
    (hw' : w'.Unheard) : w'.Underway := by
  rcases h.unheard hwhole.inOrder hw' with rfl | hunheard
  · obtain ⟨rfl, hprogress⟩ := hwhole.inOrder.progress h.ops rfl
    apply h.step_underway hwhole hlife hw'
    have hback : ([.sendInitPid, .exit].map Op.intermediate) <:+ program s .intermediate :=
      List.IsSuffix.map _ ⟨_ ++ [.fork], List.append_assoc _ _ _⟩
    exact List.mem_cons_of_mem _ ((hprogress.suffix hback (by simp)).subset (by simp))
  · have hunderway := hw.heard hunheard
    by_cases hwho : who = .intermediate
    · subst hwho
      rcases hunderway.2 with hsend | ⟨reason, hops⟩
      · exact h.step_underway hwhole hlife hw' (h.ops ▸ hsend)
      · obtain ⟨rfl, rfl⟩ : op = .failing (.sendFailed reason) ∧ rest = [.failing .exit] := by
          simpa [hops, eq_comm] using h.ops
        cases ok with
        | true =>
            refine (h.not_sent hw' ?_ ⟨_, .failed reason⟩).elim
            intro m hm
            cases hm
            rfl
        | false =>
            cases fault with
            | none => exact (h.sendFailed_ok hact (hw.parent_open hwhole hunheard)).elim
            | some error =>
                have hquiet := hok hunheard
                rw [hops] at hquiet
                cases hquiet
    · have hsame := h.intermediate_same hwhole hunheard.2.1 hwho
      unfold World.Underway at hunderway ⊢
      rwa [hsame]

theorem Talking.act (hw : Talking s w) (hwhole : Whole s w)
    (hlife : (w.party who).life = .running) (hact : act s w who fault = some w')
    (hok : Reporting w (.act who fault)) : Talking s w' := by
  obtain ⟨op, rest, ok, put, h⟩ := act_attempt hwhole.inOrder hact
  constructor
  case channel => exact hw.channel_act hwhole h
  case request => exact hw.request_act hwhole.inOrder h
  case mapped => exact hw.mapped_act hwhole h
  case applied => exact hw.applied_act hwhole hlife h
  case heard => exact hw.heard_act hwhole hlife hact h hok

/-- What happens outside the parties' programs leaves the talk as it is. -/
theorem Talking.keep (hw : Talking s w)
    (hlog : ∀ op ok, op ≠ .readerOpens → ⟨op, ok⟩ ∈ w'.log → ⟨op, ok⟩ ∈ w.log)
    (htoParent : w'.toParent = w.toParent) (htoChild : w'.toChild = w.toChild)
    (hparent : (w'.party .parent).ops = (w.party .parent).ops ∧
      (w'.party .parent).keepsParent = (w.party .parent).keepsParent)
    (hops : ∀ other, ∀ x ∈ (w'.party other).ops, x ∈ (w.party other).ops)
    (hheard : w'.Unheard → w.Unheard → w.Underway → w'.Underway) : Talking s w' := by
  constructor
  case channel =>
    intro hawaiting
    rw [hparent.1, hparent.2]
    exact hw.channel (by simpa only [World.Awaiting, hparent.1] using hawaiting)
  case request =>
    intro hrecv hrequest
    rw [htoParent]
    exact hw.request (hops _ _ hrecv) (hlog _ _ nofun hrequest)
  case mapped =>
    intro hmapped hexpect
    rw [htoChild]
    exact hw.mapped (hlog _ _ nofun hmapped) (hops _ _ hexpect)
  case applied =>
    intro happlied hexpect
    rw [htoChild]
    exact hw.applied (hlog _ _ nofun happlied) (hops _ _ hexpect)
  case heard =>
    intro hunheard
    have hold : w.Unheard := ⟨by simpa only [World.Awaiting, hparent.1] using hunheard.1,
      hops _ _ hunheard.2.1, htoParent ▸ hunheard.2.2⟩
    exact hheard hunheard hold (hw.heard hold)

theorem Talking.step {event : Event} (hw : Talking s w) (hwhole : Whole s w)
    (hok : Reporting w event) (hstep : Protocol.step s w event = some w') : Talking s w' := by
  cases event <;> simp only [Protocol.step, Option.ite_none_right_eq_some] at hstep
  case act who fault => exact hw.act hwhole hstep.1 hstep.2 hok
  case die who =>
    obtain rfl := Option.some.inj hstep.2
    have hwho : who ≠ .parent := by
      rintro rfl
      rw [hwhole.cleaning.alive] at hstep
      cases hstep.1.2
    have hother : ∀ other, other ≠ who → (w.leave who).party other = w.party other :=
      fun other hother => leave_party_other hother
    refine hw.keep (fun _ _ _ h => h) rfl rfl ?_ ?_ ?_
    · rw [hother _ hwho.symm]
      exact ⟨rfl, rfl⟩
    · intro other x hx
      rcases leave_ops w who other with hsame | hnil
      · exact hsame ▸ hx
      · rw [hnil] at hx
        cases hx
    · intro hunheard hold hunderway
      have hne : who ≠ .intermediate := by
        rintro rfl
        exact hok hold
      unfold World.Underway at hunderway ⊢
      rwa [hother _ hne.symm]
  case kill who =>
    obtain rfl := Option.some.inj hstep.2
    have hops : ∀ other, ((w.update who fun p => { p with killed := true }).party other).ops =
        (w.party other).ops := fun other => update_ops w who other _ fun _ => rfl
    have hsame : ∀ other, ((w.update who fun p => { p with killed := true }).party other).life =
        (w.party other).life := by
      intro other
      rw [update_party]
      split <;> simp_all
    refine hw.keep (fun _ _ _ h => h) rfl rfl ⟨hops _, ?_⟩ (fun other x hx => hops other ▸ hx) ?_
    · rw [update_party_other _ _ _ _ hstep.1.1.symm]
    · intro hunheard hold hunderway
      unfold World.Underway at hunderway ⊢
      rwa [hops, hsame]
  case reader =>
    obtain rfl := Option.some.inj hstep
    refine hw.keep ?_ rfl rfl ⟨rfl, rfl⟩ (fun _ _ h => h) fun _ _ h => h
    intro op ok hop hmem
    rcases List.mem_append.mp hmem with hmem | hmem
    · exact hmem
    · exact absurd (congrArg Entry.op (List.mem_singleton.mp hmem)) hop

end heard

/-! ## No wedge -/

section wedge
variable {s : Setting} {w : World} {who : Who}

/-- A child inside a receive is at one of two steps. -/
theorem BlockedInRecv.child (h : BlockedInRecv s w who) (hinv : InOrder s w)
    (hwho : who ≠ .parent) : who = .intermediate ∧
      (∃ rest, (w.party .intermediate).ops = .intermediate .expectUserMappingDone :: rest) ∨
    who = .init ∧ ∃ rest, (w.party .init).ops = .init .expectCgroupApplied :: rest := by
  obtain ⟨op, rest, hops, hreads, -⟩ := h.reading
  rcases hreads with hop | ⟨want, hop⟩
  · obtain ⟨st, hst, howner⟩ := receives_stage hop
    exact absurd ((hinv.progress hops hst).1.symm.trans howner) hwho
  · cases hop with
    | userMappingDone =>
        obtain ⟨rfl, -⟩ := hinv.progress hops rfl
        exact Or.inl ⟨rfl, rest, hops⟩
    | cgroupApplied =>
        obtain ⟨rfl, -⟩ := hinv.progress hops rfl
        exact Or.inr ⟨rfl, rest, hops⟩

/-- A runtime inside a receive: its queue is empty, and a child still runs that
has a copy of the children's end. -/
theorem BlockedInRecv.parent (h : BlockedInRecv s w .parent) (hwhole : Whole s w) :
    ∃ op rest, (w.party .parent).ops = op :: rest ∧ op.Receives ∧
      ((w.party .intermediate).life = .running ∨ (w.party .init).life = .running) := by
  obtain ⟨op, rest, hops, hreads, hblocked⟩ := h.reading
  have hop : op.Receives := by
    rcases hreads with hop | ⟨want, hop⟩
    · exact hop
    · cases hop <;> cases (hwhole.inOrder.progress hops rfl).1
  refine ⟨op, rest, hops, hop, ?_⟩
  have hopen : (w.setOps .parent rest).childOpen = true := by
    rcases blocked_parent hblocked (Or.inl (receives_stage hop)) with
      ⟨-, -, hopen⟩ | ⟨hwait, -⟩ | ⟨hwait, -⟩
    · exact hopen
    · rcases hop with rfl | rfl | rfl <;> cases hwait
    · rcases hop with rfl | rfl | rfl <;> cases hwait
  have hdropped : (w.party .parent).keepsChild = false := by
    rw [Bool.eq_false_iff]
    intro hkeeps
    rcases hwhole.ending.dropped hkeeps with hahead | herror
    · have hstage := hwhole.inOrder.receives_only hops hop hahead
      rcases hop with rfl | rfl | rfl
      · have hnil : rest = [] := hwhole.inOrder.recv_last hops
        rw [hops, hnil] at hahead
        simp at hahead
      · cases hstage
      · cases hstage
    · obtain ⟨c, hc⟩ := hwhole.cleaning.cleanup herror op (hops ▸ List.mem_cons_self)
      rcases hop with rfl | rfl | rfl <;> cases hc
  by_contra hnone
  push Not at hnone
  have hintermediate := hwhole.ending.gone .intermediate hnone.1
  have hinit := hwhole.ending.gone .init hnone.2
  simp [World.childOpen, hdropped, hintermediate, hinit] at hopen

/-- The intermediate has asked for its mapping before it waits for it. -/
theorem InOrder.requested (hinv : InOrder s w) {rest : List Op}
    (hops : (w.party .intermediate).ops = .intermediate .expectUserMappingDone :: rest) :
    ⟨.intermediate .sendRequestUserMapping, true⟩ ∈ w.log := by
  have hprogress := (hinv.progress hops rfl).2
  have huser : contains s.plan.unshareFlags CLONE_NEWUSER = true := by
    obtain ⟨x, hx, heq⟩ := List.mem_map.mp (show _ ∈ (stageOne s.plan).map Op.intermediate from
      hprogress.mem)
    obtain rfl : x = .expectUserMappingDone := by simpa using heq
    simpa [stageOne, joinExisting, unshareAll, mapUser] using hx
  have hfront : .dropParent :: joinExisting s.plan ++ unshareAll s.plan ++
      [.sendRequestUserMapping] <+: stageOne s.plan :=
    ⟨[.expectUserMappingDone, .setresgid, .setresuid, .fork, .sendInitPid, .exit], by
      simp [stageOne, mapUser, huser, ifTrue]⟩
  apply hprogress.before (hfront.map Op.intermediate)
  · rw [List.mem_map_of_injective fun _ _ => Op.intermediate.inj]
    simp [joinExisting, unshareAll]
  · simp

/-- Before the runtime hears of init, the intermediate does not wait in vain. -/
theorem Talking.mapping_comes (hw : Talking s w) (hwhole : Whole s w) {op : Op}
    {rest rest' : List Op} (hops : (w.party .parent).ops = op :: rest)
    (hop : op = .prepare .recv ∨ op = .mapping .recv)
    (hexpect : (w.party .intermediate).ops = .intermediate .expectUserMappingDone :: rest') :
    w.toParent ≠ [] ∨ w.toChild ≠ [] := by
  rcases hop with rfl | rfl
  · left
    exact hw.request (hops ▸ List.mem_cons_self) (hwhole.inOrder.requested hexpect)
  · right
    have hfront : [.checkMappings, .denySetgroups, .writeUidMap, .writeGidMap,
        .sendUserMappingDone] <+: mappingProgram := ⟨[.recv], rfl⟩
    have hsent : ⟨.mapping .sendUserMappingDone, true⟩ ∈ w.log :=
      (hwhole.inOrder.progress hops rfl).2.before (hfront.map Op.mapping) (by decide) _ (by simp)
    exact hw.mapped hsent (hexpect ▸ List.mem_cons_self)

/-- Once the runtime waits for init to get ready, init has its permission. -/
theorem Talking.permission_comes (hw : Talking s w) (hwhole : Whole s w) {rest rest' : List Op}
    (hops : (w.party .parent).ops = .settle .expectInitReady :: rest)
    (hexpect : (w.party .init).ops = .init .expectCgroupApplied :: rest') : w.toChild ≠ [] := by
  have hfront : placement s.plan s.initPid ++ [.sendCgroupApplied s.initPid] <+:
      settleProgram s.plan s.initPid := ⟨_, by rw [settleProgram, List.append_assoc]; rfl⟩
  have hsent : ⟨.settle (.sendCgroupApplied s.initPid), true⟩ ∈ w.log := by
    apply (hwhole.inOrder.progress hops rfl).2.before (hfront.map Op.settle)
    · rw [List.mem_map_of_injective fun _ _ => Op.settle.inj]
      intro hmem
      rcases List.mem_append.mp hmem with hmem | hmem
      · rcases mem_placement hmem with heq | heq | ⟨phase, heq | ⟨index, heq⟩⟩ <;> cases heq
      · simp at hmem
    · simp
  exact hw.applied hsent (hexpect ▸ List.mem_cons_self)

theorem Whole.reaped (hwhole : Whole s w) {rest : List Op}
    (hops : (w.party .parent).ops = .settle .expectInitReady :: rest) :
    (w.party .intermediate).life = .exited := by
  have hfront : [.waitIntermediate] <+: settleProgram s.plan s.initPid := ⟨_, rfl⟩
  have hwaited : ⟨.settle .waitIntermediate, true⟩ ∈ w.log :=
    (hwhole.inOrder.progress hops rfl).2.before (hfront.map Op.settle) (by simp) _ (by simp)
  exact hwhole.cleaning.waited hwaited

theorem Talking.not_wedged (hw : Talking s w) (hwhole : Whole s w) : ¬Wedged s w := by
  intro hwedged
  obtain ⟨op, rest, hops, hop, hrunning⟩ := hwedged.parent.parent hwhole
  -- a child that runs waits itself, so each is at the one receive of its program
  have hintermediate : (w.party .intermediate).life = .running →
      ∃ rest', (w.party .intermediate).ops = .intermediate .expectUserMappingDone :: rest' := by
    intro hlife
    rcases (hwedged.others _ hlife).child hwhole.inOrder nofun with ⟨-, hat⟩ | ⟨hwho, -⟩
    · exact hat
    · cases hwho
  have hinit : (w.party .init).life = .running →
      ∃ rest', (w.party .init).ops = .init .expectCgroupApplied :: rest' := by
    intro hlife
    rcases (hwedged.others _ hlife).child hwhole.inOrder nofun with ⟨hwho, -⟩ | ⟨-, hat⟩
    · cases hwho
    · exact hat
  have hcomes : (op = .prepare .recv ∨ op = .mapping .recv) →
      (w.party .intermediate).life ≠ .running := by
    intro hrecv hlife
    obtain ⟨rest', hexpect⟩ := hintermediate hlife
    rcases hw.mapping_comes hwhole hops hrecv hexpect with hqueue | hqueue
    · exact hqueue hwedged.toParent
    · exact hqueue hwedged.toChild
  have hunheard : (op = .prepare .recv ∨ op = .mapping .recv) →
      (w.party .init).life = .running → (w.party .intermediate).life = .running := by
    intro hrecv hlife
    obtain ⟨rest', hexpect⟩ := hinit hlife
    refine (hw.heard ⟨?_, hexpect ▸ List.mem_cons_self, ?_⟩).1
    · rcases hrecv with rfl | rfl
      · exact Or.inl (hops ▸ List.mem_cons_self)
      · exact Or.inr (hops ▸ List.mem_cons_self)
    · simp [hwedged.toParent]
  rcases hop with hrecv | hrecv | rfl
  · rcases hrunning with hlife | hlife
    · exact hcomes (Or.inl hrecv) hlife
    · exact hcomes (Or.inl hrecv) (hunheard (Or.inl hrecv) hlife)
  · rcases hrunning with hlife | hlife
    · exact hcomes (Or.inr hrecv) hlife
    · exact hcomes (Or.inr hrecv) (hunheard (Or.inr hrecv) hlife)
  · rcases hrunning with hlife | hlife
    · rw [hwhole.reaped hops] at hlife
      cases hlife
    · obtain ⟨rest', hexpect⟩ := hinit hlife
      exact hw.permission_comes hwhole hops hexpect hwedged.toChild

end wedge

/-! ## A container that exists already -/

section existing
variable {s : Setting} {w w' : World}

/-- Where the state is on disk, `create` ends with its first step. -/
structure TurnedAway (w : World) : Prop where
  stateFile : w.stateFile = true
  parent : (w.party .parent).ops = [] ∨
    ∃ rest, (w.party .parent).ops = .prepare .checkState :: rest
  children : ∀ who, who ≠ .parent → (w.party who).life = .unborn

theorem turnedAway_start (s : Setting) (dir : Bool) : TurnedAway (start s dir true) where
  stateFile := rfl
  parent := Or.inr ⟨_, rfl⟩
  children := by
    intro who hwho
    cases who with
    | parent => exact absurd rfl hwho
    | intermediate => rfl
    | init => rfl

theorem TurnedAway.running (h : TurnedAway w) {who : Who} (hlife : (w.party who).life = .running) :
    who = .parent := by
  by_contra hwho
  rw [h.children who hwho] at hlife
  cases hlife

theorem TurnedAway.act {fault : Option Error} (h : TurnedAway w)
    (hact : Protocol.act s w .parent fault = some w') : TurnedAway w' := by
  rcases h.parent with hnil | ⟨rest, hops⟩
  · simp [Protocol.act, hnil] at hact
  · have hfile : (w.setOps .parent rest).stateFile = true := h.stateFile
    simp only [Protocol.act, hops, perform, performPrepare, hfile, if_true] at hact
    have hends : ∀ error v, v.party = (w.setOps .parent rest).party → v.stateFile = true →
        TurnedAway (World.fail v (.prepare .checkState) error) := by
      intro error v hparty hstate
      refine ⟨hstate, Or.inl (setOps_ops_self _ _ _), ?_⟩
      intro who hwho
      rw [fail_life, hparty, setOps_life, h.children who hwho]
    cases fault with
    | none =>
        obtain rfl := Option.some.inj hact
        exact hends _ _ rfl hfile
    | some error => simp [fallible] at hact

theorem TurnedAway.step {event : Event} (h : TurnedAway w)
    (hstep : Protocol.step s w event = some w') : TurnedAway w' := by
  cases event <;> simp only [Protocol.step, Option.ite_none_right_eq_some] at hstep
  case act who fault =>
    obtain rfl := h.running hstep.1
    exact h.act hstep.2
  case die who =>
    obtain rfl := h.running hstep.1.1
    obtain rfl := Option.some.inj hstep.2
    refine ⟨h.stateFile, Or.inl (by rw [World.leave, update_party_self]), ?_⟩
    intro who hwho
    rw [leave_party_other hwho, h.children who hwho]
  case kill who => exact absurd (h.running hstep.1.2) hstep.1.1
  case reader =>
    obtain rfl := Option.some.inj hstep
    exact ⟨h.stateFile, h.parent, h.children⟩

theorem TurnedAway.not_wedged (h : TurnedAway w) : ¬Wedged s w := by
  intro hwedged
  obtain ⟨op, rest, hops, hreads, -⟩ := hwedged.parent.reading
  rcases h.parent with hnil | ⟨rest', hcheck⟩
  · cases hnil.symm.trans hops
  · obtain rfl : .prepare .checkState = op := (List.cons.inj (hcheck.symm.trans hops)).1
    rcases hreads with hop | ⟨want, hop⟩
    · rcases hop with hop | hop | hop <;> cases hop
    · cases hop

end existing

/-! ## Every run -/

instance (w : World) : Decidable w.Awaiting := inferInstanceAs (Decidable (_ ∨ _))

instance (w : World) : Decidable w.Unheard := inferInstanceAs (Decidable (_ ∧ _))

instance (w : World) (event : Event) : Decidable (Reporting w event) := by
  unfold Reporting
  split <;> infer_instance

section run
variable {s : Setting} {w : World} {dir stateFile : Bool} {events : List Event}

/-- Where the intermediate lives until it has reported on the init that it has
forked, no create comes to stand still in its receives. -/
theorem never_wedged
    (hrun : Transition.run (step s) (start s dir stateFile) events = some w)
    (hok : Transition.Along (step s) Reporting (start s dir stateFile) events) : ¬Wedged s w := by
  cases stateFile with
  | true =>
      have haway : TurnedAway w :=
        Transition.run_invariant (fun _ _ _ h hstep => h.step hstep) (turnedAway_start s dir) hrun
      exact haway.not_wedged
  | false =>
      have hboth : Whole s w ∧ Talking s w :=
        @Transition.run_invariant_along _ _ _ (fun w => Whole s w ∧ Talking s w) Reporting
          (fun _ _ _ h hevent hstep => ⟨h.1.step hstep, h.2.step h.1 hevent hstep⟩) _ _ _
          ⟨whole_start s dir, talking_start s dir false⟩ hrun hok
      exact hboth.2.not_wedged hboth.1

end run

/-! ## Killed behind the fork -/

open Placement in
/-- Init has been forked, and the intermediate is killed with its report to make. -/
def forkedRun : List Event :=
  acts .parent 14 ++ acts .intermediate 3 ++ acts .parent 6 ++ acts .intermediate 4 ++
    [.kill .intermediate]

/-- It still makes its report, and then it dies. -/
def reportedRun : List Event := forkedRun ++ [.act .intermediate none, .die .intermediate]

def silentRun : List Event := forkedRun ++ [.die .intermediate]

theorem reportedRun_enabled : (Transition.run (step Placement.userSetting)
    (start Placement.userSetting false false) reportedRun).isSome = true := by rfl

theorem silentRun_enabled : (Transition.run (step Placement.userSetting)
    (start Placement.userSetting false false) silentRun).isSome = true := by rfl

theorem never_wedged_reported : Transition.Along (step Placement.userSetting) Reporting
      (start Placement.userSetting false false) reportedRun ∧
    ¬Wedged Placement.userSetting (Option.get _ reportedRun_enabled) := by
  have halong : Transition.Along (step Placement.userSetting) Reporting
      (start Placement.userSetting false false) reportedRun := by decide
  exact ⟨halong, never_wedged (Option.some_get reportedRun_enabled).symm halong⟩

/-- The runtime waits for a message that nobody is left to send, and init for
the runtime; init's copy of the socket keeps the end of it from being seen. -/
theorem silent_death_wedges :
    ∃ w, Transition.run (step Placement.userSetting) (start Placement.userSetting false false)
      silentRun = some w ∧ Wedged Placement.userSetting w := by
  refine ⟨_, (Option.some_get silentRun_enabled).symm, ?_⟩
  constructor
  case parent => exact ⟨rfl, _, _, rfl, Or.inl (Or.inr (Or.inl rfl)), rfl⟩
  case others =>
    intro who hlife
    cases who with
    | parent => exact ⟨rfl, _, _, rfl, Or.inl (Or.inr (Or.inl rfl)), rfl⟩
    | intermediate => cases hlife
    | init => exact ⟨rfl, _, _, rfl, Or.inr ⟨_, .cgroupApplied⟩, rfl⟩
  case toParent => rfl
  case toChild => rfl

end Mars.Protocol
